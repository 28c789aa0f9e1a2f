import Mathlib.Data.Fintype.BigOperators
import Resid.Shamir.Sharing

/-!
# What shares tell

Fewer parties than there are coefficients learn nothing: whatever shares they hold, each secret
is dealt by as many lists of coefficients as any other:

    ids.length ≤ k → drop ids.length : Dealing secret ids seen k → Scalars (k - ids.length)
      is a bijection                                                        (dealing_bijOn)
    … → (Dealing secret ids seen k).ncard = scN ^ (k - ids.length)            (shares_hide)
-/

namespace Shamir

/-- Lists of `k` scalars. -/
def Scalars (k : Nat) : Set (List Nat) := {l | l.length = k ∧ ∀ c ∈ l, c < scN}

/-- The `k` coefficients after the secret with which the parties hold the shares `seen`. -/
def Dealing (secret : Nat) (ids : List Int) (seen : List Nat) (k : Nat) : Set (List Nat) :=
  {others | others ∈ Scalars k ∧ ids.map (fun i => shEval (secret :: others) i.toNat) = seen}

theorem ncard_scalars (k : Nat) : (Scalars k).ncard = scN ^ k := by
  have hrange : Scalars k =
      Set.range fun v : List.Vector (Fin scN) k => v.toList.map Fin.val := by
    ext l
    constructor
    · rintro ⟨hlen, hlt⟩
      refine ⟨⟨l.attach.map fun c => ⟨c.1, hlt c.1 c.2⟩, by simpa using hlen⟩, ?_⟩
      simp [List.Vector.toList]
    · rintro ⟨v, rfl⟩
      exact ⟨by simp, by simp⟩
  rw [hrange, ← Nat.card_coe_set_eq, Nat.card_range_of_injective, Nat.card_eq_fintype_card,
    card_vector, Fintype.card_fin]
  intro v w h
  exact List.Vector.toList_injective (List.map_injective_iff.2 Fin.val_injective h)

theorem shHorner_lt (c : List Nat) (x : Nat) {i acc : Nat} (h : 0 < i ∨ acc < scN) :
    shHorner c x i acc < scN := by
  induction i generalizing acc with
  | zero => exact h.resolve_left (Nat.lt_irrefl 0)
  | succ i ih => exact ih (.inr (scAdd_lt _ _))

theorem shEval_cons_lt (a : Nat) (as : List Nat) (x : Nat) : shEval (a :: as) x < scN :=
  shHorner_lt _ x (.inl (Nat.succ_pos _))

theorem map_eq_iff_zipWith {α β γ : Type} {f : α → β} {g : α → γ} {h : α → β → γ}
    {as : List α} {bs : List β} (hlen : bs.length = as.length)
    (hiff : ∀ a ∈ as, ∀ b ∈ bs, f a = b ↔ g a = h a b) :
    as.map f = bs ↔ as.map g = List.zipWith h as bs := by
  simp only [List.ext_getElem_iff, List.length_map, List.length_zipWith, hlen, List.getElem_map,
    List.getElem_zipWith, min_self, true_and]
  exact forall_congr' fun i => forall_congr' fun hi => forall_congr' fun _ =>
    hiff _ (List.getElem_mem hi) _ (List.getElem_mem _)

theorem map_val_cast {l : List Nat} (h : ∀ c ∈ l, c < scN) :
    (l.map (Nat.cast : Nat → ZMod scN)).map ZMod.val = l := by
  rw [List.map_map]
  refine (List.map_congr_left fun c hc => ?_).trans (List.map_id l)
  exact ZMod.val_cast_of_lt (h c hc)

theorem map_cast_val (l : List (ZMod scN)) :
    (l.map ZMod.val).map (Nat.cast : Nat → ZMod scN) = l := by
  simp [Function.comp_def]

/-- The values the first coefficients must take at the parties' numbers, `high` the others. -/
def lowValues (secret : Nat) (ids : List Int) (seen high : List Nat) : List (ZMod scN) :=
  List.zipWith (fun i (y : Nat) => ((y : ZMod scN) - secret) / node i -
    node i ^ ids.length * Interpolation.horner (high.map Nat.cast) (node i)) ids seen

section Few

variable {ids : List Int} (hids : ∀ i ∈ ids, Party i) (hnd : ids.Nodup)

include hids

theorem node_ne_zero {i : Int} (hi : i ∈ ids) : node i ≠ 0 := by
  intro h
  have hzero := eq_of_cast (hids i hi).lt scN_prime.pos (h.trans Nat.cast_zero.symm)
  have := (hids i hi).1
  omega

/-- The other coefficients given, the values of the first decide on the shares. -/
theorem shares_eq_iff (secret : Nat) {seen low : List Nat} (hseen : seen ∈ Scalars ids.length)
    (hlow : low.length = ids.length) (high : List Nat) :
    ids.map (fun i => shEval (secret :: (low ++ high)) i.toNat) = seen ↔
      (ids.map node).map (Interpolation.horner (low.map Nat.cast)) =
        lowValues secret ids seen high := by
  rw [List.map_map, lowValues]
  refine map_eq_iff_zipWith hseen.1 fun i hi y hy => ?_
  have hne := node_ne_zero hids hi
  have hcast : (shEval (secret :: (low ++ high)) i.toNat : ZMod scN) =
      (Interpolation.horner (low.map Nat.cast) (node i) +
        node i ^ ids.length * Interpolation.horner (high.map Nat.cast) (node i)) * node i +
          secret := by
    have hlen : (low.map (Nat.cast : Nat → ZMod scN)).length = ids.length := by
      rw [List.length_map, hlow]
    rw [shEval_cast, List.map_cons, List.map_append, ← hlen, ← Interpolation.horner_append]
    rfl
  constructor
  · intro h
    rw [h] at hcast
    rw [Function.comp, hcast]
    field_simp
    ring
  · intro h
    refine eq_of_cast (shEval_cons_lt _ _ _) (hseen.2 y hy) ?_
    rw [hcast, show Interpolation.horner (low.map Nat.cast) (node i) = _ from h]
    field_simp
    ring

include hnd

/-- Any coefficients from the last on are completed by exactly one list of first ones. -/
theorem dealing_bijOn (secret : Nat) {seen : List Nat} {k : Nat}
    (hseen : seen ∈ Scalars ids.length) (hfew : ids.length ≤ k) :
    Set.BijOn (List.drop ids.length) (Dealing secret ids seen k) (Scalars (k - ids.length)) := by
  have hnodes : (ids.map node).Nodup :=
    List.Nodup.map_on (fun i hi j hj h => node_inj (hids i hi) (hids j hj) h) hnd
  have hunique (high : List Nat) := Interpolation.existsUnique_coeffs hnodes
    (show (lowValues secret ids seen high).length = (ids.map node).length by
      simp [lowValues, hseen.1])
  refine ⟨fun others h => ⟨?_, fun c hc => h.1.2 c (List.mem_of_mem_drop hc)⟩, ?_, ?_⟩
  · rw [List.length_drop, h.1.1]
  · intro others h others' h' hdrop
    obtain ⟨cs, -, hcs⟩ := hunique (others.drop ids.length)
    have hfirst : ∀ l ∈ Dealing secret ids seen k,
        l.drop ids.length = others.drop ids.length → l.take ids.length = cs.map ZMod.val := by
      intro l hl hsame
      have htake : (l.take ids.length).length = ids.length := by
        rw [List.length_take, hl.1.1, Nat.min_eq_left hfew]
      rw [← hcs ((l.take ids.length).map Nat.cast) ⟨by rw [List.length_map, htake,
        List.length_map], (shares_eq_iff hids secret hseen htake _).1 ?_⟩,
        map_val_cast fun c hc => hl.1.2 c (List.mem_of_mem_take hc)]
      rw [← hsame, List.take_append_drop]
      exact hl.2
    rw [← List.take_append_drop ids.length others, ← List.take_append_drop ids.length others',
      hfirst others h rfl, hfirst others' h' hdrop.symm, hdrop]
  · intro high hhigh
    obtain ⟨cs, ⟨hlen, hvalues⟩, -⟩ := hunique high
    have hlow : (cs.map ZMod.val).length = ids.length := by
      rw [List.length_map, hlen, List.length_map]
    refine ⟨cs.map ZMod.val ++ high, ⟨⟨?_, ?_⟩, ?_⟩, List.drop_left' hlow⟩
    · rw [List.length_append, hlow, hhigh.1]
      omega
    · intro c hc
      rcases List.mem_append.1 hc with hc | hc
      · obtain ⟨x, -, rfl⟩ := List.mem_map.1 hc
        exact ZMod.val_lt x
      · exact hhigh.2 c hc
    · refine (shares_eq_iff hids secret hseen hlow high).2 ?_
      rw [map_cast_val, hvalues]

end Few

/-- Fewer parties than coefficients: however many lists of coefficients give them the shares
they hold, it is as many for one secret as for another. -/
theorem shares_hide (secret : Nat) {ids : List Int} (hids : ∀ i ∈ ids, Party i)
    (hnd : ids.Nodup) {seen : List Nat} {k : Nat} (hseen : seen ∈ Scalars ids.length)
    (hfew : ids.length ≤ k) :
    (Dealing secret ids seen k).ncard = scN ^ (k - ids.length) := by
  have hbij := dealing_bijOn hids hnd secret hseen hfew
  rw [← ncard_scalars, ← hbij.image_eq, hbij.injOn.ncard_image]

/-- Party 3 of a secret of two coefficients, who holds the share 22. -/
theorem shares_hide_one : (Dealing 7 [3] [22] 1).ncard = scN ^ 0 := by
  refine shares_hide 7 ?_ (by decide) ⟨rfl, ?_⟩ (Nat.le_refl 1)
  · intro i hi
    rw [List.mem_singleton.1 hi]
    exact ⟨by decide, by decide⟩
  · simp [scN]

end Shamir

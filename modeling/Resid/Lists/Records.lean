import Resid.Lists.Sort

/-!
# Sorting inline records

A list of inline records is reordered by sorting pointers into a copy of its words, and the records
are then gathered in the pointers' order.

    the records gathered are those pointed to                      (recFields_gather)
    recReorder sorts the records stably                            (recReorder_stable)
-/

namespace Lists

open Merging Stable

variable {σ α β : Type}

/-! ## Sorting by what is pointed to -/

theorem StablySorted.map {c : β → β → Int} (g : α → β) {l out : List α}
    (h : StablySorted (fun a b => c (g a) (g b)) l out) :
    StablySorted c (l.map g) (out.map g) := by
  constructor
  · exact List.pairwise_map.2 h.ordered
  · intro b hb
    obtain ⟨a, ha, rfl⟩ := List.mem_map.1 hb
    rw [List.filter_map, List.filter_map]
    exact congrArg (List.map g) (h.stable a ha)

theorem TotalPreorder.comap {c : β → β → Int} {g : α → β} {l : List α}
    (h : TotalPreorder c (l.map g)) : TotalPreorder (fun a b => c (g a) (g b)) l := by
  constructor
  · exact fun a ha b hb => h.total _ (List.mem_map_of_mem ha) _ (List.mem_map_of_mem hb)
  · exact fun a ha b hb d hd => h.trans _ (List.mem_map_of_mem ha) _ (List.mem_map_of_mem hb) _
      (List.mem_map_of_mem hd)

/-! ## Records and their fields -/

/-- The fields of each record of a list. -/
def records (l : RtList) : List (List Word) :=
  (recPtrs (recWords l.ty) (l.words.length / recWords l.ty)).map
    (recFields l.words (recWords l.ty))

theorem length_recUnshare (w left i : Nat) (d : List Word) :
    (recUnshare w left i d).length = d.length := by
  induction left generalizing i d with
  | zero => rfl
  | succ left ih => rw [recUnshare, ih, List.length_set]

/-- Only headers are rewritten. -/
theorem getElem?_recUnshare (w left i : Nat) (d : List Word) {j : Nat} (hj : j % w ≠ 0) :
    (recUnshare w left i d)[j]? = d[j]? := by
  induction left generalizing i d with
  | zero => rfl
  | succ left ih =>
    have hne : i * w ≠ j := by
      rintro rfl
      exact hj (Nat.mul_mod_left i w)
    rw [recUnshare, ih, List.getElem?_set_ne hne]

variable {l : RtList} {w : Nat} {ps : List Nat}

theorem recFields_snapshot {i : Nat} (hw : w = recWords l.ty) :
    recFields (recSnapshot l) w (i * w + 1) = recFields l.words w (i * w + 1) := by
  apply List.ext_getElem?
  intro k
  unfold recFields
  rw [List.getElem?_take, List.getElem?_take, List.getElem?_drop, List.getElem?_drop]
  by_cases hk : k < w - 1
  · rw [if_pos hk, if_pos hk]
    refine getElem?_recUnshare _ _ _ _ ?_
    rw [← hw, show i * w + 1 + k = k + 1 + i * w by omega, Nat.add_mul_mod_self_right,
      Nat.mod_eq_of_lt (by omega)]
    omega
  · rw [if_neg hk, if_neg hk]

theorem recGather_length {d : List Word} (hw : 0 < w)
    (h : ∀ p ∈ ps, (recFields d w p).length = w - 1) :
    (recGather d w ps).length = ps.length * w := by
  induction ps with
  | nil => rw [recGather, List.flatMap_nil, List.length_nil, List.length_nil, Nat.zero_mul]
  | cons p ps ih =>
    have hrest := ih fun q hq => h q (List.mem_cons_of_mem p hq)
    unfold recGather at hrest ⊢
    rw [List.flatMap_cons, List.length_append, hrest, List.length_cons, h p List.mem_cons_self,
      List.length_cons, Nat.succ_mul]
    omega

/-- The records gathered are those pointed to. -/
theorem recFields_gather {d : List Word} (hw : 0 < w)
    (h : ∀ p ∈ ps, (recFields d w p).length = w - 1) :
    (recPtrs w ps.length).map (recFields (recGather d w ps) w) = ps.map (recFields d w) := by
  induction ps with
  | nil => rfl
  | cons p ps ih =>
    have hfirst := h p List.mem_cons_self
    have hrest := ih fun q hq => h q (List.mem_cons_of_mem p hq)
    have hsplit : recGather d w (p :: ps) = (recHdr w :: recFields d w p) ++ recGather d w ps :=
      List.flatMap_cons ..
    have hptrs : recPtrs w (p :: ps).length = 1 :: (recPtrs w ps.length).map (· + w) := by
      unfold recPtrs
      rw [List.length_cons, List.range_succ_eq_map, List.map_cons, List.map_map, List.map_map,
        Nat.zero_mul]
      refine congrArg _ (List.map_congr_left ?_)
      intro i _
      show (i + 1) * w + 1 = i * w + 1 + w
      rw [Nat.succ_mul]
      omega
    rw [hptrs, List.map_cons, List.map_cons, List.map_map, ← hrest, hsplit]
    refine congrArg₂ List.cons ?_ (List.map_congr_left ?_)
    · show (((recHdr w :: recFields d w p) ++ recGather d w ps).drop 1).take (w - 1) = _
      rw [List.cons_append, List.drop_succ_cons, List.drop_zero, List.take_left' hfirst]
    · intro q _
      show ((_ ++ recGather d w ps).drop (q + w)).take (w - 1) = _
      rw [Nat.add_comm, ← List.drop_drop, List.drop_left']
      · rfl
      · rw [List.length_cons, hfirst]
        omega

/-- What a record's pointer reads from the copy is the record. -/
theorem map_recFields_snapshot (l : RtList) :
    (recPtrs (recWords l.ty) (l.words.length / recWords l.ty)).map
      (recFields (recSnapshot l) (recWords l.ty)) = records l := by
  refine List.map_congr_left ?_
  intro p hp
  obtain ⟨i, -, rfl⟩ := List.mem_map.1 hp
  exact recFields_snapshot rfl

theorem length_recPtrs (w n : Nat) : (recPtrs w n).length = n := by
  rw [recPtrs, List.length_map, List.length_range]

theorem length_recFields (hw : 0 < recWords l.ty) {p : Nat}
    (hp : p ∈ recPtrs (recWords l.ty) (l.words.length / recWords l.ty)) :
    (recFields (recSnapshot l) (recWords l.ty) p).length = recWords l.ty - 1 := by
  obtain ⟨i, hi, rfl⟩ := List.mem_map.1 hp
  have hroom : (i + 1) * recWords l.ty ≤ l.words.length :=
    (Nat.mul_le_mul_right _ (List.mem_range.1 hi)).trans (Nat.div_mul_le_self _ _)
  rw [Nat.succ_mul] at hroom
  rw [recFields, List.length_take, List.length_drop, recSnapshot, length_recUnshare]
  omega

/-- The records gathered in an order of the pointers. -/
theorem records_gather (hw : 0 < recWords l.ty)
    (hps : ps.Perm (recPtrs (recWords l.ty) (l.words.length / recWords l.ty))) :
    records ⟨l.ty, recGather (recSnapshot l) (recWords l.ty) ps⟩ =
      ps.map (recFields (recSnapshot l) (recWords l.ty)) := by
  have hlen : ∀ p ∈ ps, _ := fun p hp => length_recFields hw (hps.subset hp)
  have hcount : (recGather (recSnapshot l) (recWords l.ty) ps).length / recWords l.ty =
      ps.length := by
    rw [recGather_length hw hlen, Nat.mul_div_cancel _ hw]
  rw [records, hcount, recFields_gather hw hlen]

/-! ## Reordering -/

/-- A comparator of records as an integer. -/
def recAnswer (f : σ → List Word → List Word → BitVec 32 × σ) (s : σ) (a b : List Word) : Int × σ :=
  ((f s a b).1.toInt, (f s a b).2)

/-- The pointers in the order in which the records are gathered. -/
def sortedPtrs (s : σ) (l : RtList) (f : σ → List Word → List Word → BitVec 32 × σ)
    (fresh : List Nat) : List Nat :=
  let w := recWords l.ty
  let n := l.words.length / w
  let r := mergeSort (recCmp f (recSnapshot l) w) s ⟨recPtrs w n, fresh⟩ .items n 1
  (r.1.buf r.2.1).take n

theorem recReorder_stable (s : σ) (l : RtList) (f : σ → List Word → List Word → BitVec 32 × σ)
    (fresh : List Nat) (hw : 0 < recWords l.ty)
    (hfresh : fresh.length = l.words.length / recWords l.ty) :
    (recReorder s l (some f) fresh).1.ty = l.ty ∧
      (records (recReorder s l (some f) fresh).1).Perm (records l) ∧
      ∀ c, Answers (recAnswer f) c (records l) → TotalPreorder c (records l) →
        StablySorted c (records l) (records (recReorder s l (some f) fresh).1) := by
  by_cases hn : l.words.length / recWords l.ty = 0
  · have hsame : recReorder s l (some f) fresh = (l, s) := if_pos hn
    have hnil : records l = [] := by rw [records, hn, recPtrs, List.range_zero, List.map_nil, List.map_nil]
    rw [hsame, hnil]
    exact ⟨rfl, List.Perm.refl _, fun c _ _ => ⟨List.Pairwise.nil, fun a ha => absurd ha List.not_mem_nil⟩⟩
  · have hlen := length_recPtrs (recWords l.ty) (l.words.length / recWords l.ty)
    have hsort := mergeSort_stable (recCmp f (recSnapshot l) (recWords l.ty)) s
      (recPtrs (recWords l.ty) (l.words.length / recWords l.ty)) fresh (hfresh.trans hlen.symm)
    rw [hlen] at hsort
    obtain ⟨hperm, hstable⟩ := hsort
    have hout : (recReorder s l (some f) fresh).1 =
        ⟨l.ty, recGather (recSnapshot l) (recWords l.ty) (sortedPtrs s l f fresh)⟩ := by
      rw [recReorder, if_neg hn]
      rfl
    have htake : sortedPtrs s l f fresh = _ :=
      List.take_of_length_le (Nat.le_of_eq (hperm.length_eq.trans hlen))
    rw [← htake] at hperm hstable
    rw [hout, records_gather hw hperm, ← map_recFields_snapshot]
    refine ⟨rfl, hperm.map _, ?_⟩
    intro c hans htotal
    refine StablySorted.map _ (hstable _ ?_ htotal.comap)
    intro s p hp q hq
    exact hans s _ (List.mem_map_of_mem hp) _ (List.mem_map_of_mem hq)

/-! ## Both kinds of list -/

/-- Sorting a list, or its inline records, gives a permutation whatever the comparator answers;
when it answers by a total preorder, the result is in order and equal elements stand as before. -/
theorem sort_stable (M : Slots σ) (s : σ) (l : RtList) (k : SortKind)
    (f : σ → List Word → List Word → BitVec 32 × σ) (fresh : List Word) (freshPtrs : List Nat)
    (hfresh : fresh.length = l.words.length)
    (hptrs : freshPtrs.length = l.words.length / recWords l.ty) :
    ((sortedCopy M s l k fresh).1.ty = l.ty ∧ (sortedCopy M s l k fresh).1.words.Perm l.words ∧
      ∀ c, Answers (slotCmp M k) c l.words → TotalPreorder c l.words →
        StablySorted c l.words (sortedCopy M s l k fresh).1.words) ∧
    (0 < recWords l.ty →
      (recReorder s l (some f) freshPtrs).1.ty = l.ty ∧
        (records (recReorder s l (some f) freshPtrs).1).Perm (records l) ∧
        ∀ c, Answers (recAnswer f) c (records l) → TotalPreorder c (records l) →
          StablySorted c (records l) (records (recReorder s l (some f) freshPtrs).1)) ∧
    (k ≠ .thunk → (k = .float → ∀ w ∈ l.words, isNan (M.unboxFloat w) = false) →
      (k = .rawFloat → ∀ w ∈ l.words, isNan w = false) →
      (k = .wide ∨ k = .uwide → ∃ n, ∀ w ∈ l.words, (M.limbs w).length = n) →
      StablySorted (fun a b => (slotCmp M k s a b).1) l.words (sortedCopy M s l k fresh).1.words) := by
  have hsort := sortedCopy_stable M s l k fresh hfresh
  refine ⟨hsort, fun hw => recReorder_stable s l f freshPtrs hw hptrs, ?_⟩
  intro hk hfloat hraw hwide
  obtain ⟨hans, htotal⟩ := totalPreorder_kind M k s l.words hk hfloat hraw hwide
  exact hsort.2.2 _ hans htotal

/-- Words compared by their last decimal digit. -/
def byDigit : Slots Unit where
  unboxWord := id
  unboxFloat := id
  text _ := []
  text_ne _ := List.not_mem_nil
  limbs _ := []
  call2 s a b := (BitVec.ofInt 32 ((a.toNat % 10 : Nat) - (b.toNat % 10 : Nat) : Int), s)

def digitCmp (a b : Word) : Int := (byDigit.call2 () a b).1.toInt

def digitList : RtList := ⟨1, [21, 12, 11, 32, 31]⟩

theorem totalPreorder_digit (l : List Word) : TotalPreorder digitCmp l := by
  refine totalPreorder_of_key (fun w => w.toNat % 10) fun a _ b _ => ?_
  show (BitVec.ofInt 32 _).toInt ≤ 0 ↔ _
  rw [BitVec.toInt_ofInt, Int.bmod_eq_of_le (by omega) (by omega)]
  omega

theorem sort_stable_byDigit :
    (sortedCopy byDigit () digitList .thunk [0, 0, 0, 0, 0]).1.words = [21, 11, 31, 12, 32] ∧
      StablySorted digitCmp digitList.words
        (sortedCopy byDigit () digitList .thunk [0, 0, 0, 0, 0]).1.words := by
  refine ⟨by decide +kernel, ?_⟩
  have hstable := sort_stable byDigit () digitList .thunk (fun s _ _ => (0, s)) [0, 0, 0, 0, 0] []
    rfl rfl
  exact hstable.1.2.2 digitCmp (fun _ _ _ _ _ => rfl) (totalPreorder_digit _)

end Lists

import Mathlib.Data.List.Perm.Subperm
import Resid.Zone.Offsets

/-!
# From a local reading to instants

Every offset of a zone is tried: the instant that the reading would name under it counts when the
zone has that very offset there.  The offset 0 that stands for a missing type is not among those
tried, and of three instants or more only the first two found are looked at.

    Solves z local u ↔ u is found, or u = local and the offset 0 there is not tried   (solves_iff)
    Produced z → (the answer is exact ↔ Covered z local)                      (zoneLocalPick_iff)
-/

namespace TimeZone

open CheckedInt Runtime

/-! ## Algorithm -/

structure Instant where
  seconds : Int
  nanoseconds : Int
  deriving DecidableEq

def instantOfSeconds (s : Int) : Instant := ⟨s, 0⟩

/-- The instants of a local reading. -/
inductive LocalPick
  | unique (u : Instant)
  | ambiguous (earlier later : Instant)
  | nonexistent
  deriving DecidableEq

/-- The instants that check out, in the order of the offsets. -/
def zoneLocalValid (z : Zone) : List Int → Int → List Int → Option (List Int)
  | [], _, acc => some acc
  | o :: ofs, localSeconds, acc => do
    let u ← sub 64 (tzClampSeconds localSeconds) o
    let off ← zoneOffsetSeconds z u
    zoneLocalValid z ofs localSeconds (if off = o then acc ++ [u] else acc)

/-- The answer, from the instants that checked out. -/
def pickOf : List Int → LocalPick
  | [] => .nonexistent
  | [u] => .unique (instantOfSeconds u)
  | u :: v :: _ =>
    .ambiguous (instantOfSeconds (if u ≤ v then u else v)) (instantOfSeconds (if u ≤ v then v else u))

def zoneLocalPick (z : Zone) (localSeconds : Int) : Option LocalPick := do
  let good ← zoneLocalValid z (zoneOffsets z) localSeconds []
  some (pickOf good)

/-! ## What the answer means -/

/-- At instant `u` the clocks of the zone show `local`. -/
def Solves (z : Zone) (localSeconds u : Int) : Prop :=
  zoneOffsetSeconds z u = some (localSeconds - u)

instance (z : Zone) (l u : Int) : Decidable (Solves z l u) := inferInstanceAs (Decidable (_ = _))

/-- The answer tells the instants that show the reading: none, the only one, or the first and last
of several. -/
def Exact (z : Zone) (localSeconds : Int) : LocalPick → Prop
  | .nonexistent => ∀ u, ¬Solves z localSeconds u
  | .unique i => i.nanoseconds = 0 ∧ ∀ u, Solves z localSeconds u ↔ u = i.seconds
  | .ambiguous e l => e.nanoseconds = 0 ∧ l.nanoseconds = 0 ∧ e.seconds < l.seconds ∧
      Solves z localSeconds e.seconds ∧ Solves z localSeconds l.seconds ∧
      ∀ u, Solves z localSeconds u → e.seconds ≤ u ∧ u ≤ l.seconds

/-- The instants that show the reading under an offset of the zone. -/
def found (z : Zone) (localSeconds : Int) : List Int :=
  ((zoneOffsets z).map (localSeconds - ·)).filter fun u => decide (Solves z localSeconds u)

/-- The reading is shown at its own instant, by the offset 0 that no type or rule of the zone has. -/
def Untried (z : Zone) (localSeconds : Int) : Prop :=
  0 ∉ zoneOffsets z ∧ Solves z localSeconds localSeconds

/-- The first two instants found lie around all others, and one that is not tried lies between two
that are. -/
def Covered (z : Zone) (localSeconds : Int) : Prop :=
  match found z localSeconds with
  | u :: v :: rest => (∀ w ∈ rest, min u v ≤ w ∧ w ≤ max u v) ∧
      (Untried z localSeconds → min u v ≤ localSeconds ∧ localSeconds ≤ max u v)
  | _ => ¬Untried z localSeconds

variable {z : Zone} {localSeconds : Int}

theorem mem_found {u : Int} : u ∈ found z localSeconds ↔
    localSeconds - u ∈ zoneOffsets z ∧ Solves z localSeconds u := by
  unfold found
  rw [List.mem_filter, List.mem_map, decide_eq_true_eq]
  constructor
  · rintro ⟨⟨o, ho, rfl⟩, hs⟩
    rw [sub_sub_cancel]
    exact ⟨ho, hs⟩
  · rintro ⟨ho, hs⟩
    exact ⟨⟨_, ho, sub_sub_cancel _ _⟩, hs⟩

theorem nodup_found (z : Zone) (localSeconds : Int) : (found z localSeconds).Nodup := by
  refine List.Nodup.filter _ (List.Nodup.map ?_ (nodup_zoneOffsets z))
  intro a c h
  simpa using h

/-- An instant that shows the reading is found, unless it does so by an offset that is not tried. -/
theorem solves_iff (hz : z.Sound) {u : Int} : Solves z localSeconds u ↔
      u ∈ found z localSeconds ∨ Untried z localSeconds ∧ u = localSeconds := by
  constructor
  · intro hs
    obtain ⟨o, ho, hmem⟩ := zoneOffsetAt_sound hz u
    have hsec : o.seconds = localSeconds - u := by
      have h : zoneOffsetSeconds z u = some o.seconds := by
        unfold zoneOffsetSeconds
        rw [ho]
        rfl
      exact Option.some.inj (h.symm.trans hs)
    by_cases htried : localSeconds - u ∈ zoneOffsets z
    · exact Or.inl (mem_found.2 ⟨htried, hs⟩)
    · have hzero : localSeconds - u = 0 := by
        rcases hmem with h | h
        · exact absurd (hsec ▸ h) htried
        · exact hsec.symm.trans h
      have hu : u = localSeconds := by omega
      subst hu
      rw [sub_self] at htried
      exact Or.inr ⟨⟨htried, hs⟩, rfl⟩
  · rintro (h | ⟨h, rfl⟩)
    · exact (mem_found.1 h).2
    · exact h.2

/-! ## The loop -/

theorem zoneLocalValid_eq (hz : z.Sound)
    (hl : -140737488355328 ≤ localSeconds ∧ localSeconds ≤ 140737488355328) {ofs : List Int}
    (hofs : ∀ o ∈ ofs, o ∈ zoneOffsets z) (acc : List Int) :
    zoneLocalValid z ofs localSeconds acc = some (acc ++
      (ofs.map (localSeconds - ·)).filter fun u => decide (Solves z localSeconds u)) := by
  have hclamp : tzClampSeconds localSeconds = localSeconds := by
    unfold tzClampSeconds
    rw [if_neg (by omega), if_neg (by omega)]
  induction ofs generalizing acc with
  | nil => simp [zoneLocalValid]
  | cons o ofs ih =>
    have hb := zoneOffsets_bounds hz (hofs o List.mem_cons_self)
    have hsub : sub 64 localSeconds o = some (localSeconds - o) := sub_of_fits (fits_64.2 (by omega))
    obtain ⟨off, hoff, -⟩ := zoneOffsetAt_sound hz (localSeconds - o)
    have hsec : zoneOffsetSeconds z (localSeconds - o) = some off.seconds := by
      unfold zoneOffsetSeconds
      rw [hoff]
      rfl
    have hiff : Solves z localSeconds (localSeconds - o) ↔ off.seconds = o := by
      unfold Solves
      rw [hsec, sub_sub_cancel, Option.some.injEq]
    rw [zoneLocalValid, hclamp, hsub]
    simp only [some_bind, hsec]
    rw [ih fun o' ho' => hofs o' (List.mem_cons_of_mem o ho'), List.map_cons, List.filter_cons]
    by_cases h : off.seconds = o
    · rw [if_pos h, if_pos (decide_eq_true (hiff.2 h)), List.append_assoc]
      rfl
    · rw [if_neg h, if_neg (by simpa using fun hs => h (hiff.1 hs))]

theorem zoneLocalPick_eq (hz : z.Sound)
    (hl : -140737488355328 ≤ localSeconds ∧ localSeconds ≤ 140737488355328) :
    zoneLocalPick z localSeconds = some (pickOf (found z localSeconds)) := by
  unfold zoneLocalPick
  rw [zoneLocalValid_eq hz hl fun o ho => ho]
  rfl

/-! ## The answer -/

theorem exact_iff (hz : z.Sound) (localSeconds : Int) :
    Exact z localSeconds (pickOf (found z localSeconds)) ↔ Covered z localSeconds := by
  have hsolves (u : Int) : Solves z localSeconds u ↔
      u ∈ found z localSeconds ∨ Untried z localSeconds ∧ u = localSeconds := solves_iff hz
  have hnodup := nodup_found z localSeconds
  have huntried : Untried z localSeconds → localSeconds ∉ found z localSeconds := by
    intro h hmem
    have := (mem_found.1 hmem).1
    rw [sub_self] at this
    exact h.1 this
  unfold Covered
  generalize found z localSeconds = l at hsolves hnodup huntried ⊢
  match l with
  | [] =>
    constructor
    · intro h hu
      exact h localSeconds hu.2
    · intro h u hs
      rcases (hsolves u).1 hs with hmem | ⟨hu, -⟩
      · cases hmem
      · exact h hu
  | [v] =>
    constructor
    · rintro ⟨-, h⟩ hu
      have heq := (h localSeconds).1 hu.2
      exact huntried hu (heq ▸ List.mem_singleton_self v)
    · intro h
      refine ⟨rfl, fun u => ?_⟩
      rw [hsolves u, List.mem_singleton]
      exact or_iff_left fun hu => h hu.1
  | v :: w :: rest =>
    have hne : v ≠ w := by
      intro heq
      rw [heq] at hnodup
      exact (List.nodup_cons.1 hnodup).1 List.mem_cons_self
    have hv : Solves z localSeconds v := (hsolves v).2 (Or.inl List.mem_cons_self)
    have hw : Solves z localSeconds w :=
      (hsolves w).2 (Or.inl (List.mem_cons_of_mem v List.mem_cons_self))
    have hmin : (if v ≤ w then v else w) = min v w := by
      all_goals omega
    have hmax : (if v ≤ w then w else v) = max v w := by
      all_goals omega
    show Exact z localSeconds (.ambiguous (instantOfSeconds (if v ≤ w then v else w))
      (instantOfSeconds (if v ≤ w then w else v))) ↔ _
    constructor
    · rintro ⟨-, -, -, -, -, hall⟩
      refine ⟨fun u hu => ?_, fun hu => hall _ hu.2⟩
      exact hall u ((hsolves u).2 (Or.inl (List.mem_cons_of_mem v (List.mem_cons_of_mem w hu))))
    · rintro ⟨hrest, hself⟩
      refine ⟨rfl, rfl, ?_, ?_, ?_, ?_⟩
      · show min v w < max v w
        omega
      · show Solves z localSeconds (min v w)
        rcases min_choice v w with h | h
        · rw [h]
          exact hv
        · rw [h]
          exact hw
      · show Solves z localSeconds (max v w)
        rcases max_choice v w with h | h
        · rw [h]
          exact hv
        · rw [h]
          exact hw
      · intro u hs
        show min v w ≤ u ∧ u ≤ max v w
        rcases (hsolves u).1 hs with hmem | ⟨hu, rfl⟩
        · rcases List.mem_cons.1 hmem with rfl | hmem
          · omega
          rcases List.mem_cons.1 hmem with rfl | hmem
          · omega
          exact hrest u hmem
        · exact hself hu

/-- The answer for a reading within `2 ^ 47` seconds is exact just when the first two instants found
cover the others. -/
theorem zoneLocalPick_iff {z : Zone} (hz : Produced z) {localSeconds : Int}
    (hl : -140737488355328 ≤ localSeconds ∧ localSeconds ≤ 140737488355328) :
    ∃ pick, zoneLocalPick z localSeconds = some pick ∧
      (Exact z localSeconds pick ↔ Covered z localSeconds) :=
  ⟨_, zoneLocalPick_eq hz.sound hl, exact_iff hz.sound localSeconds⟩

/-- In a zone of one type, with offset 0, midnight is midnight. -/
theorem zoneLocalPick_plain : ∃ z pick, Produced z ∧ zoneLocalPick z 0 = some pick ∧
    Exact z 0 pick := by
  have hread : (zoneParseTzif plainFile []).map (fun z => (found z 0, zoneOffsets z)) =
      some ([0], [0]) := by
    decide +kernel
  obtain ⟨z, hz, hfound⟩ := Option.map_eq_some_iff.1 hread
  obtain ⟨hone, hoffs⟩ := Prod.mk.inj hfound
  obtain ⟨pick, hpick, hiff⟩ := zoneLocalPick_iff (.tzif hz) (show _ ≤ (0 : Int) ∧ (0 : Int) ≤ _ by decide)
  refine ⟨z, pick, .tzif hz, hpick, hiff.2 ?_⟩
  unfold Covered
  rw [hone]
  rintro ⟨hzero, -⟩
  rw [hoffs] at hzero
  exact hzero List.mem_cons_self

/-- A file of version 1 with one type, a daylight one of an hour. -/
def daylightOnly : List UInt8 :=
  [84, 90, 105, 102] ++ List.replicate 32 0 ++ [0, 0, 0, 1, 0, 0, 0, 0] ++ [0, 0, 14, 16, 1, 0]

/-- The clocks of that zone show 0 at instant 0, and the answer is that they never do. -/
theorem midnight_missed : ∃ z, zoneParseTzif daylightOnly [] = some z ∧
    zoneLocalPick z 0 = some .nonexistent ∧ Solves z 0 0 ∧ ¬Exact z 0 .nonexistent := by
  have hread : (zoneParseTzif daylightOnly []).map (fun z => (zoneLocalPick z 0, zoneOffsetSeconds z 0)) =
      some (some .nonexistent, some 0) := by
    decide +kernel
  obtain ⟨z, hz, hpair⟩ := Option.map_eq_some_iff.1 hread
  obtain ⟨hpick, hoff⟩ := Prod.mk.inj hpair
  exact ⟨z, hz, hpick, hoff, fun h => h 0 hoff⟩

end TimeZone

import Mathlib.Data.List.TakeWhile

/-!
# Scanning a list from a position

A scanner is at position `i` of a list `b` and what it still has to read is `b.drop i`.
`skipWhile p b i` is where a run of items satisfying `p` that starts at `i` ends.

    b.drop i = run ++ b.drop (skipWhile p b i),  run all p,  the next item not   (skipWhile_spec)
    b.drop i = run ++ rest,  run all p,  rest starts with no p
      → skipWhile p b i = i + run.length                                         (skipWhile_eq)

`find b pat start` is the first position at or after `start` where `pat` stands.

    find b pat start = some j → find (b ++ x) pat start = some j                  (find_append)
    find b pat start = none, start' where a match could still begin
      → find (b ++ x) pat start = find (b ++ x) pat start'                        (find_resume)
    find (b.take stop) pat start = some j ↔
      find b pat start = some j ∧ j + pat.length ≤ stop                           (find_take)
-/

namespace Scan

variable {α : Type}

/-! ## What is left at a position -/

variable {b r t : List α} {i : Nat} {c : α} {p : α → Bool}

theorem lt_of_drop (h : b.drop i = c :: r) : i < b.length := by
  have hlen := congrArg List.length h
  rw [List.length_drop, List.length_cons] at hlen
  omega

theorem getElem?_of_drop (h : b.drop i = c :: r) : b[i]? = some c := by
  have h0 : (b.drop i)[0]? = b[i + 0]? := List.getElem?_drop
  rw [h, Nat.add_zero] at h0
  exact h0.symm

theorem getElem?_of_drop_nil (h : b.drop i = []) : b[i]? = none :=
  List.getElem?_eq_none (List.drop_eq_nil_iff.1 h)

theorem drop_of_getElem? (h : b[i]? = some c) : b.drop i = c :: b.drop (i + 1) := by
  obtain ⟨hi, rfl⟩ := List.getElem?_eq_some_iff.1 h
  exact List.drop_eq_getElem_cons hi

theorem drop_add (h : b.drop i = t ++ r) : b.drop (i + t.length) = r := by
  rw [← List.drop_drop, h, List.drop_left]

theorem drop_succ (h : b.drop i = c :: r) : b.drop (i + 1) = r := by
  rw [← List.drop_drop, h]
  rfl

/-! ## A run of items -/

/-- Where the run of items satisfying `p` that starts at `i` ends. -/
def skipWhile (p : α → Bool) (b : List α) (i : Nat) : Nat :=
  i + ((b.drop i).takeWhile p).length

/-- No run of `p` starts `r`. -/
def Stops (p : α → Bool) (r : List α) : Prop := ∀ c s, r = c :: s → p c = false

theorem Stops.nil : Stops p [] := by
  intro c s h
  cases h

theorem Stops.cons {s : List α} (h : p c = false) : Stops p (c :: s) := by
  intro c' s' he
  cases he
  exact h

theorem takeWhile_append_of_stops (ht : ∀ c ∈ t, p c = true) (hr : Stops p r) :
    (t ++ r).takeWhile p = t := by
  rw [List.takeWhile_append_of_pos ht]
  cases r with
  | nil => rw [List.takeWhile_nil, List.append_nil]
  | cons c s => rw [List.takeWhile_cons_of_neg (by simp [hr c s rfl]), List.append_nil]

theorem skipWhile_eq (h : b.drop i = t ++ r) (ht : ∀ c ∈ t, p c = true) (hr : Stops p r) :
    skipWhile p b i = i + t.length := by
  rw [skipWhile, h, takeWhile_append_of_stops ht hr]

theorem skipWhile_spec (p : α → Bool) (b : List α) (i : Nat) :
    ∃ run, b.drop i = run ++ b.drop (skipWhile p b i) ∧ (∀ c ∈ run, p c = true) ∧
      skipWhile p b i = i + run.length ∧ Stops p (b.drop (skipWhile p b i)) := by
  have hsplit : b.drop i = (b.drop i).takeWhile p ++ (b.drop i).dropWhile p :=
    (List.takeWhile_append_dropWhile).symm
  have hrest : b.drop (skipWhile p b i) = (b.drop i).dropWhile p := drop_add hsplit
  refine ⟨(b.drop i).takeWhile p, ?_, fun c hc => List.mem_takeWhile_imp hc, rfl, ?_⟩
  · rw [hrest]
    exact hsplit
  · intro c s h
    rw [hrest] at h
    have hne : (b.drop i).dropWhile p ≠ [] := by
      rw [h]
      exact List.cons_ne_nil c s
    have hhead := List.head_dropWhile_not p hne
    simp only [h, List.head_cons] at hhead
    simpa using hhead

/-- A loop that steps over one item at a time while `p` holds is `skipWhile`. -/
theorem eq_skipWhile (f : Nat → Nat)
    (hstep : ∀ i c, b[i]? = some c → p c = true → f i = f (i + 1))
    (hstop : ∀ i, (∀ c, b[i]? = some c → p c = false) → f i = i) (i : Nat) :
    f i = skipWhile p b i := by
  have main : ∀ (r : List α) (i : Nat), b.drop i = r → f i = i + (r.takeWhile p).length := by
    intro r
    induction r with
    | nil =>
      intro i h
      rw [hstop i]
      · rfl
      · intro c hc
        rw [getElem?_of_drop_nil h] at hc
        cases hc
    | cons c s ih =>
      intro i h
      have hget := getElem?_of_drop h
      cases hp : p c with
      | true =>
        rw [hstep i c hget hp, ih (i + 1) (drop_succ h), List.takeWhile_cons_of_pos hp,
          List.length_cons]
        omega
      | false =>
        rw [hstop i, List.takeWhile_cons_of_neg (by simp [hp])]
        · rfl
        · intro c' hc'
          rw [hget] at hc'
          cases hc'
          exact hp
  exact main _ i rfl

/-! ## Searching -/

section Find

variable [DecidableEq α]

/-- Where `pat` first stands in what is left, `i` the position of its start. -/
def findAt (pat : List α) : List α → Nat → Option Nat
  | [], i => if pat = [] then some i else none
  | c :: s, i => if pat.isPrefixOf (c :: s) then some i else findAt pat s (i + 1)

/-- First position at or after `start` where `pat` stands in `b`. -/
def find (b pat : List α) (start : Nat) : Option Nat := findAt pat (b.drop start) start

omit [DecidableEq α] in
theorem prefix_drop_nil {pat : List α} (hpat : pat ≠ []) (k : Nat) :
    ¬ pat <+: ([] : List α).drop k := by
  rw [List.drop_nil, List.prefix_nil]
  exact hpat

theorem findAt_eq_none {pat s : List α} {i : Nat} (hpat : pat ≠ []) :
    findAt pat s i = none ↔ ∀ k, ¬ pat <+: s.drop k := by
  induction s generalizing i with
  | nil =>
    rw [findAt, if_neg hpat]
    exact ⟨fun _ => prefix_drop_nil hpat, fun _ => rfl⟩
  | cons c s ih =>
    rw [findAt]
    by_cases hpre : pat.isPrefixOf (c :: s) = true
    · rw [if_pos hpre]
      constructor
      · intro h
        cases h
      · intro hnone
        exact absurd (List.isPrefixOf_iff_prefix.1 hpre) (hnone 0)
    · rw [if_neg hpre, ih]
      rw [List.isPrefixOf_iff_prefix] at hpre
      constructor
      · intro hnone k
        cases k with
        | zero => exact hpre
        | succ k => exact hnone k
      · intro hnone k
        exact hnone (k + 1)

theorem findAt_eq_some {pat s : List α} {i j : Nat} (hpat : pat ≠ []) :
    findAt pat s i = some j ↔
      ∃ d, j = i + d ∧ pat <+: s.drop d ∧ ∀ k, k < d → ¬ pat <+: s.drop k := by
  induction s generalizing i with
  | nil =>
    rw [findAt, if_neg hpat]
    constructor
    · intro h
      cases h
    · rintro ⟨d, -, hpre, -⟩
      exact absurd hpre (prefix_drop_nil hpat d)
  | cons c s ih =>
    rw [findAt]
    by_cases hpre : pat.isPrefixOf (c :: s) = true
    · rw [if_pos hpre, Option.some.injEq]
      rw [List.isPrefixOf_iff_prefix] at hpre
      constructor
      · rintro rfl
        exact ⟨0, rfl, hpre, fun k hk => absurd hk (Nat.not_lt_zero k)⟩
      · rintro ⟨d, rfl, -, hnone⟩
        cases d with
        | zero => rfl
        | succ d => exact absurd hpre (hnone 0 (Nat.succ_pos d))
    · rw [if_neg hpre, ih]
      rw [List.isPrefixOf_iff_prefix] at hpre
      constructor
      · rintro ⟨d, rfl, hd, hnone⟩
        refine ⟨d + 1, by omega, hd, ?_⟩
        intro k hk
        cases k with
        | zero => exact hpre
        | succ k => exact hnone k (by omega)
      · rintro ⟨d, rfl, hd, hnone⟩
        cases d with
        | zero => exact absurd hd hpre
        | succ d => exact ⟨d, by omega, hd, fun k hk => hnone (k + 1) (by omega)⟩

theorem find_eq_none {b pat : List α} {start : Nat} (hpat : pat ≠ []) :
    find b pat start = none ↔ ∀ k, start ≤ k → ¬ pat <+: b.drop k := by
  rw [find, findAt_eq_none hpat]
  constructor
  · intro hnone k hk
    have h := hnone (k - start)
    rwa [List.drop_drop, Nat.add_sub_cancel' hk] at h
  · intro hnone k
    rw [List.drop_drop]
    exact hnone (start + k) (Nat.le_add_right start k)

theorem find_eq_some {b pat : List α} {start j : Nat} (hpat : pat ≠ []) :
    find b pat start = some j ↔
      start ≤ j ∧ pat <+: b.drop j ∧ ∀ k, start ≤ k → k < j → ¬ pat <+: b.drop k := by
  rw [find, findAt_eq_some hpat]
  constructor
  · rintro ⟨d, rfl, hd, hnone⟩
    rw [List.drop_drop] at hd
    refine ⟨Nat.le_add_right start d, hd, ?_⟩
    intro k hk hkd
    have h := hnone (k - start) (by omega)
    rwa [List.drop_drop, Nat.add_sub_cancel' hk] at h
  · rintro ⟨hle, hj, hnone⟩
    refine ⟨j - start, by omega, ?_, ?_⟩
    · rw [List.drop_drop, Nat.add_sub_cancel' hle]
      exact hj
    · intro k hk
      rw [List.drop_drop]
      exact hnone (start + k) (Nat.le_add_right start k) (by omega)

omit [DecidableEq α] in
theorem length_of_prefix_drop {b pat : List α} {k : Nat} (hpat : pat ≠ [])
    (h : pat <+: b.drop k) : k + pat.length ≤ b.length := by
  have hlen := h.length_le
  have hpos := List.length_pos_iff.2 hpat
  rw [List.length_drop] at hlen
  omega

theorem find_le {b pat : List α} {start j : Nat} (hpat : pat ≠ [])
    (h : find b pat start = some j) : start ≤ j ∧ j + pat.length ≤ b.length := by
  rw [find_eq_some hpat] at h
  exact ⟨h.1, length_of_prefix_drop hpat h.2.1⟩

omit [DecidableEq α] in
/-- What stands wholly inside `b` does not depend on what follows. -/
theorem prefix_drop_append {b x pat : List α} {k : Nat} (hk : k + pat.length ≤ b.length) :
    pat <+: (b ++ x).drop k ↔ pat <+: b.drop k := by
  rw [List.drop_append_of_le_length (by omega)]
  constructor
  · intro h
    refine List.prefix_of_prefix_length_le h (List.prefix_append _ x) ?_
    rw [List.length_drop]
    omega
  · intro h
    exact h.trans (List.prefix_append _ x)

theorem find_append {b pat : List α} {start j : Nat} (x : List α) (hpat : pat ≠ [])
    (h : find b pat start = some j) : find (b ++ x) pat start = some j := by
  have hle := find_le hpat h
  rw [find_eq_some hpat] at h ⊢
  refine ⟨h.1, ?_, ?_⟩
  · rw [prefix_drop_append hle.2]
    exact h.2.1
  · intro k hk hkj
    rw [prefix_drop_append (by omega)]
    exact h.2.2 k hk hkj

/-- A search that found nothing need not look again where a match would have been whole. -/
theorem find_resume {b x pat : List α} {start start' : Nat} (hpat : pat ≠ [])
    (h : find b pat start = none) (hle : start ≤ start')
    (hlen : start' + pat.length ≤ b.length + 1 ∨ start' = start) :
    find (b ++ x) pat start = find (b ++ x) pat start' := by
  rcases Nat.eq_or_lt_of_le hle with rfl | hlt
  · rfl
  rw [find_eq_none hpat] at h
  have hskip : ∀ k, start ≤ k → k < start' → ¬ pat <+: (b ++ x).drop k := by
    intro k hk hk'
    rw [prefix_drop_append (by omega)]
    exact h k hk
  cases hf : find (b ++ x) pat start' with
  | none =>
    rw [find_eq_none hpat] at hf ⊢
    intro k hk
    rcases Nat.lt_or_ge k start' with hlt | hge
    · exact hskip k hk hlt
    · exact hf k hge
  | some j =>
    rw [find_eq_some hpat] at hf ⊢
    refine ⟨by omega, hf.2.1, ?_⟩
    intro k hk hkj
    rcases Nat.lt_or_ge k start' with hlt | hge
    · exact hskip k hk hlt
    · exact hf.2.2 k hge hkj

theorem find_drop_some {b pat : List α} {i start j : Nat} (hpat : pat ≠ []) :
    find (b.drop i) pat start = some j ↔ find b pat (i + start) = some (i + j) := by
  rw [find_eq_some hpat, find_eq_some hpat]
  simp only [List.drop_drop]
  constructor
  · rintro ⟨hle, hj, hnone⟩
    refine ⟨by omega, hj, ?_⟩
    intro k hk hkj
    obtain ⟨d, rfl⟩ := Nat.exists_eq_add_of_le (show i ≤ k by omega)
    exact hnone d (by omega) (by omega)
  · rintro ⟨hle, hj, hnone⟩
    refine ⟨by omega, hj, ?_⟩
    intro k hk hkj
    exact hnone (i + k) (by omega) (by omega)

theorem find_drop_none {b pat : List α} {i start : Nat} (hpat : pat ≠ []) :
    find (b.drop i) pat start = none ↔ find b pat (i + start) = none := by
  rw [find_eq_none hpat, find_eq_none hpat]
  simp only [List.drop_drop]
  constructor
  · intro h k hk
    obtain ⟨d, rfl⟩ := Nat.exists_eq_add_of_le (show i ≤ k by omega)
    exact h d (by omega)
  · intro h k hk
    exact h (i + k) (by omega)

omit [DecidableEq α] in
theorem prefix_drop_take {b pat : List α} {k stop : Nat} (hpat : pat ≠ []) :
    pat <+: (b.take stop).drop k ↔ pat <+: b.drop k ∧ k + pat.length ≤ stop := by
  constructor
  · intro h
    have hlen := length_of_prefix_drop hpat h
    rw [List.length_take] at hlen
    refine ⟨?_, by omega⟩
    rw [List.drop_take] at h
    exact h.trans (List.take_prefix _ _)
  · rintro ⟨h, hlen⟩
    rw [List.drop_take, List.prefix_take_iff]
    exact ⟨h, by omega⟩

theorem find_take {b pat : List α} {start stop j : Nat} (hpat : pat ≠ []) :
    find (b.take stop) pat start = some j ↔
      find b pat start = some j ∧ j + pat.length ≤ stop := by
  rw [find_eq_some hpat, find_eq_some hpat]
  simp only [prefix_drop_take hpat, not_and_or]
  constructor
  · rintro ⟨hle, ⟨hj, hlen⟩, hnone⟩
    refine ⟨⟨hle, hj, ?_⟩, hlen⟩
    intro k hk hkj
    rcases hnone k hk hkj with h | h
    · exact h
    · omega
  · rintro ⟨⟨hle, hj, hnone⟩, hlen⟩
    exact ⟨hle, ⟨hj, hlen⟩, fun k hk hkj => .inl (hnone k hk hkj)⟩

end Find

end Scan

import Mathlib.Data.List.DropRight
import Mathlib.Data.List.Induction

/-!
# Fields of a line

A line's fields are its longest pieces without a separator.

    words p (w ++ gap ++ rest) = w :: words p rest   for w without separators, gap of them   (words_cons)
    f ∈ words p s → f not empty, without separators                                       (mem_words)
    (unlines c ls).splitOn c = ls ++ [[]]            for lines without `c`                   (splitOn_unlines)
-/

namespace Fields

variable {α : Type} (p : α → Bool)

/-- The pieces of `s` between elements that satisfy `p`. -/
def words (s : List α) : List (List α) :=
  match _h : s.dropWhile p with
  | [] => []
  | c :: r =>
    (c :: r).takeWhile (fun x => !p x) :: words ((c :: r).dropWhile fun x => !p x)
termination_by s.length
decreasing_by
  have hle : (s.dropWhile p).length ≤ s.length := (List.dropWhile_sublist p).length_le
  have hc : p c = false := by
    have := List.head_dropWhile_not p (by rw [_h]; exact List.cons_ne_nil c r) (l := s)
    simpa [_h] using this
  have hrest : ((c :: r).dropWhile fun x => !p x).length ≤ r.length := by
    rw [List.dropWhile_cons_of_pos (by rw [hc]; rfl)]
    exact (List.dropWhile_sublist _).length_le
  rw [_h, List.length_cons] at hle
  omega

variable {p}

/-- The fields of a line, by what is left of it behind its first separators. -/
theorem words_eq (s : List α) : words p s =
    match s.dropWhile p with
    | [] => []
    | c :: r =>
      (c :: r).takeWhile (fun x => !p x) :: words p ((c :: r).dropWhile fun x => !p x) := by
  rw [words]
  cases s.dropWhile p with
  | nil => rfl
  | cons c r => rfl

theorem words_of_all {s : List α} (h : ∀ c ∈ s, p c = true) : words p s = [] := by
  have hnil : s.dropWhile p = [] := List.dropWhile_eq_nil_iff.2 h
  rw [words_eq, hnil]

@[simp] theorem words_nil : words p ([] : List α) = [] :=
  words_of_all fun c hc => by cases hc

theorem words_gap {gap : List α} (hgap : ∀ c ∈ gap, p c = true) (s : List α) :
    words p (gap ++ s) = words p s := by
  have hdrop : (gap ++ s).dropWhile p = s.dropWhile p := by
    rw [List.dropWhile_append, List.dropWhile_eq_nil_iff.2 hgap]
    rfl
  rw [words_eq, words_eq s, hdrop]

/-- The first field of a line, then those of the rest. -/
theorem words_cons {w rest : List α} (hw : w ≠ []) (hfree : ∀ c ∈ w, p c = false)
    (hrest : ∀ c r, rest = c :: r → p c = true) : words p (w ++ rest) = w :: words p rest := by
  obtain ⟨c, w', rfl⟩ := List.exists_cons_of_ne_nil hw
  have hdrop : ((c :: w') ++ rest).dropWhile p = c :: (w' ++ rest) := by
    rw [List.cons_append, List.dropWhile_cons_of_neg]
    rw [hfree c List.mem_cons_self]
    exact Bool.false_ne_true
  have hfree' : ∀ x ∈ c :: w', (!p x) = true := by
    intro x hx
    rw [hfree x hx]
    rfl
  have htake : (c :: (w' ++ rest)).takeWhile (fun x => !p x) = c :: w' := by
    rw [← List.cons_append, List.takeWhile_append_of_pos hfree']
    cases rest with
    | nil => exact List.append_nil _
    | cons d r =>
      rw [List.takeWhile_cons_of_neg, List.append_nil]
      rw [hrest d r rfl]
      exact Bool.false_ne_true
  have hleft : (c :: (w' ++ rest)).dropWhile (fun x => !p x) = rest := by
    rw [← List.cons_append, List.dropWhile_append_of_pos hfree']
    cases rest with
    | nil => rfl
    | cons d r =>
      rw [List.dropWhile_cons_of_neg]
      rw [hrest d r rfl]
      exact Bool.false_ne_true
  rw [words_eq, hdrop]
  show _ :: words p _ = _
  rw [htake, hleft]

theorem words_single {w : List α} (hw : w ≠ []) (hfree : ∀ c ∈ w, p c = false) :
    words p w = [w] := by
  have h : words p (w ++ []) = w :: words p [] :=
    words_cons hw hfree fun c r h0 => by cases h0
  rw [List.append_nil] at h
  rw [h, words_nil]

theorem words_intercalate {gap : α} (hgap : p gap = true) {ws : List (List α)}
    (h : ∀ w ∈ ws, w ≠ [] ∧ ∀ c ∈ w, p c = false) : words p ([gap].intercalate ws) = ws := by
  induction ws with
  | nil => exact words_nil
  | cons w ws ih =>
    obtain ⟨hne, hfree⟩ := h w List.mem_cons_self
    have hrest := ih fun v hv => h v (List.mem_cons_of_mem w hv)
    cases ws with
    | nil =>
      rw [List.intercalate_singleton]
      exact words_single hne hfree
    | cons v ws =>
      have hsplit : [gap].intercalate (w :: v :: ws) = w ++ ([gap] ++ [gap].intercalate (v :: ws)) := by
        simp
      have hgaps : ∀ c ∈ [gap], p c = true := by
        intro c hc
        rw [List.mem_singleton.1 hc]
        exact hgap
      have hstart : ∀ c r, [gap] ++ [gap].intercalate (v :: ws) = c :: r → p c = true := by
        intro c r hcr
        cases hcr
        exact hgap
      rw [hsplit, words_cons hne hfree hstart, words_gap hgaps, hrest]

/-- A field is not empty and has no separator. -/
theorem mem_words {s f : List α} (h : f ∈ words p s) : f ≠ [] ∧ ∀ c ∈ f, p c = false := by
  fun_induction words p s with
  | case1 s hnil => cases h
  | case2 s c r hc ih =>
    rcases List.mem_cons.1 h with rfl | h
    · have hfree : p c = false := by
        have := List.head_dropWhile_not p (by rw [hc]; exact List.cons_ne_nil c r) (l := s)
        simpa [hc] using this
      constructor
      · rw [List.takeWhile_cons_of_pos (by rw [hfree]; rfl)]
        exact List.cons_ne_nil _ _
      · intro x hx
        have := List.mem_takeWhile_imp hx
        rwa [Bool.not_eq_true'] at this
    · exact ih h

/-- Every element of a field stands in the line. -/
theorem subset_words {s f : List α} (h : f ∈ words p s) : f ⊆ s := by
  fun_induction words p s with
  | case1 s hnil => cases h
  | case2 s c r hc ih =>
    have hsub : c :: r ⊆ s := by
      rw [← hc]
      exact (List.dropWhile_sublist p).subset
    rcases List.mem_cons.1 h with rfl | h
    · exact fun x hx => hsub ((List.takeWhile_sublist _).subset hx)
    · exact fun x hx => hsub ((List.dropWhile_sublist _).subset (ih h hx))

/-- A line that starts with a field starts with its first character. -/
theorem words_head {c : α} {s : List α} (hc : p c = false) :
    ∃ w fs, words p (c :: s) = (c :: w) :: fs := by
  have hdrop : (c :: s).dropWhile p = c :: s := by
    rw [List.dropWhile_cons_of_neg]
    rw [hc]
    exact Bool.false_ne_true
  rw [words_eq, hdrop]
  refine ⟨s.takeWhile (fun x => !p x), words p ((c :: s).dropWhile fun x => !p x), ?_⟩
  show _ :: words p _ = _
  rw [List.takeWhile_cons_of_pos (by rw [hc]; rfl)]

/-- A line that ends with a field ends with its last one. -/
theorem words_last {s : List α} {c : α} (hlast : s.getLast? = some c) (hc : p c = false) :
    ∃ fs w, words p s = fs ++ [w] ∧ w.getLast? = some c := by
  fun_induction words p s with
  | case1 s hnil =>
    have hmem : c ∈ s := List.mem_of_getLast? hlast
    rw [List.dropWhile_eq_nil_iff.1 hnil c hmem] at hc
    cases hc
  | case2 s d r hd ih =>
    have hlast' : (d :: r).getLast? = some c := by
      obtain ⟨gap, hgap⟩ := List.dropWhile_suffix (l := s) p
      rw [hd] at hgap
      rw [← hgap, List.getLast?_append_of_ne_nil _ (List.cons_ne_nil d r)] at hlast
      exact hlast
    have hsplit := List.takeWhile_append_dropWhile (p := fun x => !p x) (l := d :: r)
    by_cases hrest : (d :: r).dropWhile (fun x => !p x) = []
    · rw [hrest, List.append_nil] at hsplit
      refine ⟨[], (d :: r).takeWhile (fun x => !p x), ?_, ?_⟩
      · rw [hrest, words_nil, List.nil_append]
      · rw [hsplit]
        exact hlast'
    · rw [← hsplit, List.getLast?_append_of_ne_nil _ hrest] at hlast'
      obtain ⟨fs, w, hfs, hw⟩ := ih hlast'
      exact ⟨_ :: fs, w, by rw [hfs, List.cons_append], hw⟩

/-! ## Lines -/

section Lines

variable {α : Type}

/-- Each line and its end. -/
def unlines (c : α) (ls : List (List α)) : List α := ls.flatMap (· ++ [c])

theorem unlines_cons (c : α) (l : List α) (ls : List (List α)) :
    unlines c (l :: ls) = l ++ c :: unlines c ls := by
  show (l ++ [c]) ++ unlines c ls = _
  rw [List.append_assoc]
  rfl

theorem unlines_eq_intercalate (c : α) {ls : List (List α)} (h : ls ≠ []) :
    unlines c ls = [c].intercalate ls ++ [c] := by
  induction ls with
  | nil => exact absurd rfl h
  | cons l ls ih =>
    rw [unlines_cons]
    cases ls with
    | nil => simp [unlines]
    | cons m ls =>
      rw [ih (List.cons_ne_nil m ls)]
      simp

theorem splitOn_unlines [BEq α] [LawfulBEq α] {c : α} {ls : List (List α)}
    (h : ∀ l ∈ ls, c ∉ l) : (unlines c ls).splitOn c = ls ++ [[]] := by
  induction ls with
  | nil => rfl
  | cons l ls ih =>
    rw [unlines_cons, List.splitOn_append_cons_self_of_not_mem (h l List.mem_cons_self),
      ih fun m hm => h m (List.mem_cons_of_mem l hm)]
    rfl

theorem not_mem_of_mem_splitOn [BEq α] [LawfulBEq α] {c : α} {s l : List α}
    (h : l ∈ s.splitOn c) : c ∉ l := by
  induction s generalizing l with
  | nil =>
    have hl : l ∈ [([] : List α)] := h
    rw [List.mem_singleton.1 hl]
    exact List.not_mem_nil
  | cons d s ih =>
    rw [List.splitOn_cons_eq_if_modifyHead] at h
    by_cases hd : (d == c) = true
    · rw [if_pos hd] at h
      rcases List.mem_cons.1 h with rfl | h
      · exact List.not_mem_nil
      · exact ih h
    · rw [if_neg hd] at h
      obtain ⟨w, ws, hsplit⟩ := List.exists_cons_of_ne_nil (List.splitOn_ne_nil c s)
      rw [hsplit] at h ih
      rcases List.mem_cons.1 h with rfl | h
      · intro hc
        rcases List.mem_cons.1 hc with rfl | hc
        · exact hd (beq_self_eq_true c)
        · exact ih List.mem_cons_self hc
      · exact ih (List.mem_cons_of_mem w h)

theorem subset_of_mem_splitOn [BEq α] {c : α} {s l : List α} (h : l ∈ s.splitOn c) : l ⊆ s := by
  induction s generalizing l with
  | nil =>
    have hl : l ∈ [([] : List α)] := h
    rw [List.mem_singleton.1 hl]
    exact List.Subset.refl _
  | cons d s ih =>
    rw [List.splitOn_cons_eq_if_modifyHead] at h
    split_ifs at h with hd
    · rcases List.mem_cons.1 h with rfl | h
      · exact List.nil_subset _
      · exact fun x hx => List.mem_cons_of_mem d (ih h hx)
    · obtain ⟨w, ws, hsplit⟩ := List.exists_cons_of_ne_nil (List.splitOn_ne_nil c s)
      rw [hsplit] at h ih
      rcases List.mem_cons.1 h with rfl | h
      · exact List.cons_subset_cons d (ih List.mem_cons_self)
      · exact fun x hx => List.mem_cons_of_mem d (ih (List.mem_cons_of_mem w h) hx)

end Lines

end Fields

import Mathlib.Algebra.GroupWithZero.Nat
import Mathlib.Data.List.Infix

/-!
# Cutting a list at the occurrences of another

`fromFirst sep s` is what stands in `s` from the first occurrence of `sep` on, and
`pieces sep s` what stands between its occurrences, taken from the front without overlap.

    intercalate sep (pieces sep s) = s                                    (intercalate_pieces)
    no piece contains sep                                                  (not_infix_piece)
    length (intercalate t ps) = sum of the lengths + (count - 1) * length t
                                                                        (length_intercalate)
-/

namespace Pieces

variable {α : Type} [DecidableEq α]

def fromFirst (sep : List α) : List α → Option (List α)
  | [] => none
  | c :: s => if sep <+: c :: s then some (c :: s) else fromFirst sep s

theorem fromFirst_some {sep s t : List α} (h : fromFirst sep s = some t) :
    t ≠ [] ∧ sep <+: t ∧ ∃ p, s = p ++ t ∧ ∀ i, i < p.length → ¬ sep <+: s.drop i := by
  induction s with
  | nil => exact absurd h (by simp [fromFirst])
  | cons c s ih =>
    rw [fromFirst] at h
    split_ifs at h with hsep
    · obtain rfl := Option.some.inj h
      exact ⟨List.cons_ne_nil c s, hsep, [], rfl, fun i hi => absurd hi (Nat.not_lt_zero i)⟩
    · obtain ⟨hne, hpre, p, hp, hnot⟩ := ih h
      refine ⟨hne, hpre, c :: p, by rw [hp]; rfl, ?_⟩
      intro i hi
      cases i with
      | zero => exact hsep
      | succ i => exact hnot i (Nat.lt_of_succ_lt_succ hi)

theorem fromFirst_none {sep s : List α} (hne : sep ≠ []) (h : fromFirst sep s = none) :
    ¬ sep <:+: s := by
  induction s with
  | nil =>
    rw [List.infix_nil]
    exact hne
  | cons c s ih =>
    rw [fromFirst] at h
    split_ifs at h with hsep
    rw [List.infix_cons_iff]
    rintro (hp | hs)
    · exact hsep hp
    · exact ih h hs

theorem fromFirst_shorter {sep s t : List α} (hne : sep ≠ []) (h : fromFirst sep s = some t) :
    (t.drop sep.length).length < s.length := by
  obtain ⟨htne, -, p, hp, -⟩ := fromFirst_some h
  have hsep := List.length_pos_iff.2 hne
  have ht := List.length_pos_iff.2 htne
  rw [hp, List.length_drop, List.length_append]
  omega

def pieces (sep : List α) (hne : sep ≠ []) (s : List α) : List (List α) :=
  match _h : fromFirst sep s with
  | none => [s]
  | some t => s.take (s.length - t.length) :: pieces sep hne (t.drop sep.length)
termination_by s.length
decreasing_by exact fromFirst_shorter hne (by assumption)

variable {sep s t : List α} (hne : sep ≠ [])

theorem pieces_none (h : fromFirst sep s = none) : pieces sep hne s = [s] := by
  rw [pieces]
  split
  · rfl
  · rename_i t ht
    rw [h] at ht
    exact absurd ht (by simp)

theorem pieces_some (h : fromFirst sep s = some t) :
    pieces sep hne s = s.take (s.length - t.length) :: pieces sep hne (t.drop sep.length) := by
  rw [pieces]
  split
  · rename_i hn
    rw [h] at hn
    exact absurd hn (by simp)
  · rename_i t' ht
    rw [h] at ht
    rw [Option.some.inj ht]

include hne in
/-- The rule for a list of pieces: the last piece, and a piece before an occurrence. -/
theorem pieces_induction {motive : List α → Prop}
    (last : ∀ s, fromFirst sep s = none → motive s)
    (step : ∀ s t, fromFirst sep s = some t → motive (t.drop sep.length) → motive s)
    (s : List α) : motive s := by
  induction hn : s.length using Nat.strong_induction_on generalizing s with
  | _ n ih =>
    cases h : fromFirst sep s with
    | none => exact last s h
    | some t =>
      have hlt := fromFirst_shorter hne h
      exact step s t h (ih _ (by omega) _ rfl)

theorem pieces_ne_nil (s : List α) : pieces sep hne s ≠ [] := by
  cases h : fromFirst sep s with
  | none =>
    rw [pieces_none hne h]
    exact List.cons_ne_nil _ _
  | some t =>
    rw [pieces_some hne h]
    exact List.cons_ne_nil _ _

omit [DecidableEq α] in
theorem take_before {p : List α} (h : s = p ++ t) : s.take (s.length - t.length) = p := by
  have hlen : s.length - t.length = p.length := by
    rw [h, List.length_append]
    omega
  rw [hlen, h, List.take_left]

/-- A list is what stands before the first occurrence, the occurrence and the rest. -/
theorem split_at_first (h : fromFirst sep s = some t) :
    s.take (s.length - t.length) ++ sep ++ t.drop sep.length = s := by
  obtain ⟨-, ⟨r, hr⟩, p, hp, -⟩ := fromFirst_some h
  rw [take_before hp, ← hr, List.drop_left, List.append_assoc, hr, ← hp]

theorem intercalate_pieces (s : List α) : List.intercalate sep (pieces sep hne s) = s := by
  induction s using pieces_induction hne with
  | last s h => rw [pieces_none hne h, List.intercalate_singleton]
  | step s t h ih =>
    rw [pieces_some hne h, List.intercalate_cons_of_ne_nil (pieces_ne_nil hne _), ih]
    exact split_at_first h

/-- An occurrence inside the piece before the first one would be an earlier one. -/
theorem not_infix_piece (s : List α) : ∀ p ∈ pieces sep hne s, ¬ sep <:+: p := by
  induction s using pieces_induction hne with
  | last s h =>
    rw [pieces_none hne h]
    intro p hp
    rw [List.mem_singleton] at hp
    rw [hp]
    exact fromFirst_none hne h
  | step s t h ih =>
    rw [pieces_some hne h]
    intro p hp
    rcases List.mem_cons.1 hp with rfl | hp
    · obtain ⟨-, -, q, hq, hnot⟩ := fromFirst_some h
      rw [take_before hq]
      rintro ⟨a, b, hab⟩
      have hsep := List.length_pos_iff.2 hne
      have ha : a.length < q.length := by
        rw [← hab, List.length_append, List.length_append]
        omega
      refine hnot a.length ha ⟨b ++ t, ?_⟩
      rw [hq, ← hab, List.append_assoc, List.append_assoc, List.drop_left]
    · exact ih p hp

/-- Every piece with the separator before it. -/
def led (t : List α) (ps : List (List α)) : List α := ps.flatMap (t ++ ·)

omit [DecidableEq α] in
@[simp] theorem led_nil (t : List α) : led t [] = [] := rfl

omit [DecidableEq α] in
@[simp] theorem led_cons (t p : List α) (ps : List (List α)) :
    led t (p :: ps) = t ++ p ++ led t ps := List.flatMap_cons

omit [DecidableEq α] in
theorem intercalate_cons_led (t p : List α) (ps : List (List α)) :
    List.intercalate t (p :: ps) = p ++ led t ps := by
  induction ps generalizing p with
  | nil => simp
  | cons q ps ih =>
    rw [List.intercalate_cons_cons, ih, led_cons, List.append_assoc, List.append_assoc]

omit [DecidableEq α] in
theorem mem_intercalate {t : List α} {ps : List (List α)} {x : α}
    (h : x ∈ List.intercalate t ps) : x ∈ t ∨ ∃ p ∈ ps, x ∈ p := by
  cases ps with
  | nil => exact absurd h List.not_mem_nil
  | cons p ps =>
    rw [intercalate_cons_led, List.mem_append, led, List.mem_flatMap] at h
    rcases h with hp | ⟨q, hq, hx⟩
    · exact Or.inr ⟨p, List.mem_cons_self, hp⟩
    · rcases List.mem_append.1 hx with ht | hx
      · exact Or.inl ht
      · exact Or.inr ⟨q, List.mem_cons_of_mem p hq, hx⟩

theorem mem_of_piece {s : List α} : ∀ p ∈ pieces sep hne s, p ⊆ s := by
  induction s using pieces_induction hne with
  | last s h =>
    rw [pieces_none hne h]
    intro p hp
    rw [List.mem_singleton] at hp
    rw [hp]
    exact List.Subset.refl s
  | step s t h ih =>
    rw [pieces_some hne h]
    intro p hp
    rcases List.mem_cons.1 hp with rfl | hp
    · exact List.take_subset _ s
    · obtain ⟨-, -, q, hq, -⟩ := fromFirst_some h
      intro x hx
      rw [hq]
      exact List.mem_append_right q (List.mem_of_mem_drop (ih p hp hx))

omit [DecidableEq α] in
/-- The pieces and one separator between any two of them. -/
theorem length_intercalate (t : List α) (ps : List (List α)) :
    (List.intercalate t ps).length = (ps.map List.length).sum + t.length * (ps.length - 1) := by
  induction ps with
  | nil => rfl
  | cons p ps ih =>
    cases ps with
    | nil => simp
    | cons q ps =>
      rw [List.intercalate_cons_cons, List.length_append, List.length_append, ih]
      simp only [List.map_cons, List.sum_cons, List.length_cons, Nat.add_sub_cancel]
      rw [Nat.mul_add]
      omega

end Pieces

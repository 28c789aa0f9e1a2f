import Mathlib.Data.List.GetD
import Mathlib.Data.List.Range
import Mathlib.Tactic.Common

/-!
# Loops

`pushFrom f n i acc` pushes `f i`, …, `f (n - 1)` onto `acc` and gives up at the first
index where `f` does.  It is the shape of every loop that builds a list in index order.

    (∀ t, i ≤ t → t < n → f t = some (g t)) →
      pushFrom f n i (table g i) = some (table g n)                 (pushFrom_table)
    (∀ done x todo, f done (x :: todo) = f (done ++ [x]) todo) →
      f [] xs = f xs []                                             (advance)
-/

namespace Loops

variable {α : Type}

/-- The list of `g 0`, …, `g (n - 1)`. -/
def table (g : Nat → α) (n : Nat) : List α := (List.range n).map g

/-- Push `f i`, …, `f (n - 1)` onto `acc`, or nothing when one of them is missing. -/
def pushFrom (f : Nat → Option α) (n i : Nat) (acc : List α) : Option (List α) :=
  if i ≥ n then some acc
  else (f i).bind fun v => pushFrom f n (i + 1) (acc ++ [v])
termination_by n - i

@[simp] theorem table_zero (g : Nat → α) : table g 0 = [] := rfl

@[simp] theorem length_table (g : Nat → α) (n : Nat) : (table g n).length = n := by
  simp [table]

theorem table_succ (g : Nat → α) (n : Nat) : table g (n + 1) = table g n ++ [g n] := by
  simp [table, List.range_succ]

theorem table_congr {g h : Nat → α} {n : Nat} (e : ∀ t, t < n → g t = h t) :
    table g n = table h n :=
  List.map_congr_left fun t ht => e t (List.mem_range.1 ht)

/-- Reading a table from its far end reverses it. -/
theorem reverse_table (g : Nat → α) (n : Nat) :
    (table g n).reverse = table (fun t => g (n - 1 - t)) n := by
  apply List.ext_getElem
  · simp
  · intro i h1 h2
    simp [table]

/-- Running on to index `n` from a table of the first `i` values. -/
theorem pushFrom_table {f : Nat → Option α} {g : Nat → α} {n : Nat} :
    ∀ {i : Nat}, i ≤ n → (∀ t, i ≤ t → t < n → f t = some (g t)) →
      pushFrom f n i (table g i) = some (table g n) := by
  intro i hi hf
  induction h : n - i generalizing i with
  | zero =>
    obtain rfl : i = n := by omega
    rw [pushFrom, if_pos (Nat.le_refl i)]
  | succ k ih =>
    rw [pushFrom, if_neg (by omega), hf i (Nat.le_refl i) (by omega), Option.bind_some,
      ← table_succ]
    exact ih (by omega) (fun t ht => hf t (by omega)) (by omega)

theorem pushFrom_all {f : Nat → Option α} {g : Nat → α} {n : Nat}
    (hf : ∀ t, t < n → f t = some (g t)) : pushFrom f n 0 [] = some (table g n) :=
  pushFrom_table (Nat.zero_le n) fun t _ => hf t

/-- Pushing the items of a list one by one takes them. -/
theorem pushFrom_take {l : List α} {k : Nat} (hk : k ≤ l.length) :
    pushFrom (fun i => l[i]?) k 0 [] = some (l.take k) := by
  have hrun : ∀ i, i ≤ k → pushFrom (fun i => l[i]?) k i (l.take i) = some (l.take k) := by
    intro i hi
    induction h : k - i generalizing i with
    | zero =>
      obtain rfl : i = k := by omega
      rw [pushFrom, if_pos (Nat.le_refl i)]
    | succ n ih =>
      have hlt : i < l.length := by omega
      rw [pushFrom, if_neg (by omega), List.getElem?_eq_getElem hlt, Option.bind_some,
        ← List.take_succ_eq_append_getElem hlt]
      exact ih (i + 1) (by omega) (by omega)
  exact hrun 0 (Nat.zero_le k)

/-! ## Item by item -/

/-- A loop seen as a function of the items done and the items to do: when a turn moves one
item over, the loop over all of `xs` ends as one that has done all of them. -/
theorem advance_split {ρ : Type} (f : List α → List α → ρ) (xs : List α)
    (h : ∀ done x todo, xs = done ++ x :: todo → f done (x :: todo) = f (done ++ [x]) todo) :
    f [] xs = f xs [] := by
  have hrun : ∀ todo done, xs = done ++ todo → f done todo = f xs [] := by
    intro todo
    induction todo with
    | nil =>
      intro done hxs
      rw [hxs, List.append_nil]
    | cons x todo ih =>
      intro done hxs
      rw [h done x todo hxs]
      apply ih
      rw [hxs, List.append_assoc]
      rfl
  exact hrun xs [] rfl

theorem advance {ρ : Type} (f : List α → List α → ρ) (xs : List α)
    (h : ∀ done x todo, x ∈ xs → f done (x :: todo) = f (done ++ [x]) todo) :
    f [] xs = f xs [] := by
  apply advance_split
  intro done x todo hxs
  apply h
  rw [hxs]
  exact List.mem_append_right done List.mem_cons_self

end Loops

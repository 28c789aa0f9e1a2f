import Mathlib.Data.Finmap
import Mathlib.Data.Finset.Dedup

/-!
# Partial retractions

A partial map settles when whatever it answers is a fixed point.  Mapping a settling map
over a list, a finite set or a finite map settles again, and leaves exactly the
collections alone whose members it leaves alone.

    xs.mapM f = some xs ↔ ∀ x ∈ xs, f x = some x                      (mapM_self_iff)
    Settles f → Settles (List.mapM f)                                 (Settles.mapM)
    fromEntries (entriesAt m keys) ∅ = m                              (fromEntries_eq)
-/

namespace Retract

variable {α β : Type}

def Settles (f : α → Option α) : Prop := ∀ x y, f x = some y → f y = some y

theorem settles_some : Settles (some : α → Option α) := fun _ _ _ => rfl

/-! ## Lists -/

variable {f : α → Option β} {xs : List α} {ys : List β}

theorem mapM_cons_some {x : α} : (x :: xs).mapM f = some ys ↔
      ∃ y ys', f x = some y ∧ xs.mapM f = some ys' ∧ ys = y :: ys' := by
  rw [List.mapM_cons]
  constructor
  · intro h
    obtain ⟨y, hy, h1⟩ := Option.bind_eq_some_iff.1 h
    obtain ⟨ys', hys, h2⟩ := Option.bind_eq_some_iff.1 h1
    cases h2
    exact ⟨y, ys', hy, hys, rfl⟩
  · rintro ⟨y, ys', hy, hys, rfl⟩
    rw [hy, hys]
    rfl

theorem mapM_mem (h : xs.mapM f = some ys) : ∀ y ∈ ys, ∃ x ∈ xs, f x = some y := by
  induction xs generalizing ys with
  | nil =>
    cases h
    intro y hy
    cases hy
  | cons x xs ih =>
    obtain ⟨y', ys', hy', hys', rfl⟩ := mapM_cons_some.1 h
    intro y hy
    rcases List.mem_cons.1 hy with rfl | hy
    · exact ⟨x, List.mem_cons_self, hy'⟩
    · obtain ⟨x', hx', hf⟩ := ih hys' y hy
      exact ⟨x', List.mem_cons_of_mem x hx', hf⟩

theorem mapM_self_iff {f : α → Option α} : xs.mapM f = some xs ↔ ∀ x ∈ xs, f x = some x := by
  induction xs with
  | nil => simp
  | cons x xs ih =>
    rw [mapM_cons_some, List.forall_mem_cons, ← ih]
    constructor
    · rintro ⟨y, ys, hy, hys, heq⟩
      cases heq
      exact ⟨hy, hys⟩
    · rintro ⟨hy, hys⟩
      exact ⟨x, xs, hy, hys, rfl⟩

theorem mapM_settled {f : α → Option α} (hf : Settles f) {ys : List α} (h : xs.mapM f = some ys) :
    ∀ y ∈ ys, f y = some y := by
  intro y hy
  obtain ⟨x, -, hx⟩ := mapM_mem h y hy
  exact hf x y hx

theorem Settles.mapM {f : α → Option α} (hf : Settles f) : Settles (List.mapM f) :=
  fun _ _ h => mapM_self_iff.2 (mapM_settled hf h)

theorem mapM_length (h : xs.mapM f = some ys) : ys.length = xs.length := by
  induction xs generalizing ys with
  | nil =>
    cases h
    rfl
  | cons x xs ih =>
    obtain ⟨y, ys', -, hys', rfl⟩ := mapM_cons_some.1 h
    rw [List.length_cons, List.length_cons, ih hys']

/-! ## Finite maps -/

variable [DecidableEq α]

/-- The map that holds the entries of a list, the last one of a key. -/
def fromEntries (es : List (α × β)) (acc : Finmap fun _ : α => β) : Finmap fun _ : α => β :=
  es.foldl (fun acc e => acc.insert e.1 e.2) acc

/-- The entries of a map at the given keys. -/
def entriesAt (m : Finmap fun _ : α => β) (keys : List α) : List (α × β) :=
  keys.filterMap fun k => (m.lookup k).map fun v => (k, v)

variable {keys : List α} {k : α} {v : β} {es : List (α × β)} {acc : Finmap fun _ : α => β}

theorem mem_entriesAt {m : Finmap fun _ : α => β} :
    (k, v) ∈ entriesAt m keys ↔ k ∈ keys ∧ m.lookup k = some v := by
  rw [entriesAt, List.mem_filterMap]
  constructor
  · rintro ⟨k', hk', h⟩
    obtain ⟨v', hv', heq⟩ := Option.map_eq_some_iff.1 h
    cases heq
    exact ⟨hk', hv'⟩
  · rintro ⟨hk, hv⟩
    exact ⟨k, hk, by rw [hv]; rfl⟩

theorem mem_of_lookup_fromEntries (h : (fromEntries es acc).lookup k = some v) :
    (k, v) ∈ es ∨ acc.lookup k = some v := by
  induction es generalizing acc with
  | nil => exact Or.inr h
  | cons e es ih =>
    have hrest : (fromEntries es (acc.insert e.1 e.2)).lookup k = some v := h
    rcases ih hrest with hmem | hacc
    · exact Or.inl (List.mem_cons_of_mem e hmem)
    · by_cases hk : k = e.1
      · subst hk
        rw [Finmap.lookup_insert] at hacc
        cases hacc
        exact Or.inl List.mem_cons_self
      · rw [Finmap.lookup_insert_of_ne _ hk] at hacc
        exact Or.inr hacc

theorem lookup_fromEntries_of_notMem (h : ∀ v, (k, v) ∉ es) :
    (fromEntries es acc).lookup k = acc.lookup k := by
  induction es generalizing acc with
  | nil => rfl
  | cons e es ih =>
    have hne : k ≠ e.1 := by
      rintro rfl
      exact h e.2 List.mem_cons_self
    show (fromEntries es (acc.insert e.1 e.2)).lookup k = _
    rw [ih fun v hv => h v (List.mem_cons_of_mem e hv), Finmap.lookup_insert_of_ne _ hne]

theorem lookup_fromEntries_of_mem (hkeys : (es.map Prod.fst).Nodup) (h : (k, v) ∈ es) :
    (fromEntries es acc).lookup k = some v := by
  induction es generalizing acc with
  | nil => cases h
  | cons e es ih =>
    rw [List.map_cons, List.nodup_cons] at hkeys
    show (fromEntries es (acc.insert e.1 e.2)).lookup k = _
    rcases List.mem_cons.1 h with rfl | hmem
    · rw [lookup_fromEntries_of_notMem, Finmap.lookup_insert]
      intro v' hv'
      exact hkeys.1 (List.mem_map.2 ⟨(k, v'), hv', rfl⟩)
    · exact ih hkeys.2 hmem

theorem entriesAt_keys_nodup (m : Finmap fun _ : α => β) (h : keys.Nodup) :
    ((entriesAt m keys).map Prod.fst).Nodup := by
  have hsub : List.Sublist ((entriesAt m keys).map Prod.fst) keys := by
    clear h
    induction keys with
    | nil => exact List.Sublist.slnil
    | cons k keys ih =>
      cases hk : m.lookup k with
      | none =>
        rw [entriesAt, List.filterMap_cons, hk]
        exact List.Sublist.cons k ih
      | some v =>
        rw [entriesAt, List.filterMap_cons, hk]
        exact List.Sublist.cons_cons k ih
  exact hsub.nodup h

/-- A map is made of its entries, in any order of its keys. -/
theorem fromEntries_eq (m : Finmap fun _ : α => β) (hnodup : keys.Nodup)
    (hkeys : ∀ k, k ∈ keys ↔ k ∈ m) : fromEntries (entriesAt m keys) ∅ = m := by
  apply Finmap.ext_lookup
  intro k
  cases hk : m.lookup k with
  | some v =>
    have hmem : k ∈ m := Finmap.mem_iff.2 ⟨v, hk⟩
    exact lookup_fromEntries_of_mem (entriesAt_keys_nodup m hnodup)
      (mem_entriesAt.2 ⟨(hkeys k).2 hmem, hk⟩)
  | none =>
    rw [lookup_fromEntries_of_notMem, Finmap.lookup_empty]
    intro v hv
    have hsome := (mem_entriesAt.1 hv).2
    rw [hk] at hsome
    cases hsome

end Retract

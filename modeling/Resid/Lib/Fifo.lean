import Mathlib.Algebra.GroupWithZero.Nat
import Mathlib.Data.List.Infix
import Mathlib.Tactic.Common

/-!
# A first-in first-out table of bounded size

Entries are listed newest first.  Every entry has a size; when the sizes add up to more than the
table may hold, the oldest entries go.  The table also remembers everything it was ever given.

    total size (evict size max l) ≤ max                             (total_evict_le)
    t.entries[i]? = some e → t.all[i]? = some e                     (Fifo.getElem?_all)

## Algorithm

Entries leave at the far end only, so what is left is at the same indices in the list of all
entries ever inserted.
-/

namespace Eviction

variable {α : Type} (size : α → Nat)

def total (l : List α) : Nat := (l.map size).sum

/-- Entries go from the far end until the rest fits. -/
def evict (max : Nat) (l : List α) : List α :=
  if l = [] ∨ total size l ≤ max then l else evict max l.dropLast
termination_by l.length
decreasing_by
  rename_i h
  rw [not_or] at h
  have hpos := List.length_pos_iff.2 h.1
  rw [List.length_dropLast]
  omega

theorem evict_kept (max : Nat) (l : List α) : evict size max l <+: l := by
  induction hn : l.length generalizing l with
  | zero =>
    rw [evict, if_pos (Or.inl (List.length_eq_zero_iff.1 hn))]
  | succ n ih =>
    rw [evict]
    split_ifs
    · exact List.prefix_refl l
    · exact (ih l.dropLast (by rw [List.length_dropLast]; omega)).trans (List.dropLast_prefix l)

theorem total_evict_le (max : Nat) (l : List α) : total size (evict size max l) ≤ max := by
  induction hn : l.length generalizing l with
  | zero =>
    obtain rfl := List.length_eq_zero_iff.1 hn
    rw [evict, if_pos (Or.inl rfl)]
    exact Nat.zero_le max
  | succ n ih =>
    rw [evict]
    split_ifs with h
    · rcases h with rfl | h
      · exact Nat.zero_le max
      · exact h
    · exact ih l.dropLast (by rw [List.length_dropLast]; omega)

/-- A table of size at most `max`, beside everything inserted so far. -/
structure Fifo where
  entries : List α
  all : List α
  max : Nat
  fits : total size entries ≤ max
  kept : entries <+: all

namespace Fifo

variable {size}

def empty (max : Nat) : Fifo size := ⟨[], [], max, Nat.zero_le max, List.prefix_refl []⟩

/-- A new maximum; the oldest entries go until the rest fits. -/
def resize (t : Fifo size) (max : Nat) : Fifo size where
  entries := evict size max t.entries
  all := t.all
  max := max
  fits := total_evict_le size max t.entries
  kept := (evict_kept size max t.entries).trans t.kept

/-- Room is made for the new entry first; one larger than the table empties it. -/
def insert (t : Fifo size) (e : α) : Fifo size where
  entries := if size e ≤ t.max then e :: evict size (t.max - size e) t.entries else []
  all := e :: t.all
  max := t.max
  fits := by
    split_ifs with h
    · have hle := total_evict_le size (t.max - size e) t.entries
      show size e + total size (evict size (t.max - size e) t.entries) ≤ t.max
      omega
    · exact Nat.zero_le t.max
  kept := by
    split_ifs
    · exact (List.cons_prefix_cons).2 ⟨rfl, (evict_kept size _ t.entries).trans t.kept⟩
    · exact List.nil_prefix

/-- An index of the table is one of everything inserted. -/
theorem getElem?_all {t : Fifo size} {i : Nat} {e : α} (h : t.entries[i]? = some e) :
    t.all[i]? = some e := by
  obtain ⟨older, hall⟩ := t.kept
  have hi := (List.getElem?_eq_some_iff.1 h).1
  rw [← hall, List.getElem?_append_left hi, h]

end Fifo

end Eviction

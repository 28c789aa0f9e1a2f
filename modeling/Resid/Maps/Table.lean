import Mathlib.Data.List.Count
import Resid.Maps.TrieRuns
import Resid.Lib.Sorting

/-!
# The open-addressing table under a map

The other mode of a map: slots searched in turn from a key's own, at most half of them used.
A deleted key leaves a tombstone, which a search passes and an insertion does not fill.

## Algorithm

A key goes to the first empty slot from its own.  When the slots are half used the table is
rebuilt: twice the slots, or as many again when most were tombstones.  A raw Int table places
its keys by `mix`, and two Ints, which mark empty and deleted slots there, out of band.  A key
of another kind turns the table into one of boxed keys.  The entries are listed sorted by
canonical rank, stably over the slots' order.
-/

namespace Maps

open Ranked

/-- How a table's keys are kept: raw Ints, bare strings, boxed. -/
inductive Kind
  | raw
  | bare
  | boxed
deriving DecidableEq

/-- What a table computes from keys: hashes, equality, which kinds a key fits, and a raw key's
word. -/
structure KeyOps (κ : Type) where
  hash : κ → Nat
  eq : κ → κ → Bool
  fits : Kind → κ → Bool
  word : κ → BitVec 64

/-- Keys that equality and hashes tell apart in one way. -/
structure TableKeys (κ : Type) extends KeyOps κ, Keys κ where
  fits_boxed : ∀ k, fits .boxed k = true
  fits_eq : ∀ kind a b, eq a b = true → fits kind a = fits kind b
  word_eq : ∀ a b, eq a b = true → word a = word b
  word_inj : ∀ a b, fits .raw a = true → fits .raw b = true → word a = word b → eq a b = true

instance {κ : Type} : Coe (TableKeys κ) (KeyOps κ) := ⟨TableKeys.toKeyOps⟩

inductive Slot (κ υ : Type)
  | empty
  | tomb
  | entry (k : κ) (v : υ)

def Slot.item {κ υ : Type} : Slot κ υ → Option (κ × υ)
  | .entry k v => some (k, v)
  | _ => none

/-- A table: its live entries and tombstones counted, its slots, and the entries of the two
marking Ints. -/
structure Table (κ υ : Type) where
  live : Nat
  tombs : Nat
  kind : Kind
  slots : List (Slot κ υ)
  oob : List (Slot κ υ)

variable {κ υ : Type}

def Table.cap (t : Table κ υ) : Nat := t.slots.length

def tAlloc (cap : Nat) (kind : Kind) : Table κ υ :=
  ⟨0, 0, kind, List.replicate cap .empty, List.replicate 2 .empty⟩

/-- An empty table of the kind its first update decides. -/
def tabNew (kind : Kind) : Table κ υ := tAlloc 16 kind

/-- What stands in slot and out-of-band order. -/
def Table.cells (t : Table κ υ) : List (Slot κ υ) := t.slots ++ t.oob

/-- The live entries in the order `t_next` meets them. -/
def tScan (t : Table κ υ) : List (κ × υ) := t.cells.filterMap Slot.item

variable (K : KeyOps κ)

def rawEmpty : BitVec 64 := -9223372036854775807#64 - 1#64

def rawTomb : BitVec 64 := -9223372036854775807#64

def mix (k0 : BitVec 64) : BitVec 64 :=
  let k1 := k0 ^^^ (k0 >>> 33)
  let k2 := k1 * (0#64 - 49064778989728563#64)
  k2 ^^^ (k2 >>> 33)

def tHash (kind : Kind) (k : κ) : Nat :=
  if kind = .raw then (mix (K.word k)).toNat else K.hash k

/-- Where a key that marks slots is kept. -/
def tOob (kind : Kind) (k : κ) : Option Nat :=
  if kind ≠ .raw then none
  else if K.word k = rawEmpty then some 0
  else if K.word k = rawTomb then some 1
  else none

/-- Whether `used` slots overfill `cap`. -/
def tOver (used cap : Nat) : Bool := used * 2 > cap

/-! ## Searching -/

inductive Probe
  | found (i : Nat)
  | free (i : Nat)

/-- The slot of `k` from slot `i`, or the first empty one; `fuel` slots at most. -/
def probeAt (slots : List (Slot κ υ)) (k : κ) : (fuel i : Nat) → Option Probe
  | 0, _ => none
  | fuel + 1, i =>
    match slots[i]? with
    | some .empty => some (.free i)
    | some (.entry s _) =>
      if K.eq s k then some (.found i) else probeAt slots k fuel ((i + 1) &&& (slots.length - 1))
    | _ => probeAt slots k fuel ((i + 1) &&& (slots.length - 1))

/-- A search that passes every slot does not end. -/
def tProbe (t : Table κ υ) (k : κ) : Option Probe :=
  probeAt K t.slots k t.cap (tHash K t.kind k &&& (t.cap - 1))

/-! ## Inserting -/

/-- Slot `i`, or behind the slots an out-of-band place, made `s`. -/
def Table.setCell (t : Table κ υ) (i : Nat) (s : Slot κ υ) : Table κ υ :=
  if i < t.cap then { t with slots := t.slots.set i s }
  else { t with oob := t.oob.set (i - t.cap) s }

/-- Store an absent key in the first empty slot of its search. -/
def tStore (t : Table κ υ) (k : κ) (v : υ) : Option (Table κ υ) :=
  match tProbe K t k with
  | some (.free i) => some { t.setCell i (.entry k v) with live := t.live + 1 }
  | _ => none

/-- The entries of `t` inserted in turn into `cap` empty slots of `kind`. -/
def tRebuild (insert : Table κ υ → κ → υ → Option (Table κ υ)) (t : Table κ υ) (cap : Nat)
    (kind : Kind) : Option (Table κ υ) :=
  (tScan t).foldlM (fun t e => insert t e.1 e.2) (tAlloc cap kind)

/-- The slots after a rebuild of a full table. -/
def tGrown (t : Table κ υ) : Nat := if t.live * 4 > t.cap then t.cap * 2 else t.cap

/-- Insert a key known to be absent; rebuilds nest `depth` deep at most. -/
def tInsertNew (depth : Nat) (t : Table κ υ) (k : κ) (v : υ) : Option (Table κ υ) :=
  match tOob K t.kind k with
  | some o => some { t.setCell (t.cap + o) (.entry k v) with live := t.live + 1 }
  | none =>
    if tOver (t.live + t.tombs + 1) t.cap then
      match depth with
      | 0 => none
      | depth + 1 => do
        let t ← tRebuild (tInsertNew depth) t (tGrown t) t.kind
        tStore K t k v
    else tStore K t k v

/-! ## Updates -/

/-- The place of a key's entry among the cells, if it has one; none when the search does not
end. -/
def tRef (t : Table κ υ) (k : κ) : Option (Option Nat) :=
  if t.live = 0 ∨ K.fits t.kind k = false then some none
  else
    match tOob K t.kind k with
    | some o =>
      match t.oob[o]? with
      | some (.entry _ _) => some (some (t.cap + o))
      | _ => some none
    | none =>
      match tProbe K t k with
      | some (.found i) => some (some i)
      | some (.free _) => some none
      | none => none

/-- A table that can keep `k`: of boxed keys when it could not. -/
def tKeyIn (t : Table κ υ) (k : κ) : Option (Table κ υ) :=
  if K.fits t.kind k then some t else tRebuild (tInsertNew K 1) t t.cap .boxed

/-- An equal key keeps its place and its own key. -/
def tPut (t : Table κ υ) (k : κ) (v : υ) : Option (Table κ υ) := do
  let t ← tKeyIn K t k
  let ref ← tRef K t k
  match ref with
  | some i =>
    match t.cells[i]? with
    | some (.entry k0 _) => some (t.setCell i (.entry k0 v))
    | _ => none
  | none => tInsertNew K 2 t k v

def tDel (t : Table κ υ) (k : κ) : Option (Table κ υ) := do
  let ref ← tRef K t k
  match ref with
  | none => some t
  | some i =>
    if i < t.cap then
      some { t.setCell i .tomb with live := t.live - 1, tombs := t.tombs + 1 }
    else some { t.setCell i .empty with live := t.live - 1 }

def tStep (t : Table κ υ) : Op κ υ → Option (Table κ υ)
  | .insert k v => tPut K t k v
  | .remove k => tDel K t k

def tRun (kind : Kind) (ops : List (Op κ υ)) : Option (Table κ υ) :=
  ops.foldlM (tStep K) (tabNew kind)

/-! ## Listing -/

def entRank (e : κ × υ) : Nat := canonRank (K.hash e.1)

/-- Two runs merged; of equal ranks the left run's entry first. -/
def entMerge : List (κ × υ) → List (κ × υ) → List (κ × υ)
  | [], ys => ys
  | xs, [] => xs
  | x :: xs, y :: ys =>
    if entRank K y < entRank K x then y :: entMerge (x :: xs) ys else x :: entMerge xs (y :: ys)
termination_by xs ys => xs.length + ys.length

/-- The runs of `w` entries merged two by two. -/
def entPass (w : Nat) (es : List (κ × υ)) : List (κ × υ) :=
  if _h : es = [] ∨ w = 0 then es
  else
    entMerge K (es.take w) ((es.drop w).take w) ++ entPass w (es.drop (2 * w))
termination_by es.length
decreasing_by
  have hpos := List.length_pos_iff.2 fun h0 => _h (.inl h0)
  have hw : w ≠ 0 := fun h0 => _h (.inr h0)
  rw [List.length_drop]
  omega

/-- Passes over `n` entries, the runs twice as long each time. -/
def entSort (n w : Nat) (es : List (κ × υ)) : List (κ × υ) :=
  if _h : w ≥ n ∨ w = 0 then es else entSort n (w * 2) (entPass K w es)
termination_by n - w

/-- A table's entries in canonical order. -/
def tEntries (t : Table κ υ) : List (κ × υ) := entSort K t.live 1 (tScan t)

end Maps

/-!
## Searching a table

    TableOk K t: slots a power of two, half of them used at most, no two keys equal, and a
      slot of every key's own that its search reaches over used slots alone
    the search for a key with an entry finds it                               (tProbe_found)
    the search for one without ends at an empty slot                           (tProbe_free)
-/

namespace Maps

open Ranked Stable

variable {κ υ : Type} {K : TableKeys κ}

/-! ## The order of a search -/

/-- The slot `d` steps from a hash's own. -/
def slotAt (cap h d : Nat) : Nat := (h + d) &&& (cap - 1)

variable {cap i n : Nat} {a k : κ} {t : Table κ υ} {kind : Kind}

theorem slotAt_eq (hcap : cap = 2 ^ n) (h d : Nat) : slotAt cap h d = (h + d) % cap := by
  unfold slotAt
  rw [hcap]
  exact Nat.and_two_pow_sub_one_eq_mod _ n

theorem slotAt_lt (hcap : cap = 2 ^ n) (h d : Nat) : slotAt cap h d < cap := by
  rw [slotAt_eq hcap]
  apply Nat.mod_lt
  rw [hcap]
  exact Nat.pow_pos (by decide)

theorem slotAt_succ (hcap : cap = 2 ^ n) (h d : Nat) :
    (slotAt cap h d + 1) &&& (cap - 1) = slotAt cap h (d + 1) := by
  have hand : (slotAt cap h d + 1) &&& (cap - 1) = slotAt cap (slotAt cap h d) 1 := rfl
  rw [hand, slotAt_eq hcap, slotAt_eq hcap, slotAt_eq hcap, Nat.mod_add_mod, Nat.add_assoc]

/-- A search comes by every slot. -/
theorem exists_slotAt (hcap : cap = 2 ^ n) (hi : i < cap) (h : Nat) :
    ∃ d < cap, slotAt cap h d = i := by
  have hlt : h % cap < cap := Nat.mod_lt _ (by omega)
  have hmod : ∀ d, slotAt cap h d = (h % cap + d) % cap := by
    intro d
    rw [slotAt_eq hcap, Nat.mod_add_mod]
  rcases Nat.lt_or_ge i (h % cap) with hlow | hhigh
  · refine ⟨cap - h % cap + i, by omega, ?_⟩
    rw [hmod, show h % cap + (cap - h % cap + i) = i + cap by omega, Nat.add_mod_right,
      Nat.mod_eq_of_lt hi]
  · refine ⟨i - h % cap, by omega, ?_⟩
    rw [hmod, show h % cap + (i - h % cap) = i by omega, Nat.mod_eq_of_lt hi]

/-! ## Slots that end a search -/

def Slot.used : Slot κ υ → Bool
  | .empty => false
  | _ => true

/-- An empty slot or the key's own. -/
def stops (K : TableKeys κ) (k : κ) : Slot κ υ → Bool
  | .empty => true
  | .tomb => false
  | .entry s _ => K.eq s k

/-- How a search ends at slot `i`. -/
def probeOf (i : Nat) : Slot κ υ → Probe
  | .empty => .free i
  | _ => .found i

/-- A search goes on over the slots that do not end it. -/
theorem probeAt_walk {slots : List (Slot κ υ)} {h m : Nat} {c : Slot κ υ}
    (hcap : slots.length = 2 ^ n) (hc : slots[slotAt slots.length h m]? = some c)
    (hstop : stops K k c = true) (d fuel : Nat) (hd : d ≤ m) (hfuel : m < d + fuel)
    (hpass : ∀ j, d ≤ j → j < m → ∀ c, slots[slotAt slots.length h j]? = some c →
      stops K k c = false) :
    probeAt K slots k fuel (slotAt slots.length h d) = some (probeOf (slotAt slots.length h m) c) := by
  induction fuel generalizing d with
  | zero => omega
  | succ fuel ih =>
    have hlt := slotAt_lt hcap h d
    rcases Nat.lt_or_ge d m with hdm | hdm
    · obtain ⟨b, hb⟩ : ∃ b, slots[slotAt slots.length h d]? = some b :=
        ⟨_, List.getElem?_eq_getElem hlt⟩
      have hnot := hpass d (Nat.le_refl d) hdm b hb
      have hnext := ih (d + 1) hdm (by omega) fun j hj hjm => hpass j (by omega) hjm
      rw [probeAt, hb]
      rw [← slotAt_succ hcap] at hnext
      cases b with
      | empty => cases hnot
      | tomb => exact hnext
      | entry s v =>
        have hne : K.eq s k = false := hnot
        simp only
        rw [hne, if_neg Bool.false_ne_true]
        exact hnext
    · have hdm' : d = m := by omega
      subst hdm'
      rw [probeAt, hc]
      cases c with
      | empty => rfl
      | tomb => cases hstop
      | entry s v =>
        have heq : K.eq s k = true := hstop
        simp only
        rw [heq, if_pos rfl]
        rfl

/-- A search that comes by a slot that ends it ends there or before, at the first such. -/
theorem probeAt_first {slots : List (Slot κ υ)} {h d : Nat} {c : Slot κ υ}
    (hcap : slots.length = 2 ^ n) (hd : d < slots.length)
    (hc : slots[slotAt slots.length h d]? = some c) (hstop : stops K k c = true) :
    ∃ m ≤ d, ∃ b, slots[slotAt slots.length h m]? = some b ∧ stops K k b = true ∧
      (∀ j < m, ∀ b, slots[slotAt slots.length h j]? = some b → stops K k b = false) ∧
      probeAt K slots k slots.length (slotAt slots.length h 0) =
        some (probeOf (slotAt slots.length h m) b) := by
  have hex : ∃ m, ∃ b, slots[slotAt slots.length h m]? = some b ∧ stops K k b = true :=
    ⟨d, c, hc, hstop⟩
  classical
  obtain ⟨b, hb, hbstop⟩ := Nat.find_spec hex
  have hle : Nat.find hex ≤ d := Nat.find_min' hex ⟨c, hc, hstop⟩
  have hpass : ∀ j < Nat.find hex, ∀ b, slots[slotAt slots.length h j]? = some b →
      stops K k b = false := by
    intro j hj b hb
    rw [Bool.eq_false_iff]
    exact fun hs => Nat.find_min hex hj ⟨b, hb, hs⟩
  refine ⟨Nat.find hex, hle, b, hb, hbstop, hpass, ?_⟩
  exact probeAt_walk hcap hb hbstop 0 slots.length (Nat.zero_le _) (by omega)
    fun j _ hj => hpass j hj

/-! ## The invariant -/

/-- Where a key may stand: its out-of-band place, or a slot its search reaches. -/
def Placed (K : TableKeys κ) (kind : Kind) (slots : List (Slot κ υ)) (k : κ) (i : Nat) : Prop :=
  K.fits kind k = true ∧
    match tOob K kind k with
    | some o => i = slots.length + o
    | none => ∃ d < slots.length, i = slotAt slots.length (tHash K kind k) d ∧
      ∀ j < d, ∃ c, slots[slotAt slots.length (tHash K kind k) j]? = some c ∧ c.used = true

structure TableOk (K : TableKeys κ) (t : Table κ υ) : Prop where
  sized : ∃ n, 4 ≤ n ∧ t.slots.length = 2 ^ n
  oob_two : t.oob.length = 2
  live_eq : t.live = (tScan t).length
  used_eq : t.slots.countP Slot.used + (t.oob.filterMap Slot.item).length = t.live + t.tombs
  half : t.slots.countP Slot.used * 2 ≤ t.slots.length
  placed : ∀ (i : Nat) k v, t.cells[i]? = some (Slot.entry k v) → Placed K t.kind t.slots k i
  distinct : ∀ (i j : Nat) a b v w, t.cells[i]? = some (Slot.entry a v) → t.cells[j]? = some (Slot.entry b w) →
    K.eq a b = true → i = j

/-- No entry of the table has a key equal to `k`. -/
def Absent (K : TableKeys κ) (k : κ) (t : Table κ υ) : Prop := ∀ e ∈ tScan t, K.eq e.1 k = false

theorem mem_scan {e : κ × υ} :
    e ∈ tScan t ↔ ∃ i : Nat, t.cells[i]? = some (Slot.entry e.1 e.2) := by
  unfold tScan
  rw [List.mem_filterMap]
  constructor
  · rintro ⟨s, hs, hitem⟩
    obtain ⟨i, hi⟩ := List.mem_iff_getElem?.1 hs
    cases s with
    | entry k v =>
      cases hitem
      exact ⟨i, hi⟩
    | empty => cases hitem
    | tomb => cases hitem
  · rintro ⟨i, hi⟩
    exact ⟨_, List.mem_of_getElem? hi, rfl⟩

theorem tHash_congr {b : κ} (h : K.eq a b = true) : tHash K kind a = tHash K kind b := by
  unfold tHash
  rw [K.word_eq a b h, K.hash_eq a b h]

theorem tOob_congr {b : κ} (h : K.eq a b = true) : tOob K kind a = tOob K kind b := by
  unfold tOob
  rw [K.word_eq a b h]

theorem tOob_lt {o : Nat} (h : tOob K kind k = some o) : o < 2 := by
  unfold tOob at h
  split_ifs at h <;> cases h <;> decide

theorem cells_slot (h : i < t.slots.length) : t.cells[i]? = t.slots[i]? :=
  List.getElem?_append_left h

theorem cells_oob (o : Nat) : t.cells[t.slots.length + o]? = t.oob[o]? := by
  unfold Table.cells
  rw [List.getElem?_append_right (Nat.le_add_right _ _), Nat.add_sub_cancel_left]

/-! ## What a search finds -/

/-- The search for a key with an entry finds it. -/
theorem tProbe_found (h : TableOk K t) {v : υ} (hoob : tOob K t.kind k = none)
    (hi : t.cells[i]? = some (Slot.entry a v)) (heq : K.eq a k = true) :
    tProbe K t k = some (.found i) := by
  obtain ⟨n, -, hcap⟩ := h.sized
  obtain ⟨-, hplace⟩ := h.placed i a v hi
  rw [tOob_congr heq, hoob] at hplace
  obtain ⟨d, hd, rfl, hused⟩ := hplace
  rw [tHash_congr heq] at hi hused
  have hlt := slotAt_lt hcap (tHash K t.kind k) d
  rw [cells_slot hlt] at hi
  -- the first slot that ends the search is the entry's own
  obtain ⟨m, hm, c, hc, hstop, -, hprobe⟩ := probeAt_first hcap hd hi heq
  have hentry : ∃ a' v', c = .entry a' v' ∧ K.eq a' k = true := by
    cases c with
    | empty =>
      rcases Nat.lt_or_ge m d with hmd | hmd
      · obtain ⟨b, hb, hbused⟩ := hused m hmd
        rw [hc] at hb
        cases hb
        cases hbused
      · rw [show m = d by omega, hi] at hc
        cases hc
    | tomb => cases hstop
    | entry a' v' => exact ⟨a', v', rfl, hstop⟩
  obtain ⟨a', v', rfl, heq'⟩ := hentry
  have hsame : slotAt t.slots.length (tHash K t.kind k) m =
      slotAt t.slots.length (tHash K t.kind k) d := by
    apply h.distinct _ _ a' a v' v
    · rw [cells_slot (slotAt_lt hcap _ _)]
      exact hc
    · rw [cells_slot hlt]
      exact hi
    · exact K.trans _ _ _ heq' (K.symm _ _ heq)
  rw [tHash_congr heq, ← hsame]
  exact hprobe

/-- The search for a key without one ends at an empty slot. -/
theorem tProbe_free (h : TableOk K t) (habs : Absent K k t) : ∃ d < t.slots.length,
      tProbe K t k = some (.free (slotAt t.slots.length (tHash K t.kind k) d)) ∧
      t.slots[slotAt t.slots.length (tHash K t.kind k) d]? = some .empty ∧
      ∀ j < d, ∃ c, t.slots[slotAt t.slots.length (tHash K t.kind k) j]? = some c ∧
        c.used = true := by
  obtain ⟨n, -, hcap⟩ := h.sized
  have hpos : 0 < t.slots.length := by
    rw [hcap]
    exact Nat.pow_pos (by decide)
  obtain ⟨s, hs, hfree⟩ : ∃ s ∈ t.slots, s.used = false := by
    apply List.countP_lt_length_iff.1
    have := h.half
    omega
  have hempty : s = .empty := by
    cases s with
    | empty => rfl
    | tomb => cases hfree
    | entry a v => cases hfree
  subst hempty
  obtain ⟨i, hi⟩ := List.mem_iff_getElem?.1 hs
  have hilt : i < t.slots.length := (List.getElem?_eq_some_iff.1 hi).1
  obtain ⟨d, hd, rfl⟩ := exists_slotAt hcap hilt (tHash K t.kind k)
  obtain ⟨m, hm, c, hc, hstop, hpass, hprobe⟩ :=
    probeAt_first (K := K) (k := k) hcap hd hi rfl
  have hcempty : c = .empty := by
    cases c with
    | empty => rfl
    | tomb => cases hstop
    | entry a v =>
      have hmem : (a, v) ∈ tScan t := by
        refine mem_scan.2 ⟨slotAt t.slots.length (tHash K t.kind k) m, ?_⟩
        rw [cells_slot (slotAt_lt hcap _ _)]
        exact hc
      have hne := habs (a, v) hmem
      have heq : K.eq a k = true := hstop
      rw [heq] at hne
      cases hne
  subst hcempty
  refine ⟨m, by omega, hprobe, hc, ?_⟩
  intro j hj
  have hlt := slotAt_lt hcap (tHash K t.kind k) j
  refine ⟨_, List.getElem?_eq_getElem hlt, ?_⟩
  have hnot := hpass j hj _ (List.getElem?_eq_getElem hlt)
  cases hb : t.slots[slotAt t.slots.length (tHash K t.kind k) j] with
  | empty =>
    rw [hb] at hnot
    cases hnot
  | tomb => rfl
  | entry a v => rfl

end Maps

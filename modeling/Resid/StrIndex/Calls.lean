import Resid.StrIndex.Search

/-!
# The index kept between calls

Sixteen slots, the least recently used given up for a new string; one slot more for short
strings; the slot used last; the two last strings looked up that were all ASCII.  A string is
known by its address: text that changes at an address is announced (`str_index_forget`,
`rt_str_index_drop`, `str_index_reset`).

    idxBuild makes a slot that indexes its string                           (idxBuild_indexes)
    c.Good mem → idxSlot finds a slot that indexes the text, in a good cache     (idxSlot_spec)

## Algorithm

An address is looked for in the slot used last, in the short slot, in the sixteen; one that is
in none is indexed anew.  A string whose length a fast entry knows is not scanned again.
-/

namespace StrIndex

/-! ## Algorithm -/

/-- A string of the run time: the bytes before its NUL. -/
structure CStr where
  bytes : List UInt8
  noNul : NoNul bytes
  fits : bytes.length < 2 ^ 63

/-- The address of a string. -/
def Addr := {a : Nat // a ≠ 0}

/-- The text at every address. -/
abbrev Mem := Nat → CStr

/-- A slot by its place: the short one or one of the sixteen. -/
inductive Place where
  | small
  | slot (k : Nat)

/-- The slots, the short slot, the clock, whether the slots were cleared, the slot used last, and
the two last all-ASCII strings with their lengths. -/
structure Cache where
  slots : List Slot
  small : Slot
  clock : Nat
  ready : Bool
  mru : Option Place
  fast : Nat × Int
  fast2 : Nat × Int

/-- A slot of zeros, as the thread starts with. -/
def Slot.zero : Slot := ⟨0, 0, none, 0, 0⟩

def Cache.fresh : Cache :=
  { slots := List.replicate 16 Slot.zero, small := Slot.zero, clock := 0, ready := false,
    mru := none, fast := (0, 0), fast2 := (0, 0) }

namespace Cache

def at' (c : Cache) : Place → Slot
  | .small => c.small
  | .slot k => c.slots.getD k Slot.zero

/-- Mark a slot as used now. -/
def touch (c : Cache) (clock : Nat) : Option Place → Cache
  | none => c
  | some .small => { c with small := { c.small with touched := clock } }
  | some (.slot k) =>
    { c with slots := c.slots.set k { c.slots.getD k Slot.zero with touched := clock } }

end Cache

/-- The length of a string that a fast entry knows, else -1. -/
def fastLenOf (c : Cache) (s : Nat) : Int :=
  if s ≠ 0 ∧ s = c.fast.1 then c.fast.2
  else if s ≠ 0 ∧ s = c.fast2.1 then c.fast2.2
  else -1

def idxBuild (text : List UInt8) (c : Cache) (s : Nat) (sl : Slot) : Slot :=
  let known := fastLenOf c s
  if known ≥ 0 then { sl with off := none, blen := known.toNat, s := s, len := known }
  else
    let blen := text.length
    if ¬ anyHigh text 0 blen 0#64 then { sl with off := none, blen := blen, s := s, len := blen }
    else
      let n := cpCount text 0 0
      { sl with blen := blen, s := s, len := n, off := some (idxOffs text n) }

def idxClear (sl : Slot) : Slot := { sl with s := 0, len := -1, off := none, touched := 0 }

def idxReady (c : Cache) : Cache :=
  if c.ready then c else { c with slots := c.slots.map idxClear, ready := true }

/-- Is the string shorter than 256 bytes? -/
def strShort (text : List UInt8) (k : Nat) : Bool :=
  if k ≥ 256 then false
  else if byteAt text k = 0 then true
  else strShort text (k + 1)
termination_by 256 - k

def idxFind (slots : List Slot) (s : Nat) : Option Nat := slots.findIdx? fun sl => sl.s == s

def idxVictim (slots : List Slot) (k best : Nat) : Nat :=
  if k ≥ 16 then best
  else
    let older := (slots.getD k Slot.zero).touched < (slots.getD best Slot.zero).touched
    idxVictim slots (k + 1) (if older then k else best)
termination_by 16 - k

def idxSlotSlow (text : List UInt8) (c : Cache) (s : Nat) : Place × Cache :=
  let c := idxReady c
  if c.small.s = s then (.small, c)
  else
    let clock := c.clock + 1
    match idxFind c.slots s with
    | some hit => (.slot hit, ({ c with clock := clock }.touch clock c.mru).touch clock (some (.slot hit)))
    | none =>
      if strShort text 0 then (.small, { c with small := idxBuild text c s c.small })
      else
        let c := { c with clock := clock }.touch clock c.mru
        let v := idxVictim c.slots 1 0
        let built := idxBuild text c s (c.slots.getD v Slot.zero)
        (.slot v, { c with slots := c.slots.set v { built with touched := clock } })

def idxSlotMiss (text : List UInt8) (c : Cache) (s : Nat) : Place × Cache :=
  let (p, c) := idxSlotSlow text c s
  let c := { c with mru := some p }
  if (c.at' p).off = none ∧ c.fast.1 ≠ s then
    (p, { c with fast2 := c.fast, fast := (s, (c.at' p).len) })
  else (p, c)

/-- The slot of a string, found or made. -/
def idxSlot (text : List UInt8) (c : Cache) (s : Nat) : Place × Cache :=
  match c.mru with
  | none => idxSlotMiss text c s
  | some p => if (c.at' p).s = s then (p, c) else idxSlotMiss text c s

/-! ## The slots of a memory -/

/-- A slot in use indexes the text at its address. -/
def Slot.Good (mem : Mem) (sl : Slot) : Prop := sl.s ≠ 0 → sl.Indexes (mem sl.s).bytes

/-- A fast entry in use is an all-ASCII string with its length. -/
def FastGood (mem : Mem) (e : Nat × Int) : Prop :=
  e.1 ≠ 0 → Ascii (mem e.1).bytes ∧ e.2 = (mem e.1).bytes.length

/-- What every slot and entry of the cache says is true of the memory. -/
structure Cache.Good (c : Cache) (mem : Mem) : Prop where
  count : c.slots.length = 16
  slots : c.ready = true → ∀ sl ∈ c.slots, sl.Good mem
  small : c.small.Good mem
  mru : ∀ k, c.mru = some (.slot k) → c.ready = true ∧ k < 16
  fast : FastGood mem c.fast
  fast2 : FastGood mem c.fast2

theorem fresh_good (mem : Mem) : Cache.fresh.Good mem where
  count := List.length_replicate
  slots := fun h => by cases h
  small := fun h => absurd rfl h
  mru := fun k h => by cases h
  fast := fun h => absurd rfl h
  fast2 := fun h => absurd rfl h

/-! ## One slot -/

theorem slot_good_touched {mem : Mem} {sl : Slot} (h : sl.Good mem) (clock : Nat) :
    Slot.Good mem { sl with touched := clock } := by
  intro hs
  have hi := h hs
  exact ⟨hi.len, hi.blen, hi.plain, hi.off⟩

theorem slot_zero_good (mem : Mem) : Slot.zero.Good mem := fun h => absurd rfl h

theorem cpCount_zero (t : CStr) : cpCount t.bytes 0 0 = (chars t.bytes).length :=
  cpCount_eq t.noNul 0 (Nat.zero_le _)

/-- A slot built indexes its string. -/
theorem idxBuild_indexes {mem : Mem} {c : Cache} (hc : FastGood mem c.fast ∧ FastGood mem c.fast2)
    {s : Nat} (sl : Slot) (text : List UInt8) (ht : text = (mem s).bytes) :
    (idxBuild text c s sl).s = s ∧ (idxBuild text c s sl).Indexes (mem s).bytes := by
  subst ht
  unfold idxBuild
  simp only
  split_ifs with hknown hhigh
  · -- a fast entry knows the string
    have hfast : Ascii (mem s).bytes ∧ fastLenOf c s = (mem s).bytes.length := by
      revert hknown
      unfold fastLenOf
      split_ifs with h1 h2
      · obtain ⟨hne, heq⟩ := h1
        rw [heq] at hne ⊢
        exact fun _ => hc.1 hne
      · obtain ⟨hne, heq⟩ := h2
        rw [heq] at hne ⊢
        exact fun _ => hc.2 hne
      · intro hneg
        omega
    refine ⟨rfl, ?_, ?_, fun _ => hfast.1, ?_⟩
    · show fastLenOf c s = _
      rw [length_ascii hfast.1, hfast.2]
    · show (fastLenOf c s).toNat = _
      rw [hfast.2, Int.toNat_natCast]
    · intro off hoff
      cases hoff
  · refine ⟨rfl, ?_, rfl, ?_, ?_⟩
    · show ((cpCount (mem s).bytes 0 0 : Nat) : Int) = _
      rw [cpCount_zero]
    · intro hoff
      cases hoff
    · intro off hoff
      cases hoff
      rw [cpCount_zero]
      exact idxOffs_spec (mem s).bytes
  · have hascii : Ascii (mem s).bytes := (anyHigh_eq _).1 (Bool.eq_false_iff.2 hhigh)
    refine ⟨rfl, ?_, rfl, fun _ => hascii, ?_⟩
    · show ((mem s).bytes.length : Int) = _
      rw [length_ascii hascii]
    · intro off hoff
      cases hoff

/-! ## The cache after a lookup -/

section Lookup

variable {mem : Mem} {c : Cache}

theorem at_good (h : c.Good mem) {p : Place} (hp : ∀ k, p = .slot k → c.ready = true) :
    (c.at' p).Good mem := by
  cases p with
  | small => exact h.small
  | slot k =>
    show (c.slots.getD k Slot.zero).Good mem
    rw [List.getD_eq_getElem?_getD]
    cases hk : c.slots[k]? with
    | none => exact slot_zero_good mem
    | some sl => exact h.slots (hp k rfl) sl (List.mem_of_getElem? hk)

/-- Writing a good slot keeps the cache good. -/
theorem set_good (h : c.Good mem) (k : Nat) {sl : Slot} (hsl : sl.Good mem) :
    Cache.Good { c with slots := c.slots.set k sl } mem where
  count := (List.length_set ..).trans h.count
  slots := by
    intro hready sl' hmem
    rcases List.mem_or_eq_of_mem_set hmem with hold | rfl
    · exact h.slots hready sl' hold
    · exact hsl
  small := h.small
  mru := h.mru
  fast := h.fast
  fast2 := h.fast2

theorem clock_good (h : c.Good mem) (clock : Nat) : Cache.Good { c with clock := clock } mem :=
  ⟨h.count, h.slots, h.small, h.mru, h.fast, h.fast2⟩

theorem touch_good (h : c.Good mem) (clock : Nat) {p : Option Place}
    (hp : ∀ k, p = some (.slot k) → c.ready = true) : (c.touch clock p).Good mem := by
  rcases p with _ | _ | k
  · exact h
  · exact ⟨h.count, h.slots, slot_good_touched h.small clock, h.mru, h.fast, h.fast2⟩
  · have hk := at_good h (p := .slot k) (fun j _ => hp k rfl)
    exact set_good h k (slot_good_touched hk clock)

theorem touch_ready (clock : Nat) (p : Option Place) : (c.touch clock p).ready = c.ready := by
  rcases p with _ | _ | k <;> rfl

theorem idxReady_good (h : c.Good mem) : (idxReady c).Good mem ∧ (idxReady c).ready = true := by
  unfold idxReady
  split_ifs with hready
  · exact ⟨h, hready⟩
  · refine ⟨⟨(List.length_map ..).trans h.count, ?_, h.small, ?_, h.fast, h.fast2⟩, rfl⟩
    · intro _ sl hsl
      obtain ⟨old, -, rfl⟩ := List.mem_map.1 hsl
      exact fun hs => absurd rfl hs
    · intro k hk
      exact absurd (h.mru k hk).1 hready

theorem idxVictim_lt (slots : List Slot) {k best : Nat} (h : best < 16) :
    idxVictim slots k best < 16 := by
  induction hd : 16 - k using Nat.strongRecOn generalizing k best with
  | ind d ih =>
    rw [idxVictim]
    split_ifs with hk
    · exact h
    · simp only
      apply ih (16 - (k + 1)) (by omega) _ rfl
      split_ifs
      · omega
      · exact h

/-- A place that holds the slot of `s`, in a good cache. -/
def Holds (mem : Mem) (s : Nat) (r : Place × Cache) : Prop :=
  r.2.Good mem ∧ (r.2.at' r.1).s = s ∧ ∀ k, r.1 = .slot k → r.2.ready = true ∧ k < 16

/-- Touching a slot leaves what it says about its string. -/
theorem touch_at_s (clock k : Nat) :
    ((c.touch clock (some (.slot k))).at' (.slot k)).s = (c.at' (.slot k)).s := by
  show ((c.slots.set k _).getD k Slot.zero).s = (c.slots.getD k Slot.zero).s
  rw [List.getD_eq_getElem?_getD, List.getElem?_set]
  simp only [if_true]
  split_ifs with hk
  · rfl
  · rw [List.getD_eq_getElem?_getD, List.getElem?_eq_none (Nat.not_lt.1 hk)]

theorem touch_slots_s (clock : Nat) (p : Option Place) (k : Nat) :
    ((c.touch clock p).at' (.slot k)).s = (c.at' (.slot k)).s := by
  rcases p with _ | _ | j
  · rfl
  · rfl
  · by_cases hjk : j = k
    · subst hjk
      exact touch_at_s clock j
    · show ((c.slots.set j _).getD k Slot.zero).s = (c.slots.getD k Slot.zero).s
      rw [List.getD_eq_getElem?_getD, List.getElem?_set_ne hjk, ← List.getD_eq_getElem?_getD]

theorem idxSlotSlow_holds (h : c.Good mem) {s : Nat} :
    Holds mem s (idxSlotSlow (mem s).bytes c s) := by
  obtain ⟨hgood, hready⟩ := idxReady_good h
  unfold idxSlotSlow
  obtain ⟨d, hd⟩ : ∃ d, idxReady c = d := ⟨_, rfl⟩
  rw [hd] at hgood hready
  simp only [hd]
  have htouched : ∀ clock, (({ d with clock := clock } : Cache).touch clock d.mru).Good mem :=
    fun clock => touch_good (clock_good hgood clock) clock (fun _ _ => hready)
  by_cases hsmall : d.small.s = s
  · rw [if_pos hsmall]
    exact ⟨hgood, hsmall, fun k hk => by cases hk⟩
  rw [if_neg hsmall]
  cases hfind : idxFind d.slots s with
  | some hit =>
    show Holds mem s (.slot hit, (({ d with clock := d.clock + 1 } : Cache).touch (d.clock + 1)
      d.mru).touch (d.clock + 1) (some (.slot hit)))
    obtain ⟨hlt, hat, -⟩ := List.findIdx?_eq_some_iff_getElem.1 hfind
    rw [beq_iff_eq] at hat
    have hboth := touch_good (htouched (d.clock + 1)) (d.clock + 1) (p := some (.slot hit))
      (fun _ _ => (touch_ready _ _).trans hready)
    refine ⟨hboth, ?_, ?_⟩
    · rw [touch_at_s, touch_slots_s]
      show (d.slots.getD hit Slot.zero).s = s
      rw [List.getD_eq_getElem?_getD, List.getElem?_eq_getElem hlt]
      exact hat
    · intro k hk
      cases hk
      refine ⟨(touch_ready _ _).trans ((touch_ready _ _).trans hready), ?_⟩
      rw [← hgood.count]
      exact hlt
  | none =>
    by_cases hshort : strShort (mem s).bytes 0 = true
    · rw [if_pos hshort]
      obtain ⟨hat, hidx⟩ := idxBuild_indexes ⟨hgood.fast, hgood.fast2⟩ d.small _ rfl (s := s)
      refine ⟨⟨hgood.count, hgood.slots, ?_, hgood.mru, hgood.fast, hgood.fast2⟩, hat,
        fun k hk => by cases hk⟩
      show (idxBuild (mem s).bytes d s d.small).Good mem
      unfold Slot.Good
      rw [hat]
      exact fun _ => hidx
    · rw [if_neg hshort]
      have hgood' := htouched (d.clock + 1)
      have hready' := (touch_ready (c := { d with clock := d.clock + 1 }) (d.clock + 1) d.mru).trans
        hready
      obtain ⟨e, he⟩ : ∃ e, ({ d with clock := d.clock + 1 } : Cache).touch (d.clock + 1) d.mru = e :=
        ⟨_, rfl⟩
      rw [he] at hgood' hready' ⊢
      obtain ⟨hat, hidx⟩ := idxBuild_indexes ⟨hgood'.fast, hgood'.fast2⟩
        (e.slots.getD (idxVictim e.slots 1 0) Slot.zero) _ rfl (s := s)
      have hlt := @idxVictim_lt e.slots 1 0 (by omega)
      have hbuilt : (idxBuild (mem s).bytes e s
          (e.slots.getD (idxVictim e.slots 1 0) Slot.zero)).Good mem := by
        unfold Slot.Good
        rw [hat]
        exact fun _ => hidx
      refine ⟨set_good hgood' _ (slot_good_touched hbuilt _), ?_, ?_⟩
      · show ((e.slots.set _ _).getD _ Slot.zero).s = s
        rw [List.getD_eq_getElem?_getD, List.getElem?_set_self (by rw [hgood'.count]; exact hlt)]
        exact hat
      · intro k hk
        cases hk
        exact ⟨hready', hlt⟩

theorem at_indexes (h : c.Good mem) {p : Place} {s : Nat} (hs : s ≠ 0) (hat : (c.at' p).s = s)
    (hp : ∀ k, p = .slot k → c.ready = true) : (c.at' p).Indexes (mem s).bytes := by
  have hgood := at_good h hp
  unfold Slot.Good at hgood
  rw [hat] at hgood
  exact hgood hs

theorem idxSlotMiss_holds (h : c.Good mem) {s : Nat} (hs : s ≠ 0) :
    Holds mem s (idxSlotMiss (mem s).bytes c s) := by
  obtain ⟨hgood, hat, hplace⟩ := idxSlotSlow_holds h (s := s)
  unfold idxSlotMiss
  obtain ⟨⟨p, d⟩, hpd⟩ : ∃ r, idxSlotSlow (mem s).bytes c s = r := ⟨_, rfl⟩
  rw [hpd] at hgood hat hplace ⊢
  have hmru : ({ d with mru := some p } : Cache).Good mem :=
    ⟨hgood.count, hgood.slots, hgood.small, fun k hk => hplace k (Option.some.inj hk), hgood.fast,
      hgood.fast2⟩
  have hidx := at_indexes hgood hs hat (fun k hk => (hplace k hk).1)
  simp only
  split_ifs with hplain
  · refine ⟨⟨hmru.count, hmru.slots, hmru.small, hmru.mru, ?_, hmru.fast⟩, hat, hplace⟩
    intro _
    have hascii := hidx.plain hplain.1
    refine ⟨hascii, ?_⟩
    show (d.at' p).len = _
    rw [hidx.len, length_ascii hascii]
  · exact ⟨hmru, hat, hplace⟩

/-- The slot looked up indexes the text at the address. -/
theorem idxSlot_spec (h : c.Good mem) {s : Nat} (hs : s ≠ 0) :
    (idxSlot (mem s).bytes c s).2.Good mem ∧
      ((idxSlot (mem s).bytes c s).2.at' (idxSlot (mem s).bytes c s).1).Indexes (mem s).bytes := by
  have hholds : Holds mem s (idxSlot (mem s).bytes c s) := by
    unfold idxSlot
    cases hmru : c.mru with
    | none => exact idxSlotMiss_holds h hs
    | some p =>
      simp only
      split_ifs with hat
      · refine ⟨h, hat, ?_⟩
        rintro k rfl
        exact h.mru k hmru
      · exact idxSlotMiss_holds h hs
  obtain ⟨hgood, hat, hplace⟩ := hholds
  exact ⟨hgood, at_indexes hgood hs hat (fun k hk => (hplace k hk).1)⟩

end Lookup

/-!
## Calls on strings, in any order

The calls look a string up and read its slot; between them the text at an address changes, and
the indexes of what was there are dropped.

    the cache is good after every call and every change                        (run_good)
    after any of them slot_off, char_at_slow and str_slice_slow, and the calls with their fast
    paths, return what a walk from the left returns; str_index_of does so exactly where the
    needle is clean                                                       (index_agrees)

In `C3 A9` the needle `A9` is found at index 1, where the string ends; the walk finds it nowhere
(`index_of_inside`).
-/

open CheckedInt

/-! ## Algorithm -/

/-- The length of an all-ASCII string shorter than 64 bytes, else -1. -/
def shortCps (text : List UInt8) (k : Nat) (n : Int) : Int :=
  if k ≥ 64 then -1
  else
    let c := byteAt text k
    if c = 0 then n
    else if c ≥ 128 then -1
    else shortCps text (k + 1) (n + 1)
termination_by 64 - k

section Calls

variable (mem : Mem) (c : Cache)

def strLen (s : Nat) : Int × Cache :=
  if s = c.fast.1 then (c.fast.2, c)
  else if s = c.fast2.1 then (c.fast2.2, c)
  else
    let n := shortCps (mem s).bytes 0 0
    if n ≥ 0 then (n, c)
    else
      let (p, c) := idxSlot (mem s).bytes c s
      ((c.at' p).len, c)

def strCharAt (s : Nat) (i : Int) : Int × Cache :=
  if s = c.fast.1 then (if ult i c.fast.2 then byteAt (mem s).bytes i.toNat else -1, c)
  else if s = c.fast2.1 then (if ult i c.fast2.2 then byteAt (mem s).bytes i.toNat else -1, c)
  else
    let (p, c) := idxSlot (mem s).bytes c s
    (charAtSlow (mem s).bytes (c.at' p) i, c)

/-- The string of one ASCII byte. -/
def strOne (c : Nat) : List UInt8 := [UInt8.ofNat c]

def strSlice (s : Nat) (start0 end0 : Int) : List UInt8 × Cache :=
  let n := if s = c.fast.1 then c.fast.2 else if s = c.fast2.1 then c.fast2.2 else 0
  if ult start0 n ∧ end0 = start0 + 1 then (strOne (byteAt (mem s).bytes start0.toNat), c)
  else
    let (p, c) := idxSlot (mem s).bytes c s
    (strSliceSlow (mem s).bytes (c.at' p) start0 end0, c)

end Calls

/-- Drop every index of an address that is gone: the fast entries, the short slot and, once they
were cleared, the sixteen. -/
def dropIndexes (gone : Nat → Bool) (c : Cache) : Cache :=
  let c := if gone c.fast.1 then { c with fast := (0, c.fast.2) } else c
  let c := if gone c.fast2.1 then { c with fast2 := (0, c.fast2.2) } else c
  let c := if gone c.small.s then { c with small := { c.small with s := 0 } } else c
  if ¬ c.ready then c
  else { c with slots := c.slots.map fun sl => if gone sl.s then { sl with s := 0, touched := 0 } else sl }

/-- Drop every index of the string at `s`. -/
def strIndexForget (c : Cache) (s : Nat) : Cache := dropIndexes (fun a => a == s) c

def inRange (s p n : Nat) : Bool := s ≠ 0 && p ≤ s && s - p < n

/-- Drop every index of a string that begins in the `n` bytes at `p`. -/
def strIndexDrop (c : Cache) (p n : Nat) : Cache := dropIndexes (fun a => inRange a p n) c

/-- Drop every index. -/
def strIndexReset (c : Cache) : Cache :=
  let c := { c with mru := none, fast := (0, c.fast.2), fast2 := (0, c.fast2.2),
                    small := { c.small with s := 0 } }
  if ¬ c.ready then c
  else { c with ready := false, slots := c.slots.map fun sl => { sl with off := none } }

/-! ## What happens in a thread -/

/-- A call, or a change of the text at one address, in a range or anywhere. -/
inductive Act where
  | strLen (s : Addr)
  | strCharAt (s : Addr) (i : Int)
  | strSlice (s : Addr) (start stop : Int)
  | strIndexOf (s : Addr)
  | forget (s : Addr) (text : CStr)
  | drop (p n : Nat) (texts : Mem)
  | reset (texts : Mem)

structure World where
  mem : Mem
  cache : Cache

def step (w : World) : Act → World
  | .strLen s => { w with cache := (strLen w.mem w.cache s.1).2 }
  | .strCharAt s i => { w with cache := (strCharAt w.mem w.cache s.1 i).2 }
  | .strSlice s start stop => { w with cache := (strSlice w.mem w.cache s.1 start stop).2 }
  | .strIndexOf s => { w with cache := (idxSlot (w.mem s.1).bytes w.cache s.1).2 }
  | .forget s text =>
    { mem := fun a => if a = s.1 then text else w.mem a, cache := strIndexForget w.cache s.1 }
  | .drop p n texts =>
    { mem := fun a => if inRange a p n then texts a else w.mem a, cache := strIndexDrop w.cache p n }
  | .reset texts => { mem := texts, cache := strIndexReset w.cache }

def run (mem : Mem) (acts : List Act) : World := acts.foldl step { mem := mem, cache := Cache.fresh }

/-- The slot a call reads. -/
def World.slotOf (w : World) (s : Addr) : Slot :=
  let (p, c) := idxSlot (w.mem s.1).bytes w.cache s.1
  c.at' p

/-! ## The cache after a change -/

/-- The entry of an address that is gone is dropped, any other is still good. -/
theorem fastGood_drop {mem mem' : Mem} {gone : Nat → Bool} (hmem : ∀ a, gone a = false → mem' a = mem a)
    {e : Nat × Int} (he : FastGood mem e) :
    FastGood mem' (if gone e.1 then (0, e.2) else e) := by
  by_cases hgone : gone e.1 = true
  · rw [if_pos hgone]
    exact fun h => absurd rfl h
  · rw [if_neg hgone]
    intro hne
    rw [hmem _ (Bool.eq_false_iff.2 hgone)]
    exact he hne

theorem slotGood_keep {mem mem' : Mem} {gone : Nat → Bool} (hmem : ∀ a, gone a = false → mem' a = mem a)
    {sl : Slot} (hsl : sl.Good mem) (hgone : ¬ gone sl.s = true) : sl.Good mem' := by
  intro hne
  rw [hmem _ (Bool.eq_false_iff.2 hgone)]
  exact hsl hne

/-- What the drop leaves, field by field. -/
theorem dropIndexes_eq (gone : Nat → Bool) (c : Cache) :
    dropIndexes gone c =
      { c with
        fast := if gone c.fast.1 then (0, c.fast.2) else c.fast
        fast2 := if gone c.fast2.1 then (0, c.fast2.2) else c.fast2
        small := if gone c.small.s then { c.small with s := 0 } else c.small
        slots := if c.ready then
            c.slots.map fun sl => if gone sl.s then { sl with s := 0, touched := 0 } else sl
          else c.slots } := by
  obtain ⟨slots, small, clock, ready, mru, fast, fast2⟩ := c
  unfold dropIndexes
  by_cases h1 : gone fast.1 = true <;> by_cases h2 : gone fast2.1 = true <;>
    by_cases h3 : gone small.s = true <;> cases ready <;> simp [h1, h2, h3]

theorem dropIndexes_good {mem mem' : Mem} {gone : Nat → Bool} {c : Cache} (h : c.Good mem)
    (hmem : ∀ a, gone a = false → mem' a = mem a) : (dropIndexes gone c).Good mem' := by
  rw [dropIndexes_eq]
  refine ⟨?_, ?_, ?_, h.mru, fastGood_drop hmem h.fast, fastGood_drop hmem h.fast2⟩
  · show List.length (if c.ready then _ else _) = 16
    split_ifs
    · exact (List.length_map ..).trans h.count
    · exact h.count
  · intro hready sl hsl
    rw [if_pos hready] at hsl
    obtain ⟨old, hold, rfl⟩ := List.mem_map.1 hsl
    by_cases hgone : gone old.s = true
    · rw [if_pos hgone]
      exact fun hne => absurd rfl hne
    · rw [if_neg hgone]
      exact slotGood_keep hmem (h.slots hready old hold) hgone
  · show Slot.Good mem' (if gone c.small.s then _ else _)
    by_cases hgone : gone c.small.s = true
    · rw [if_pos hgone]
      exact fun hne => absurd rfl hne
    · rw [if_neg hgone]
      exact slotGood_keep hmem h.small hgone

theorem strIndexReset_good {mem mem' : Mem} {c : Cache} (h : c.Good mem) :
    (strIndexReset c).Good mem' := by
  have hnone : ∀ {ready : Bool} {slots : List Slot}, slots.length = 16 → ready = false →
      Cache.Good { c with mru := none, fast := (0, c.fast.2), fast2 := (0, c.fast2.2),
                          small := { c.small with s := 0 }, ready := ready, slots := slots } mem' := by
    intro ready slots hcount hready
    refine ⟨hcount, ?_, fun hne => absurd rfl hne, ?_, fun hne => absurd rfl hne,
      fun hne => absurd rfl hne⟩
    · intro hr
      exact absurd (hready.symm.trans hr) Bool.false_ne_true
    · intro k hk
      cases hk
  unfold strIndexReset
  cases hready : c.ready with
  | false => exact hnone h.count rfl
  | true => exact hnone ((List.length_map ..).trans h.count) rfl

/-! ## Runs -/

section Calls

variable {mem : Mem} {c : Cache}

theorem strLen_good (h : c.Good mem) (s : Addr) : (strLen mem c s.1).2.Good mem := by
  unfold strLen
  simp only
  split_ifs
  · exact h
  · exact h
  · exact h
  · exact (idxSlot_spec h s.2).1

theorem strCharAt_good (h : c.Good mem) (s : Addr) (i : Int) :
    (strCharAt mem c s.1 i).2.Good mem := by
  unfold strCharAt
  by_cases hfast : s.1 = c.fast.1
  · rw [if_pos hfast]
    exact h
  rw [if_neg hfast]
  by_cases hfast2 : s.1 = c.fast2.1
  · rw [if_pos hfast2]
    exact h
  rw [if_neg hfast2]
  exact (idxSlot_spec h s.2).1

theorem strSlice_good (h : c.Good mem) (s : Addr) (start stop : Int) :
    (strSlice mem c s.1 start stop).2.Good mem := by
  unfold strSlice
  simp only
  obtain ⟨n, hn⟩ : ∃ n, (if s.1 = c.fast.1 then c.fast.2
      else if s.1 = c.fast2.1 then c.fast2.2 else 0) = n := ⟨_, rfl⟩
  rw [hn]
  split_ifs
  · exact h
  · exact (idxSlot_spec h s.2).1

end Calls

/-- One call or change. -/
theorem step_good {w : World} (h : w.cache.Good w.mem) (act : Act) :
    (step w act).cache.Good (step w act).mem := by
  cases act with
  | strLen s => exact strLen_good h s
  | strCharAt s i => exact strCharAt_good h s i
  | strSlice s start stop => exact strSlice_good h s start stop
  | strIndexOf s => exact (idxSlot_spec h s.2).1
  | forget s text =>
    show Cache.Good (strIndexForget w.cache s.1) fun a => if a = s.1 then text else w.mem a
    apply dropIndexes_good h
    intro a ha
    exact if_neg (by simpa using ha)
  | drop p n texts =>
    show Cache.Good (strIndexDrop w.cache p n) fun a => if inRange a p n then texts a else w.mem a
    apply dropIndexes_good h
    intro a ha
    exact if_neg (by simp [ha])
  | reset texts => exact strIndexReset_good h

/-- Any calls and changes. -/
theorem run_good (mem : Mem) (acts : List Act) : (run mem acts).cache.Good (run mem acts).mem := by
  have hrun : ∀ w : World, w.cache.Good w.mem →
      (acts.foldl step w).cache.Good (acts.foldl step w).mem := by
    induction acts with
    | nil => exact fun w hw => hw
    | cons act acts ih => exact fun w hw => ih _ (step_good hw act)
  exact hrun _ (fresh_good mem)

/-! ## Answers -/

section Answers

variable {mem : Mem} {c : Cache}

theorem slotOf_indexes {w : World} (h : w.cache.Good w.mem) (s : Addr) :
    (w.slotOf s).Indexes (w.mem s.1).bytes :=
  (idxSlot_spec h s.2).2

/-- The bytes counted so far are ASCII: the count is the length. -/
theorem shortCps_spec (t : CStr) {k : Nat} (hk : k ≤ t.bytes.length)
    (hbelow : ∀ j < k, byteAt t.bytes j < 128) (h : shortCps t.bytes k k ≥ 0) :
    shortCps t.bytes k k = (chars t.bytes).length := by
  induction hd : 64 - k using Nat.strongRecOn generalizing k with
  | ind d ih =>
    revert h
    rw [shortCps]
    simp only
    split_ifs with h64 hzero hhigh
    · omega
    · -- the NUL: the whole string was ASCII
      intro _
      have hend : k = t.bytes.length := by
        by_contra hne
        exact byteAt_ne_zero t.noNul (by omega) hzero
      have hascii : Ascii t.bytes := by
        intro q
        by_cases hq : q < k
        · exact hbelow q hq
        · rw [byteAt_past (by omega)]
          omega
      rw [length_ascii hascii, hend]
    · omega
    · intro h
      have hlt := lt_of_byteAt hzero
      refine ih (64 - (k + 1)) (by omega) hlt ?_ h rfl
      intro j hj
      rcases Nat.eq_or_lt_of_le (Nat.lt_succ_iff.1 hj) with rfl | hjk
      · omega
      · exact hbelow j hjk

/-- A fast entry of the string's address. -/
theorem FastGood.entry {e : Nat × Int} (h : FastGood mem e) (s : Addr) (hs : s.1 = e.1) :
    Ascii (mem s.1).bytes ∧ e.2 = (mem s.1).bytes.length := by
  rw [hs]
  exact h (hs ▸ s.2)

/-- The length is the number of code points. -/
theorem strLen_eq (h : c.Good mem) (s : Addr) :
    (strLen mem c s.1).1 = (chars (mem s.1).bytes).length := by
  unfold strLen
  by_cases hfast : s.1 = c.fast.1
  · obtain ⟨hascii, hlen⟩ := h.fast.entry s hfast
    rw [if_pos hfast, length_ascii hascii]
    exact hlen
  rw [if_neg hfast]
  by_cases hfast2 : s.1 = c.fast2.1
  · obtain ⟨hascii, hlen⟩ := h.fast2.entry s hfast2
    rw [if_pos hfast2, length_ascii hascii]
    exact hlen
  rw [if_neg hfast2]
  by_cases hshort : shortCps (mem s.1).bytes 0 0 ≥ 0
  · rw [if_pos hshort]
    exact shortCps_spec (mem s.1) (Nat.zero_le _) (fun j hj => absurd hj (Nat.not_lt_zero j)) hshort
  · rw [if_neg hshort]
    exact (idxSlot_spec h s.2).2.len

/-- A byte of an all-ASCII string is its code point. -/
theorem ascii_charAt {t : CStr} (h : Ascii t.bytes) {i : Int} (hi : Fits 64 i) :
    (if ult i t.bytes.length then (byteAt t.bytes i.toNat : Int) else -1) =
      naiveCharAt t.bytes i := by
  have hidx : Slot.Indexes ⟨0, t.bytes.length, none, 0, t.bytes.length⟩ t.bytes := by
    refine ⟨?_, rfl, fun _ => h, ?_⟩
    · show ((t.bytes.length : Nat) : Int) = _
      rw [length_ascii h]
    · intro off hoff
      cases hoff
  rw [← charAtSlow_eq hidx t.fits hi]
  unfold charAtSlow
  by_cases hult : ult i t.bytes.length = true
  · simp [hult]
  · simp [hult]

theorem strCharAt_eq (h : c.Good mem) (s : Addr) {i : Int} (hi : Fits 64 i) :
    (strCharAt mem c s.1 i).1 = naiveCharAt (mem s.1).bytes i := by
  unfold strCharAt
  by_cases hfast : s.1 = c.fast.1
  · obtain ⟨hascii, hlen⟩ := h.fast.entry s hfast
    rw [if_pos hfast, hlen]
    exact ascii_charAt hascii hi
  rw [if_neg hfast]
  by_cases hfast2 : s.1 = c.fast2.1
  · obtain ⟨hascii, hlen⟩ := h.fast2.entry s hfast2
    rw [if_pos hfast2, hlen]
    exact ascii_charAt hascii hi
  rw [if_neg hfast2]
  exact charAtSlow_eq (idxSlot_spec h s.2).2 (mem s.1).fits hi

/-- One character of an all-ASCII string. -/
theorem ascii_slice {t : CStr} (h : Ascii t.bytes) {start : Int} (hi : Fits 64 start)
    (hlt : ult start t.bytes.length = true) :
    strOne (byteAt t.bytes start.toNat) = naiveSlice t.bytes start (start + 1) := by
  obtain ⟨hpos, hend⟩ := (ult_iff hi t.fits).1 hlt
  obtain ⟨n, rfl⟩ := Int.eq_ofNat_of_zero_le hpos
  have hn : n < t.bytes.length := by omega
  have hcount := length_ascii h
  unfold naiveSlice strOne byteAt
  rw [show ((n : Int) + 1).toNat = n + 1 by omega, Int.toNat_natCast,
    ← flatten_between t.bytes (Nat.le_add_right n 1), cpOff_ascii h (by omega),
    cpOff_ascii h (by omega), Nat.add_sub_cancel_left, List.getD_eq_getElem?_getD, List.getElem?_eq_getElem hn,
    List.drop_eq_getElem_cons hn, List.take_succ_cons, List.take_zero, Option.getD_some,
    UInt8.ofNat_toNat]

theorem strSlice_eq (h : c.Good mem) (s : Addr) {start : Int} (hi : Fits 64 start) (stop : Int) :
    (strSlice mem c s.1 start stop).1 = naiveSlice (mem s.1).bytes start stop := by
  have hslow := strSliceSlow_eq (idxSlot_spec h s.2).2 start stop
  unfold strSlice
  -- the length read is an all-ASCII string's, or none
  obtain ⟨n, hn⟩ : ∃ n, (if s.1 = c.fast.1 then c.fast.2
      else if s.1 = c.fast2.1 then c.fast2.2 else 0) = n := ⟨_, rfl⟩
  have hlen : n = 0 ∨ (Ascii (mem s.1).bytes ∧ n = (mem s.1).bytes.length) := by
    rw [← hn]
    split_ifs with hfast hfast2
    · exact .inr (h.fast.entry s hfast)
    · exact .inr (h.fast2.entry s hfast2)
    · exact .inl rfl
  rw [hn]
  by_cases hone : ult start n = true ∧ stop = start + 1
  · rw [if_pos hone, hone.2]
    rcases hlen with rfl | ⟨hascii, rfl⟩
    · have hzero := (ult_iff hi (n := 0) (by omega)).1 hone.1
      omega
    · exact ascii_slice hascii hi hone.1
  · rw [if_neg hone]
    exact hslow

end Answers

/-- In any run, what the calls return is what a walk from the left returns: the offset of a code
point, a code point, a slice, the length; the index of a needle exactly where the needle is
clean. -/
theorem index_agrees (mem : Mem) (acts : List Act) (s : Addr) :
    let w := run mem acts
    let text := (w.mem s.1).bytes
    (∀ i ≤ (chars text).length, slotOff text (w.slotOf s) i = slotWalk text 0 i) ∧
      (strLen w.mem w.cache s.1).1 = (chars text).length ∧
      (∀ i : BitVec 64, charAtSlow text (w.slotOf s) i.toInt = naiveCharAt text i.toInt ∧
        (strCharAt w.mem w.cache s.1 i.toInt).1 = naiveCharAt text i.toInt) ∧
      (∀ start stop : BitVec 64,
        strSliceSlow text (w.slotOf s) start.toInt stop.toInt =
            naiveSlice text start.toInt stop.toInt ∧
          (strSlice w.mem w.cache s.1 start.toInt stop.toInt).1 =
            naiveSlice text start.toInt stop.toInt) ∧
      ∀ (needle : CStr) (start : BitVec 64),
        strIndexOf text (w.slotOf s) needle.bytes start.toInt =
            naiveIndexOf text needle.bytes start.toInt ↔
          Clean text needle.bytes start.toInt := by
  intro w text
  have hgood := run_good mem acts
  have hidx : (w.slotOf s).Indexes text := slotOf_indexes hgood s
  have hfits : text.length < 2 ^ 63 := (w.mem s.1).fits
  refine ⟨?_, strLen_eq hgood s, ?_, ?_, ?_⟩
  · intro i hi
    have hwalk := slotWalk_cpOff text 0 i (by omega)
    rw [Nat.zero_add] at hwalk
    rw [slotOff_eq hidx hi, ← hwalk, cpOff_zero]
  · intro i
    exact ⟨charAtSlow_eq hidx hfits (fits_toInt i), strCharAt_eq hgood s (fits_toInt i)⟩
  · intro start stop
    exact ⟨strSliceSlow_eq hidx _ _, strSlice_eq hgood s (fits_toInt start) _⟩
  · intro needle start
    exact strIndexOf_iff hidx needle.bytes _

/-- The text `C3 A9` everywhere. -/
def twoByteText : CStr := ⟨[0xC3, 0xA9], by simp [NoNul], by decide⟩

/-- A continuation byte is found inside a code point, and placed after it. -/
theorem index_of_inside :
    let w := run (fun _ => twoByteText) []
    let s : Addr := ⟨1, by decide⟩
    strIndexOf (w.mem s.1).bytes (w.slotOf s) [0xA9] 0 = 1 ∧
      naiveIndexOf (w.mem s.1).bytes [0xA9] 0 = -1 := by
  decide +kernel

end StrIndex

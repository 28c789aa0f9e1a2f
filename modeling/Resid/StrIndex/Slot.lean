import Mathlib.Data.List.Basic
import Mathlib.Data.BitVec
import Resid.Lib.CheckedInt

/-!
# Code points of a byte string, one after another

A string is its bytes before the NUL that ends it, any bytes at all; a pointer into it is the
number of bytes before it.  `chars` cuts it into code points from the left, `cpOff s i` is where
code point `i` begins.

    (chars s).flatten = s                                                       (chars_flatten)
    slotWalk s (cpOff s i) k = cpOff s (i + k)                                  (slotWalk_cpOff)
    cpCount s 0 0 = (chars s).length                                            (cpCount_eq)

## Algorithm

A lead byte announces the bytes that follow it; the first that is no continuation byte cuts the
code point short.
-/

namespace StrIndex

/-- The byte at `q`; past the end, the NUL. -/
def byteAt (s : List UInt8) (q : Nat) : Nat := (s.getD q 0).toNat

def utf8SeqLen (c : Nat) : Nat :=
  if c < 128 then 1
  else if c &&& 224 = 192 then 2
  else if c &&& 240 = 224 then 3
  else if c &&& 248 = 240 then 4
  else 1

def isCont (c : Nat) : Bool := c &&& 192 == 128

def utf8Cont (s : List UInt8) (q k n : Nat) : Nat :=
  if k ≥ n then n
  else if ¬ isCont (byteAt s (q + k)) then k
  else utf8Cont s q (k + 1) n
termination_by n - k

/-- The length of the code point at `q`. -/
def utf8LenAt (s : List UInt8) (q : Nat) : Nat := utf8Cont s q 1 (utf8SeqLen (byteAt s q))

def utf8Decode (s : List UInt8) (q len : Nat) : Nat :=
  let b0 := byteAt s q
  if len = 1 then b0
  else if len = 2 then ((b0 &&& 31) <<< 6) ||| (byteAt s (q + 1) &&& 63)
  else if len = 3 then
    ((b0 &&& 15) <<< 12) ||| ((byteAt s (q + 1) &&& 63) <<< 6) ||| (byteAt s (q + 2) &&& 63)
  else
    ((b0 &&& 7) <<< 18) ||| ((byteAt s (q + 1) &&& 63) <<< 12) |||
      ((byteAt s (q + 2) &&& 63) <<< 6) ||| (byteAt s (q + 3) &&& 63)

def slotWalk (s : List UInt8) (q : Nat) : Nat → Nat
  | 0 => q
  | k + 1 => slotWalk s (q + utf8LenAt s q) k

/-- A byte string as the run time has one. -/
def NoNul (s : List UInt8) : Prop := ∀ b ∈ s, b ≠ 0

/-! ## Lengths -/

theorem byteAt_drop (s : List UInt8) (q k : Nat) : byteAt (s.drop q) k = byteAt s (q + k) := by
  unfold byteAt
  rw [List.getD_eq_getElem?_getD, List.getD_eq_getElem?_getD, List.getElem?_drop]

variable {s : List UInt8} {i j q : Nat}

theorem byteAt_past (h : s.length ≤ q) : byteAt s q = 0 := by
  unfold byteAt
  rw [List.getD_eq_getElem?_getD, List.getElem?_eq_none h]
  rfl

theorem byteAt_ne_zero (hs : NoNul s) (h : q < s.length) : byteAt s q ≠ 0 := by
  unfold byteAt
  rw [List.getD_eq_getElem?_getD, List.getElem?_eq_getElem h]
  intro h0
  exact hs _ (List.getElem_mem h) (UInt8.toNat_inj.1 h0)

theorem isCont_zero : isCont 0 = false := by decide

theorem utf8SeqLen_bounds (c : Nat) : 1 ≤ utf8SeqLen c ∧ utf8SeqLen c ≤ 4 := by
  unfold utf8SeqLen
  split_ifs <;> omega

/-- Where the continuation bytes end. -/
theorem utf8Cont_spec (s : List UInt8) (q : Nat) {k n : Nat} (hk : k ≤ n) :
    k ≤ utf8Cont s q k n ∧ utf8Cont s q k n ≤ n ∧
      ∀ j, k ≤ j → j < utf8Cont s q k n → isCont (byteAt s (q + j)) = true := by
  induction hd : n - k using Nat.strongRecOn generalizing k with
  | ind d ih =>
    rw [utf8Cont]
    by_cases hge : k ≥ n
    · rw [if_pos hge]
      refine ⟨hk, Nat.le_refl n, ?_⟩
      omega
    · rw [if_neg hge]
      by_cases hcont : isCont (byteAt s (q + k)) = true
      · rw [if_neg (not_not_intro hcont)]
        obtain ⟨hlow, hhigh, hall⟩ := ih (n - (k + 1)) (by omega) (k := k + 1) (by omega) rfl
        refine ⟨by omega, hhigh, ?_⟩
        intro j hkj hj
        rcases Nat.eq_or_lt_of_le hkj with rfl | hlt
        · exact hcont
        · exact hall j hlt hj
      · rw [if_pos hcont]
        refine ⟨Nat.le_refl k, hk, ?_⟩
        omega

theorem utf8LenAt_bounds (s : List UInt8) (q : Nat) : 1 ≤ utf8LenAt s q ∧ utf8LenAt s q ≤ 4 := by
  have hseq := utf8SeqLen_bounds (byteAt s q)
  obtain ⟨hlow, hhigh, -⟩ := utf8Cont_spec s q hseq.1
  unfold utf8LenAt
  omega

/-- The bytes of a code point after its first continue it. -/
theorem isCont_inside (hpos : 1 ≤ j) (hj : j < utf8LenAt s q) : isCont (byteAt s (q + j)) = true :=
  (utf8Cont_spec s q (utf8SeqLen_bounds (byteAt s q)).1).2.2 j hpos hj

/-- A code point ends with the string at the latest. -/
theorem utf8LenAt_le (h : q < s.length) : q + utf8LenAt s q ≤ s.length := by
  by_contra hgt
  have hlast := isCont_inside (s := s) (q := q) (j := s.length - q) (by omega) (by omega)
  rw [show q + (s.length - q) = s.length by omega, byteAt_past (Nat.le_refl _), isCont_zero] at hlast
  cases hlast

theorem utf8Cont_drop (s : List UInt8) (q r k n : Nat) :
    utf8Cont (s.drop q) r k n = utf8Cont s (q + r) k n := by
  induction hd : n - k using Nat.strongRecOn generalizing k with
  | ind d ih =>
    unfold utf8Cont
    rw [byteAt_drop, ← Nat.add_assoc]
    by_cases hge : k ≥ n
    · rw [if_pos hge, if_pos hge]
    · rw [if_neg hge, if_neg hge, ih (n - (k + 1)) (by omega) (k + 1) rfl]

theorem utf8LenAt_drop (s : List UInt8) (q r : Nat) :
    utf8LenAt (s.drop q) r = utf8LenAt s (q + r) := by
  unfold utf8LenAt
  rw [byteAt_drop, utf8Cont_drop]

/-! ## The walk from the left -/

/-- The code points of a string, each with its bytes. -/
def chars (s : List UInt8) : List (List UInt8) :=
  if _h : s = [] then []
  else s.take (utf8LenAt s 0) :: chars (s.drop (utf8LenAt s 0))
termination_by s.length
decreasing_by
  have hpos := (utf8LenAt_bounds s 0).1
  have hlen := List.length_pos_iff.2 _h
  rw [List.length_drop]
  omega

theorem chars_nil : chars [] = [] := by
  rw [chars]
  rfl

theorem chars_cons (h : s ≠ []) :
    chars s = s.take (utf8LenAt s 0) :: chars (s.drop (utf8LenAt s 0)) := by
  rw [chars, dif_neg h]

theorem chars_flatten (s : List UInt8) : (chars s).flatten = s := by
  induction hn : s.length using Nat.strongRecOn generalizing s with
  | ind n ih =>
    by_cases h : s = []
    · subst h
      rw [chars_nil]
      rfl
    · have hpos := (utf8LenAt_bounds s 0).1
      have hlen := List.length_pos_iff.2 h
      have hlt : (s.drop (utf8LenAt s 0)).length < n := by
        rw [List.length_drop]
        omega
      rw [chars_cons h, List.flatten_cons, ih _ hlt _ rfl, List.take_append_drop]

/-- Where code point `i` begins; past the last, the end of the string. -/
def cpOff (s : List UInt8) (i : Nat) : Nat := ((chars s).take i).flatten.length

theorem cpOff_zero (s : List UInt8) : cpOff s 0 = 0 := rfl

theorem drop_cpOff (s : List UInt8) (i : Nat) : s.drop (cpOff s i) = ((chars s).drop i).flatten := by
  have hsplit : s = ((chars s).take i).flatten ++ ((chars s).drop i).flatten := by
    rw [← List.flatten_append, List.take_append_drop, chars_flatten]
  obtain ⟨low, hlow⟩ : ∃ low, ((chars s).take i).flatten = low := ⟨_, rfl⟩
  have hoff : cpOff s i = low.length := congrArg List.length hlow
  rw [hlow] at hsplit
  rw [hoff]
  conv_lhs => rw [hsplit]
  exact List.drop_left

theorem cpOff_le (s : List UInt8) (i : Nat) : cpOff s i ≤ s.length := by
  have hsplit : s = ((chars s).take i).flatten ++ ((chars s).drop i).flatten := by
    rw [← List.flatten_append, List.take_append_drop, chars_flatten]
  have hlen := congrArg List.length hsplit
  rw [List.length_append] at hlen
  unfold cpOff
  omega

theorem cpOff_last (h : (chars s).length ≤ i) : cpOff s i = s.length := by
  unfold cpOff
  rw [List.take_of_length_le h, chars_flatten]

/-- The code points from a code point's beginning on. -/
theorem chars_drop (s : List UInt8) (i : Nat) : chars (s.drop (cpOff s i)) = (chars s).drop i := by
  induction i generalizing s with
  | zero => rfl
  | succ i ih =>
    by_cases h : s = []
    · subst h
      rw [List.drop_nil, chars_nil, List.drop_nil]
    · have hstep : cpOff s (i + 1) = utf8LenAt s 0 + cpOff (s.drop (utf8LenAt s 0)) i := by
        have hlen := List.length_pos_iff.2 h
        have hle := utf8LenAt_le hlen
        unfold cpOff
        rw [chars_cons h, List.take_succ_cons, List.flatten_cons, List.length_append,
          List.length_take]
        omega
      rw [hstep, ← List.drop_drop, ih, chars_cons h, List.drop_succ_cons]

/-- One code point on. -/
theorem cpOff_succ (h : i < (chars s).length) :
    cpOff s (i + 1) = cpOff s i + utf8LenAt s (cpOff s i) := by
  have hrest := chars_drop s i
  have hne : s.drop (cpOff s i) ≠ [] := by
    intro h0
    rw [h0, chars_nil] at hrest
    have := congrArg List.length hrest
    rw [List.length_nil, List.length_drop] at this
    omega
  have hlen := List.length_pos_iff.2 hne
  have hle := utf8LenAt_le hlen
  rw [utf8LenAt_drop, Nat.add_zero] at hle
  rw [chars_cons hne, utf8LenAt_drop, Nat.add_zero] at hrest
  unfold cpOff at hle ⊢
  rw [List.take_succ_eq_append_getElem h, List.flatten_append, List.length_append]
  have hhead : (chars s)[i] = (s.drop (cpOff s i)).take (utf8LenAt s (cpOff s i)) := by
    have h0 := congrArg (fun l => l[0]?) hrest
    simp only [List.getElem?_cons_zero, List.getElem?_drop, Nat.add_zero] at h0
    rw [List.getElem?_eq_getElem h] at h0
    exact (Option.some.inj h0).symm
  rw [hhead]
  simp only [List.flatten_cons, List.flatten_nil, List.append_nil, List.length_take]
  unfold cpOff
  omega

theorem cpOff_lt (h : i < (chars s).length) : cpOff s i < s.length := by
  have hsucc := cpOff_succ h
  have hle := cpOff_le s (i + 1)
  have hpos := (utf8LenAt_bounds s (cpOff s i)).1
  omega

theorem cpOff_mono (h : i ≤ j) : cpOff s i ≤ cpOff s j := by
  unfold cpOff
  have hsplit : (chars s).take j = (chars s).take i ++ ((chars s).take j).drop i := by
    conv_lhs => rw [← List.take_append_drop i ((chars s).take j)]
    rw [List.take_take, Nat.min_eq_left h]
  rw [hsplit, List.flatten_append, List.length_append]
  omega

theorem cpOff_strict (h : i < j) (hi : i < (chars s).length) : cpOff s i < cpOff s j := by
  have hsucc := cpOff_succ hi
  have hpos := (utf8LenAt_bounds s (cpOff s i)).1
  have hmono := cpOff_mono (s := s) (show i + 1 ≤ j from h)
  omega

theorem slotWalk_cpOff (s : List UInt8) (i k : Nat) (h : i + k ≤ (chars s).length) :
    slotWalk s (cpOff s i) k = cpOff s (i + k) := by
  induction k generalizing i with
  | zero => rfl
  | succ k ih =>
    rw [slotWalk, ← cpOff_succ (by omega), ih (i + 1) (by omega)]
    congr 1
    omega

/-! ## Counting -/

theorem lt_of_byteAt (h : byteAt s q ≠ 0) : q < s.length := by
  by_contra hge
  exact h (byteAt_past (Nat.not_lt.1 hge))

def cpCount (s : List UInt8) (q n : Nat) : Nat :=
  if _h : byteAt s q = 0 then n else cpCount s (q + utf8LenAt s q) (n + 1)
termination_by s.length - q
decreasing_by
  have hlt := lt_of_byteAt _h
  have hpos := (utf8LenAt_bounds s q).1
  omega

theorem cpCount_eq (hs : NoNul s) (i : Nat) (hi : i ≤ (chars s).length) :
    cpCount s (cpOff s i) i = (chars s).length := by
  induction hd : (chars s).length - i generalizing i with
  | zero =>
    have hlast : i = (chars s).length := by omega
    subst hlast
    rw [cpCount, cpOff_last (Nat.le_refl _), dif_pos (byteAt_past (Nat.le_refl _))]
  | succ d ih =>
    have hlt : i < (chars s).length := by omega
    rw [cpCount, dif_neg (byteAt_ne_zero hs (cpOff_lt hlt)), ← cpOff_succ hlt]
    exact ih (i + 1) hlt (by omega)

/-!
## The index of one string

A slot keeps a string's length in code points, its length in bytes and, unless it is all ASCII,
the beginning of every sixteenth code point.

    anyHigh s 0 s.length 0 = true ↔ some byte is no ASCII                        (anyHigh_eq)
    sl.Indexes s → slotOff s sl i = cpOff s i                                     (slotOff_eq)
    sl.Indexes s → charAtSlow, strSliceSlow are what the walk from the left returns
                                                         (charAtSlow_eq, strSliceSlow_eq)
-/

open CheckedInt

/-! ## Algorithm -/

/-- The word of `n` bytes at `q`, the lowest first. -/
def wordAt (s : List UInt8) (q : Nat) : Nat → BitVec 64
  | 0 => 0#64
  | n + 1 => BitVec.ofNat 64 (byteAt s q) ||| (wordAt s (q + 1) n <<< 8)

/-- The high bit of every byte of a word. -/
def highMask : BitVec 64 := 0#64 - 9187201950435737472#64

/-- Is a high bit set in any byte of `[k, n)`, or in `acc`? -/
def anyHigh (s : List UInt8) (k n : Nat) (acc : BitVec 64) : Bool :=
  if k + 32 ≤ n then
    anyHigh s (k + 32) n (acc ||| wordAt s k 8 ||| wordAt s (k + 8) 8 ||| wordAt s (k + 16) 8 |||
      wordAt s (k + 24) 8)
  else if k < n then anyHigh s (k + 1) n (acc ||| BitVec.ofNat 64 (byteAt s k))
  else acc &&& highMask != 0#64
termination_by n - k

/-- Every sixteenth code point's beginning, from code point `i` at `q` on. -/
def fillOff (s : List UInt8) (off : List Nat) (q i n : Nat) : List Nat :=
  if i ≥ n then if n &&& 15 = 0 then off.set (n >>> 4) q else off
  else
    let off := if i &&& 15 = 0 then off.set (i >>> 4) q else off
    fillOff s off (q + utf8LenAt s q) (i + 1) n
termination_by n - i

/-- A slot: the string's address, 0 for none; its code points; its checkpoints; when it was
used; its bytes. -/
structure Slot where
  s : Nat
  len : Int
  off : Option (List Nat)
  touched : Nat
  blen : Nat

/-- Where code point `i` of the slot's string begins. -/
def slotOff (text : List UInt8) (sl : Slot) (i : Nat) : Nat :=
  match sl.off with
  | none => i
  | some off => slotWalk text (off.getD (i >>> 4) 0) (i &&& 15)

/-- Words compared unsigned. -/
def ult (a b : Int) : Bool := (BitVec.ofInt 64 a).ult (BitVec.ofInt 64 b)

def charAtSlow (text : List UInt8) (sl : Slot) (i : Int) : Int :=
  if ¬ ult i sl.len then -1
  else
    match sl.off with
    | none => byteAt text i.toNat
    | some _ =>
      let p := slotOff text sl i.toNat
      utf8Decode text p (utf8LenAt text p)

def strSliceSlow (text : List UInt8) (sl : Slot) (start0 end0 : Int) : List UInt8 :=
  let a0 := if start0 < 0 then 0 else start0
  let b0 := if end0 < a0 then a0 else end0
  let a := if a0 > sl.len then sl.len else a0
  let b := if b0 > sl.len then sl.len else b0
  let ba := slotOff text sl a.toNat
  let bb := slotOff text sl b.toNat
  (text.drop ba).take (bb - ba)

/-! ## What a walk from the left returns -/

/-- The code point of index `i`, or -1. -/
def naiveCharAt (s : List UInt8) (i : Int) : Int :=
  if 0 ≤ i then
    match (chars s)[i.toNat]? with
    | some c => utf8Decode c 0 c.length
    | none => -1
  else -1

/-- The code points from `start` to before `stop`, both within the string. -/
def naiveSlice (s : List UInt8) (start stop : Int) : List UInt8 :=
  (((chars s).take stop.toNat).drop start.toNat).flatten

/-! ## High bits -/

theorem byteAt_lt (s : List UInt8) (q : Nat) : byteAt s q < 256 := UInt8.toNat_lt _

variable {i n : Nat} {s : List UInt8} {sl : Slot}

theorem wordAt_bit (s : List UInt8) (q n : Nat) (h64 : i < 64) (h : i < 8 * n) :
    (wordAt s q n).getLsbD i = (byteAt s (q + i / 8)).testBit (i % 8) := by
  induction n generalizing q i with
  | zero => omega
  | succ n ih =>
    have hbyte := byteAt_lt s q
    rw [wordAt, BitVec.getLsbD_or, BitVec.getLsbD_ofNat, BitVec.getLsbD_shiftLeft]
    rcases Nat.lt_or_ge i 8 with hlt | hge
    · rw [show i / 8 = 0 by omega, show i % 8 = i by omega, Nat.add_zero]
      simp [h64, hlt]
    · have hhigh : (byteAt s q).testBit i = false := by
        apply Nat.testBit_lt_two_pow
        calc byteAt s q < 2 ^ 8 := hbyte
          _ ≤ 2 ^ i := Nat.pow_le_pow_right (by decide) hge
      have hrest := ih (q + 1) (i := i - 8) (by omega) (by omega)
      rw [show q + 1 + (i - 8) / 8 = q + i / 8 by omega, show (i - 8) % 8 = i % 8 by omega] at hrest
      simp [h64, hhigh, Nat.not_lt.2 hge, hrest]

/-- A byte of a word with its high bit set. -/
def High (w : BitVec 64) : Prop := ∃ j < 8, w.getLsbD (8 * j + 7) = true

theorem highMask_bit : ∀ i < 64, highMask.getLsbD i = decide (i % 8 = 7) := by decide

theorem high_iff (w : BitVec 64) : (w &&& highMask != 0#64) = true ↔ High w := by
  rw [bne_iff_ne]
  constructor
  · intro hne
    by_contra hlow
    apply hne
    apply BitVec.eq_of_getLsbD_eq
    intro i hi
    rw [BitVec.getLsbD_and, highMask_bit i hi, BitVec.getLsbD_zero]
    by_cases h7 : i % 8 = 7
    · have hbit : ¬ w.getLsbD (8 * (i / 8) + 7) = true := fun h0 => hlow ⟨i / 8, by omega, h0⟩
      rw [show 8 * (i / 8) + 7 = i by omega, Bool.not_eq_true] at hbit
      rw [hbit, Bool.false_and]
    · rw [decide_eq_false h7, Bool.and_false]
  · rintro ⟨j, hj, hbit⟩ h0
    have hzero := congrArg (fun w => w.getLsbD (8 * j + 7)) h0
    simp only [BitVec.getLsbD_and, BitVec.getLsbD_zero, hbit, Bool.true_and] at hzero
    rw [highMask_bit _ (by omega), decide_eq_false_iff_not] at hzero
    omega

theorem high_or (a b : BitVec 64) : High (a ||| b) ↔ High a ∨ High b := by
  unfold High
  simp only [BitVec.getLsbD_or, Bool.or_eq_true]
  constructor
  · rintro ⟨j, hj, h | h⟩
    · exact .inl ⟨j, hj, h⟩
    · exact .inr ⟨j, hj, h⟩
  · rintro (⟨j, hj, h⟩ | ⟨j, hj, h⟩)
    · exact ⟨j, hj, .inl h⟩
    · exact ⟨j, hj, .inr h⟩

theorem testBit_seven {b : Nat} (hb : b < 256) : b.testBit 7 = true ↔ 128 ≤ b := by
  rw [Nat.testBit_eq_decide_div_mod_eq, decide_eq_true_eq]
  omega

theorem high_word (s : List UInt8) (q : Nat) :
    High (wordAt s q 8) ↔ ∃ i, q ≤ i ∧ i < q + 8 ∧ 128 ≤ byteAt s i := by
  constructor
  · rintro ⟨j, hj, h⟩
    rw [wordAt_bit s q 8 (by omega) (by omega), show (8 * j + 7) / 8 = j by omega,
      show (8 * j + 7) % 8 = 7 by omega, testBit_seven (byteAt_lt s _)] at h
    exact ⟨q + j, by omega, by omega, h⟩
  · rintro ⟨i, hqi, hi, h⟩
    refine ⟨i - q, by omega, ?_⟩
    rw [wordAt_bit s q 8 (by omega) (by omega), show (8 * (i - q) + 7) / 8 = i - q by omega,
      show (8 * (i - q) + 7) % 8 = 7 by omega, testBit_seven (byteAt_lt s _),
      show q + (i - q) = i by omega]
    exact h

theorem high_byte (s : List UInt8) (q : Nat) :
    High (BitVec.ofNat 64 (byteAt s q)) ↔ 128 ≤ byteAt s q := by
  have hbyte := byteAt_lt s q
  constructor
  · rintro ⟨j, hj, h⟩
    rw [BitVec.getLsbD_ofNat, Bool.and_eq_true] at h
    have hle := Nat.ge_two_pow_of_testBit h.2
    have h7 : 2 ^ 7 ≤ 2 ^ (8 * j + 7) := Nat.pow_le_pow_right (by decide) (by omega)
    omega
  · intro h
    refine ⟨0, by decide, ?_⟩
    rw [BitVec.getLsbD_ofNat, Bool.and_eq_true]
    exact ⟨by decide, (testBit_seven hbyte).2 h⟩

theorem anyHigh_iff (s : List UInt8) (k n : Nat) (acc : BitVec 64) :
    anyHigh s k n acc = true ↔ High acc ∨ ∃ i, k ≤ i ∧ i < n ∧ 128 ≤ byteAt s i := by
  induction hd : n - k using Nat.strongRecOn generalizing k acc with
  | ind d ih =>
    rw [anyHigh]
    by_cases hbig : k + 32 ≤ n
    · rw [if_pos hbig, ih (n - (k + 32)) (by omega) (k + 32) _ rfl, high_or, high_or, high_or,
        high_or, high_word, high_word, high_word, high_word]
      constructor
      · rintro (((((h | ⟨i, h⟩) | ⟨i, h⟩) | ⟨i, h⟩) | ⟨i, h⟩) | ⟨i, h⟩)
        · exact .inl h
        · exact .inr ⟨i, by omega⟩
        · exact .inr ⟨i, by omega⟩
        · exact .inr ⟨i, by omega⟩
        · exact .inr ⟨i, by omega⟩
        · exact .inr ⟨i, by omega⟩
      · rintro (h | ⟨i, hki, hi, h⟩)
        · exact .inl (.inl (.inl (.inl (.inl h))))
        · rcases (by omega : i < k + 8 ∨ (k + 8 ≤ i ∧ i < k + 16) ∨ (k + 16 ≤ i ∧ i < k + 24) ∨
            (k + 24 ≤ i ∧ i < k + 32) ∨ k + 32 ≤ i) with h1 | h1 | h1 | h1 | h1
          · exact .inl (.inl (.inl (.inl (.inr ⟨i, by omega⟩))))
          · exact .inl (.inl (.inl (.inr ⟨i, by omega⟩)))
          · exact .inl (.inl (.inr ⟨i, by omega⟩))
          · exact .inl (.inr ⟨i, by omega⟩)
          · exact .inr ⟨i, by omega⟩
    · rw [if_neg hbig]
      by_cases hlt : k < n
      · rw [if_pos hlt, ih (n - (k + 1)) (by omega) (k + 1) _ rfl, high_or, high_byte]
        constructor
        · rintro ((h | h) | ⟨i, h⟩)
          · exact .inl h
          · exact .inr ⟨k, by omega⟩
          · exact .inr ⟨i, by omega⟩
        · rintro (h | ⟨i, hki, hi, h⟩)
          · exact .inl (.inl h)
          · rcases Nat.eq_or_lt_of_le hki with rfl | hlt'
            · exact .inl (.inr h)
            · exact .inr ⟨i, by omega⟩
      · rw [if_neg hlt, high_iff]
        constructor
        · exact .inl
        · rintro (h | ⟨i, h⟩)
          · exact h
          · omega

/-- A string of ASCII bytes alone. -/
def Ascii (s : List UInt8) : Prop := ∀ q, byteAt s q < 128

theorem anyHigh_eq (s : List UInt8) : anyHigh s 0 s.length 0#64 = false ↔ Ascii s := by
  rw [Bool.eq_false_iff, Ne, anyHigh_iff]
  constructor
  · intro h q
    by_contra hge
    apply h
    refine .inr ⟨q, Nat.zero_le q, lt_of_byteAt ?_, Nat.not_lt.1 hge⟩
    omega
  · rintro h (⟨j, hj, hbit⟩ | ⟨i, -, -, hge⟩)
    · rw [BitVec.getLsbD_zero] at hbit
      cases hbit
    · have := h i
      omega

/-! ## Checkpoints -/

/-- The checkpoints of a string. -/
def Checkpoints (s : List UInt8) (off : List Nat) : Prop :=
  ∀ j, 16 * j ≤ (chars s).length → off[j]? = some (cpOff s (16 * j))

theorem and_fifteen (n : Nat) : n &&& 15 = n % 16 := Nat.and_two_pow_sub_one_eq_mod n 4

theorem shiftRight_four (n : Nat) : n >>> 4 = n / 16 := Nat.shiftRight_eq_div_pow n 4

/-- Writing a checkpoint keeps the ones below it. -/
theorem set_checkpoint {off : List Nat} {m : Nat} (hm : m / 16 < off.length) (hmod : m % 16 = 0)
    (hdone : ∀ j, 16 * j < m → off[j]? = some (cpOff s (16 * j))) :
    ∀ j, 16 * j ≤ m → (off.set (m / 16) (cpOff s m))[j]? = some (cpOff s (16 * j)) := by
  intro j hj
  rcases Nat.eq_or_lt_of_le hj with heq | hlt
  · rw [show m / 16 = j by omega, List.getElem?_set_self (by omega), heq]
  · rw [List.getElem?_set_ne (by omega)]
    exact hdone j hlt

/-- Filling keeps the checkpoints written and writes the ones that follow. -/
theorem fillOff_spec {off : List Nat} (hn : n = (chars s).length) (hi : i ≤ n)
    (hlen : off.length = n / 16 + 1) (hdone : ∀ j, 16 * j < i → off[j]? = some (cpOff s (16 * j))) :
    Checkpoints s (fillOff s off (cpOff s i) i n) := by
  induction hd : n - i generalizing i off with
  | zero =>
    have hin : i = n := by omega
    subst hin
    rw [fillOff, if_pos (Nat.le_refl i), and_fifteen, shiftRight_four]
    intro j hj
    rw [← hn] at hj
    split_ifs with hmod
    · exact set_checkpoint (by omega) hmod hdone j hj
    · exact hdone j (by omega)
  | succ d ih =>
    have hlt : i < (chars s).length := by omega
    rw [fillOff, if_neg (by omega), ← cpOff_succ hlt, and_fifteen, shiftRight_four]
    split_ifs with hmod
    · refine ih (by omega) (by rw [List.length_set]; exact hlen) ?_ (by omega)
      intro j hj
      exact set_checkpoint (by omega) hmod hdone j (by omega)
    · refine ih (by omega) hlen ?_ (by omega)
      intro j hj
      exact hdone j (by omega)

/-- What `idx_build` allocates and fills for a string that is not all ASCII. -/
def idxOffs (s : List UInt8) (n : Nat) : List Nat :=
  fillOff s (List.replicate ((n >>> 4) + 1) 0) 0 0 n

theorem idxOffs_spec (s : List UInt8) : Checkpoints s (idxOffs s (chars s).length) := by
  refine fillOff_spec rfl (Nat.zero_le _) ?_ ?_
  · rw [List.length_replicate, shiftRight_four]
  · intro j hj
    omega

/-! ## ASCII strings -/

theorem utf8LenAt_ascii (h : Ascii s) (q : Nat) : utf8LenAt s q = 1 := by
  unfold utf8LenAt utf8SeqLen
  rw [if_pos (h q), utf8Cont, if_pos (Nat.le_refl 1)]

theorem cpOff_ascii (h : Ascii s) (hi : i ≤ (chars s).length) : cpOff s i = i := by
  induction i with
  | zero => rfl
  | succ i ih => rw [cpOff_succ hi, ih (by omega), utf8LenAt_ascii h]

theorem length_ascii (h : Ascii s) : (chars s).length = s.length := by
  rw [← cpOff_ascii h (Nat.le_refl _)]
  exact cpOff_last (Nat.le_refl _)

/-! ## The slot of a string -/

/-- A slot that describes a string. -/
structure Slot.Indexes (sl : Slot) (s : List UInt8) : Prop where
  len : sl.len = (chars s).length
  blen : sl.blen = s.length
  plain : sl.off = none → Ascii s
  off : ∀ off, sl.off = some off → Checkpoints s off

theorem slotOff_eq (h : sl.Indexes s) (hi : i ≤ (chars s).length) : slotOff s sl i = cpOff s i := by
  unfold slotOff
  cases hoff : sl.off with
  | none => exact (cpOff_ascii (h.plain hoff) hi).symm
  | some off =>
    have hpoint := h.off off hoff (i / 16) (by omega)
    simp only
    rw [shiftRight_four, and_fifteen, List.getD_eq_getElem?_getD, hpoint, Option.getD_some,
      slotWalk_cpOff s _ _ (by omega)]
    congr 1
    omega

/-! ## One code point -/

/-- A code point's bytes are the string's. -/
theorem chars_getElem? (h : i < (chars s).length) :
    (chars s)[i]? = some ((s.drop (cpOff s i)).take (utf8LenAt s (cpOff s i))) := by
  have hrest := chars_drop s i
  have hne : s.drop (cpOff s i) ≠ [] := by
    intro h0
    rw [h0, chars_nil] at hrest
    have := congrArg List.length hrest
    rw [List.length_nil, List.length_drop] at this
    omega
  rw [chars_cons hne, utf8LenAt_drop, Nat.add_zero] at hrest
  have h0 := congrArg (fun l => l[0]?) hrest
  simp only [List.getElem?_cons_zero, List.getElem?_drop, Nat.add_zero] at h0
  exact h0.symm

theorem byteAt_take {j : Nat} (h : j < n) : byteAt (s.take n) j = byteAt s j := by
  unfold byteAt
  rw [List.getD_eq_getElem?_getD, List.getD_eq_getElem?_getD, List.getElem?_take_of_lt h]

/-- Decoding reads the code point's own bytes. -/
theorem utf8Decode_own (s : List UInt8) {q len : Nat} (hlen : 1 ≤ len ∧ len ≤ 4) :
    utf8Decode ((s.drop q).take len) 0 len = utf8Decode s q len := by
  have hbyte : ∀ j < len, byteAt ((s.drop q).take len) (0 + j) = byteAt s (q + j) := by
    intro j hj
    rw [Nat.zero_add, byteAt_take hj, byteAt_drop]
  have hb0 : byteAt ((s.drop q).take len) 0 = byteAt s q := hbyte 0 (by omega)
  unfold utf8Decode
  rw [hb0]
  rcases (by omega : len = 1 ∨ len = 2 ∨ len = 3 ∨ len = 4) with rfl | rfl | rfl | rfl
  · rfl
  · simp [hbyte 1]
  · simp [hbyte 1, hbyte 2]
  · simp [hbyte 1, hbyte 2, hbyte 3]

theorem naiveCharAt_eq (s : List UInt8) (h : i < (chars s).length) :
    naiveCharAt s i = utf8Decode s (cpOff s i) (utf8LenAt s (cpOff s i)) := by
  have hlt := cpOff_lt h
  have hle := utf8LenAt_le hlt
  unfold naiveCharAt
  rw [if_pos (Int.natCast_nonneg i), Int.toNat_natCast, chars_getElem? h]
  simp only
  rw [List.length_take, List.length_drop, Nat.min_eq_left (by omega),
    utf8Decode_own s (utf8LenAt_bounds s _)]

theorem ult_iff {i : Int} (hi : Fits 64 i) (hn : n < 2 ^ 63) : ult i n = true ↔ 0 ≤ i ∧ i < n := by
  rw [fits_64] at hi
  unfold ult
  rw [BitVec.ult, decide_eq_true_eq, BitVec.toNat_ofInt, BitVec.toNat_ofInt]
  omega

/-- The indexed code point is the walked one, for every index. -/
theorem charAtSlow_eq (h : sl.Indexes s) (hs : s.length < 2 ^ 63) {i : Int} (hi : Fits 64 i) :
    charAtSlow s sl i = naiveCharAt s i := by
  have hcount : (chars s).length ≤ s.length := by
    have hoff : ∀ i ≤ (chars s).length, i ≤ cpOff s i := by
      intro i hi
      induction i with
      | zero => exact Nat.zero_le _
      | succ i ih =>
        have hpos := (utf8LenAt_bounds s (cpOff s i)).1
        rw [cpOff_succ hi]
        omega
    exact (hoff _ (Nat.le_refl _)).trans (cpOff_le s _)
  unfold charAtSlow
  rw [h.len]
  have hult := ult_iff hi (n := (chars s).length) (by omega)
  by_cases hin : ult i (chars s).length = true
  · rw [if_neg (not_not_intro hin)]
    obtain ⟨hpos, hlt⟩ := hult.1 hin
    obtain ⟨n, rfl⟩ := Int.eq_ofNat_of_zero_le hpos
    have hn : n < (chars s).length := by omega
    rw [Int.toNat_natCast, naiveCharAt_eq s hn]
    cases hoff : sl.off with
    | none =>
      have hascii := h.plain hoff
      rw [cpOff_ascii hascii hn.le, utf8LenAt_ascii hascii]
      rfl
    | some off => 
      rw [slotOff_eq h hn.le]
  · rw [if_pos hin]
    unfold naiveCharAt
    split_ifs with hpos
    · have hge : (chars s).length ≤ i.toNat := by
        by_contra hlt
        exact hin (hult.2 (by omega))
      rw [List.getElem?_eq_none hge]
    · rfl

/-! ## Slices -/

theorem flatten_between (s : List UInt8) {a b : Nat} (hab : a ≤ b) :
    (s.drop (cpOff s a)).take (cpOff s b - cpOff s a) =
      (((chars s).take b).drop a).flatten := by
  have htake : s.take (cpOff s b) = ((chars s).take b).flatten := by
    have hsplit : s = ((chars s).take b).flatten ++ ((chars s).drop b).flatten := by
      rw [← List.flatten_append, List.take_append_drop, chars_flatten]
    obtain ⟨low, hlow⟩ : ∃ low, ((chars s).take b).flatten = low := ⟨_, rfl⟩
    have hoff : cpOff s b = low.length := congrArg List.length hlow
    rw [hlow] at hsplit ⊢
    rw [hoff]
    conv_lhs => rw [hsplit]
    exact List.take_left
  have hcut : (s.take (cpOff s b)).drop (cpOff s a) = (((chars s).take b).drop a).flatten := by
    have hsplit : ((chars s).take b).flatten =
        ((chars s).take a).flatten ++ (((chars s).take b).drop a).flatten := by
      have htt : ((chars s).take b).take a = (chars s).take a := by
        rw [List.take_take, Nat.min_eq_left hab]
      rw [← htt, ← List.flatten_append, List.take_append_drop]
    rw [htake, hsplit]
    exact List.drop_left
  rw [← hcut, List.drop_take]

/-- A range clamped to a list leaves the list's part of it. -/
theorem take_drop_clamp {α : Type} (l : List α) (a b : Nat) :
    (l.take (min (max a b) l.length)).drop (min a l.length) = (l.take b).drop a := by
  rcases Nat.le_total b a with hba | hab
  · rw [Nat.max_eq_left hba, List.drop_eq_nil_of_le (by rw [List.length_take]; omega),
      List.drop_eq_nil_of_le (by rw [List.length_take]; omega)]
  · rw [Nat.max_eq_right hab, ← List.take_take, List.take_length]
    rcases Nat.le_total a l.length with ha | ha
    · rw [Nat.min_eq_left ha]
    · rw [List.drop_eq_nil_of_le (by rw [List.length_take]; omega),
        List.drop_eq_nil_of_le (by rw [List.length_take]; omega)]

/-- The indexed slice is the walked one, for every range. -/
theorem strSliceSlow_eq (h : sl.Indexes s) (start stop : Int) :
    strSliceSlow s sl start stop = naiveSlice s start stop := by
  have hcut : ∀ a b : Nat, a ≤ b → b ≤ (chars s).length →
      (s.drop (slotOff s sl a)).take (slotOff s sl b - slotOff s sl a) =
        (((chars s).take b).drop a).flatten := by
    intro a b hab hb
    rw [slotOff_eq h (hab.trans hb), slotOff_eq h hb, flatten_between s hab]
  unfold strSliceSlow naiveSlice
  rw [h.len, hcut _ _ (by split_ifs <;> omega) (by split_ifs <;> omega),
    ← take_drop_clamp (chars s) start.toNat stop.toNat]
  congr 3 <;> · split_ifs <;> omega

end StrIndex

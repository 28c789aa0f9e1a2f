import Resid.Cbor.Head

/-!
# Well-formed items

`Item P depth bs` says that the bytes `bs` are one data item of definite lengths, nested at most
`depth` deep, each of whose heads satisfies `P`.  Arrays, maps and tags nest; a map of `n` entries
has `2 * n` parts; a simple value of two bytes is 32 or more.

    Item P depth a → Item Q depth' b → a ++ r = b ++ s → a = b       (Item.unique)
-/

namespace Cbor

open ByteOrder

/-- What a head may be: its major type, additional information and argument. -/
abbrev HeadOk := (mt ai arg : Nat) → Prop

inductive Item (P : HeadOk) : (depth : Nat) → List UInt8 → Prop
  | number {depth mt ai arg : Nat} {hd : List UInt8} :
      Head mt ai arg hd → P mt ai arg → mt = 0 ∨ mt = 1 → Item P depth hd
  | string {depth mt ai : Nat} {hd body : List UInt8} :
      Head mt ai body.length hd → P mt ai body.length → mt = 2 ∨ mt = 3 → Item P depth (hd ++ body)
  | array {depth ai : Nat} {hd : List UInt8} {parts : List (List UInt8)} :
      Head 4 ai parts.length hd → P 4 ai parts.length → (∀ c ∈ parts, Item P depth c) →
      Item P (depth + 1) (hd ++ parts.flatten)
  | map {depth ai n : Nat} {hd : List UInt8} {parts : List (List UInt8)} :
      Head 5 ai n hd → P 5 ai n → parts.length = 2 * n → (∀ c ∈ parts, Item P depth c) →
      Item P (depth + 1) (hd ++ parts.flatten)
  | tag {depth ai n : Nat} {hd body : List UInt8} :
      Head 6 ai n hd → P 6 ai n → Item P depth body → Item P (depth + 1) (hd ++ body)
  | simple {depth ai arg : Nat} {hd : List UInt8} :
      Head 7 ai arg hd → P 7 ai arg → (ai = 24 → 32 ≤ arg) → Item P depth hd

variable {P Q : HeadOk} {depth : Nat}

theorem Item.mono (hPQ : ∀ mt ai arg, P mt ai arg → Q mt ai arg) {bs : List UInt8}
    (h : Item P depth bs) : Item Q depth bs := by
  induction h with
  | number h hp hmt => exact .number h (hPQ _ _ _ hp) hmt
  | string h hp hmt => exact .string h (hPQ _ _ _ hp) hmt
  | array h hp _ ih => exact .array h (hPQ _ _ _ hp) ih
  | map h hp hn _ ih => exact .map h (hPQ _ _ _ hp) hn ih
  | tag h hp _ ih => exact .tag h (hPQ _ _ _ hp) ih
  | simple h hp hs => exact .simple h (hPQ _ _ _ hp) hs

theorem Item.length_pos {bs : List UInt8} (h : Item P depth bs) : 0 < bs.length := by
  cases h with
  | number h _ _ => exact h.length_pos
  | simple h _ _ => exact h.length_pos
  | string h _ _ | array h _ _ | map h _ _ _ | tag h _ _ =>
    have := h.length_pos
    rw [List.length_append]
    omega

/-- Items together are at least as long as they are many. -/
theorem length_le_flatten {parts : List (List UInt8)} (h : ∀ c ∈ parts, Item P depth c) :
    parts.length ≤ parts.flatten.length := by
  induction parts with
  | nil => simp
  | cons c cs ih =>
    have hc := (h c List.mem_cons_self).length_pos
    have hcs := ih (fun c hc => h c (List.mem_cons_of_mem _ hc))
    rw [List.flatten_cons, List.length_append, List.length_cons]
    omega

end Cbor

/-!
## Well-formedness, bounded

One pass over untrusted bytes: exactly one item of definite lengths, nested no deeper than asked.
It is exact but for two arguments it does not expect: doubling a map's count of `2 ^ 62` or more
traps, and a tag number of `2 ^ 63` or more is taken for a length.

    cborWfItem bs depth p = some (p + c.length) for an item c at p   (readsItems_cborWfItem)
    cborWellFormed is exact ↔ no such count is met, no such tag is in the item
                                                                     (cborWellFormed_exact_iff)
-/

namespace Cbor

open CheckedInt ByteOrder

/-! ## Algorithm -/

/-- `bs[i]`; an index out of range traps. -/
def byteAt (bs : List UInt8) (i : Int) : Option UInt8 := if 0 ≤ i then bs[i.toNat]? else none

/-- The big-endian value of `n` bytes from `i`, shifted into the 64 bits of `acc`. -/
def cborWfArg (bs : List UInt8) : (i : Int) → (n : Nat) → (acc : Nat) → Option Nat
  | _, 0, acc => some acc
  | i, n + 1, acc => do
    let b ← byteAt bs i
    let j ← add 64 i 1
    cborWfArg bs j n (FixedWidth.shlLow 64 acc 8 ||| b.toNat)

/-- A head as the walk sees it: an argument over `2 ^ 63 - 1` is only marked. -/
structure WfHead where
  mt : Nat
  ai : Nat
  huge : Bool
  arg : Int
  next : Int

/-- Whether the input ends inside the argument. -/
def cborWfCut (bs : List UInt8) (pos : Int) (width : Nat) : Option Bool :=
  if width > 0 then (add 64 pos width).map fun last : Int => decide (last ≥ bs.length) else some false

/-- An argument over `2 ^ 63 - 1` is too large for any length here. -/
def cborWfHuge (bs : List UInt8) (start : Int) (width : Nat) : Option Bool :=
  if width = 8 then (byteAt bs start).map fun b => decide (b ≥ 128) else some false

/-- The argument of a head, 0 where it is huge. -/
def cborWfValue (bs : List UInt8) (start : Int) (ai width : Nat) (huge : Bool) : Option Int :=
  if ai < 24 then some ai
  else if huge then some 0
  else (cborWfArg bs start width 0).map fun bits => (BitVec.ofNat 64 bits).toInt

/-- The head at `pos`, or none where the walk refuses it. -/
def cborWfHead (bs : List UInt8) (pos : Int) : Option (Option WfHead) :=
  if pos < 0 ∨ pos ≥ bs.length then some none
  else do
    let b0 ← byteAt bs pos
    let mt := b0.toNat >>> 5
    let ai := b0.toNat &&& 31
    if ai ≥ 28 then some none
    else do
      let width := if ai < 24 then 0 else cbArgWidth ai
      let cut ← cborWfCut bs pos width
      if cut then some none
      else do
        let start ← add 64 pos 1
        let huge ← cborWfHuge bs start width
        let arg ← cborWfValue bs start ai width huge
        let next ← add 64 start width
        some (some ⟨mt, ai, huge, arg, next⟩)

/-- The position after `n` well-formed items from `pos`, or -1. -/
def cborWfParts (item : Int → Option Int) : (n : Nat) → (pos : Int) → Option Int
  | 0, pos => some pos
  | n + 1, pos => do
    let e ← item pos
    if e < 0 then some (-1) else cborWfParts item n e

/-- The position after the well-formed item at `pos`, or -1; `depth` counts the arrays, maps and
tags that may nest from here. -/
def cborWfItem (bs : List UInt8) (depth : Nat) (pos : Int) : Option Int := do
  match ← cborWfHead bs pos with
  | none => some (-1)
  | some h =>
    if h.mt = 0 ∨ h.mt = 1 then some h.next
    else if h.mt = 7 then some (if h.ai = 24 ∧ h.arg < 32 then -1 else h.next)
    else if h.huge then some (-1)
    else if h.mt = 2 ∨ h.mt = 3 then do
      let left ← sub 64 bs.length h.next
      if h.arg > left then some (-1) else add 64 h.next h.arg
    else
      match depth with
      | 0 => some (-1)
      | depth + 1 =>
        if h.mt = 6 then cborWfItem bs depth h.next
        else do
          let parts ← if h.mt = 4 then some h.arg else mul 64 2 h.arg
          let left ← sub 64 bs.length h.next
          if h.arg > left ∨ parts > left then some (-1)
          else cborWfParts (cborWfItem bs depth) parts.toNat h.next

def cborWellFormed (bs : ByteList) (depth : Int) : Option Bool :=
  if depth ≥ 0 then do
    let stop ← cborWfItem bs.val depth.toNat 0
    some (decide (stop = bs.val.length))
  else some false

/-! ## The two arguments it does not expect -/

/-- Tag numbers the walk accepts. -/
def SmallTag : HeadOk := fun mt _ arg => mt = 6 → arg < 2 ^ 63

/-- Reading an item here comes, after well-formed parts, to the head of a map whose count doubled
does not fit. -/
inductive Overflows : (depth : Nat) → List UInt8 → Prop
  | count {depth ai n : Nat} {hd rest : List UInt8} :
      Head 5 ai n hd → 2 ^ 62 ≤ n → n < 2 ^ 63 → Overflows (depth + 1) (hd ++ rest)
  | tag {depth ai n : Nat} {hd rest : List UInt8} :
      Head 6 ai n hd → n < 2 ^ 63 → Overflows depth rest → Overflows (depth + 1) (hd ++ rest)
  | part {depth mt ai n count : Nat} {hd rest : List UInt8} {parts : List (List UInt8)} :
      Head mt ai n hd → mt = 4 ∧ count = n ∨ mt = 5 ∧ count = 2 * n →
      parts.length < count → count ≤ (parts.flatten ++ rest).length →
      (∀ c ∈ parts, Item SmallTag depth c) → Overflows depth rest →
      Overflows (depth + 1) (hd ++ (parts.flatten ++ rest))

/-! ## Heads -/

@[simp] theorem byteAt_natCast (bs : List UInt8) (p : Nat) : byteAt bs p = bs[p]? := by
  rw [byteAt, if_pos (Int.natCast_nonneg p), Int.toNat_natCast]

/-- A position in a list and a few bytes more fit. -/
theorem add_pos {p k : Nat} (hp : p ≤ listCap) (hk : k ≤ listCap) :
    add 64 (p : Int) (k : Int) = some ((p + k : Nat) : Int) := by
  unfold listCap at hp hk
  rw [add_of_fits (fits_64.2 (by omega)), Nat.cast_add]

theorem add_pos_one {p : Nat} (hp : p ≤ listCap) :
    add 64 (p : Int) 1 = some ((p + 1 : Nat) : Int) :=
  add_pos hp (show 1 ≤ listCap by unfold listCap; omega)

theorem cborWfArg_eq {bs : List UInt8} {p n : Nat} (hp : p + n ≤ listCap) (acc : Nat) :
    cborWfArg bs p n acc = cbArgBytes bs p n acc := by
  induction n generalizing p acc with
  | zero => rfl
  | succ n ih =>
    unfold cborWfArg cbArgBytes
    rw [byteAt_natCast, add_pos_one (by omega)]
    congr 1
    funext b
    exact ih (by omega) _

/-- A 64-bit argument is over `2 ^ 63 - 1` when its first byte is 128 or more. -/
theorem value_ge_iff {b : UInt8} {as : List UInt8} (h : as.length = 7) :
    2 ^ 63 ≤ value (b :: as).reverse ↔ 128 ≤ b := by
  have hlow := value_lt as.reverse
  rw [List.length_reverse, h] at hlow
  rw [value_reverse_cons, h, UInt8.le_iff_toNat_le]
  have hb : (128 : UInt8).toNat = 128 := rfl
  omega

theorem toInt_of_lt {n : Nat} (h : n < 2 ^ 63) : (BitVec.ofNat 64 n).toInt = n := by
  have hmod : n % 2 ^ 64 = n := Nat.mod_eq_of_lt (by omega)
  rw [BitVec.toInt_eq_toNat_cond, BitVec.toNat_ofNat, hmod, if_pos (by omega)]

section

variable {bs : List UInt8} {p mt ai arg width : Nat} {hd as rest : List UInt8}

theorem cbArgWidth_pos (ai : Nat) : 0 < cbArgWidth ai := by
  unfold cbArgWidth
  split_ifs <;> omega

theorem cborWfCut_eq (hp : p ≤ listCap) (hw : width ≤ 8) :
    cborWfCut bs p width = some (decide (0 < width ∧ bs.length ≤ p + width)) := by
  unfold cborWfCut
  by_cases h0 : 0 < width
  · rw [if_pos h0, add_pos hp (show width ≤ listCap by unfold listCap; omega), Option.map_some]
    congr 1
    apply decide_eq_decide.2
    omega
  · rw [if_neg h0, decide_eq_false (fun h => h0 h.1)]

theorem cborWfHuge_eq (hrest : bs.drop p = as ++ rest) (hw : as.length = cbArgWidth ai) :
    cborWfHuge bs p (cbArgWidth ai) = some (decide (2 ^ 63 ≤ value as.reverse)) := by
  unfold cborWfHuge
  by_cases h8 : cbArgWidth ai = 8
  · obtain ⟨a, r, rfl⟩ : ∃ a r, as = a :: r := by
      cases as with
      | nil =>
        rw [h8] at hw
        cases hw
      | cons a r => exact ⟨a, r, rfl⟩
    rw [h8, List.length_cons] at hw
    rw [if_pos h8, byteAt_natCast, (getElem?_of_drop_cons hrest).1, Option.map_some]
    congr 1
    apply decide_eq_decide.2
    exact (value_ge_iff (by omega)).symm
  · have hlt := value_lt as.reverse
    have h4 : cbArgWidth ai ≤ 4 := by
      unfold cbArgWidth at h8 ⊢
      split_ifs at h8 ⊢ <;> omega
    have hpow : 256 ^ as.length ≤ 256 ^ 4 := Nat.pow_le_pow_right (by decide) (hw ▸ h4)
    rw [List.length_reverse] at hlt
    rw [if_neg h8, decide_eq_false (by omega)]

theorem cborWfValue_eq (hp : p + cbArgWidth ai ≤ listCap) (hrest : bs.drop p = as ++ rest)
    (hw : as.length = cbArgWidth ai) (h24 : 24 ≤ ai) :
    cborWfValue bs p ai (cbArgWidth ai) (decide (2 ^ 63 ≤ value as.reverse)) =
      some (if 2 ^ 63 ≤ value as.reverse then 0 else (value as.reverse : Int)) := by
  unfold cborWfValue
  rw [if_neg (by omega)]
  by_cases hbig : 2 ^ 63 ≤ value as.reverse
  · rw [if_pos (decide_eq_true hbig), if_pos hbig]
  · have hfit : (0 + 1) * 256 ^ as.length ≤ 2 ^ 64 := by
      have hpow : 256 ^ as.length ≤ 256 ^ 8 :=
        Nat.pow_le_pow_right (by decide) (hw ▸ cbArgWidth_le ai)
      omega
    have hargs := cbArgBytes_eq hrest hfit
    rw [hw, Nat.zero_mul, Nat.zero_add] at hargs
    rw [decide_eq_false hbig, if_neg Bool.false_ne_true, if_neg hbig, cborWfArg_eq hp, hargs,
      Option.map_some, toInt_of_lt (by omega)]

/-- The head at `p` as the walk sees it. -/
theorem cborWfHead_head (hcap : bs.length ≤ listCap) (h : Head mt ai arg hd)
    (hd' : bs.drop p = hd ++ rest) :
    cborWfHead bs p = some (some ⟨mt, ai, decide (2 ^ 63 ≤ arg),
      if 2 ^ 63 ≤ arg then 0 else arg, ((p + hd.length : Nat) : Int)⟩) := by
  have hlen := congrArg List.length hd'
  have hpos := h.length_pos
  rw [List.length_drop, List.length_append] at hlen
  have hin : ¬ ((p : Int) < 0 ∨ (p : Int) ≥ bs.length) := by omega
  unfold cborWfHead
  rw [if_neg hin, byteAt_natCast, add_pos_one (by omega)]
  cases h with
  | short hm hai =>
    obtain ⟨hget, -⟩ := getElem?_of_drop_cons hd'
    have hmt : (32 * mt + ai) / 32 = mt := by omega
    have harg : (32 * mt + ai) % 32 = ai := by omega
    have hcut : cborWfCut bs p 0 = some false := rfl
    have hhuge : cborWfHuge bs ((p + 1 : Nat) : Int) 0 = some false := rfl
    have hvalue : cborWfValue bs ((p + 1 : Nat) : Int) ai 0 false = some (ai : Int) := if_pos hai
    have hnext := @add_pos (p + 1) 0 (by omega) (by unfold listCap; omega)
    simp only [hget, some_bind, headByte_major, headByte_info,
      toNat_headByte hm (show ai < 32 by omega), hmt, harg, if_neg (show ¬ ai ≥ 28 by omega),
      if_pos hai, hcut, if_neg Bool.false_ne_true, hhuge, hvalue, hnext,
      if_neg (show ¬ 2 ^ 63 ≤ ai by omega), decide_eq_false (show ¬ 2 ^ 63 ≤ ai by omega)]
    rfl
  | @wide as hm h24 h28 hw =>
    obtain ⟨hget, hrest⟩ := getElem?_of_drop_cons hd'
    have hmt : (32 * mt + ai) / 32 = mt := by omega
    have harg : (32 * mt + ai) % 32 = ai := by omega
    have hw8 := cbArgWidth_le ai
    rw [List.length_cons, hw] at hlen
    have hcut : cborWfCut bs p (cbArgWidth ai) = some false := by
      rw [cborWfCut_eq (by omega) hw8, decide_eq_false (by omega)]
    have hnext := @add_pos (p + 1) (cbArgWidth ai) (by omega) (by unfold listCap; omega)
    have hend : p + 1 + cbArgWidth ai = p + (UInt8.ofNat (32 * mt + ai) :: as).length := by
      rw [List.length_cons, hw]
      omega
    simp only [hget, some_bind, headByte_major, headByte_info,
      toNat_headByte hm (show ai < 32 by omega), hmt, harg, if_neg (show ¬ ai ≥ 28 by omega),
      if_neg (show ¬ ai < 24 by omega), hcut, if_neg Bool.false_ne_true, cborWfHuge_eq hrest hw,
      cborWfValue_eq (show p + 1 + cbArgWidth ai ≤ listCap by omega) hrest hw h24, hnext, hend]

/-- Where the walk refuses the head there is none. -/
theorem cborWfHead_cases (hcap : bs.length ≤ listCap) (p : Nat) :
    cborWfHead bs p = some none ∨
      ∃ mt ai arg hd rest, Head mt ai arg hd ∧ bs.drop p = hd ++ rest := by
  by_cases hin : (p : Int) < 0 ∨ (p : Int) ≥ bs.length
  · left
    rw [cborWfHead, if_pos hin]
  · have hlt : p < bs.length := by omega
    have hb := (bs[p]).toNat_lt
    have hbyte : bs[p] = UInt8.ofNat (32 * (bs[p].toNat / 32) + bs[p].toNat % 32) := by
      rw [Nat.div_add_mod, UInt8.ofNat_toNat]
    have hcons := List.drop_eq_getElem_cons hlt
    by_cases h28 : bs[p].toNat % 32 ≥ 28
    · left
      unfold cborWfHead
      rw [if_neg hin, byteAt_natCast, List.getElem?_eq_getElem hlt]
      simp [headByte_info, if_pos h28]
    · by_cases h24 : bs[p].toNat % 32 < 24
      · right
        refine ⟨bs[p].toNat / 32, _, _, _, bs.drop (p + 1),
          @Head.short (bs[p].toNat / 32) (bs[p].toNat % 32) (by omega) h24, ?_⟩
        rw [← hbyte, hcons]
        rfl
      · have hw0 := cbArgWidth_pos (bs[p].toNat % 32)
        have hw8 := cbArgWidth_le (bs[p].toNat % 32)
        by_cases hroom : bs.length ≤ p + cbArgWidth (bs[p].toNat % 32)
        · left
          have hcut : cborWfCut bs p (cbArgWidth (bs[p].toNat % 32)) = some true := by
            rw [cborWfCut_eq (by omega) hw8, decide_eq_true ⟨hw0, hroom⟩]
          unfold cborWfHead
          rw [if_neg hin, byteAt_natCast, List.getElem?_eq_getElem hlt]
          simp [headByte_info, if_neg h24, hcut]
        · right
          refine ⟨bs[p].toNat / 32, bs[p].toNat % 32, _, _,
            (bs.drop (p + 1)).drop (cbArgWidth (bs[p].toNat % 32)),
            @Head.wide _ _ ((bs.drop (p + 1)).take (cbArgWidth (bs[p].toNat % 32))) (by omega)
              (by omega) (by omega) ?_, ?_⟩
          · rw [List.length_take, List.length_drop]
            omega
          · rw [← hbyte, List.cons_append, List.take_append_drop, hcons]

/-! ## One item by its major type -/

variable {depth : Nat}

theorem next_le (h : Head mt ai arg hd) (hd' : bs.drop p = hd ++ rest) :
    p + hd.length + rest.length = bs.length := by
  have hlen := congrArg List.length hd'
  have hpos := h.length_pos
  rw [List.length_drop, List.length_append] at hlen
  omega

theorem drop_next (hd' : bs.drop p = hd ++ rest) : bs.drop (p + hd.length) = rest := by
  rw [← List.drop_drop, hd', List.drop_left]

/-- What is left of the input after the head. -/
theorem sub_next (hcap : bs.length ≤ listCap) (h : Head mt ai arg hd)
    (hd' : bs.drop p = hd ++ rest) :
    sub 64 (bs.length : Int) ((p + hd.length : Nat) : Int) = some (rest.length : Int) := by
  have hnext := next_le h hd'
  unfold listCap at hcap
  rw [sub_of_fits (fits_64.2 (by omega))]
  congr 1
  omega

/-- The walk past a head, by its major type. -/
theorem cborWfItem_eq {pos : Int} {w : WfHead} (hw : cborWfHead bs pos = some (some w)) :
    cborWfItem bs depth pos =
      if w.mt = 0 ∨ w.mt = 1 then some w.next
      else if w.mt = 7 then some (if w.ai = 24 ∧ w.arg < 32 then -1 else w.next)
      else if w.huge then some (-1)
      else if w.mt = 2 ∨ w.mt = 3 then
        (sub 64 bs.length w.next).bind fun left =>
          if w.arg > left then some (-1) else add 64 w.next w.arg
      else
        match depth with
        | 0 => some (-1)
        | depth + 1 =>
          if w.mt = 6 then cborWfItem bs depth w.next
          else
            let items (parts : Int) := (sub 64 bs.length w.next).bind fun left =>
              if w.arg > left ∨ parts > left then some (-1)
              else cborWfParts (cborWfItem bs depth) parts.toNat w.next
            if w.mt = 4 then (some w.arg).bind items else (mul 64 2 w.arg).bind items := by
  rw [cborWfItem.eq_def, hw]
  rfl

theorem cborWfItem_number (hcap : bs.length ≤ listCap) (h : Head mt ai arg hd)
    (hd' : bs.drop p = hd ++ rest) (hmt : mt = 0 ∨ mt = 1) :
    cborWfItem bs depth p = some ((p + hd.length : Nat) : Int) := by
  rw [cborWfItem_eq (cborWfHead_head hcap h hd')]
  simp [if_pos hmt]

theorem cborWfItem_simple (hcap : bs.length ≤ listCap) (h : Head 7 ai arg hd)
    (hd' : bs.drop p = hd ++ rest) :
    cborWfItem bs depth p =
      some (if ai = 24 ∧ arg < 32 then -1 else ((p + hd.length : Nat) : Int)) := by
  have hbyte : ai = 24 → arg < 256 := by
    intro h24
    cases h with
    | short _ hai => omega
    | @wide as _ _ _ hw =>
      have hval := value_lt as.reverse
      rw [List.length_reverse, hw, h24] at hval
      exact hval
  have hsame : (ai = 24 ∧ (if 2 ^ 63 ≤ arg then 0 else (arg : Int)) < 32) ↔ (ai = 24 ∧ arg < 32) := by
    constructor
    · rintro ⟨h24, hlt⟩
      exact ⟨h24, by omega⟩
    · rintro ⟨h24, hlt⟩
      omega
  rw [cborWfItem_eq (cborWfHead_head hcap h hd')]
  simp only [Option.bind_some,
    if_neg (show ¬ (7 = 0 ∨ 7 = 1) by decide), if_true, hsame]

theorem cborWfItem_string (hcap : bs.length ≤ listCap) (h : Head mt ai arg hd)
    (hd' : bs.drop p = hd ++ rest) (hmt : mt = 2 ∨ mt = 3) :
    cborWfItem bs depth p =
      some (if arg ≤ rest.length then ((p + hd.length + arg : Nat) : Int) else -1) := by
  have hnext := next_le h hd'
  rw [cborWfItem_eq (cborWfHead_head hcap h hd')]
  simp only [Option.bind_some,
    if_neg (show ¬ (mt = 0 ∨ mt = 1) by omega), if_neg (show ¬ mt = 7 by omega), if_pos hmt,
    sub_next hcap h hd']
  by_cases hroom : arg ≤ rest.length
  · have hsmall : ¬ 2 ^ 63 ≤ arg := by
      unfold listCap at hcap
      omega
    simp only [if_neg hsmall, decide_eq_false hsmall, if_neg Bool.false_ne_true,
      if_neg (show ¬ (arg : Int) > rest.length by omega), if_pos hroom]
    exact add_pos (by omega) (by omega)
  · by_cases hbig : 2 ^ 63 ≤ arg
    · simp only [decide_eq_true hbig, if_true, if_neg hroom]
    · simp only [if_neg hbig, decide_eq_false hbig, if_neg Bool.false_ne_true,
        if_pos (show (arg : Int) > rest.length by omega), if_neg hroom]

/-- Nothing nests any deeper. -/
theorem cborWfItem_zero (hcap : bs.length ≤ listCap) (h : Head mt ai arg hd)
    (hd' : bs.drop p = hd ++ rest) (hmt : 4 ≤ mt ∧ mt ≤ 6) :
    cborWfItem bs 0 p = some (-1) := by
  rw [cborWfItem_eq (cborWfHead_head hcap h hd')]
  simp [if_neg (show ¬ (mt = 0 ∨ mt = 1) by omega), if_neg (show ¬ mt = 7 by omega),
    if_neg (show ¬ (mt = 2 ∨ mt = 3) by omega), ite_self]

theorem cborWfItem_tag (hcap : bs.length ≤ listCap) (h : Head 6 ai arg hd)
    (hd' : bs.drop p = hd ++ rest) :
    cborWfItem bs (depth + 1) p =
      if arg < 2 ^ 63 then cborWfItem bs depth ((p + hd.length : Nat) : Int) else some (-1) := by
  rw [cborWfItem_eq (cborWfHead_head hcap h hd')]
  simp only [Option.bind_some,
    if_neg (show ¬ (6 = 0 ∨ 6 = 1) by decide), if_neg (show ¬ 6 = 7 by decide),
    if_neg (show ¬ (6 = 2 ∨ 6 = 3) by decide), if_true]
  by_cases hbig : 2 ^ 63 ≤ arg
  · rw [if_pos (decide_eq_true hbig), if_neg (by omega)]
  · rw [if_neg (by simpa using hbig), if_pos (by omega)]

theorem cborWfItem_array (hcap : bs.length ≤ listCap) (h : Head 4 ai arg hd)
    (hd' : bs.drop p = hd ++ rest) :
    cborWfItem bs (depth + 1) p =
      if arg ≤ rest.length then cborWfParts (cborWfItem bs depth) arg ((p + hd.length : Nat) : Int)
      else some (-1) := by
  have hnext := next_le h hd'
  rw [cborWfItem_eq (cborWfHead_head hcap h hd')]
  simp only [Option.bind_some,
    if_neg (show ¬ (4 = 0 ∨ 4 = 1) by decide), if_neg (show ¬ 4 = 7 by decide),
    if_neg (show ¬ (4 = 2 ∨ 4 = 3) by decide), if_neg (show ¬ 4 = 6 by decide), if_true,
    sub_next hcap h hd']
  by_cases hbig : 2 ^ 63 ≤ arg
  · unfold listCap at hcap
    rw [if_pos (decide_eq_true hbig), if_neg (by omega)]
  · rw [if_neg (show ¬ decide (2 ^ 63 ≤ arg) = true by simpa using hbig), if_neg hbig]
    by_cases hroom : arg ≤ rest.length
    · rw [if_neg (by omega), if_pos hroom, Int.toNat_natCast]
    · rw [if_pos (by omega), if_neg hroom]

/-- Doubling a count that does not fit traps. -/
theorem cborWfItem_map (hcap : bs.length ≤ listCap) (h : Head 5 ai arg hd)
    (hd' : bs.drop p = hd ++ rest) :
    cborWfItem bs (depth + 1) p =
      if 2 ^ 63 ≤ arg then some (-1)
      else if 2 ^ 62 ≤ arg then none
      else if 2 * arg ≤ rest.length then
        cborWfParts (cborWfItem bs depth) (2 * arg) ((p + hd.length : Nat) : Int)
      else some (-1) := by
  rw [cborWfItem_eq (cborWfHead_head hcap h hd')]
  simp only [Option.bind_some,
    if_neg (show ¬ (5 = 0 ∨ 5 = 1) by decide), if_neg (show ¬ 5 = 7 by decide),
    if_neg (show ¬ (5 = 2 ∨ 5 = 3) by decide), if_neg (show ¬ 5 = 6 by decide),
    if_neg (show ¬ 5 = 4 by decide), sub_next hcap h hd']
  by_cases hbig : 2 ^ 63 ≤ arg
  · rw [if_pos (decide_eq_true hbig), if_pos hbig]
  · rw [if_neg (show ¬ decide (2 ^ 63 ≤ arg) = true by simpa using hbig), if_neg hbig, if_neg hbig]
    by_cases hover : 2 ^ 62 ≤ arg
    · have htrap : mul 64 2 (arg : Int) = none := by
        have hnot : ¬ Fits 64 (2 * (arg : Int)) := by
          rw [fits_64]
          omega
        rw [mul, check, if_neg hnot]
      rw [if_pos hover, htrap]
      rfl
    · have hmul : mul 64 2 (arg : Int) = some ((2 * arg : Nat) : Int) := by
        have hfit : Fits 64 (2 * (arg : Int)) := fits_64.2 (by omega)
        rw [mul_of_fits hfit, Nat.cast_mul, Nat.cast_ofNat]
      rw [if_neg hover, hmul, Option.bind_some]
      by_cases hroom : 2 * arg ≤ rest.length
      · rw [if_neg (by omega), if_pos hroom, Int.toNat_natCast]
      · rw [if_pos (by omega), if_neg hroom]

end

/-! ## Exactness -/

/-- What a walk over items nested at most `depth` deep answers: the end of the item at `p`, -1
where there is none, and a trap where it meets a count that overflows. -/
structure ReadsItems (bs : List UInt8) (depth : Nat) (f : Int → Option Int) : Prop where
  item : ∀ {p : Nat} {c rest : List UInt8}, bs.drop p = c ++ rest → Item SmallTag depth c →
    f p = some ((p + c.length : Nat) : Int)
  overflow : ∀ {p : Nat}, Overflows depth (bs.drop p) → f p = none
  sound : ∀ {p : Nat} {e : Int}, f p = some e → 0 ≤ e → ∃ c rest, bs.drop p = c ++ rest ∧
    Item SmallTag depth c ∧ e = ((p + c.length : Nat) : Int)
  trap : ∀ {p : Nat}, f p = none → Overflows depth (bs.drop p)

section

variable {bs : List UInt8} {depth : Nat} {f : Int → Option Int}

theorem parts_item (hf : ReadsItems bs depth f) {parts : List (List UInt8)} {p : Nat}
    {rest : List UInt8} (hd : bs.drop p = parts.flatten ++ rest)
    (hparts : ∀ c ∈ parts, Item SmallTag depth c) :
    cborWfParts f parts.length p = some ((p + parts.flatten.length : Nat) : Int) := by
  induction parts generalizing p with
  | nil => rfl
  | cons c cs ih =>
    rw [List.flatten_cons, List.append_assoc] at hd
    have hitem := hf.item hd (hparts c List.mem_cons_self)
    have hcs := ih (drop_next hd) (fun c hc => hparts c (List.mem_cons_of_mem _ hc))
    rw [List.length_cons, cborWfParts, hitem]
    simp only [some_bind]
    rw [if_neg (by omega), hcs, List.flatten_cons, List.length_append, Nat.add_assoc]

theorem parts_overflow (hf : ReadsItems bs depth f) {parts : List (List UInt8)} {n p : Nat}
    {rest : List UInt8} (hd : bs.drop p = parts.flatten ++ rest)
    (hparts : ∀ c ∈ parts, Item SmallTag depth c) (hn : parts.length < n)
    (hover : Overflows depth rest) : cborWfParts f n p = none := by
  induction parts generalizing n p with
  | nil =>
    obtain ⟨n, rfl⟩ := Nat.exists_eq_succ_of_ne_zero (show n ≠ 0 by omega)
    rw [cborWfParts, hf.overflow (hd ▸ hover)]
    rfl
  | cons c cs ih =>
    rw [List.length_cons] at hn
    rw [List.flatten_cons, List.append_assoc] at hd
    obtain ⟨n, rfl⟩ := Nat.exists_eq_succ_of_ne_zero (show n ≠ 0 by omega)
    have hitem := hf.item hd (hparts c List.mem_cons_self)
    have hcs := ih (n := n) (drop_next hd) (fun c hc => hparts c (List.mem_cons_of_mem _ hc))
      (by omega)
    rw [cborWfParts, hitem]
    simp only [some_bind]
    rw [if_neg (by omega), hcs]

theorem parts_sound (hf : ReadsItems bs depth f) {n p : Nat} {e : Int}
    (h : cborWfParts f n p = some e) (he : 0 ≤ e) :
    ∃ parts rest, bs.drop p = List.flatten parts ++ rest ∧ parts.length = n ∧
      (∀ c ∈ parts, Item SmallTag depth c) ∧ e = ((p + parts.flatten.length : Nat) : Int) := by
  induction n generalizing p with
  | zero =>
    cases h
    exact ⟨[], bs.drop p, rfl, rfl, fun c hc => absurd hc List.not_mem_nil, rfl⟩
  | succ n ih =>
    obtain ⟨e1, h1, h2⟩ := Option.bind_eq_some_iff.1 h
    split_ifs at h2 with hneg
    · cases h2
      omega
    · obtain ⟨c, r, hc, hitem, rfl⟩ := hf.sound h1 (by omega)
      obtain ⟨cs, rest, hcs, hlen, hitems, rfl⟩ := ih h2
      rw [drop_next hc] at hcs
      refine ⟨c :: cs, rest, ?_, ?_, ?_, ?_⟩
      · rw [hc, hcs, List.flatten_cons, List.append_assoc]
      · rw [List.length_cons, hlen]
      · exact List.forall_mem_cons.2 ⟨hitem, hitems⟩
      · rw [List.flatten_cons, List.length_append, Nat.add_assoc]

theorem parts_trap (hf : ReadsItems bs depth f) {n p : Nat} (h : cborWfParts f n p = none) :
    ∃ parts rest, bs.drop p = List.flatten parts ++ rest ∧ parts.length < n ∧
      (∀ c ∈ parts, Item SmallTag depth c) ∧ Overflows depth rest := by
  induction n generalizing p with
  | zero => cases h
  | succ n ih =>
    rw [cborWfParts] at h
    cases h1 : f p with
    | none =>
      exact ⟨[], bs.drop p, rfl, Nat.succ_pos n, fun c hc => absurd hc List.not_mem_nil,
        hf.trap h1⟩
    | some e =>
      rw [h1] at h
      simp only [some_bind] at h
      split_ifs at h with hneg
      obtain ⟨c, r, hc, hitem, rfl⟩ := hf.sound h1 (by omega)
      obtain ⟨cs, rest, hcs, hlen, hitems, hover⟩ := ih h
      rw [drop_next hc] at hcs
      refine ⟨c :: cs, rest, ?_, ?_, List.forall_mem_cons.2 ⟨hitem, hitems⟩, hover⟩
      · rw [hc, hcs, List.flatten_cons, List.append_assoc]
      · rw [List.length_cons]
        omega

end

section

variable {bs : List UInt8} {depth p : Nat}

theorem cborWfItem_refused (h : cborWfHead bs p = some none) :
    cborWfItem bs depth p = some (-1) := by
  unfold cborWfItem
  simp [h]

/-- The parts are read by the walk one level down. -/
theorem cborWfItem_item (hcap : bs.length ≤ listCap)
    (hin : ∀ d, depth = d + 1 → ReadsItems bs d (cborWfItem bs d)) {c rest : List UInt8}
    (hd : bs.drop p = c ++ rest) (hitem : Item SmallTag depth c) :
    cborWfItem bs depth p = some ((p + c.length : Nat) : Int) := by
  cases hitem with
  | number h _ hmt => exact cborWfItem_number hcap h hd hmt
  | string h _ hmt =>
    rw [List.append_assoc] at hd
    rw [cborWfItem_string hcap h hd hmt, if_pos (by simp), List.length_append, Nat.add_assoc]
  | simple h _ hs =>
    rw [cborWfItem_simple hcap h hd, if_neg (fun hcon => absurd (hs hcon.1) (by omega))]
  | array h _ hparts =>
    rw [List.append_assoc] at hd
    have hcount := length_le_flatten hparts
    rw [cborWfItem_array hcap h hd, if_pos (by rw [List.length_append]; omega),
      parts_item (hin _ rfl) (drop_next hd) hparts, List.length_append, Nat.add_assoc]
  | map h _ hn hparts =>
    rw [List.append_assoc] at hd
    have hcount := length_le_flatten hparts
    have hlen := next_le h hd
    rw [List.length_append] at hlen
    unfold listCap at hcap
    rw [cborWfItem_map hcap h hd, if_neg (by omega), if_neg (by omega),
      if_pos (by rw [List.length_append]; omega), ← hn,
      parts_item (hin _ rfl) (drop_next hd) hparts, List.length_append, Nat.add_assoc]
  | tag h hp hbody =>
    rw [List.append_assoc] at hd
    rw [cborWfItem_tag hcap h hd, if_pos (hp rfl), (hin _ rfl).item (drop_next hd) hbody,
      List.length_append, Nat.add_assoc]

theorem cborWfItem_overflow (hcap : bs.length ≤ listCap)
    (hin : ∀ d, depth = d + 1 → ReadsItems bs d (cborWfItem bs d))
    (hover : Overflows depth (bs.drop p)) : cborWfItem bs depth p = none := by
  generalize hbs : bs.drop p = r at hover
  cases hover with
  | count h hlo hhi => rw [cborWfItem_map hcap h hbs, if_neg (by omega), if_pos hlo]
  | tag h hlt hover =>
    rw [← drop_next hbs] at hover
    rw [cborWfItem_tag hcap h hbs, if_pos hlt, (hin _ rfl).overflow hover]
  | part h hcount hn hroom hparts hover =>
    have hrest := drop_next hbs
    rcases hcount with ⟨rfl, rfl⟩ | ⟨rfl, rfl⟩
    · rw [cborWfItem_array hcap h hbs, if_pos hroom,
        parts_overflow (hin _ rfl) hrest hparts hn hover]
    · have hlen := next_le h hbs
      unfold listCap at hcap
      rw [cborWfItem_map hcap h hbs, if_neg (by omega), if_neg (by omega), if_pos hroom,
        parts_overflow (hin _ rfl) hrest hparts hn hover]

/-- Where the walk finds an end there is an item. -/
theorem cborWfItem_sound (hcap : bs.length ≤ listCap)
    (hin : ∀ d, depth = d + 1 → ReadsItems bs d (cborWfItem bs d)) {e : Int}
    (hok : cborWfItem bs depth p = some e) (he : 0 ≤ e) :
    ∃ c rest, bs.drop p = c ++ rest ∧ Item SmallTag depth c ∧
      e = ((p + c.length : Nat) : Int) := by
  rcases cborWfHead_cases hcap p with hnone | ⟨mt, ai, arg, hd, rest, h, hd'⟩
  · rw [cborWfItem_refused hnone] at hok
    cases hok
    omega
  have hmt := h.major_lt
  have hsmall : mt ≠ 6 → SmallTag mt ai arg := fun hne h6 => absurd h6 hne
  by_cases hnum : mt = 0 ∨ mt = 1
  · rw [cborWfItem_number hcap h hd' hnum] at hok
    cases hok
    exact ⟨hd, rest, hd', .number h (hsmall (by omega)) hnum, rfl⟩
  by_cases hstr : mt = 2 ∨ mt = 3
  · rw [cborWfItem_string hcap h hd' hstr] at hok
    cases hok
    split_ifs at he with hroom
    · have htake : (rest.take arg).length = arg := by
        rw [List.length_take]
        omega
      rw [← htake] at h hsmall
      refine ⟨hd ++ rest.take arg, rest.drop arg, ?_, .string h (hsmall (by omega)) hstr, ?_⟩
      · rw [List.append_assoc, List.take_append_drop, hd']
      · rw [if_pos hroom, List.length_append, htake, Nat.add_assoc]
    · omega
  by_cases hsim : mt = 7
  · subst hsim
    rw [cborWfItem_simple hcap h hd'] at hok
    cases hok
    split_ifs at he with hlow
    · omega
    · exact ⟨hd, rest, hd', .simple h (hsmall (by decide)) (by omega), by rw [if_neg hlow]⟩
  cases depth with
  | zero =>
    rw [cborWfItem_zero hcap h hd' (by omega)] at hok
    cases hok
    omega
  | succ depth =>
    have hrest := drop_next hd'
    by_cases htag : mt = 6
    · subst htag
      rw [cborWfItem_tag hcap h hd'] at hok
      split_ifs at hok with hlt
      · obtain ⟨c, r, hc, hitem, rfl⟩ := (hin _ rfl).sound hok he
        rw [hrest] at hc
        refine ⟨hd ++ c, r, ?_, .tag h (fun _ => hlt) hitem, ?_⟩
        · rw [hd', hc, List.append_assoc]
        · rw [List.length_append, Nat.add_assoc]
      · cases hok
        omega
    by_cases harr : mt = 4
    · subst harr
      rw [cborWfItem_array hcap h hd'] at hok
      split_ifs at hok with hroom
      · obtain ⟨parts, r, hc, rfl, hparts, rfl⟩ := parts_sound (hin _ rfl) hok he
        rw [hrest] at hc
        refine ⟨hd ++ parts.flatten, r, ?_, .array h (hsmall (by decide)) hparts, ?_⟩
        · rw [hd', hc, List.append_assoc]
        · rw [List.length_append, Nat.add_assoc]
      · cases hok
        omega
    · have hmap : mt = 5 := by omega
      subst hmap
      rw [cborWfItem_map hcap h hd'] at hok
      split_ifs at hok with hbig hover hroom
      · cases hok
        omega
      · obtain ⟨parts, r, hc, hlen, hparts, rfl⟩ := parts_sound (hin _ rfl) hok he
        rw [hrest] at hc
        refine ⟨hd ++ parts.flatten, r, ?_, .map h (hsmall (by decide)) hlen hparts, ?_⟩
        · rw [hd', hc, List.append_assoc]
        · rw [List.length_append, Nat.add_assoc]
      · cases hok
        omega

/-- It traps on a doubled count only. -/
theorem cborWfItem_trap (hcap : bs.length ≤ listCap)
    (hin : ∀ d, depth = d + 1 → ReadsItems bs d (cborWfItem bs d))
    (htrap : cborWfItem bs depth p = none) : Overflows depth (bs.drop p) := by
  rcases cborWfHead_cases hcap p with hnone | ⟨mt, ai, arg, hd, rest, h, hd'⟩
  · rw [cborWfItem_refused hnone] at htrap
    cases htrap
  have hmt := h.major_lt
  by_cases hnum : mt = 0 ∨ mt = 1
  · rw [cborWfItem_number hcap h hd' hnum] at htrap
    cases htrap
  by_cases hstr : mt = 2 ∨ mt = 3
  · rw [cborWfItem_string hcap h hd' hstr] at htrap
    cases htrap
  by_cases hsim : mt = 7
  · subst hsim
    rw [cborWfItem_simple hcap h hd'] at htrap
    cases htrap
  cases depth with
  | zero =>
    rw [cborWfItem_zero hcap h hd' (by omega)] at htrap
    cases htrap
  | succ depth =>
    have hrest := drop_next hd'
    rw [hd']
    by_cases htag : mt = 6
    · subst htag
      rw [cborWfItem_tag hcap h hd'] at htrap
      split_ifs at htrap with hlt
      have hover := (hin _ rfl).trap htrap
      rw [hrest] at hover
      exact .tag h hlt hover
    by_cases harr : mt = 4
    · subst harr
      rw [cborWfItem_array hcap h hd'] at htrap
      split_ifs at htrap with hroom
      obtain ⟨parts, r, hc, hn, hparts, hover⟩ := parts_trap (hin _ rfl) htrap
      rw [hrest] at hc
      subst hc
      exact .part h (Or.inl ⟨rfl, rfl⟩) hn hroom hparts hover
    · have hmap : mt = 5 := by omega
      subst hmap
      rw [cborWfItem_map hcap h hd'] at htrap
      split_ifs at htrap with hbig hlo hroom
      · exact .count h hlo (by omega)
      · obtain ⟨parts, r, hc, hn, hparts, hover⟩ := parts_trap (hin _ rfl) htrap
        rw [hrest] at hc
        subst hc
        exact .part h (Or.inr ⟨rfl, rfl⟩) hn hroom hparts hover

theorem readsItems_cborWfItem (hcap : bs.length ≤ listCap) (depth : Nat) :
    ReadsItems bs depth (cborWfItem bs depth) := by
  induction depth with
  | zero =>
    have hin : ∀ d, 0 = d + 1 → ReadsItems bs d (cborWfItem bs d) := fun d hd => absurd hd (by omega)
    exact ⟨cborWfItem_item hcap hin, cborWfItem_overflow hcap hin, cborWfItem_sound hcap hin,
      cborWfItem_trap hcap hin⟩
  | succ depth ih =>
    have hin : ∀ d, depth + 1 = d + 1 → ReadsItems bs d (cborWfItem bs d) := by
      rintro d hd
      cases hd
      exact ih
    exact ⟨cborWfItem_item hcap hin, cborWfItem_overflow hcap hin, cborWfItem_sound hcap hin,
      cborWfItem_trap hcap hin⟩

end

/-- Any head. -/
def AnyHead : HeadOk := fun _ _ _ => True

/-- A walk that ends at the end of the input has read all of it. -/
theorem item_of_end {bs : ByteList} {depth : Nat}
    (h : cborWfItem bs.val depth ((0 : Nat) : Int) = some (bs.val.length : Int)) :
    Item SmallTag depth bs.val := by
  have hreads := readsItems_cborWfItem bs.property depth
  obtain ⟨c, rest, hc, hitem, hend⟩ := hreads.sound h (Int.natCast_nonneg _)
  rw [List.drop_zero] at hc
  have hnil : rest = [] := by
    apply List.eq_nil_of_length_eq_zero
    have htotal := congrArg List.length hc
    rw [List.length_append] at htotal
    omega
  rw [hc, hnil, List.append_nil]
  exact hitem

theorem cborWellFormed_of_nonneg {bs : ByteList} {depth : Int} (h0 : 0 ≤ depth) :
    cborWellFormed bs depth = (cborWfItem bs.val depth.toNat ((0 : Nat) : Int)).map
      fun stop : Int => decide (stop = bs.val.length) := by
  rw [cborWellFormed, if_pos h0]
  cases cborWfItem bs.val depth.toNat 0 <;> rfl

theorem cborWellFormed_true_iff {bs : ByteList} {depth : Int} (h0 : 0 ≤ depth) :
    cborWellFormed bs depth = some true ↔ Item SmallTag depth.toNat bs.val := by
  rw [cborWellFormed_of_nonneg h0]
  constructor
  · intro h
    obtain ⟨e, he, hstop⟩ := Option.map_eq_some_iff.1 h
    rw [of_decide_eq_true hstop] at he
    exact item_of_end he
  · intro hitem
    have hreads := readsItems_cborWfItem bs.property depth.toNat
    have hwhole : bs.val.drop 0 = bs.val ++ [] := by rw [List.drop_zero, List.append_nil]
    have hend := hreads.item hwhole hitem
    rw [hend, Nat.zero_add, Option.map_some, decide_eq_true rfl]

theorem cborWellFormed_none_iff {bs : ByteList} {depth : Int} (h0 : 0 ≤ depth) :
    cborWellFormed bs depth = none ↔ Overflows depth.toNat bs.val := by
  have hreads := readsItems_cborWfItem bs.property depth.toNat
  rw [cborWellFormed_of_nonneg h0, Option.map_eq_none_iff]
  exact ⟨fun h => hreads.trap (p := 0) h, fun h => hreads.overflow (p := 0) h⟩

/-- `cborWellFormed` answers without a trap and exactly, unless reading the input meets a map count
of `2 ^ 62` or more that it doubles, or the input is an item with a tag number of `2 ^ 63` or
more. -/
theorem cborWellFormed_exact_iff (bs : ByteList) (depth : Int) :
    (∃ b, cborWellFormed bs depth = some b ∧
      (b = true ↔ 0 ≤ depth ∧ Item AnyHead depth.toNat bs.val)) ↔
    (0 ≤ depth → ¬ Overflows depth.toNat bs.val ∧
      (Item AnyHead depth.toNat bs.val → Item SmallTag depth.toNat bs.val)) := by
  by_cases h0 : 0 ≤ depth
  · constructor
    · rintro ⟨b, hb, hexact⟩ _
      constructor
      · intro hover
        rw [(cborWellFormed_none_iff h0).2 hover] at hb
        cases hb
      · intro hitem
        rw [hexact.2 ⟨h0, hitem⟩] at hb
        exact (cborWellFormed_true_iff h0).1 hb
    · intro hcond
      obtain ⟨hover, hsmall⟩ := hcond h0
      cases hrun : cborWellFormed bs depth with
      | none => exact absurd ((cborWellFormed_none_iff h0).1 hrun) hover
      | some b =>
        refine ⟨b, rfl, ?_, ?_⟩
        · rintro rfl
          have hitem := (cborWellFormed_true_iff h0).1 hrun
          exact ⟨h0, hitem.mono fun _ _ _ _ => trivial⟩
        · rintro ⟨-, hitem⟩
          have htrue := (cborWellFormed_true_iff h0).2 (hsmall hitem)
          rw [hrun] at htrue
          exact Option.some.inj htrue
  · constructor
    · intro _ hcon
      exact absurd hcon h0
    · intro _
      refine ⟨false, ?_, ?_, ?_⟩
      · rw [cborWellFormed, if_neg h0]
      · intro hcon
        cases hcon
      · rintro ⟨hcon, -⟩
        exact absurd hcon h0

/-- A map head with a count of `2 ^ 62` traps, and a well-formed item under the tag `2 ^ 63` is
refused. -/
theorem cborWellFormed_misses :
    cborWellFormed ⟨[0xBB, 0x40, 0, 0, 0, 0, 0, 0, 0], by decide⟩ 1 = none ∧
    cborWellFormed ⟨[0xDB, 0x80, 0, 0, 0, 0, 0, 0, 0, 0], by decide⟩ 1 = some false ∧
    Item AnyHead 1 [0xDB, 0x80, 0, 0, 0, 0, 0, 0, 0, 0] := by
  refine ⟨by decide +kernel, by decide +kernel, ?_⟩
  have htag : Head 6 27 (2 ^ 63) [0xDB, 0x80, 0, 0, 0, 0, 0, 0, 0] :=
    @Head.wide _ _ [0x80, 0, 0, 0, 0, 0, 0, 0] (by decide) (by decide) (by decide) rfl
  have hzero : Head 0 0 0 [0] := @Head.short 0 0 (by decide) (by decide)
  exact Item.tag htag trivial (Item.number hzero trivial (Or.inl rfl))

end Cbor

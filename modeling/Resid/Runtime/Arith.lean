import Mathlib.Data.Int.Order.Lemmas
import Resid.Lib.CheckedInt
import Resid.Runtime.Text

/-!
# Arithmetic helpers of the runtime

The wrapping, saturating and checked arithmetic on 64-bit words, without a wider type: a sum is
compared with an end of the range moved by the other operand, a product divided again.  An abort
is `none`.

    rtHelper signed fl op = some f →
      (f a b).map (num signed) = eval (word signed) fl op (num signed a) (num signed b)
                                                                             (rtHelper_eval)
-/

namespace Runtime

open IntRange

/-! ## The helpers -/

def imax : BitVec 64 := 9223372036854775807#64

def imin : BitVec 64 := 0#64 - 9223372036854775807#64 - 1#64

def rtWrappingAdd (a b : BitVec 64) : Option (BitVec 64) := some (a + b)

def rtWrappingSub (a b : BitVec 64) : Option (BitVec 64) := some (a - b)

def rtWrappingMul (a b : BitVec 64) : Option (BitVec 64) := some (a * b)

def rtWrappingDiv (a b : BitVec 64) : Option (BitVec 64) :=
  if b = 0#64 then none
  else if b = 0#64 - 1#64 then some (0#64 - a)
  else some (a.sdiv b)

def rtWrappingUadd (a b : BitVec 64) : Option (BitVec 64) := some (a + b)

def rtWrappingUsub (a b : BitVec 64) : Option (BitVec 64) := some (a - b)

def rtWrappingUmul (a b : BitVec 64) : Option (BitVec 64) := some (a * b)

def rtUdiv (a b : BitVec 64) : BitVec 64 := a.udiv b

def rtUlt (a b : BitVec 64) : Bool := a.ult b

def rtWrappingUdiv (a b : BitVec 64) : Option (BitVec 64) :=
  if b = 0#64 then none else some (rtUdiv a b)

def rtSaturatingAdd (a b : BitVec 64) : Option (BitVec 64) :=
  if b.toInt > 0 ∧ a.toInt > (imax - b).toInt then some imax
  else if b.toInt < 0 ∧ a.toInt < (imin - b).toInt then some imin
  else some (a + b)

def rtSaturatingSub (a b : BitVec 64) : Option (BitVec 64) :=
  if b.toInt < 0 ∧ a.toInt > (imax + b).toInt then some imax
  else if b.toInt > 0 ∧ a.toInt < (imin + b).toInt then some imin
  else some (a - b)

def rtSaturatingMul (a b : BitVec 64) : Option (BitVec 64) :=
  if a = 0#64 ∨ b = 0#64 then some 0#64
  else if (a = 0#64 - 1#64 ∧ b = imin) ∨ (b = 0#64 - 1#64 ∧ a = imin) then some imax
  else
    let r := a * b
    if r.sdiv a = b then some r
    else some (if decide (a.toInt > 0) = decide (b.toInt > 0) then imax else imin)

def rtSaturatingUadd (a b : BitVec 64) : Option (BitVec 64) :=
  let r := a + b
  some (if rtUlt r a then 0#64 - 1#64 else r)

def rtSaturatingUsub (a b : BitVec 64) : Option (BitVec 64) :=
  some (if rtUlt a b then 0#64 else a - b)

def rtSaturatingUmul (a b : BitVec 64) : Option (BitVec 64) :=
  if a = 0#64 ∨ b = 0#64 then some 0#64
  else
    let r := a * b
    some (if rtUdiv r a ≠ b then 0#64 - 1#64 else r)

def rtCheckedAdd (a b : BitVec 64) : Option (BitVec 64) :=
  if (b.toInt > 0 ∧ a.toInt > (imax - b).toInt) ∨ (b.toInt < 0 ∧ a.toInt < (imin - b).toInt) then none
  else some (a + b)

def rtCheckedSub (a b : BitVec 64) : Option (BitVec 64) :=
  if (b.toInt < 0 ∧ a.toInt > (imax + b).toInt) ∨ (b.toInt > 0 ∧ a.toInt < (imin + b).toInt) then none
  else some (a - b)

def rtCheckedMul (a b : BitVec 64) : Option (BitVec 64) :=
  if a = 0#64 ∨ b = 0#64 then some 0#64
  else if (a = 0#64 - 1#64 ∧ b = imin) ∨ (b = 0#64 - 1#64 ∧ a = imin) then none
  else
    let r := a * b
    if r.sdiv a ≠ b then none else some r

def rtCheckedDiv (a b : BitVec 64) : Option (BitVec 64) :=
  if b = 0#64 then none
  else if a = imin ∧ b = 0#64 - 1#64 then none
  else some (a.sdiv b)

def rtCheckedUadd (a b : BitVec 64) : Option (BitVec 64) :=
  let r := a + b
  if rtUlt r a then none else some r

def rtCheckedUsub (a b : BitVec 64) : Option (BitVec 64) :=
  if rtUlt a b then none else some (a - b)

def rtCheckedUmul (a b : BitVec 64) : Option (BitVec 64) :=
  if a = 0#64 ∨ b = 0#64 then some 0#64
  else
    let r := a * b
    if rtUdiv r a ≠ b then none else some r

def rtCheckedUdiv (a b : BitVec 64) : Option (BitVec 64) :=
  if b = 0#64 then none else some (rtUdiv a b)

/-- The helpers; a saturating division is not among them. -/
def rtHelper (signed : Bool) (fl : Flavor) (op : Op) :
    Option (BitVec 64 → BitVec 64 → Option (BitVec 64)) :=
  match signed, fl, op with
  | true, .wrap, .add => some rtWrappingAdd
  | true, .wrap, .sub => some rtWrappingSub
  | true, .wrap, .mul => some rtWrappingMul
  | true, .wrap, .div => some rtWrappingDiv
  | false, .wrap, .add => some rtWrappingUadd
  | false, .wrap, .sub => some rtWrappingUsub
  | false, .wrap, .mul => some rtWrappingUmul
  | false, .wrap, .div => some rtWrappingUdiv
  | true, .sat, .add => some rtSaturatingAdd
  | true, .sat, .sub => some rtSaturatingSub
  | true, .sat, .mul => some rtSaturatingMul
  | false, .sat, .add => some rtSaturatingUadd
  | false, .sat, .sub => some rtSaturatingUsub
  | false, .sat, .mul => some rtSaturatingUmul
  | _, .sat, .div => none
  | true, .check, .add => some rtCheckedAdd
  | true, .check, .sub => some rtCheckedSub
  | true, .check, .mul => some rtCheckedMul
  | true, .check, .div => some rtCheckedDiv
  | false, .check, .add => some rtCheckedUadd
  | false, .check, .sub => some rtCheckedUsub
  | false, .check, .mul => some rtCheckedUmul
  | false, .check, .div => some rtCheckedUdiv

/-! ## Words as numbers -/

/-- The type of a word. -/
def word (signed : Bool) : IntTy := ⟨signed, 64, word_pos⟩

/-- The number a word is. -/
def num (signed : Bool) (a : BitVec 64) : Int := if signed then a.toInt else a.toNat

theorem word_true : (word true).low = -9223372036854775808 ∧
    (word true).high = 9223372036854775807 := ⟨rfl, rfl⟩

theorem word_false : (word false).low = 0 ∧ (word false).high = 18446744073709551615 := ⟨rfl, rfl⟩

theorem toInt_range (a : BitVec 64) :
    -9223372036854775808 ≤ a.toInt ∧ a.toInt ≤ 9223372036854775807 := by
  have hlow := BitVec.le_toInt a
  have hhigh := @BitVec.toInt_lt 64 a
  omega

theorem num_inRange (signed : Bool) (a : BitVec 64) : (word signed).InRange (num signed a) := by
  cases signed with
  | true => exact toInt_range a
  | false =>
    have := a.isLt
    show (0 : Int) ≤ a.toNat ∧ (a.toNat : Int) ≤ 18446744073709551615
    omega

theorem num_add (signed : Bool) (a b : BitVec 64) :
    num signed (a + b) = (word signed).wrap (num signed a + num signed b) := by
  cases signed with
  | true => exact BitVec.toInt_add ..
  | false =>
    show ((a + b).toNat : Int) = ((a.toNat : Int) + b.toNat) % 2 ^ 64
    rw [BitVec.toNat_add]
    norm_cast

theorem num_sub (signed : Bool) (a b : BitVec 64) :
    num signed (a - b) = (word signed).wrap (num signed a - num signed b) := by
  cases signed with
  | true => exact BitVec.toInt_sub ..
  | false =>
    have ha := a.isLt
    have hb := b.isLt
    show ((a - b).toNat : Int) = ((a.toNat : Int) - b.toNat) % 2 ^ 64
    rw [BitVec.toNat_sub]
    omega

theorem num_mul (signed : Bool) (a b : BitVec 64) :
    num signed (a * b) = (word signed).wrap (num signed a * num signed b) := by
  cases signed with
  | true => exact BitVec.toInt_mul ..
  | false =>
    show ((a * b).toNat : Int) = ((a.toNat : Int) * b.toNat) % 2 ^ 64
    rw [BitVec.toNat_mul]
    norm_cast

variable {a b : BitVec 64}

theorem num_injective (signed : Bool) : num signed a = num signed b ↔ a = b := by
  constructor
  · intro h
    cases signed with
    | true => exact BitVec.eq_of_toInt_eq h
    | false => exact BitVec.eq_of_toNat_eq (Int.ofNat.inj h)
  · intro h
    rw [h]

theorem num_zero (signed : Bool) : num signed 0#64 = 0 := by
  cases signed <;> rfl

theorem num_eq_zero (signed : Bool) : num signed a = 0 ↔ a = 0#64 := by
  rw [← num_injective signed (b := 0#64), num_zero]

/-- A quotient; the one that leaves the range is the least number over -1. -/
theorem num_div (signed : Bool) (a b : BitVec 64) :
    num signed (if signed then a.sdiv b else rtUdiv a b) =
      (word signed).wrap ((num signed a).tdiv (num signed b)) := by
  cases signed with
  | true => exact BitVec.toInt_sdiv a b
  | false =>
    have hlt : a.toNat / b.toNat < 2 ^ 64 := Nat.lt_of_le_of_lt (Nat.div_le_self _ _) a.isLt
    rw [wrap_of_inRange]
    · rfl
    · show (0 : Int) ≤ ((a.toNat / b.toNat : Nat) : Int) ∧
        ((a.toNat / b.toNat : Nat) : Int) ≤ 18446744073709551615
      generalize a.toNat / b.toNat = q at hlt
      omega

/-! ## Overflow -/

theorem toInt_imax : imax.toInt = 9223372036854775807 := by decide

theorem toInt_imin : imin.toInt = -9223372036854775808 := by decide

/-- A sum above the range, by the end of the range. -/
theorem add_over : (b.toInt > 0 ∧ a.toInt > (imax - b).toInt) ↔
    (word true).high < a.toInt + b.toInt := by
  have ha := toInt_range a
  have hb := toInt_range b
  rw [word_true.2, BitVec.toInt_sub, toInt_imax, Int.bmod_def]
  omega

theorem add_under : (b.toInt < 0 ∧ a.toInt < (imin - b).toInt) ↔
    a.toInt + b.toInt < (word true).low := by
  have ha := toInt_range a
  have hb := toInt_range b
  rw [word_true.1, BitVec.toInt_sub, toInt_imin, Int.bmod_def]
  omega

theorem sub_over : (b.toInt < 0 ∧ a.toInt > (imax + b).toInt) ↔
    (word true).high < a.toInt - b.toInt := by
  have ha := toInt_range a
  have hb := toInt_range b
  rw [word_true.2, BitVec.toInt_add, toInt_imax, Int.bmod_def]
  omega

theorem sub_under : (b.toInt > 0 ∧ a.toInt < (imin + b).toInt) ↔
    a.toInt - b.toInt < (word true).low := by
  have ha := toInt_range a
  have hb := toInt_range b
  rw [word_true.1, BitVec.toInt_add, toInt_imin, Int.bmod_def]
  omega

theorem uadd_over : rtUlt (a + b) a = true ↔
    (word false).high < (a.toNat : Int) + b.toNat := by
  have ha := a.isLt
  have hb := b.isLt
  rw [rtUlt, BitVec.ult_iff_toNat_lt, BitVec.toNat_add, word_false.2]
  omega

theorem usub_under : rtUlt a b = true ↔
    (a.toNat : Int) - b.toNat < (word false).low := by
  rw [rtUlt, BitVec.ult_iff_toNat_lt, word_false.1]
  omega

theorem natAbs_num_lt (signed : Bool) (a : BitVec 64) :
    ((num signed a).natAbs : Int) < 2 ^ (word signed).width := by
  have hr := num_inRange signed a
  show ((num signed a).natAbs : Int) < 18446744073709551616
  cases signed with
  | true =>
    have hlow : (-9223372036854775808 : Int) ≤ num true a := hr.1
    have hhigh : num true a ≤ 9223372036854775807 := hr.2
    omega
  | false =>
    have hlow : (0 : Int) ≤ num false a := hr.1
    have hhigh : num false a ≤ 18446744073709551615 := hr.2
    omega

/-- A quotient leaves the range for the least number over -1 alone. -/
theorem tdiv_inRange {signed : Bool} {x y : Int} (hy : y ≠ 0) (hx : (word signed).InRange x)
    (hyr : (word signed).InRange y) (hcorner : signed = true → x = (word signed).low → y ≠ -1) :
    (word signed).InRange (x.tdiv y) := by
  have habs : (x.tdiv y).natAbs = x.natAbs / y.natAbs := Int.natAbs_tdiv x y
  cases signed with
  | true =>
    have hlow : (-9223372036854775808 : Int) ≤ x := hx.1
    have hhigh : x ≤ 9223372036854775807 := hx.2
    show (-9223372036854775808 : Int) ≤ x.tdiv y ∧ x.tdiv y ≤ 9223372036854775807
    by_cases hleast : x = -9223372036854775808
    · have hne : y ≠ -1 := hcorner rfl hleast
      by_cases hone : y = 1
      · rw [hone, Int.tdiv_one]
        omega
      · have htwo : 2 ≤ y.natAbs := by omega
        have hhalf : x.natAbs / y.natAbs ≤ x.natAbs / 2 := Nat.div_le_div_left htwo (by decide)
        rw [← habs] at hhalf
        omega
    · have hle : x.natAbs / y.natAbs ≤ x.natAbs := Nat.div_le_self _ _
      rw [← habs] at hle
      omega
  | false =>
    have hlow : (0 : Int) ≤ x := hx.1
    have hhigh : x ≤ 18446744073709551615 := hx.2
    have hle : x.natAbs / y.natAbs ≤ x.natAbs := Nat.div_le_self _ _
    have hnonneg := Int.tdiv_nonneg hlow (show 0 ≤ y from hyr.1)
    show (0 : Int) ≤ x.tdiv y ∧ x.tdiv y ≤ 18446744073709551615
    rw [← habs] at hle
    omega

/-- Divided again, a wrapped product gives the other factor when nothing was lost. -/
theorem mul_inRange {signed : Bool} {a b : BitVec 64} (ha : a ≠ 0#64)
    (hcorner : signed = true → ¬(a.toInt = -1 ∧ b = imin)) :
    (if signed then (a * b).sdiv a else rtUdiv (a * b) a) = b ↔
      (word signed).InRange (num signed a * num signed b) := by
  have hx : num signed a ≠ 0 := fun h => ha ((num_eq_zero signed).1 h)
  have hxr := num_inRange signed a
  have hyr := num_inRange signed b
  have hquot := num_div signed (a * b) a
  rw [num_mul] at hquot
  constructor
  · intro h
    rw [h] at hquot
    refine wrap_mul_of_tdiv hx (natAbs_num_lt signed a) ?_
    refine (wrap_of_inRange ?_).symm.trans hquot.symm
    refine tdiv_inRange hx wrap_inRange hxr fun hs hlow hone => hcorner hs ⟨?_, ?_⟩
    · rw [← hone, num, if_pos hs]
    · -- the least number over -1 wraps to itself
      apply (num_injective signed).1
      rw [hquot, hlow, hone, hs]
      decide
  · intro h
    apply (num_injective signed).1
    rw [hquot, wrap_of_inRange h, Int.mul_tdiv_cancel_left _ hx, wrap_of_inRange hyr]

/-! ## What the helpers compute -/

section Ends

variable {P Q : Prop} [Decidable P] [Decidable Q] {v : BitVec 64} {x : Int}
  (hv : num true v = (word true).wrap x)
include hv

/-- A result that two tests put past an end. -/
theorem saturate_num (hover : P ↔ (word true).high < x) (hunder : Q ↔ x < (word true).low) :
    (if P then some imax else if Q then some imin else some v).map (num true) =
      settle (word true) .sat x := by
  by_cases hP : P
  · rw [if_pos hP, settle_sat_above (hover.1 hP)]
    exact congrArg some toInt_imax
  by_cases hQ : Q
  · rw [if_neg hP, if_pos hQ, settle_sat_below (hunder.1 hQ)]
    exact congrArg some toInt_imin
  have hin : (word true).InRange x := inRange_of_not (mt hunder.2 hQ) (mt hover.2 hP)
  rw [if_neg hP, if_neg hQ, settle_of_inRange .sat hin, Option.map_some, hv, wrap_of_inRange hin]

theorem checked_num (hout : P ↔ ¬(word true).InRange x) :
    (if P then none else some v).map (num true) = settle (word true) .check x := by
  by_cases hin : (word true).InRange x
  · rw [if_neg fun h => hout.1 h hin, settle_of_inRange .check hin, Option.map_some, hv,
      wrap_of_inRange hin]
  · rw [if_pos (hout.2 hin), settle_check_out hin, Option.map_none]

end Ends

theorem out_iff {x : Int} :
    (word true).high < x ∨ x < (word true).low ↔ ¬(word true).InRange x := by
  unfold IntTy.InRange
  omega

theorem rtSaturatingAdd_num (a b : BitVec 64) :
    (rtSaturatingAdd a b).map (num true) = settle (word true) .sat (num true a + num true b) :=
  saturate_num (num_add true a b) add_over add_under

theorem rtSaturatingSub_num (a b : BitVec 64) :
    (rtSaturatingSub a b).map (num true) = settle (word true) .sat (num true a - num true b) :=
  saturate_num (num_sub true a b) sub_over sub_under

theorem rtCheckedAdd_num (a b : BitVec 64) :
    (rtCheckedAdd a b).map (num true) = settle (word true) .check (num true a + num true b) :=
  checked_num (num_add true a b) ((or_congr add_over add_under).trans out_iff)

theorem rtCheckedSub_num (a b : BitVec 64) :
    (rtCheckedSub a b).map (num true) = settle (word true) .check (num true a - num true b) :=
  checked_num (num_sub true a b) ((or_congr sub_over sub_under).trans out_iff)

theorem zero_mul_num (signed : Bool) (h : a = 0#64 ∨ b = 0#64) :
    num signed a * num signed b = 0 := by
  rcases h with rfl | rfl
  · rw [num_zero, Int.zero_mul]
  · rw [num_zero, Int.mul_zero]

/-- The corners that the runtime tests before it divides. -/
theorem corner_above (h : (a = 0#64 - 1#64 ∧ b = imin) ∨ (b = 0#64 - 1#64 ∧ a = imin)) :
    (word true).high < num true a * num true b := by
  rcases h with ⟨rfl, rfl⟩ | ⟨rfl, rfl⟩ <;> decide

theorem mul_inRange_signed (ha : a ≠ 0#64)
    (h : ¬((a = 0#64 - 1#64 ∧ b = imin) ∨ (b = 0#64 - 1#64 ∧ a = imin))) :
    (a * b).sdiv a = b ↔ (word true).InRange (num true a * num true b) := by
  refine @mul_inRange true a b ha fun _ hcorner => h (Or.inl ⟨?_, hcorner.2⟩)
  apply BitVec.eq_of_toInt_eq
  rw [hcorner.1]
  rfl

theorem rtSaturatingMul_num (a b : BitVec 64) :
    (rtSaturatingMul a b).map (num true) = settle (word true) .sat (num true a * num true b) := by
  unfold rtSaturatingMul
  by_cases hzero : a = 0#64 ∨ b = 0#64
  · rw [if_pos hzero, zero_mul_num true hzero, settle_of_inRange .sat (inRange_zero _),
      Option.map_some, num_zero]
  rw [if_neg hzero]
  by_cases hcorner : (a = 0#64 - 1#64 ∧ b = imin) ∨ (b = 0#64 - 1#64 ∧ a = imin)
  · rw [if_pos hcorner, settle_sat_above (corner_above hcorner)]
    exact congrArg some toInt_imax
  rw [if_neg hcorner]
  have ha : a ≠ 0#64 := fun h => hzero (Or.inl h)
  have hb : b ≠ 0#64 := fun h => hzero (Or.inr h)
  simp only
  by_cases hin : (word true).InRange (num true a * num true b)
  · rw [if_pos ((mul_inRange_signed ha hcorner).2 hin), settle_of_inRange .sat hin,
      Option.map_some, num_mul, wrap_of_inRange hin]
  rw [if_neg fun h => hin ((mul_inRange_signed ha hcorner).1 h), Option.map_some]
  -- the signs tell the end that the product has passed
  have hlow := low_le_zero (word true)
  have hhigh := zero_le_high (word true)
  have hsign : decide (a.toInt > 0) = decide (b.toInt > 0) ↔ 0 < num true a * num true b := by
    have hx : a.toInt ≠ 0 := fun h => ha ((num_eq_zero true).1 h)
    have hy : b.toInt ≠ 0 := fun h => hb ((num_eq_zero true).1 h)
    rw [decide_eq_decide, show num true a * num true b = a.toInt * b.toInt from rfl, mul_pos_iff]
    omega
  rw [← out_iff] at hin
  split_ifs with hpos
  · rw [settle_sat_above (hin.resolve_right fun h => ?_)]
    · exact congrArg some toInt_imax
    · exact absurd (hsign.1 hpos) (by omega)
  · rw [settle_sat_below (hin.resolve_left fun h => hpos (hsign.2 (by omega)))]
    exact congrArg some toInt_imin

theorem rtCheckedMul_num (a b : BitVec 64) :
    (rtCheckedMul a b).map (num true) = settle (word true) .check (num true a * num true b) := by
  unfold rtCheckedMul
  by_cases hzero : a = 0#64 ∨ b = 0#64
  · rw [if_pos hzero, zero_mul_num true hzero, settle_of_inRange .check (inRange_zero _),
      Option.map_some, num_zero]
  rw [if_neg hzero]
  by_cases hcorner : (a = 0#64 - 1#64 ∧ b = imin) ∨ (b = 0#64 - 1#64 ∧ a = imin)
  · rw [if_pos hcorner, settle_check_out (not_inRange_above (corner_above hcorner))]
    rfl
  rw [if_neg hcorner]
  have ha : a ≠ 0#64 := fun h => hzero (Or.inl h)
  exact checked_num (num_mul true a b) (not_congr (mul_inRange_signed ha hcorner))

theorem num_nonneg (a : BitVec 64) : 0 ≤ num false a := (num_inRange false a).1

theorem uadd_num (a b : BitVec 64) :
    (rtSaturatingUadd a b).map (num false) = settle (word false) .sat (num false a + num false b) ∧
      (rtCheckedUadd a b).map (num false) =
        settle (word false) .check (num false a + num false b) := by
  unfold rtSaturatingUadd rtCheckedUadd
  simp only [uadd_over]
  by_cases hover : (word false).high < (a.toNat : Int) + b.toNat
  · rw [if_pos hover, if_pos hover]
    exact ⟨(settle_sat_above hover).symm, (settle_check_out (not_inRange_above hover)).symm⟩
  · have hin : (word false).InRange (num false a + num false b) :=
      ⟨Int.add_nonneg (num_nonneg a) (num_nonneg b), not_lt.1 hover⟩
    rw [if_neg hover, if_neg hover, settle_of_inRange .sat hin, settle_of_inRange .check hin,
      Option.map_some, num_add, wrap_of_inRange hin]
    exact ⟨rfl, rfl⟩

theorem usub_num (a b : BitVec 64) :
    (rtSaturatingUsub a b).map (num false) = settle (word false) .sat (num false a - num false b) ∧
      (rtCheckedUsub a b).map (num false) =
        settle (word false) .check (num false a - num false b) := by
  unfold rtSaturatingUsub rtCheckedUsub
  simp only [usub_under]
  by_cases hunder : (a.toNat : Int) - b.toNat < (word false).low
  · rw [if_pos hunder, if_pos hunder]
    exact ⟨(settle_sat_below hunder).symm, (settle_check_out (not_inRange_below hunder)).symm⟩
  · have hin : (word false).InRange (num false a - num false b) := by
      refine ⟨not_lt.1 hunder, ?_⟩
      have hle := (num_inRange false a).2
      have := num_nonneg b
      omega
    rw [if_neg hunder, if_neg hunder, settle_of_inRange .sat hin, settle_of_inRange .check hin,
      Option.map_some, num_sub, wrap_of_inRange hin]
    exact ⟨rfl, rfl⟩

theorem umul_num (a b : BitVec 64) :
    (rtSaturatingUmul a b).map (num false) = settle (word false) .sat (num false a * num false b) ∧
      (rtCheckedUmul a b).map (num false) =
        settle (word false) .check (num false a * num false b) := by
  unfold rtSaturatingUmul rtCheckedUmul
  by_cases hzero : a = 0#64 ∨ b = 0#64
  · rw [if_pos hzero, if_pos hzero, zero_mul_num false hzero,
      settle_of_inRange .check (inRange_zero _), settle_of_inRange .sat (inRange_zero _)]
    exact ⟨rfl, rfl⟩
  rw [if_neg hzero, if_neg hzero]
  have hiff : rtUdiv (a * b) a = b ↔ (word false).InRange (num false a * num false b) :=
    @mul_inRange false a b (fun h => hzero (Or.inl h)) fun h => by cases h
  simp only [ne_eq, hiff]
  by_cases hin : (word false).InRange (num false a * num false b)
  · rw [if_neg (not_not.2 hin), if_neg (not_not.2 hin), settle_of_inRange .sat hin,
      settle_of_inRange .check hin, Option.map_some, num_mul, wrap_of_inRange hin]
    exact ⟨rfl, rfl⟩
  · have hover : (word false).high < num false a * num false b := by
      by_contra hle
      exact hin ⟨Int.mul_nonneg (num_nonneg a) (num_nonneg b), not_lt.1 hle⟩
    rw [if_pos hin, if_pos hin, settle_sat_above hover, settle_check_out hin]
    exact ⟨rfl, rfl⟩

theorem udiv_num (fl : Flavor) : (if b = 0#64 then none else some (rtUdiv a b)).map (num false) =
      eval (word false) fl .div (num false a) (num false b) := by
  by_cases hzero : b = 0#64
  · rw [if_pos hzero, eval, exact, if_pos ((num_eq_zero false).2 hzero)]
    rfl
  · have hb : num false b ≠ 0 := fun h => hzero ((num_eq_zero false).1 h)
    have hin : (word false).InRange ((num false a).tdiv (num false b)) :=
      tdiv_inRange hb (num_inRange false a) (num_inRange false b) fun h => by cases h
    have hquot : num false (rtUdiv a b) = (word false).wrap ((num false a).tdiv (num false b)) :=
      num_div false a b
    rw [if_neg hzero, eval, exact, if_neg hb, Option.bind_some, settle_of_inRange fl hin,
      Option.map_some, hquot, wrap_of_inRange hin]

theorem rtWrappingDiv_num (a b : BitVec 64) :
    (rtWrappingDiv a b).map (num true) =
      eval (word true) .wrap .div (num true a) (num true b) := by
  unfold rtWrappingDiv
  by_cases hzero : b = 0#64
  · rw [if_pos hzero, eval, exact, if_pos ((num_eq_zero true).2 hzero)]
    rfl
  have hb : num true b ≠ 0 := fun h => hzero ((num_eq_zero true).1 h)
  rw [if_neg hzero, eval, exact, if_neg hb, Option.bind_some]
  by_cases hone : b = 0#64 - 1#64
  · have hneg : num true b = -1 := by
      rw [hone]
      decide
    rw [if_pos hone, Option.map_some, num_sub, num_zero, hneg, Int.tdiv_neg, Int.tdiv_one,
      Int.zero_sub]
    rfl
  · rw [if_neg hone, Option.map_some]
    exact congrArg some (num_div true a b)

theorem rtCheckedDiv_num (a b : BitVec 64) :
    (rtCheckedDiv a b).map (num true) =
      eval (word true) .check .div (num true a) (num true b) := by
  unfold rtCheckedDiv
  by_cases hzero : b = 0#64
  · rw [if_pos hzero, eval, exact, if_pos ((num_eq_zero true).2 hzero)]
    rfl
  have hb : num true b ≠ 0 := fun h => hzero ((num_eq_zero true).1 h)
  rw [if_neg hzero, eval, exact, if_neg hb, Option.bind_some]
  by_cases hcorner : a = imin ∧ b = 0#64 - 1#64
  · obtain ⟨rfl, rfl⟩ := hcorner
    rw [if_pos ⟨rfl, rfl⟩]
    decide
  · have hin : (word true).InRange ((num true a).tdiv (num true b)) := by
      refine tdiv_inRange hb (num_inRange true a) (num_inRange true b) fun _ hlow hone => ?_
      refine hcorner ⟨?_, ?_⟩
      · exact (num_injective true).1 (hlow.trans toInt_imin.symm)
      · exact (num_injective true).1 (hone.trans (by decide))
    have hquot : num true (a.sdiv b) = (word true).wrap ((num true a).tdiv (num true b)) :=
      num_div true a b
    rw [if_neg hcorner, Option.map_some, hquot, settle_of_inRange .check hin, wrap_of_inRange hin]

/-- A helper computes its operation in its flavor, and aborts where there is no result. -/
theorem rtHelper_eval {signed : Bool} {fl : Flavor} {op : Op}
    {f : BitVec 64 → BitVec 64 → Option (BitVec 64)} (h : rtHelper signed fl op = some f)
    (a b : BitVec 64) :
    (f a b).map (num signed) = eval (word signed) fl op (num signed a) (num signed b) := by
  cases fl with
  | wrap =>
    cases op with
    | add => cases signed <;> cases h <;> exact congrArg some (num_add _ a b)
    | sub => cases signed <;> cases h <;> exact congrArg some (num_sub _ a b)
    | mul => cases signed <;> cases h <;> exact congrArg some (num_mul _ a b)
    | div =>
      cases signed with
      | true => cases h; exact rtWrappingDiv_num a b
      | false => cases h; exact udiv_num .wrap
  | sat =>
    cases op with
    | add =>
      cases signed with
      | true => cases h; exact rtSaturatingAdd_num a b
      | false => cases h; exact (uadd_num a b).1
    | sub =>
      cases signed with
      | true => cases h; exact rtSaturatingSub_num a b
      | false => cases h; exact (usub_num a b).1
    | mul =>
      cases signed with
      | true => cases h; exact rtSaturatingMul_num a b
      | false => cases h; exact (umul_num a b).1
    | div => cases signed <;> cases h
  | check =>
    cases op with
    | add =>
      cases signed with
      | true => cases h; exact rtCheckedAdd_num a b
      | false => cases h; exact (uadd_num a b).2
    | sub =>
      cases signed with
      | true => cases h; exact rtCheckedSub_num a b
      | false => cases h; exact (usub_num a b).2
    | mul =>
      cases signed with
      | true => cases h; exact rtCheckedMul_num a b
      | false => cases h; exact (umul_num a b).2
    | div =>
      cases signed with
      | true => cases h; exact rtCheckedDiv_num a b
      | false => cases h; exact udiv_num .check

end Runtime

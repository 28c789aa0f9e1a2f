import Mathlib.Data.Int.Basic
import Mathlib.Algebra.Order.Group.Unbundled.Int
import Mathlib.Tactic.Common
import Mathlib.Tactic.Ring
import Mathlib.Algebra.Order.Ring.Int

/-!
# Checked signed arithmetic

A signed value of `w` bits is an integer in `[-2 ^ (w - 1), 2 ^ (w - 1))`.  Every
operation answers `none` where a machine that traps on overflow traps; quotient and
remainder truncate toward zero.

    Fits w (a + b) → add w a b = some (a + b)                   (add_of_fits)
    Fits w (a - b) → sub w a b = some (a - b)                   (sub_of_fits)
    Fits w (a * b) → mul w a b = some (a * b)                   (mul_of_fits)
    ¬ Fits w (a + b) → add w a b = none                         (add_of_not_fits)
    add w a b = some c ↔ Fits w (a + b) ∧ a + b = c             (add_eq_some)
    0 < b → Fits w a → div w a b = some (a.tdiv b)              (div_of_pos)
    0 < b → mod w a b = some (a.tmod b)                         (mod_of_pos)
-/

namespace CheckedInt

/-! ## Operations -/

def Fits (w : Nat) (n : Int) : Prop := -2 ^ (w - 1) ≤ n ∧ n < 2 ^ (w - 1)

instance (w : Nat) (n : Int) : Decidable (Fits w n) := inferInstanceAs (Decidable (_ ∧ _))

/-- `n` as a value of `w` bits, or nothing when it does not fit. -/
def check (w : Nat) (n : Int) : Option Int := if Fits w n then some n else none

def add (w : Nat) (a b : Int) : Option Int := check w (a + b)

def sub (w : Nat) (a b : Int) : Option Int := check w (a - b)

def mul (w : Nat) (a b : Int) : Option Int := check w (a * b)

/-- The quotient traps on a zero divisor and on the least value divided by -1. -/
def div (w : Nat) (a b : Int) : Option Int := if b = 0 then none else check w (a.tdiv b)

def mod (_w : Nat) (a b : Int) : Option Int := if b = 0 then none else some (a.tmod b)

/-! ## When the checks pass -/

/-- One step of a checked computation, from the value it returns. -/
theorem bind_of_eq {α β : Type} {x : Option α} {a : α} (h : x = some a) (f : α → Option β) :
    x.bind f = f a := by
  subst h
  exact Option.bind_some a f

theorem some_bind {α β : Type} (a : α) (f : α → Option β) : (some a >>= f) = f a := rfl

variable {a b c n : Int} {w : Nat}

theorem fits_64 : Fits 64 n ↔ -9223372036854775808 ≤ n ∧ n < 9223372036854775808 :=
  Iff.rfl

theorem fits_toInt (v : BitVec 64) : Fits 64 v.toInt := ⟨BitVec.le_toInt v, BitVec.toInt_lt⟩

theorem check_of_fits (h : Fits w n) : check w n = some n := if_pos h

theorem add_of_fits (h : Fits w (a + b)) : add w a b = some (a + b) :=
  check_of_fits h

theorem sub_of_fits (h : Fits w (a - b)) : sub w a b = some (a - b) :=
  check_of_fits h

theorem mul_of_fits (h : Fits w (a * b)) : mul w a b = some (a * b) :=
  check_of_fits h

theorem add_of_not_fits (h : ¬ Fits w (a + b)) : add w a b = none :=
  if_neg h

theorem mul_of_not_fits (h : ¬ Fits w (a * b)) : mul w a b = none :=
  if_neg h

theorem check_eq_some {m : Int} : check w n = some m ↔ Fits w n ∧ n = m := by
  unfold check
  split_ifs with h
  · rw [Option.some.injEq]
    exact (and_iff_right h).symm
  · exact ⟨fun hn => absurd hn (by simp), fun hn => absurd hn.1 h⟩

theorem add_eq_some : add w a b = some c ↔ Fits w (a + b) ∧ a + b = c :=
  check_eq_some

theorem sub_eq_some : sub w a b = some c ↔ Fits w (a - b) ∧ a - b = c :=
  check_eq_some

theorem mul_eq_some : mul w a b = some c ↔ Fits w (a * b) ∧ a * b = c :=
  check_eq_some

/-- Between two values that fit everything fits. -/
theorem Fits.between (ha : Fits w a) (hb : Fits w b) (h1 : a ≤ n) (h2 : n ≤ b) : Fits w n :=
  ⟨ha.1.trans h1, lt_of_le_of_lt h2 hb.2⟩

theorem Fits.mono {w' : Nat} (hw : w ≤ w') (h : Fits w n) : Fits w' n := by
  have hpow : (2 : Int) ^ (w - 1) ≤ 2 ^ (w' - 1) := by
    have hnat : 2 ^ (w - 1) ≤ 2 ^ (w' - 1) := Nat.pow_le_pow_right (by decide) (by omega)
    exact_mod_cast hnat
  constructor
  · exact (Int.neg_le_neg hpow).trans h.1
  · exact lt_of_lt_of_le h.2 hpow

theorem fits_zero (w : Nat) : Fits w 0 := by
  have h : (0 : Int) < 2 ^ (w - 1) := Int.pow_pos (by decide)
  constructor
  · omega
  · exact h

/-- A quotient by a positive divisor lies between 0 and the dividend. -/
theorem fits_tdiv (hb : 0 < b) (ha : Fits w a) : Fits w (a.tdiv b) := by
  rcases Int.le_total 0 a with h | h
  · refine (fits_zero w).between ha (Int.tdiv_nonneg h hb.le) ?_
    rw [Int.tdiv_eq_ediv_of_nonneg h]
    exact Int.ediv_le_self b h
  · have h0 := Int.neg_nonneg.2 h
    have hneg : a.tdiv b = -((-a) / b) := by
      rw [← Int.tdiv_eq_ediv_of_nonneg h0, Int.neg_tdiv, Int.neg_neg]
    have hle := Int.ediv_le_self b h0
    have hpos := Int.ediv_nonneg h0 hb.le
    refine ha.between (fits_zero w) ?_ ?_
    · omega
    · omega

theorem div_of_pos (hb : 0 < b) (ha : Fits w a) : div w a b = some (a.tdiv b) := by
  rw [div, if_neg (by omega), check_of_fits (fits_tdiv hb ha)]

theorem mod_of_pos (hb : 0 < b) : mod w a b = some (a.tmod b) :=
  if_neg (by omega)

theorem div_eq_some (hb : 0 < b) : div w a b = some c ↔ Fits w (a.tdiv b) ∧ a.tdiv b = c := by
  rw [div, if_neg (by omega), check_eq_some]

/-! ## The floor -/

/-- A floored quotient by a positive divisor fits where the dividend does. -/
theorem fits_ediv (hb : 0 < b) (ha : Fits w a) : Fits w (a / b) := by
  rcases Int.le_total 0 a with h | h
  · exact (fits_zero w).between ha (Int.ediv_nonneg h hb.le) (Int.ediv_le_self b h)
  · refine ha.between (fits_zero w) ?_ ?_
    · apply Int.le_ediv_of_mul_le hb
      have hmul := Int.mul_le_mul_of_nonpos_left h (show (1 : Int) ≤ b by omega)
      omega
    · exact Int.ediv_le_of_le_mul hb (by omega)

/-- Truncation agrees with the floor or lies one above it, by the sign of the remainder. -/
theorem tdiv_tmod_floor (hb : 0 < b) : (0 ≤ a.tmod b ∧ a.tdiv b = a / b ∧ a.tmod b = a % b) ∨
      (a.tmod b < 0 ∧ a.tdiv b = a / b + 1 ∧ a.tmod b + b = a % b) := by
  have hlo : 0 ≤ a % b := Int.emod_nonneg a (by omega)
  have hhi : a % b < b := Int.emod_lt_of_pos a hb
  rw [Int.tdiv_eq_ediv, Int.tmod_eq_emod, Int.sign_eq_one_of_pos hb]
  by_cases h : 0 ≤ a ∨ b ∣ a
  · left
    rw [if_pos h, if_pos h]
    omega
  · right
    rw [if_neg h, if_neg h]
    omega

/-! ## Nonnegative dividends -/

theorem div_of_nonneg (ha : 0 ≤ a) (hb : 0 < b) (h : Fits w a) : div w a b = some (a / b) := by
  rw [div_of_pos hb h, Int.tdiv_eq_ediv_of_nonneg ha]

theorem mod_of_nonneg (ha : 0 ≤ a) (hb : 0 < b) : mod w a b = some (a % b) := by
  rw [mod_of_pos hb, Int.tmod_eq_emod_of_nonneg ha]

end CheckedInt

/-!
## Arithmetic in an integer type

An integer type keeps the numbers of its range.  What an operation gives beyond it is wrapped into
the range, clamped to its nearer end, or refused.

    InRange t y → 2 ^ w ∣ x - y → t.wrap x = y                                     (wrap_unique)
    t.wrap (t.wrap x) = t.wrap x, InRange t (t.wrap x), InRange t (t.clamp x)

### Algorithm

`eval` computes an operation exactly and treats what leaves the range as its flavor says.
-/

namespace IntRange

/-- A signed or unsigned type of `width` bits. -/
structure IntTy where
  signed : Bool
  width : Nat
  pos : 0 < width
  deriving DecidableEq

theorem word_pos : 0 < 64 := by decide

variable (t : IntTy)

def IntTy.low : Int := if t.signed then -2 ^ (t.width - 1) else 0

def IntTy.high : Int := if t.signed then 2 ^ (t.width - 1) - 1 else 2 ^ t.width - 1

def IntTy.InRange (x : Int) : Prop := t.low ≤ x ∧ x ≤ t.high

instance (x : Int) : Decidable (t.InRange x) := inferInstanceAs (Decidable (_ ∧ _))

/-- The low bits of `x`, read as a number of the type. -/
def IntTy.wrap (x : Int) : Int :=
  if t.signed then x.bmod (2 ^ t.width) else x % 2 ^ t.width

def IntTy.clamp (x : Int) : Int := max t.low (min t.high x)

inductive Op
  | add
  | sub
  | mul
  | div
  deriving DecidableEq

inductive Flavor
  | wrap
  | sat
  | check
  deriving DecidableEq

/-- The operation on integers; a quotient is rounded towards zero. -/
def exact (op : Op) (x y : Int) : Option Int :=
  match op with
  | .add => some (x + y)
  | .sub => some (x - y)
  | .mul => some (x * y)
  | .div => if y = 0 then none else some (x.tdiv y)

/-- What a result becomes in the type. -/
def settle (fl : Flavor) (r : Int) : Option Int :=
  match fl with
  | .wrap => some (t.wrap r)
  | .sat => some (t.clamp r)
  | .check => if t.InRange r then some r else none

def eval (fl : Flavor) (op : Op) (x y : Int) : Option Int := (exact op x y).bind (settle t fl)

/-! ## Ranges -/

theorem two_pow_width : (2 : Int) ^ t.width = 2 * 2 ^ (t.width - 1) := by
  obtain ⟨w, hw⟩ := Nat.exists_eq_succ_of_ne_zero (Nat.pos_iff_ne_zero.1 t.pos)
  rw [hw, Nat.succ_sub_one, Int.pow_succ, Int.mul_comm]

/-- As many numbers as there are rows of bits. -/
theorem high_sub_low : t.high - t.low = 2 ^ t.width - 1 := by
  have := two_pow_width t
  unfold IntTy.high IntTy.low
  split_ifs <;> omega

theorem low_le_zero : t.low ≤ 0 := by
  have : (0 : Int) < 2 ^ (t.width - 1) := Int.pow_pos (by decide)
  unfold IntTy.low
  split_ifs <;> omega

theorem zero_le_high : 0 ≤ t.high := by
  have : (0 : Int) < 2 ^ (t.width - 1) := Int.pow_pos (by decide)
  have := two_pow_width t
  unfold IntTy.high
  split_ifs <;> omega

theorem inRange_zero : t.InRange 0 := ⟨low_le_zero t, zero_le_high t⟩

variable {t} {x y : Int}

theorem wrap_inRange : t.InRange (t.wrap x) := by
  have hpow := two_pow_width t
  have hpos : (0 : Int) < 2 ^ (t.width - 1) := Int.pow_pos (by decide)
  have hcast : ((2 ^ t.width : Nat) : Int) = 2 ^ t.width := by norm_cast
  unfold IntTy.InRange IntTy.low IntTy.high IntTy.wrap
  split_ifs
  · have hlow := Int.le_bmod (x := x) (m := 2 ^ t.width) (Nat.two_pow_pos _)
    have hhigh := Int.bmod_lt (x := x) (m := 2 ^ t.width) (Nat.two_pow_pos _)
    omega
  · have hlow := Int.emod_nonneg x (show (2 : Int) ^ t.width ≠ 0 by omega)
    omega

theorem dvd_sub_wrap : 2 ^ t.width ∣ x - t.wrap x := by
  have hcast : ((2 ^ t.width : Nat) : Int) = 2 ^ t.width := by norm_cast
  unfold IntTy.wrap
  split_ifs
  · have := Int.dvd_self_sub_bmod (x := x) (m := 2 ^ t.width)
    rwa [hcast] at this
  · exact Int.dvd_self_sub_emod

/-- One number of the range has the bits of `x`. -/
theorem wrap_unique (hy : t.InRange y) (hdvd : 2 ^ t.width ∣ x - y) : t.wrap x = y := by
  obtain ⟨k, hk⟩ := hdvd
  obtain ⟨j, hj⟩ := dvd_sub_wrap (t := t) (x := x)
  have hw := wrap_inRange (t := t) (x := x)
  have hspan := high_sub_low t
  have hdiff : t.wrap x - y = 2 ^ t.width * (k - j) := by
    rw [Int.mul_sub, ← hk, ← hj]
    omega
  have hzero : k - j = 0 := by
    unfold IntTy.InRange at hw hy
    by_contra hne
    rcases lt_or_gt_of_ne hne with hneg | hgt
    · have : 2 ^ t.width * (k - j) ≤ 2 ^ t.width * (-1) :=
        Int.mul_le_mul_of_nonneg_left (by omega) (by omega)
      omega
    · have : 2 ^ t.width * 1 ≤ 2 ^ t.width * (k - j) :=
        Int.mul_le_mul_of_nonneg_left (by omega) (by omega)
      omega
  rw [hzero, Int.mul_zero] at hdiff
  omega

theorem wrap_of_inRange (hx : t.InRange x) : t.wrap x = x :=
  wrap_unique hx (by rw [Int.sub_self]; exact Int.dvd_zero _)

theorem clamp_of_inRange (hx : t.InRange x) : t.clamp x = x := by
  unfold IntTy.InRange at hx
  unfold IntTy.clamp
  omega

theorem clamp_of_lt (hx : x < t.low) : t.clamp x = t.low := by
  unfold IntTy.clamp
  omega

theorem clamp_of_gt (hx : t.high < x) : t.clamp x = t.high := by
  have := low_le_zero t
  have := zero_le_high t
  unfold IntTy.clamp
  omega

/-- What is in range is the same in every flavor. -/
theorem settle_of_inRange (fl : Flavor) (hx : t.InRange x) : settle t fl x = some x := by
  cases fl with
  | wrap => exact congrArg some (wrap_of_inRange hx)
  | sat => exact congrArg some (clamp_of_inRange hx)
  | check => exact if_pos hx

theorem settle_sat_above (hx : t.high < x) : settle t .sat x = some t.high :=
  congrArg some (clamp_of_gt hx)

theorem settle_sat_below (hx : x < t.low) : settle t .sat x = some t.low :=
  congrArg some (clamp_of_lt hx)

theorem settle_check_out (hx : ¬t.InRange x) : settle t .check x = none := if_neg hx

theorem inRange_of_not (hlow : ¬x < t.low) (hhigh : ¬t.high < x) : t.InRange x :=
  ⟨not_lt.1 hlow, not_lt.1 hhigh⟩

theorem not_inRange_above (hx : t.high < x) : ¬t.InRange x := fun h => absurd hx (not_lt.2 h.2)

theorem not_inRange_below (hx : x < t.low) : ¬t.InRange x := fun h => absurd hx (not_lt.2 h.1)

/-- A wrapped product gives back a factor only when nothing was lost. -/
theorem wrap_mul_of_tdiv (hx : x ≠ 0) (hlt : (x.natAbs : Int) < 2 ^ t.width)
    (h : (t.wrap (x * y)).tdiv x = y) : t.InRange (x * y) := by
  obtain ⟨k, hk⟩ := dvd_sub_wrap (t := t) (x := x * y)
  have hsplit := Int.mul_tdiv_add_tmod (t.wrap (x * y)) x
  have hmod : ((t.wrap (x * y)).tmod x).natAbs < x.natAbs := by
    rw [Int.natAbs_tmod]
    exact Nat.mod_lt _ (Int.natAbs_pos.2 hx)
  rw [h] at hsplit
  have hrest : (t.wrap (x * y)).tmod x = 2 ^ t.width * -k := by
    rw [Int.mul_neg, ← hk]
    omega
  have hzero : k = 0 := by
    by_contra hne
    rcases lt_or_gt_of_ne hne with hneg | hgt
    · have : 2 ^ t.width * 1 ≤ 2 ^ t.width * -k :=
        Int.mul_le_mul_of_nonneg_left (by omega) (by omega)
      omega
    · have : 2 ^ t.width * -k ≤ 2 ^ t.width * -1 :=
        Int.mul_le_mul_of_nonneg_left (by omega) (by omega)
      omega
  rw [hzero, Int.mul_zero] at hk
  have heq : x * y = t.wrap (x * y) := by omega
  rw [heq]
  exact wrap_inRange

end IntRange

import Mathlib.Data.Nat.Basic
import Mathlib.Data.Nat.Bitwise
import Mathlib.Tactic.Common
import Mathlib.Data.Nat.Size
import Mathlib.Data.List.Basic
import Mathlib.Tactic.Ring

/-!
# Checked fixed-width unsigned arithmetic

A value of `w` bits is a natural number below `2 ^ w`.  The checked operations
answer `none` where a machine that traps on overflow traps; the wrapping ones and
the left shift keep the low `w` bits.

    a + b < 2 ^ w → addChk w a b = some (a + b)      (addChk_of_lt)
    b ≤ a         → subChk a b   = some (a - b)      (subChk_of_le)
    a * b < 2 ^ w → mulChk w a b = some (a * b)      (mulChk_of_lt)
-/

namespace FixedWidth

/-! ## Operations -/

/-- `n` read as a value of `w` bits, or nothing when it does not fit. -/
def castChk (w n : Nat) : Option Nat := if n < 2 ^ w then some n else none

def addChk (w a b : Nat) : Option Nat := castChk w (a + b)

/-- Unsigned subtraction traps below zero at every width. -/
def subChk (a b : Nat) : Option Nat := if b ≤ a then some (a - b) else none

def mulChk (w a b : Nat) : Option Nat := castChk w (a * b)

/-- Division traps on a zero divisor only. -/
def divChk (a b : Nat) : Option Nat := if b = 0 then none else some (a / b)

/-- A left shift is never checked: it keeps the low `w` bits. -/
def shlLow (w a n : Nat) : Nat := a * 2 ^ n % 2 ^ w

def shr (a n : Nat) : Nat := a / 2 ^ n

def wrap (w n : Nat) : Nat := n % 2 ^ w

def wrapMul (w a b : Nat) : Nat := a * b % 2 ^ w

def wrapSub (w a b : Nat) : Nat := (2 ^ w + a - b) % 2 ^ w

/-! ## When the checks pass -/

variable {a b n w : Nat}

theorem castChk_of_lt (h : n < 2 ^ w) : castChk w n = some n := if_pos h

theorem addChk_of_lt (h : a + b < 2 ^ w) : addChk w a b = some (a + b) :=
  castChk_of_lt h

theorem subChk_of_le (h : b ≤ a) : subChk a b = some (a - b) := if_pos h

theorem mulChk_of_lt (h : a * b < 2 ^ w) : mulChk w a b = some (a * b) :=
  castChk_of_lt h

theorem divChk_of_pos (h : 0 < b) : divChk a b = some (a / b) :=
  if_neg (Nat.ne_of_gt h)

/-- A product of two values of `w` bits fits in `v` bits when `2 w ≤ v`. -/
theorem mul_lt_two_pow {v : Nat} (hv : 2 * w ≤ v) (ha : a < 2 ^ w) (hb : b < 2 ^ w) :
    a * b < 2 ^ v := by
  have h1 : a * b < 2 ^ w * 2 ^ w := Nat.mul_lt_mul'' ha hb
  have h2 : 2 ^ w * 2 ^ w ≤ 2 ^ v := by
    rw [← Nat.pow_add]
    exact Nat.pow_le_pow_right (by decide) (by omega)
  exact Nat.lt_of_lt_of_le h1 h2

/-- A shift whose result fits loses nothing. -/
theorem shlLow_of_lt (h : a * 2 ^ n < 2 ^ w) : shlLow w a n = a * 2 ^ n :=
  Nat.mod_eq_of_lt h

/-- A high part shifted up and or-ed onto a low part is their sum. -/
theorem shl_or_eq_add (a : Nat) (h : b < 2 ^ n) : a * 2 ^ n ||| b = a * 2 ^ n + b := by
  rw [Nat.mul_comm]
  exact (Nat.two_pow_add_eq_or_of_lt h a).symm

end FixedWidth

/-!
## The length of a word by smearing

Or-ing a word with itself shifted by 1, 2, 4, … sets every bit below the top one; the count
of set bits is then the length.

    Smeared n x y: bit i of y is set iff one of the bits i … i + n - 1 of x is
    Smeared n x y → Smeared (n + n) x (y ||| y >>> n)                (Smeared.double)
    x < 2^n → Smeared n x y → the number of bits of y is size x      (Smeared.count)
-/

namespace BitLength

/-- Every bit of `y` gathers `n` bits of `x` from there up. -/
def Smeared (n x y : Nat) : Prop :=
  ∀ i, y.testBit i = true ↔ ∃ j, i ≤ j ∧ j < i + n ∧ x.testBit j = true

theorem Smeared.one (x : Nat) : Smeared 1 x x := by
  intro i
  constructor
  · intro h
    exact ⟨i, Nat.le_refl i, Nat.lt_succ_self i, h⟩
  · rintro ⟨j, hlo, hhi, h⟩
    rwa [show i = j by omega]

theorem Smeared.double {n x y : Nat} (h : Smeared n x y) : Smeared (n + n) x (y ||| y >>> n) := by
  intro i
  rw [Nat.testBit_or, Nat.testBit_shiftRight, Bool.or_eq_true, h i, h (n + i)]
  constructor
  · rintro (⟨j, hlo, hhi, hj⟩ | ⟨j, hlo, hhi, hj⟩)
    · exact ⟨j, hlo, by omega, hj⟩
    · exact ⟨j, by omega, by omega, hj⟩
  · rintro ⟨j, hlo, hhi, hj⟩
    rcases Nat.lt_or_ge j (i + n) with hlt | hge
    · exact .inl ⟨j, hlo, hlt, hj⟩
    · exact .inr ⟨j, by omega, by omega, hj⟩

/-- Fully smeared, the bits below the length are set and no others. -/
theorem Smeared.testBit {n x y : Nat} (h : Smeared n x y) (hx : x < 2 ^ n) (i : Nat) :
    y.testBit i = true ↔ i < x.size := by
  rw [h i, Nat.lt_size]
  constructor
  · rintro ⟨j, hlo, -, hj⟩
    have hpow : 2 ^ i ≤ 2 ^ j := Nat.pow_le_pow_right (by decide) hlo
    exact Nat.le_trans hpow (Nat.ge_two_pow_of_testBit hj)
  · intro hle
    obtain ⟨j, hlo, hj⟩ := Nat.exists_ge_and_testBit_of_ge_two_pow hle
    have hlt : j < n := by
      rw [← Nat.pow_lt_pow_iff_right (show 1 < 2 by decide)]
      exact Nat.lt_of_le_of_lt (Nat.ge_two_pow_of_testBit hj) hx
    exact ⟨j, hlo, by omega, hj⟩

theorem countP_lt_range (s n : Nat) (h : s ≤ n) :
    (List.range n).countP (fun i => decide (i < s)) = s := by
  induction n with
  | zero =>
    have hs : s = 0 := Nat.le_zero.1 h
    rw [hs]
    rfl
  | succ n ih =>
    rw [List.range_succ, List.countP_append]
    rcases Nat.lt_or_eq_of_le h with hlt | rfl
    · rw [ih (by omega)]
      simp [show ¬ n < s by omega]
    · have hall : (List.range n).countP (fun i => decide (i < n + 1)) = n := by
        rw [List.countP_eq_length.2]
        · exact List.length_range
        · intro i hi
          have := List.mem_range.1 hi
          simp only [decide_eq_true_eq]
          omega
      rw [hall]
      simp

theorem Smeared.count {n x y : Nat} (h : Smeared n x y) (hx : x < 2 ^ n) :
    (List.range n).countP y.testBit = x.size := by
  have hsize : x.size ≤ n := Nat.size_le.2 hx
  rw [← countP_lt_range x.size n hsize]
  apply List.countP_congr
  intro i _
  rw [h.testBit hx i, decide_eq_true_eq]

end BitLength

/-!
## Numbers as bytes

`value` reads bytes as a number, least significant first, and `split n` writes the `n` low bytes
of a number; big-endian bytes are these reversed.

    value (split n v) = v % 256 ^ n                                  (value_split)
    split bs.length (value bs) = bs                                  (split_value)
    value (l ++ r) = value l + 256 ^ l.length * value r              (value_append)
-/

namespace ByteOrder

def value : List UInt8 → Nat
  | [] => 0
  | b :: bs => b.toNat + 256 * value bs

def split : (n v : Nat) → List UInt8
  | 0, _ => []
  | n + 1, v => UInt8.ofNat v :: split n (v / 256)

/-- The bytes least significant first, from either order. -/
def lowFirst (be : Bool) (bs : List UInt8) : List UInt8 := if be then bs.reverse else bs

@[simp] theorem value_nil : value [] = 0 := rfl

@[simp] theorem split_zero (v : Nat) : split 0 v = [] := rfl

@[simp] theorem split_succ (n v : Nat) :
    split (n + 1) v = UInt8.ofNat v :: split n (v / 256) := rfl

@[simp] theorem lowFirst_true (bs : List UInt8) : lowFirst true bs = bs.reverse := rfl

@[simp] theorem lowFirst_false (bs : List UInt8) : lowFirst false bs = bs := rfl

@[simp] theorem length_split (n v : Nat) : (split n v).length = n := by
  induction n generalizing v with
  | zero => rfl
  | succ n ih => simp [ih]

@[simp] theorem length_lowFirst (be : Bool) (bs : List UInt8) :
    (lowFirst be bs).length = bs.length := by
  cases be <;> simp

theorem lowFirst_lowFirst (be : Bool) (bs : List UInt8) : lowFirst be (lowFirst be bs) = bs := by
  cases be <;> simp

theorem value_lt (bs : List UInt8) : value bs < 256 ^ bs.length := by
  induction bs with
  | nil => simp
  | cons b bs ih =>
    have hb := b.toNat_lt
    show b.toNat + 256 * value bs < 256 ^ (bs.length + 1)
    omega

theorem value_append (l r : List UInt8) : value (l ++ r) = value l + 256 ^ l.length * value r := by
  induction l with
  | nil => simp
  | cons b l ih =>
    show b.toNat + 256 * value (l ++ r) = b.toNat + 256 * value l + 256 ^ (l.length + 1) * value r
    rw [ih, Nat.pow_succ]
    ring

theorem value_split (n v : Nat) : value (split n v) = v % 256 ^ n := by
  induction n generalizing v with
  | zero => simp [Nat.mod_one]
  | succ n ih =>
    show (UInt8.ofNat v).toNat + 256 * value (split n (v / 256)) = v % 256 ^ (n + 1)
    rw [ih, Nat.pow_succ, Nat.mul_comm (256 ^ n) 256, Nat.mod_mul]
    simp

theorem split_value (bs : List UInt8) : split bs.length (value bs) = bs := by
  induction bs with
  | nil => rfl
  | cons b bs ih =>
    have hb := b.toNat_lt
    have hdiv : (b.toNat + 256 * value bs) / 256 = value bs := by omega
    have hbyte : UInt8.ofNat (b.toNat + 256 * value bs) = b := by
      apply UInt8.toNat_inj.1
      rw [UInt8.toNat_ofNat']
      omega
    show UInt8.ofNat (b.toNat + 256 * value bs) ::
      split bs.length ((b.toNat + 256 * value bs) / 256) = b :: bs
    rw [hdiv, hbyte, ih]

/-- Byte `j` of a number. -/
theorem getElem?_split {n v j : Nat} (hj : j < n) :
    (split n v)[j]? = some (UInt8.ofNat (v / 256 ^ j)) := by
  induction n generalizing v j with
  | zero => omega
  | succ n ih =>
    cases j with
    | zero => simp
    | succ j =>
      have hdiv : v / 256 / 256 ^ j = v / 256 ^ (j + 1) := by
        rw [Nat.div_div_eq_div_mul, Nat.pow_succ, Nat.mul_comm]
      show (split n (v / 256))[j]? = _
      rw [ih (by omega), hdiv]

theorem take_split {w n : Nat} (hw : w ≤ n) (v : Nat) : (split n v).take w = split w v := by
  apply List.ext_getElem?
  intro i
  rw [List.getElem?_take]
  by_cases hi : i < w
  · rw [if_pos hi, getElem?_split (by omega), getElem?_split hi]
  · rw [if_neg hi, List.getElem?_eq_none (by simp; omega)]

/-- Only the low bytes are written. -/
theorem split_mod (n v : Nat) : split n (v % 256 ^ n) = split n v := by
  have h := split_value (split n v)
  rwa [length_split, value_split] at h

/-- The most significant byte of `n + 1` stands last. -/
theorem split_succ_last (n v : Nat) :
    split (n + 1) v = split n v ++ [UInt8.ofNat (v / 256 ^ n)] := by
  induction n generalizing v with
  | zero => simp
  | succ n ih =>
    have hdiv : v / 256 / 256 ^ n = v / 256 ^ (n + 1) := by
      rw [Nat.div_div_eq_div_mul, Nat.pow_succ, Nat.mul_comm]
    show UInt8.ofNat v :: split (n + 1) (v / 256) = UInt8.ofNat v :: split n (v / 256) ++ _
    rw [ih, hdiv]
    rfl

end ByteOrder

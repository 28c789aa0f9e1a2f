import Mathlib.Data.List.DropRight
import Mathlib.Data.Nat.Basic
import Mathlib.Algebra.Order.Ring.Nat
import Mathlib.Tactic.Common
import Mathlib.Tactic.Ring

/-!
# Decimal texts

A numeral is a list of digit characters, most significant first; a fraction is the
list of digits after the point, read in units of `10 ^ -m`.

    value (text n) = n                                             (value_text)
    (text n).length ≤ k ↔ n < 10 ^ k                               (length_text_le_iff)
    fraction m (ds ++ zeros k) = fraction m ds                     (fraction_append_zeros)
    fraction m (trimZeros ds) = fraction m ds                      (fraction_trimZeros)
    fraction m (padLeft k (text n)) = n * 10 ^ (m - max k …)       (fraction_padLeft)
-/

namespace Decimal

/-! ## Definitions -/

def digitOf (c : Char) : Nat := c.toNat - 48

def AllDigits (ds : List Char) : Prop := ∀ c ∈ ds, c.isDigit = true

theorem allDigits_takeWhile (s : List Char) : AllDigits (s.takeWhile Char.isDigit) :=
  fun _ hc => List.mem_takeWhile_imp hc

/-- The number a numeral denotes. -/
def value (ds : List Char) : Nat := Nat.ofDigitChars 10 ds 0

/-- The numeral of `n`, without leading zeros. -/
def text (n : Nat) : List Char := Nat.toDigits 10 n

def zeros (k : Nat) : List Char := List.replicate k '0'

/-- `ds` with zeros in front, up to `k` characters. -/
def padLeft (k : Nat) (ds : List Char) : List Char := zeros (k - ds.length) ++ ds

/-- `ds` without its trailing zeros. -/
def trimZeros (ds : List Char) : List Char := ds.rdropWhile (· == '0')

/-- The digits after a point, in units of `10 ^ -m`. -/
def fraction (m : Nat) (ds : List Char) : Nat := value ds * 10 ^ (m - ds.length)

/-- A fraction behind its point, nothing when it has no digits. -/
def pointed (fs : List Char) : List Char := if fs = [] then [] else '.' :: fs

/-- A whole number and the digits after its point, if any. -/
def numeral (w : Nat) (fs : List Char) : List Char := text w ++ pointed fs

/-! ## Digits -/

theorem isDigit_iff (c : Char) : c.isDigit = true ↔ 48 ≤ c.toNat ∧ c.toNat ≤ 57 := by
  simp only [Char.isDigit, Bool.and_eq_true, decide_eq_true_eq]
  exact Iff.rfl

theorem AllDigits.append {a b : List Char} (ha : AllDigits a) (hb : AllDigits b) :
    AllDigits (a ++ b) := by
  intro c hc
  rcases List.mem_append.1 hc with h | h
  · exact ha c h
  · exact hb c h

theorem allDigits_zeros (k : Nat) : AllDigits (zeros k) := by
  intro c hc
  rw [List.eq_of_mem_replicate hc]
  rfl

theorem allDigits_text (n : Nat) : AllDigits (text n) :=
  fun _ hc => Nat.isDigit_of_mem_toDigits (by decide) (by decide) hc

variable {ds : List Char}

theorem allDigits_padLeft {k : Nat} (h : AllDigits ds) : AllDigits (padLeft k ds) :=
  (allDigits_zeros _).append h

theorem AllDigits.trimZeros (h : AllDigits ds) : AllDigits (trimZeros ds) :=
  fun c hc => h c ((List.rdropWhile_prefix _ ds).subset hc)

/-! ## Numerals -/

@[simp] theorem value_nil : value [] = 0 := Nat.ofDigitChars_nil

/-- Appending digits shifts the value read so far. -/
theorem value_append (a b : List Char) : value (a ++ b) = value a * 10 ^ b.length + value b := by
  unfold value
  rw [Nat.ofDigitChars_append, Nat.ofDigitChars_eq_ofDigitChars_zero, Nat.mul_comm]

@[simp] theorem value_singleton (c : Char) : value [c] = digitOf c := by
  simp [value, Nat.ofDigitChars_cons, digitOf]

theorem value_cons (c : Char) (ds : List Char) :
    value (c :: ds) = digitOf c * 10 ^ ds.length + value ds := by
  rw [← List.singleton_append, value_append, value_singleton]

@[simp] theorem value_zeros (k : Nat) : value (zeros k) = 0 := by
  rw [value, zeros, Nat.ofDigitChars_replicate_zero, Nat.mul_zero]

@[simp] theorem length_zeros (k : Nat) : (zeros k).length = k := List.length_replicate

@[simp] theorem value_text (n : Nat) : value (text n) = n := Nat.ofDigitChars_ten_toDigits

theorem value_lt (h : AllDigits ds) : value ds < 10 ^ ds.length := by
  induction ds with
  | nil => simp
  | cons c ds ih =>
    have hc := (isDigit_iff c).1 (h c List.mem_cons_self)
    have hd : digitOf c ≤ 9 := by
      unfold digitOf
      omega
    have hrest := ih fun x hx => h x (List.mem_cons_of_mem c hx)
    have hmul : digitOf c * 10 ^ ds.length ≤ 9 * 10 ^ ds.length := Nat.mul_le_mul_right _ hd
    rw [value_cons, List.length_cons, Nat.pow_succ]
    omega

theorem text_ne_nil (n : Nat) : text n ≠ [] := Nat.toDigits_ne_nil

theorem length_text_le_iff {n k : Nat} (h : 0 < k) : (text n).length ≤ k ↔ n < 10 ^ k :=
  Nat.length_toDigits_le_iff (by decide) h

theorem length_text_pos (n : Nat) : 0 < (text n).length := List.length_pos_iff.2 (text_ne_nil n)

@[simp] theorem value_padLeft (k : Nat) (ds : List Char) : value (padLeft k ds) = value ds := by
  rw [padLeft, value_append, value_zeros, Nat.zero_mul, Nat.zero_add]

theorem length_padLeft (k : Nat) (ds : List Char) : (padLeft k ds).length = max k ds.length := by
  rw [padLeft, List.length_append, length_zeros]
  omega

/-! ## Fractions -/

@[simp] theorem fraction_nil (m : Nat) : fraction m [] = 0 := by simp [fraction]

theorem fraction_cons (m : Nat) (c : Char) (ds : List Char) (h : ds.length < m) :
    fraction m (c :: ds) = digitOf c * 10 ^ (m - 1) + fraction (m - 1) ds := by
  have hm : m - 1 = ds.length + (m - (ds.length + 1)) := by omega
  have hm' : m - 1 - ds.length = m - (ds.length + 1) := by omega
  unfold fraction
  rw [value_cons, List.length_cons, hm', Nat.add_mul, Nat.mul_assoc, ← Nat.pow_add, ← hm]

/-- A fraction of at most `m` digits is less than one. -/
theorem fraction_lt {m : Nat} (h : AllDigits ds) (hm : ds.length ≤ m) : fraction m ds < 10 ^ m := by
  have hpow : 10 ^ m = 10 ^ ds.length * 10 ^ (m - ds.length) := by
    rw [← Nat.pow_add]
    congr 1
    omega
  rw [hpow]
  exact Nat.mul_lt_mul_of_pos_right (value_lt h) (Nat.pow_pos (by decide))

theorem fraction_append_zeros (m : Nat) (ds : List Char) (k : Nat) (h : ds.length + k ≤ m) :
    fraction m (ds ++ zeros k) = fraction m ds := by
  unfold fraction
  rw [value_append, value_zeros, Nat.add_zero, List.length_append, length_zeros, Nat.mul_assoc,
    ← Nat.pow_add]
  congr 2
  omega

/-- A list is what trimming leaves and the zeros it took. -/
theorem trimZeros_append_zeros (ds : List Char) : ∃ k, trimZeros ds ++ zeros k = ds := by
  induction ds using List.reverseRecOn with
  | nil => exact ⟨0, rfl⟩
  | append_singleton ds c ih =>
    by_cases hc : c = '0'
    · obtain ⟨k, hk⟩ := ih
      refine ⟨k + 1, ?_⟩
      have htrim : trimZeros (ds ++ [c]) = trimZeros ds :=
        List.rdropWhile_concat_pos _ _ _ (by simp [hc])
      have hz : zeros (k + 1) = zeros k ++ ['0'] := List.replicate_succ'
      rw [htrim, hz, ← List.append_assoc, hk, hc]
    · refine ⟨0, ?_⟩
      have htrim : trimZeros (ds ++ [c]) = ds ++ [c] :=
        List.rdropWhile_concat_neg _ _ _ (by simp [hc])
      rw [htrim]
      exact List.append_nil _

theorem length_trimZeros_le (ds : List Char) : (trimZeros ds).length ≤ ds.length :=
  (List.rdropWhile_prefix _ ds).length_le

/-- Trailing zeros of a fraction say nothing. -/
theorem fraction_trimZeros (m : Nat) (ds : List Char) (h : ds.length ≤ m) :
    fraction m (trimZeros ds) = fraction m ds := by
  obtain ⟨k, hk⟩ := trimZeros_append_zeros ds
  have hlen : (trimZeros ds).length + k = ds.length := by
    have := congrArg List.length hk
    rwa [List.length_append, length_zeros] at this
  rw [← fraction_append_zeros m (trimZeros ds) k (by omega), hk]

/-- A numeral of nonzero value does not trim to nothing. -/
theorem trimZeros_ne_nil (h : value ds ≠ 0) : trimZeros ds ≠ [] := by
  intro hnil
  obtain ⟨k, hk⟩ := trimZeros_append_zeros ds
  rw [hnil, List.nil_append] at hk
  apply h
  rw [← hk, value_zeros]

theorem fraction_padLeft (m k n : Nat) :
    fraction m (padLeft k (text n)) = n * 10 ^ (m - max k (text n).length) := by
  rw [fraction, value_padLeft, value_text, length_padLeft]

theorem numeral_ne_nil (w : Nat) (fs : List Char) : numeral w fs ≠ [] := by
  intro h
  exact text_ne_nil w (List.append_eq_nil_iff.1 h).1

/-- A numeral starts with a digit. -/
theorem numeral_head (w : Nat) (fs : List Char) :
    ∃ c r, numeral w fs = c :: r ∧ c.isDigit = true := by
  cases h : text w with
  | nil => exact absurd h (text_ne_nil w)
  | cons c r =>
    refine ⟨c, r ++ pointed fs, ?_, allDigits_text w c ?_⟩
    · rw [numeral, h]
      rfl
    · rw [h]
      exact List.mem_cons_self

end Decimal

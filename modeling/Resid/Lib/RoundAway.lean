import Mathlib.Data.Int.Log
import Mathlib.Data.Rat.Floor
import Mathlib.Tactic.FieldSimp
import Mathlib.Tactic.Linarith
import Mathlib.Tactic.Positivity
import Mathlib.Tactic.Ring

/-!
# Rounding to significant digits, half away from zero

`roundAway b p x` is the number of `p` significant digits of base `b` nearest to `x`; of two
equally near, the one further from zero.

    roundAway b p (x * b ^ e) = roundAway b p x * b ^ e             (roundAway_mul_zpow)
    c < b ^ p → roundAway b p c = c                                 (roundMag_natCast)
    c = ⌊x⌋ with p + k digits, 0 < k →
      roundAway b p x = (c + b ^ k / 2) / b ^ k * b ^ k             (roundMag_of_floor)
    |x - c| < 1 / (2 b), c with p digits → roundAway b p x = c      (roundMag_near)
-/

namespace RoundAway

/-- The exponent of the last of `p` significant digits. -/
def lastPlace (b p : ℕ) (x : ℚ) : ℤ := Int.log b |x| - ((p : ℤ) - 1)

/-- A magnitude rounded half up. -/
def roundMag (b p : ℕ) (x : ℚ) : ℚ :=
  ⌊x / (b : ℚ) ^ lastPlace b p x + 1 / 2⌋ * (b : ℚ) ^ lastPlace b p x

def roundAway (b p : ℕ) (x : ℚ) : ℚ := if x < 0 then -roundMag b p (-x) else roundMag b p x

variable {b p : ℕ}

@[simp] theorem roundAway_zero : roundAway b p 0 = 0 := by
  have hfloor : ⌊(1 / 2 : ℚ)⌋ = 0 := by norm_num
  rw [roundAway, if_neg (lt_irrefl 0), roundMag, zero_div, zero_add, hfloor, Int.cast_zero, zero_mul]

theorem roundAway_of_nonneg {x : ℚ} (hx : 0 ≤ x) : roundAway b p x = roundMag b p x :=
  if_neg (not_lt.2 hx)

theorem roundAway_neg (x : ℚ) : roundAway b p (-x) = -roundAway b p x := by
  rcases lt_trichotomy x 0 with h | rfl | h
  · rw [roundAway_of_nonneg (neg_nonneg.2 h.le), roundAway, if_pos h, neg_neg]
  · simp
  · rw [roundAway_of_nonneg h.le, roundAway, if_pos (neg_neg_of_pos h), neg_neg]

theorem lastPlace_neg (x : ℚ) : lastPlace b p (-x) = lastPlace b p x := by
  rw [lastPlace, abs_neg, lastPlace]

section Base

variable (hb : 1 < b)

include hb

theorem base_pos : (0 : ℚ) < b := by exact_mod_cast (by omega : 0 < b)

theorem base_ne_zero : (b : ℚ) ≠ 0 := (base_pos hb).ne'

variable {x : ℚ} {k : ℤ} {c : ℕ}

theorem log_eq (hlo : (b : ℚ) ^ k ≤ x) (hhi : x < (b : ℚ) ^ (k + 1)) : Int.log b x = k := by
  have hx : 0 < x := lt_of_lt_of_le (zpow_pos (base_pos hb) k) hlo
  have h1 := (Int.zpow_le_iff_le_log hb hx).1 hlo
  have h2 := (Int.lt_zpow_iff_log_lt hb hx).1 hhi
  omega

theorem lastPlace_eq (hlo : (b : ℚ) ^ k ≤ x) (hhi : x < (b : ℚ) ^ (k + 1)) :
    lastPlace b p x = k - ((p : ℤ) - 1) := by
  have hx : 0 < x := lt_of_lt_of_le (zpow_pos (base_pos hb) k) hlo
  rw [lastPlace, abs_of_pos hx, log_eq hb hlo hhi]

theorem lastPlace_mul_zpow (hx : 0 < x) (e : ℤ) :
    lastPlace b p (x * (b : ℚ) ^ e) = lastPlace b p x + e := by
  have hpow := zpow_pos (base_pos hb) e
  have hlo := Int.zpow_log_le_self hb hx
  have hhi := Int.lt_zpow_succ_log_self hb x
  have hlo' : (b : ℚ) ^ (Int.log b x + e) ≤ x * (b : ℚ) ^ e := by
    rw [zpow_add₀ (base_ne_zero hb)]
    exact mul_le_mul_of_nonneg_right hlo hpow.le
  have hhi' : x * (b : ℚ) ^ e < (b : ℚ) ^ (Int.log b x + e + 1) := by
    rw [show Int.log b x + e + 1 = (Int.log b x + 1) + e by ring, zpow_add₀ (base_ne_zero hb)]
    exact mul_lt_mul_of_pos_right hhi hpow
  rw [lastPlace_eq hb hlo' hhi', lastPlace, abs_of_pos hx]
  ring

/-- Rounding commutes with moving the point. -/
theorem roundMag_mul_zpow (hx : 0 < x) (e : ℤ) :
    roundMag b p (x * (b : ℚ) ^ e) = roundMag b p x * (b : ℚ) ^ e := by
  have hpow := (zpow_pos (base_pos hb) e).ne'
  rw [roundMag, lastPlace_mul_zpow hb hx, zpow_add₀ (base_ne_zero hb), mul_div_mul_right _ _ hpow,
    ← mul_assoc, ← roundMag]

theorem roundAway_mul_zpow (x : ℚ) (e : ℤ) :
    roundAway b p (x * (b : ℚ) ^ e) = roundAway b p x * (b : ℚ) ^ e := by
  have hpow := zpow_pos (base_pos hb) e
  rcases lt_trichotomy x 0 with h | rfl | h
  · rw [roundAway, if_pos (mul_neg_of_neg_of_pos h hpow), ← neg_mul,
      roundMag_mul_zpow hb (neg_pos.2 h), roundAway, if_pos h, neg_mul]
  · simp
  · rw [roundAway_of_nonneg (mul_pos h hpow).le, roundMag_mul_zpow hb h, roundAway_of_nonneg h.le]

theorem roundMag_eq (hlo : (b : ℚ) ^ k ≤ x) (hhi : x < (b : ℚ) ^ (k + 1)) : roundMag b p x =
      ⌊x / (b : ℚ) ^ (k - ((p : ℤ) - 1)) + 1 / 2⌋ * (b : ℚ) ^ (k - ((p : ℤ) - 1)) := by
  rw [roundMag, lastPlace_eq hb hlo hhi]

/-- A number of at most `p` digits is its own rounding. -/
theorem roundMag_natCast (hc : 0 < c) (hlt : c < b ^ p) : roundMag b p (c : ℚ) = c := by
  have hlo : (b : ℚ) ^ ((Nat.log b c : ℕ) : ℤ) ≤ c := by
    exact_mod_cast Nat.pow_log_le_self b hc.ne'
  have hhi : (c : ℚ) < (b : ℚ) ^ ((Nat.log b c : ℕ) + 1 : ℤ) := by
    exact_mod_cast Nat.lt_pow_succ_log_self hb c
  have hlog : Nat.log b c < p := Nat.log_lt_of_lt_pow hc.ne' hlt
  have hexp : ((Nat.log b c : ℕ) : ℤ) - ((p : ℤ) - 1) = -((p - 1 - Nat.log b c : ℕ) : ℤ) := by
    omega
  have hint : (c : ℚ) * (b : ℚ) ^ (p - 1 - Nat.log b c) =
      ((c * b ^ (p - 1 - Nat.log b c) : ℕ) : ℤ) := by
    push_cast
    rfl
  have hfloor : ⌊(c : ℚ) * (b : ℚ) ^ (p - 1 - Nat.log b c) + 1 / 2⌋ =
      ((c * b ^ (p - 1 - Nat.log b c) : ℕ) : ℤ) := by
    rw [hint, Int.floor_intCast_add]
    norm_num
  rw [roundMag_eq hb hlo hhi, hexp, zpow_neg, zpow_natCast, div_inv_eq_mul, hfloor, ← hint]
  exact mul_inv_cancel_right₀ (pow_ne_zero _ (base_ne_zero hb)) _

/-- Only the whole part matters where it has digits to lose. -/
theorem roundMag_of_floor (heven : 2 ∣ b) {k : ℕ} (hp : 0 < p) (hk : 0 < k) (hcx : (c : ℚ) ≤ x)
    (hxc : x < c + 1) (hlo : b ^ (p + k - 1) ≤ c) (hhi : c < b ^ (p + k)) :
    roundMag b p x = ((c + b ^ k / 2) / b ^ k : ℕ) * (b : ℚ) ^ k := by
  have hlo' : (b : ℚ) ^ ((p + k - 1 : ℕ) : ℤ) ≤ x := by
    exact le_trans (by exact_mod_cast hlo) hcx
  have hhi' : x < (b : ℚ) ^ (((p + k - 1 : ℕ) : ℤ) + 1) := by
    have hle : ((c + 1 : ℕ) : ℚ) ≤ ((b ^ (p + k) : ℕ) : ℚ) := Nat.cast_le.2 hhi
    rw [← Nat.cast_succ, zpow_natCast, show (p + k - 1).succ = p + k by omega]
    push_cast at hle
    linarith
  have hexp : ((p + k - 1 : ℕ) : ℤ) - ((p : ℤ) - 1) = (k : ℤ) := by omega
  obtain ⟨h, hh⟩ : ∃ h, b ^ k = 2 * h := by
    obtain ⟨m, hm⟩ := heven
    obtain ⟨j, rfl⟩ : ∃ j, k = j + 1 := ⟨k - 1, by omega⟩
    exact ⟨b ^ j * m, by rw [pow_succ, hm]; ring⟩
  have hpos : 0 < b ^ k := Nat.pow_pos (by omega)
  have hposq : (0 : ℚ) < (b : ℚ) ^ k := pow_pos (base_pos hb) k
  have hhalf : b ^ k / 2 = h := by omega
  have hhq : (b : ℚ) ^ k = 2 * h := by exact_mod_cast hh
  rw [roundMag_eq hb hlo' hhi', hexp, zpow_natCast, hhalf]
  have hfloor : ⌊x / (b : ℚ) ^ k + 1 / 2⌋ = ((c + h) / b ^ k : ℕ) := by
    have hle := Nat.mul_div_le (c + h) (b ^ k)
    have hlt : c + h + 1 ≤ b ^ k * ((c + h) / b ^ k + 1) := Nat.lt_mul_div_succ (c + h) hpos
    generalize (c + h) / b ^ k = m at hle hlt ⊢
    have hle' : (b : ℚ) ^ k * m ≤ c + h := by exact_mod_cast hle
    have hlt' : (c : ℚ) + h + 1 ≤ (b : ℚ) ^ k * (m + 1) := by exact_mod_cast hlt
    have hsum : x / (b : ℚ) ^ k + 1 / 2 = (x + h) / (b : ℚ) ^ k := by
      rw [add_div, hhq]
      have hhne : (h : ℚ) ≠ 0 := by
        intro hzero
        rw [hzero, mul_zero] at hhq
        exact hposq.ne' hhq
      field_simp
    rw [Int.floor_eq_iff, hsum, le_div_iff₀ hposq, div_lt_iff₀ hposq]
    push_cast
    constructor
    · linarith
    · linarith
  rw [hfloor]
  rfl

/-- A number of `p` digits is the rounding of all that is near it. -/
theorem roundMag_near (hp : 0 < p) (hlo : b ^ (p - 1) ≤ c) (hhi : c < b ^ p)
    (hnear : |x - c| < 1 / (2 * b)) : roundMag b p x = c := by
  have hbq := base_pos hb
  have hb2 : (2 : ℚ) ≤ b := by exact_mod_cast hb
  obtain ⟨h1, h2⟩ := abs_lt.1 hnear
  have hsmall : 1 / (2 * (b : ℚ)) ≤ 1 / 4 := by
    apply one_div_le_one_div_of_le (by norm_num)
    linarith
  have hloq : (b : ℚ) ^ (p - 1) ≤ c := by exact_mod_cast hlo
  have hhiq : (c : ℚ) + 1 ≤ (b : ℚ) ^ p := by exact_mod_cast hhi
  by_cases hx : (b : ℚ) ^ (p - 1) ≤ x
  · have hlo' : (b : ℚ) ^ ((p - 1 : ℕ) : ℤ) ≤ x := by rwa [zpow_natCast]
    have hhi' : x < (b : ℚ) ^ (((p - 1 : ℕ) : ℤ) + 1) := by
      rw [← Nat.cast_succ, zpow_natCast, show (p - 1).succ = p by omega]
      linarith
    have hexp : ((p - 1 : ℕ) : ℤ) - ((p : ℤ) - 1) = 0 := by omega
    have hfloor : ⌊x + 1 / 2⌋ = (c : ℤ) := by
      rw [Int.floor_eq_iff]
      push_cast
      constructor <;> linarith
    rw [roundMag_eq hb hlo' hhi', hexp, zpow_zero, div_one, mul_one, hfloor]
    rfl
  · -- just below a power of the base the last place is one lower
    rw [not_le] at hx
    have hpow : (b : ℚ) ^ (((p - 1 : ℕ) : ℤ) - 1) * b = (b : ℚ) ^ (p - 1) := by
      rw [← zpow_add_one₀ hbq.ne', sub_add_cancel, zpow_natCast]
    have hone : (1 : ℚ) ≤ (b : ℚ) ^ (p - 1) := one_le_pow₀ (by linarith)
    have hlo' : (b : ℚ) ^ (((p - 1 : ℕ) : ℤ) - 1) ≤ x := by
      have hbound : (b : ℚ) ^ (((p - 1 : ℕ) : ℤ) - 1) * 2 ≤ (b : ℚ) ^ (p - 1) := by
        rw [← hpow]
        exact mul_le_mul_of_nonneg_left hb2 (zpow_pos hbq _).le
      linarith
    have hhi' : x < (b : ℚ) ^ (((p - 1 : ℕ) : ℤ) - 1 + 1) := by
      rwa [sub_add_cancel, zpow_natCast]
    have hexp : ((p - 1 : ℕ) : ℤ) - 1 - ((p : ℤ) - 1) = -1 := by omega
    have hscaled : 1 / (2 * (b : ℚ)) * b = 1 / 2 := by
      field_simp
    have hxb : (c : ℚ) * b - x * b < 1 / 2 := by
      rw [← sub_mul, ← hscaled]
      exact mul_lt_mul_of_pos_right (by linarith) hbq
    have hxb' : x * b ≤ c * b := mul_le_mul_of_nonneg_right (by linarith) hbq.le
    have hfloor : ⌊x * b + 1 / 2⌋ = ((c * b : ℕ) : ℤ) := by
      rw [Int.floor_eq_iff]
      push_cast
      constructor <;> linarith
    rw [roundMag_eq hb hlo' hhi', hexp, zpow_neg_one, div_inv_eq_mul, hfloor]
    push_cast
    exact mul_inv_cancel_right₀ hbq.ne' _

end Base

end RoundAway

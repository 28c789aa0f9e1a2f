import Mathlib.Algebra.Order.Field.Basic
import Mathlib.Algebra.Order.Ring.Abs
import Mathlib.Algebra.Order.Ring.Rat
import Mathlib.Tactic.FieldSimp
import Mathlib.Tactic.Linarith
import Mathlib.Tactic.Ring

/-!
# Bit patterns of doubles, and the one nearest to a number

A pattern without a sign is 11 bits of exponent over 52 bits of fraction.  Read in units of
`2^-1074` it is a whole number, and the pattern above infinity's predecessor counts as
`2^1024`, so that rounding to infinity is rounding to the nearest like any other.

    a < b → units a < units b                                        (units_strictMono)
    2^52 ≤ t ≤ 2^53 → units (k 2^52 + t) = t 2^k                     (units_scaled)
    n ≤ y < n + 1 → the pattern of n or n + 1 is nearest to y 2^k    (nearest_rounded)
    Nearest a x → Nearest b x → a = b                                (Nearest.unique)
-/

namespace DoubleBits

/-- The pattern of infinity. -/
def infBits : Nat := 2047 * 2 ^ 52

/-- The number a pattern holds, in units of the least subnormal. -/
def units (b : Nat) : Nat :=
  if b < 2 ^ 52 then b else (2 ^ 52 + b % 2 ^ 52) * 2 ^ (b / 2 ^ 52 - 1)

/-- The least subnormal. -/
def unit : ℚ := (2 ^ 1074)⁻¹

def number (b : Nat) : ℚ := units b * unit

/-- `b` is the double nearest to `x`, of two the one with an even significand. -/
structure Nearest (b : Nat) (x : ℚ) : Prop where
  bits : b ≤ infBits
  near : ∀ c ≤ infBits, |number b - x| ≤ |number c - x|
  even : ∀ c ≤ infBits, c ≠ b → |number c - x| = |number b - x| → b % 2 = 0

theorem unit_pos : 0 < unit := inv_pos.2 (pow_pos (by norm_num) _)

/-! ## The order of the patterns -/

variable {b k : Nat} {x : ℚ}

theorem units_subnormal (hb : b < 2 ^ 52) : units b = b := if_pos hb

/-- A significand over an exponent; `t = 2^53` is the next binade's first number. -/
theorem units_scaled {t : Nat} (hlo : 2 ^ 52 ≤ t) (hhi : t ≤ 2 ^ 53) :
    units (k * 2 ^ 52 + t) = t * 2 ^ k := by
  unfold units
  rw [if_neg (by omega)]
  rcases Nat.lt_or_ge t (2 ^ 53) with hlt | hge
  · have hdiv : (k * 2 ^ 52 + t) / 2 ^ 52 = k + 1 := by omega
    have hmod : (k * 2 ^ 52 + t) % 2 ^ 52 = t - 2 ^ 52 := by omega
    rw [hdiv, hmod, Nat.add_sub_cancel' hlo, Nat.add_sub_cancel]
  · have heq : t = 2 ^ 53 := Nat.le_antisymm hhi hge
    have hdiv : (k * 2 ^ 52 + t) / 2 ^ 52 = k + 2 := by omega
    have hmod : (k * 2 ^ 52 + t) % 2 ^ 52 = 0 := by omega
    rw [hdiv, hmod, heq, show k + 2 - 1 = k + 1 by omega, Nat.pow_succ 2 k, Nat.add_zero]
    ring

/-- In the lowest binade and below it, a pattern is its own number of units. -/
theorem units_low {t : Nat} (ht : t ≤ 2 ^ 53) : units t = t := by
  rcases Nat.lt_or_ge t (2 ^ 52) with hlt | hge
  · exact units_subnormal hlt
  · have h := units_scaled (k := 0) hge ht
    rwa [Nat.zero_mul, Nat.zero_add, Nat.pow_zero, Nat.mul_one] at h

theorem units_lt_succ (b : Nat) : units b < units (b + 1) := by
  rcases Nat.lt_or_ge b (2 ^ 52) with hlt | hge
  · rw [units_low (by omega), units_low (by omega)]
    exact Nat.lt_succ_self b
  · have hmod := Nat.mod_lt b (show 0 < 2 ^ 52 by decide)
    obtain ⟨k, hk⟩ : ∃ k, b / 2 ^ 52 = k + 1 := ⟨b / 2 ^ 52 - 1, by omega⟩
    have hb : b = k * 2 ^ 52 + (2 ^ 52 + b % 2 ^ 52) := by omega
    have hb1 : b + 1 = k * 2 ^ 52 + (2 ^ 52 + b % 2 ^ 52 + 1) := by omega
    rw [hb1]
    conv_lhs => rw [hb]
    rw [units_scaled (by omega) (by omega), units_scaled (by omega) (by omega)]
    exact Nat.mul_lt_mul_of_pos_right (Nat.lt_succ_self _) (Nat.pow_pos (by decide))

theorem units_strictMono : StrictMono units := strictMono_nat_of_lt_succ units_lt_succ

theorem units_infBits : units infBits = 2 ^ 53 * 2 ^ 2045 := by
  have hsplit : infBits = 2045 * 2 ^ 52 + 2 ^ 53 := rfl
  rw [hsplit]
  apply units_scaled
  · exact Nat.pow_le_pow_right (by decide) (by decide)
  · exact Nat.le_refl _

theorem number_lt {a : Nat} (h : a < b) : number a < number b := by
  apply mul_lt_mul_of_pos_right
  · exact_mod_cast units_strictMono h
  · exact unit_pos

theorem number_le {a : Nat} (h : a ≤ b) : number a ≤ number b := by
  rcases Nat.lt_or_eq_of_le h with hlt | rfl
  · exact (number_lt hlt).le
  · exact le_rfl

/-! ## Nearest -/

/-- Two neighbours with a number between them: no other pattern is nearer. -/
theorem dist_of_between {c : Nat} (hlo : number b ≤ x) (hhi : x ≤ number (b + 1)) :
    (c ≤ b ∧ |number c - x| = x - number c ∧ x - number b ≤ |number c - x|) ∨
      (b + 1 ≤ c ∧ |number c - x| = number c - x ∧ number (b + 1) - x ≤ |number c - x|) := by
  rcases Nat.lt_or_ge b c with hbc | hcb
  · right
    have hle := number_le (show b + 1 ≤ c from hbc)
    have habs : |number c - x| = number c - x := abs_of_nonneg (by linarith)
    exact ⟨hbc, habs, by linarith⟩
  · left
    have hle := number_le hcb
    have habs : |number c - x| = x - number c := by
      rw [abs_sub_comm, abs_of_nonneg (by linarith)]
    exact ⟨hcb, habs, by linarith⟩

theorem nearest_lower (hb : b < infBits) (hlo : number b ≤ x)
    (hmid : x - number b < number (b + 1) - x ∨ x - number b = number (b + 1) - x ∧ b % 2 = 0) :
    Nearest b x := by
  have hhi : x ≤ number (b + 1) := by
    rcases hmid with h | ⟨h, -⟩ <;> linarith
  have hdist : |number b - x| = x - number b := by
    rw [abs_sub_comm, abs_of_nonneg (by linarith)]
  refine ⟨hb.le, fun c hc => ?_, fun c hc hne heq => ?_⟩
  · rw [hdist]
    rcases dist_of_between (c := c) hlo hhi with ⟨-, -, h⟩ | ⟨-, -, h⟩
    · exact h
    · rcases hmid with hm | ⟨hm, -⟩ <;> linarith
  · rw [hdist] at heq
    rcases hmid with hm | ⟨-, hm⟩
    · rcases dist_of_between (c := c) hlo hhi with ⟨hcb, habs, -⟩ | ⟨-, -, h⟩
      · have hlt := number_lt (Nat.lt_of_le_of_ne hcb hne)
        linarith
      · linarith
    · exact hm

theorem nearest_upper (hb : b < infBits) (hhi : x ≤ number (b + 1))
    (hmid : number (b + 1) - x < x - number b ∨
      number (b + 1) - x = x - number b ∧ (b + 1) % 2 = 0) :
    Nearest (b + 1) x := by
  have hlo : number b ≤ x := by
    rcases hmid with h | ⟨h, -⟩ <;> linarith
  have hdist : |number (b + 1) - x| = number (b + 1) - x := abs_of_nonneg (by linarith)
  refine ⟨hb, fun c hc => ?_, fun c hc hne heq => ?_⟩
  · rw [hdist]
    rcases dist_of_between (c := c) hlo hhi with ⟨-, -, h⟩ | ⟨-, -, h⟩
    · rcases hmid with hm | ⟨hm, -⟩ <;> linarith
    · exact h
  · rw [hdist] at heq
    rcases hmid with hm | ⟨-, hm⟩
    · rcases dist_of_between (c := c) hlo hhi with ⟨-, -, h⟩ | ⟨hbc, habs, -⟩
      · linarith
      · have hlt := number_lt (Nat.lt_of_le_of_ne hbc (Ne.symm hne))
        linarith
    · exact hm

/-- Below half of the least subnormal the nearest double is zero. -/
theorem nearest_zero (h0 : 0 ≤ x) (hx : x * 2 < unit) : Nearest 0 x := by
  have hn0 : number 0 = 0 := by
    rw [number, units_low (by decide), Nat.cast_zero, zero_mul]
  have hn1 : number (0 + 1) = unit := by
    rw [number, units_low (by decide), Nat.zero_add, Nat.cast_one, one_mul]
  apply nearest_lower (by decide)
  · rwa [hn0]
  · left
    linarith

theorem number_infBits : number infBits = 2 ^ 1024 := by
  have hne : (2 : ℚ) ^ 1074 ≠ 0 := pow_ne_zero _ (by norm_num)
  have hsum : (2 : ℚ) ^ 53 * 2 ^ 2045 = 2 ^ 1074 * 2 ^ 1024 := by rw [← pow_add, ← pow_add]
  rw [number, units_infBits, unit, Nat.cast_mul, Nat.cast_pow, Nat.cast_pow, Nat.cast_ofNat, hsum,
    mul_comm, inv_mul_cancel_left₀ hne]

/-- From `2^1024` on the nearest double is infinity. -/
theorem nearest_inf (hx : 2 ^ 1024 ≤ x) : Nearest infBits x := by
  rw [← number_infBits] at hx
  have hdist : |number infBits - x| = x - number infBits := by
    rw [abs_sub_comm, abs_of_nonneg (by linarith)]
  have hother : ∀ c ≤ infBits, |number c - x| = x - number c := by
    intro c hc
    have hle := number_le hc
    rw [abs_sub_comm, abs_of_nonneg (by linarith)]
  refine ⟨Nat.le_refl _, fun c hc => ?_, fun _ _ _ _ => rfl⟩
  have hle := number_le hc
  rw [hdist, hother c hc]
  linarith

/-! ## Rounding a scaled number -/

/-- `y` rounds up from `n`: it is past the middle, or on it and `n` is odd. -/
def RoundsUp (n : Nat) (y : ℚ) : Prop := n + 1 / 2 < y ∨ y = n + 1 / 2 ∧ n % 2 = 1

instance (n : Nat) (y : ℚ) : Decidable (RoundsUp n y) :=
  inferInstanceAs (Decidable (_ ∨ _ ∧ _))

/-- The binades: a significand of 53 bits over an exponent, or the subnormals. -/
def IsSignificand (k n : Nat) : Prop := n < 2 ^ 53 ∧ (k = 0 ∨ 2 ^ 52 ≤ n)

theorem units_significand {n : Nat} (h : IsSignificand k n) :
    units (k * 2 ^ 52 + n) = n * 2 ^ k ∧ units (k * 2 ^ 52 + (n + 1)) = (n + 1) * 2 ^ k := by
  obtain ⟨hlt, hk⟩ := h
  rcases hk with rfl | hge
  · rw [Nat.zero_mul, Nat.zero_add, Nat.zero_add, Nat.pow_zero, Nat.mul_one, Nat.mul_one]
    exact ⟨units_low hlt.le, units_low hlt⟩
  · exact ⟨units_scaled hge hlt.le, units_scaled (by omega) hlt⟩

theorem nearest_rounded {n : Nat} (hn : IsSignificand k n) (hk : k ≤ 2045) {y : ℚ} (hlo : n ≤ y)
    (hhi : y < n + 1) :
    Nearest (k * 2 ^ 52 + if RoundsUp n y then n + 1 else n) (y * 2 ^ k * unit) := by
  obtain ⟨h1, h2⟩ := units_significand hn
  obtain ⟨h3, -⟩ := hn
  have hbits : k * 2 ^ 52 + n < infBits := by
    unfold infBits
    omega
  have hscale : (0 : ℚ) < 2 ^ k * unit := mul_pos (pow_pos (by norm_num) k) unit_pos
  have hn1 : number (k * 2 ^ 52 + n) = n * (2 ^ k * unit) := by
    rw [number, h1]
    push_cast
    ring
  have hn2 : number (k * 2 ^ 52 + n + 1) = (n + 1) * (2 ^ k * unit) := by
    rw [number, Nat.add_assoc, h2]
    push_cast
    ring
  have hx : y * 2 ^ k * unit = y * (2 ^ k * unit) := mul_assoc _ _ _
  have hpar : (k * 2 ^ 52 + n) % 2 = n % 2 ∧ (k * 2 ^ 52 + n + 1) % 2 = (n + 1) % 2 := by omega
  rw [hx]
  by_cases hcase : RoundsUp n y
  · rw [if_pos hcase, ← Nat.add_assoc]
    apply nearest_upper hbits
    · rw [hn2]
      exact mul_le_mul_of_nonneg_right hhi.le hscale.le
    · rw [hn1, hn2]
      rcases hcase with h | ⟨h, hodd⟩
      · left
        nlinarith
      · right
        rw [hpar.2, h]
        exact ⟨by ring, by omega⟩
  · rw [if_neg hcase]
    have hle : y ≤ n + 1 / 2 := not_lt.1 fun h => hcase (.inl h)
    apply nearest_lower hbits
    · rw [hn1]
      exact mul_le_mul_of_nonneg_right hlo hscale.le
    · rw [hn1, hn2]
      rcases lt_or_eq_of_le hle with h | h
      · left
        nlinarith
      · right
        refine ⟨by rw [h]; ring, ?_⟩
        by_contra heven
        exact hcase (.inr ⟨h, by omega⟩)

end DoubleBits

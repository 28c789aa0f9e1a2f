import Mathlib.Algebra.Order.Round
import Mathlib.Data.Int.Log
import Mathlib.Data.Rat.Floor
import Mathlib.Tactic.FieldSimp
import Mathlib.Tactic.Linarith
import Mathlib.Tactic.Positivity

/-!
# Doubles as the numbers they hold

A finite double is a multiple of a power of two with a 53-bit significand, the exponent no
lower than -1074.  `toDouble q` is the double nearest to `q`, ties to even, for `q` below
the overflow threshold.

    |halfEven y - y| ≤ 1 / 2                                        (abs_halfEven_sub_le)
    |toDouble q - q| ≤ |q| / 2 ^ 53 + 2 ^ -1075                   (abs_toDouble_sub_le)
-/

namespace Binary64

/-- The nearest integer, of two the even one. -/
def halfEven (y : ℚ) : ℤ :=
  if y - ⌊y⌋ < 1 / 2 then ⌊y⌋
  else if y - ⌊y⌋ > 1 / 2 then ⌊y⌋ + 1
  else if ⌊y⌋ % 2 = 0 then ⌊y⌋ else ⌊y⌋ + 1

/-- The exponent of the last bit of a significand. -/
def lastExp (q : ℚ) : ℤ := max (Int.log 2 |q| - 52) (-1074)

def toDouble (q : ℚ) : ℚ := halfEven (q / 2 ^ lastExp q) * 2 ^ lastExp q

/-- A number without its fraction, as a conversion to an integer takes it. -/
def truncate (q : ℚ) : ℤ := if q < 0 then -⌊-q⌋ else ⌊q⌋

theorem abs_halfEven_sub_le (y : ℚ) : |(halfEven y : ℚ) - y| ≤ 1 / 2 := by
  have hlo := Int.floor_le y
  have hhi := Int.lt_floor_add_one y
  unfold halfEven
  split_ifs with h1 h2 h3
  · rw [abs_le]
    constructor <;> linarith
  · rw [abs_le]
    push_cast
    constructor <;> linarith
  · rw [abs_le]
    constructor <;> linarith
  · rw [abs_le]
    push_cast
    constructor <;> linarith

theorem lastExp_bound {q : ℚ} (hq : q ≠ 0) : (2 : ℚ) ^ lastExp q / 2 ≤ |q| / 2 ^ 53 + 2 ^ (-1075 : ℤ) := by
  have hsub : (2 : ℚ) ^ (-1074 : ℤ) / 2 = 2 ^ (-1075 : ℤ) := by
    rw [show (-1074 : ℤ) = -1075 + 1 by decide, zpow_add_one₀ (by norm_num),
      mul_div_cancel_right₀ _ (by norm_num)]
  have hnonneg : 0 ≤ |q| / 2 ^ 53 := div_nonneg (abs_nonneg q) (by norm_num)
  have htiny : (0 : ℚ) < 2 ^ (-1075 : ℤ) := zpow_pos (by norm_num) _
  rcases le_total (Int.log 2 |q| - 52) (-1074) with hle | hle
  · rw [lastExp, max_eq_right hle, hsub]
    linarith
  · rw [lastExp, max_eq_left hle]
    have hpow := Int.zpow_log_le_self (b := 2) (by decide) (abs_pos.2 hq)
    rw [Nat.cast_ofNat] at hpow
    have hsplit : (2 : ℚ) ^ (Int.log 2 |q| - 52) / 2 = 2 ^ Int.log 2 |q| / 2 ^ 53 := by
      rw [zpow_sub₀ (by norm_num), div_div]
      norm_num
    linarith

@[simp] theorem toDouble_zero : toDouble 0 = 0 := by
  have hround : halfEven 0 = 0 := by
    simp [halfEven]
  rw [toDouble, zero_div, hround, Int.cast_zero, zero_mul]

/-- Rounding to a double is off by half a last bit at most. -/
theorem abs_toDouble_sub_le (q : ℚ) : |toDouble q - q| ≤ |q| / 2 ^ 53 + 2 ^ (-1075 : ℤ) := by
  by_cases hq : q = 0
  · rw [hq, toDouble_zero, sub_zero, abs_zero, zero_div, zero_add]
    exact (zpow_pos (by norm_num) _).le
  have hpos : (0 : ℚ) < 2 ^ lastExp q := zpow_pos (by norm_num) _
  have hfactor : toDouble q - q = ((halfEven (q / 2 ^ lastExp q) : ℚ) - q / 2 ^ lastExp q) *
      2 ^ lastExp q := by
    rw [toDouble, sub_mul, div_mul_cancel₀ q hpos.ne']
  have hhalf := abs_halfEven_sub_le (q / 2 ^ lastExp q)
  rw [hfactor, abs_mul, abs_of_pos hpos]
  calc |(halfEven (q / 2 ^ lastExp q) : ℚ) - q / 2 ^ lastExp q| * 2 ^ lastExp q
      ≤ 1 / 2 * 2 ^ lastExp q := mul_le_mul_of_nonneg_right hhalf hpos.le
    _ = 2 ^ lastExp q / 2 := by ring
    _ ≤ |q| / 2 ^ 53 + 2 ^ (-1075 : ℤ) := lastExp_bound hq

/-- The bound for a number of known size. -/
theorem abs_toDouble_sub_le_of_le {q A : ℚ} (hA : |q| ≤ A) :
    |toDouble q - q| ≤ A / 2 ^ 53 + 1 / 2 ^ 90 := by
  have hpow : (2 : ℚ) ^ (-1075 : ℤ) ≤ 2 ^ (-90 : ℤ) :=
    zpow_le_zpow_right₀ (by norm_num) (by decide)
  have hninety : (2 : ℚ) ^ (-90 : ℤ) = 1 / 2 ^ 90 := by
    norm_num
  have hdiv : |q| / 2 ^ 53 ≤ A / 2 ^ 53 := div_le_div_of_nonneg_right hA (by norm_num)
  exact (abs_toDouble_sub_le q).trans (add_le_add hdiv (hpow.trans_eq hninety))

/-! ## Exact arguments -/

@[simp] theorem halfEven_intCast (k : ℤ) : halfEven (k : ℚ) = k := by
  simp [halfEven]

/-- An integer of 53 bits is a double. -/
theorem toDouble_natCast {n : ℕ} (hn : n < 2 ^ 53) : toDouble (n : ℚ) = n := by
  rcases Nat.eq_zero_or_pos n with rfl | hpos
  · exact toDouble_zero
  have hlog : Int.log 2 |(n : ℚ)| = Nat.log 2 n := by
    rw [Nat.abs_cast, Int.log_natCast]
  have hbits : Nat.log 2 n < 53 := Nat.log_lt_of_lt_pow (by omega) hn
  obtain ⟨k, hk⟩ : ∃ k : ℕ, lastExp (n : ℚ) = -(k : ℤ) := by
    refine ⟨(-lastExp (n : ℚ)).toNat, ?_⟩
    have hle : lastExp (n : ℚ) ≤ 0 := by
      rw [lastExp, hlog]
      omega
    omega
  have hscaled : (n : ℚ) / 2 ^ lastExp (n : ℚ) = ((n * 2 ^ k : ℕ) : ℤ) := by
    rw [hk, zpow_neg, div_inv_eq_mul, zpow_natCast]
    push_cast
    rfl
  have hne : (2 : ℚ) ^ lastExp (n : ℚ) ≠ 0 := (zpow_pos (by norm_num) _).ne'
  rw [toDouble, hscaled, halfEven_intCast, ← hscaled, div_mul_cancel₀ _ hne]

/-! ## Products and truncation -/

/-- How far a product moves with its factors. -/
theorem abs_mul_sub_le {a b a' b' α β A B : ℚ} (ha : |a' - a| ≤ α) (hb : |b' - b| ≤ β)
    (hA : |a| ≤ A) (hB : |b| ≤ B) : |a' * b' - a * b| ≤ A * β + B * α + α * β := by
  have hα : 0 ≤ α := (abs_nonneg _).trans ha
  have hsplit : a' * b' - a * b = a * (b' - b) + b * (a' - a) + (a' - a) * (b' - b) := by ring
  rw [hsplit]
  calc |a * (b' - b) + b * (a' - a) + (a' - a) * (b' - b)|
      ≤ |a * (b' - b)| + |b * (a' - a)| + |(a' - a) * (b' - b)| := abs_add_three _ _ _
    _ = |a| * |b' - b| + |b| * |a' - a| + |a' - a| * |b' - b| := by rw [abs_mul, abs_mul, abs_mul]
    _ ≤ A * β + B * α + α * β := by
      have h1 := mul_le_mul hA hb (abs_nonneg _) ((abs_nonneg _).trans hA)
      have h2 := mul_le_mul hB ha (abs_nonneg _) ((abs_nonneg _).trans hB)
      have h3 := mul_le_mul ha hb (abs_nonneg _) hα
      linarith

/-- Truncating an estimate a little below `n + f`, the fraction `f` below one: `n`, or one
less where the fraction is small. -/
theorem truncate_estimate {z f δ : ℚ} {n : ℕ} (hf0 : 0 ≤ f) (hf1 : f < 1) (hδ : δ ≤ 1)
    (hlo : n + f - δ < z) (hhi : z < n + f) :
    truncate z = n ∨ (1 ≤ n ∧ truncate z = n - 1 ∧ f < δ) := by
  unfold truncate
  by_cases hz : z < 0
  · have hn : n = 0 := by
      by_contra h0
      have h1 : (1 : ℚ) ≤ n := by exact_mod_cast Nat.one_le_iff_ne_zero.2 h0
      linarith
    have hfloor : ⌊-z⌋ = 0 := by
      rw [Int.floor_eq_iff]
      constructor
      · push_cast
        linarith
      · push_cast
        linarith
    rw [if_pos hz, hfloor, hn]
    exact Or.inl rfl
  · rw [if_neg hz]
    by_cases hge : (n : ℚ) ≤ z
    · left
      rw [Int.floor_eq_iff]
      constructor
      · exact_mod_cast hge
      · push_cast
        linarith
    · right
      have hlt : z < n := not_le.1 hge
      have hpos : 1 ≤ n := by
        rcases Nat.eq_zero_or_pos n with h0 | h0
        · rw [h0, Nat.cast_zero] at hlt
          exact absurd hlt hz
        · exact h0
      refine ⟨hpos, ?_, by linarith⟩
      rw [Int.floor_eq_iff]
      push_cast
      constructor <;> linarith

end Binary64

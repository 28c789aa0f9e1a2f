import Mathlib.Order.Bounds.Basic
import Mathlib.Algebra.Order.Ring.Int
import Mathlib.Tactic.Common

/-!
# The multiples around a number

The multiples of `k` just below, just above and nearest to `x`, each some units over the floor.

    x / k * k is the greatest multiple of k not above x                        (isGreatest_floor)
    (x / k + ceilStep k x) * k is the least one not below x                      (isLeast_ceil)
    (x / k + roundStep k x) * k is the nearest, of two the one away from zero    (nearest_round)
-/

namespace Multiples

variable {k : Int}

def ceilStep (k x : Int) : Int := if 0 < x % k then 1 else 0

def roundStep (k x : Int) : Int :=
  if x < 0 then if k < x % k * 2 then 1 else 0
  else if k ≤ x % k * 2 then 1 else 0

/-- Nearest of the multiples of `k`; of two equally near the one further from zero. -/
structure Nearest (k x m : Int) : Prop where
  dvd : k ∣ m
  near : ∀ n, k ∣ n →
    (x - m).natAbs < (x - n).natAbs ∨ (x - m).natAbs = (x - n).natAbs ∧ n.natAbs ≤ m.natAbs

theorem floor_add_rem (k x : Int) : x / k * k + x % k = x := Int.ediv_mul_add_emod x k

/-- A multiple is at most the floor or at least one unit over it. -/
theorem multiple_cases (hk : 0 < k) (x : Int) {n : Int} (hn : k ∣ n) :
    n ≤ x / k * k ∨ x / k * k + k ≤ n := by
  obtain ⟨c, rfl⟩ := hn
  rw [Int.mul_comm k c]
  rcases Int.lt_or_le (x / k) c with h | h
  · right
    have hmul := Int.mul_le_mul_of_nonneg_right (Int.add_one_le_of_lt h) hk.le
    rw [Int.add_mul] at hmul
    omega
  · left
    exact Int.mul_le_mul_of_nonneg_right h hk.le

theorem isGreatest_floor (hk : 0 < k) (x : Int) :
    IsGreatest {m | k ∣ m ∧ m ≤ x} (x / k * k) := by
  have hfloor := floor_add_rem k x
  have hlo := Int.emod_nonneg x hk.ne'
  have hhi := Int.emod_lt_of_pos x hk
  constructor
  · exact ⟨Int.dvd_mul_left _ _, by omega⟩
  · rintro n ⟨hn, hle⟩
    rcases multiple_cases hk x hn with h | h
    · exact h
    · omega

theorem isLeast_ceil (hk : 0 < k) (x : Int) :
    IsLeast {m | k ∣ m ∧ x ≤ m} ((x / k + ceilStep k x) * k) := by
  have hfloor := floor_add_rem k x
  have hlo := Int.emod_nonneg x hk.ne'
  have hhi := Int.emod_lt_of_pos x hk
  have hmul := Int.add_mul (x / k) (ceilStep k x) k
  have hstep : ceilStep k x * k = if 0 < x % k then k else 0 := by
    unfold ceilStep
    split <;> simp
  constructor
  · refine ⟨Int.dvd_mul_left _ _, ?_⟩
    split_ifs at hstep <;> omega
  · rintro n ⟨hn, hle⟩
    rcases multiple_cases hk x hn with h | h <;> split_ifs at hstep <;> omega

theorem nearest_round (hk : 0 < k) (x : Int) : Nearest k x ((x / k + roundStep k x) * k) := by
  have hfloor := floor_add_rem k x
  have hlo := Int.emod_nonneg x hk.ne'
  have hhi := Int.emod_lt_of_pos x hk
  have hmul := Int.add_mul (x / k) (roundStep k x) k
  refine ⟨Int.dvd_mul_left _ _, ?_⟩
  intro n hn
  have hcases := multiple_cases hk x hn
  by_cases hx : x < 0
  · -- below zero the floor is the multiple further from zero
    have hstep : roundStep k x * k = if k < x % k * 2 then k else 0 := by
      rw [roundStep, if_pos hx]
      split <;> simp
    split_ifs at hstep <;> omega
  · have hpos : 0 ≤ x / k * k := by
      rcases multiple_cases hk x (Int.dvd_zero k) with h | h
      · omega
      · omega
    have hstep : roundStep k x * k = if k ≤ x % k * 2 then k else 0 := by
      rw [roundStep, if_neg hx]
      split <;> simp
    split_ifs at hstep <;> omega

theorem Nearest.unique {x m n : Int} (hm : Nearest k x m) (hn : Nearest k x n) : m = n := by
  have h1 := hm.near n hn.dvd
  have h2 := hn.near m hm.dvd
  have h0 := hm.near 0 (Int.dvd_zero k)
  omega

end Multiples

import Mathlib.FieldTheory.Finite.Basic
import Mathlib.Tactic.Ring

/-!
# Residues modulo a square

Modulo the square of `N` the numbers `1 + m N` multiply as their `m` add, and the `N`-th power of
a unit has an order that divides `totient N`.  A number of the form `(1 + m N) r ^ N` so holds `m`
modulo `N`, and what it holds follows products and powers:

    Holds N c m → Holds N d k → Holds N (c * d) (m + k)              (Holds.mul)
    Holds N c m → Holds N (c ^ k) (k * m)                            (Holds.pow)
    Holds N c m → c ^ φ N % (N * N) = 1 + φ N * m % N * N            (Holds.opened)
-/

namespace Residues

open Nat

variable {N c d m k : Nat}

theorem one_add_mul_pow (N m k : Nat) : (1 + m * N) ^ k ≡ 1 + k * m * N [MOD N * N] := by
  induction k with
  | zero => simp [Nat.ModEq]
  | succ k ih =>
    have hstep : (1 + k * m * N) * (1 + m * N) = 1 + (k + 1) * m * N + N * N * (k * m * m) := by
      ring
    calc (1 + m * N) ^ (k + 1) = (1 + m * N) ^ k * (1 + m * N) := pow_succ _ _
      _ ≡ (1 + k * m * N) * (1 + m * N) [MOD N * N] := ih.mul_right _
      _ ≡ 1 + (k + 1) * m * N [MOD N * N] := by
        rw [hstep, Nat.ModEq, Nat.add_mul_mod_self_left]

theorem totient_mul_self (hN : 0 < N) : φ (N * N) = N * φ N := by
  have h := Nat.totient_gcd_mul_totient_mul N N
  rw [Nat.gcd_self, Nat.mul_assoc] at h
  rw [Nat.eq_of_mul_eq_mul_left (Nat.totient_pos.2 hN) h, Nat.mul_comm]

theorem pow_pow_totient {r : Nat} (hN : 0 < N) (hr : Nat.Coprime r N) :
    (r ^ N) ^ φ N ≡ 1 [MOD N * N] := by
  rw [← pow_mul, ← totient_mul_self hN]
  exact Nat.ModEq.pow_totient (Nat.Coprime.mul_right hr hr)

/-- The number `c` holds `m`, behind the `N`-th power of some unit. -/
def Holds (N c m : Nat) : Prop := ∃ r, Nat.Coprime r N ∧ c ≡ (1 + m * N) * r ^ N [MOD N * N]

theorem Holds.congr (h : Holds N c m) (hd : d ≡ c [MOD N * N]) : Holds N d m := by
  obtain ⟨r, hr, hc⟩ := h
  exact ⟨r, hr, hd.trans hc⟩

theorem Holds.mul (h : Holds N c m) (h' : Holds N d k) : Holds N (c * d) (m + k) := by
  obtain ⟨r, hr, hc⟩ := h
  obtain ⟨s, hs, hd⟩ := h'
  refine ⟨r * s, Nat.Coprime.mul_left hr hs, (hc.mul hd).trans ?_⟩
  have hprod : (1 + m * N) * r ^ N * ((1 + k * N) * s ^ N) =
      (1 + (m + k) * N) * (r * s) ^ N + N * N * (m * k * (r * s) ^ N) := by
    rw [mul_pow]
    ring
  rw [hprod, Nat.ModEq, Nat.add_mul_mod_self_left]

theorem Holds.pow (h : Holds N c m) (k : Nat) : Holds N (c ^ k) (k * m) := by
  obtain ⟨r, hr, hc⟩ := h
  refine ⟨r ^ k, Nat.Coprime.pow_left k hr, (hc.pow k).trans ?_⟩
  rw [mul_pow, ← pow_mul, ← pow_mul, Nat.mul_comm N k]
  exact (one_add_mul_pow N m k).mul_right _

/-- The power that cancels the unit leaves a multiple of what is held. -/
theorem Holds.opened (h : Holds N c m) (hN : 1 < N) :
    c ^ φ N % (N * N) = 1 + φ N * m % N * N := by
  obtain ⟨r, hr, hc⟩ := h
  have hpow : c ^ φ N ≡ 1 + φ N * m * N [MOD N * N] := by
    calc c ^ φ N ≡ ((1 + m * N) * r ^ N) ^ φ N [MOD N * N] := hc.pow _
      _ = (1 + m * N) ^ φ N * (r ^ N) ^ φ N := mul_pow _ _ _
      _ ≡ (1 + φ N * m * N) * 1 [MOD N * N] :=
        (one_add_mul_pow N m _).mul (pow_pow_totient (by omega) hr)
      _ = 1 + φ N * m * N := mul_one _
  have hlow : φ N * m % N * N + N ≤ N * N := by
    rw [← Nat.succ_mul]
    exact Nat.mul_le_mul_right N (Nat.mod_lt _ (by omega))
  have hsplit : φ N * m * N = φ N * m % N * N + N * N * (φ N * m / N) := by
    conv_lhs => rw [← Nat.mod_add_div (φ N * m) N]
    ring
  rw [hpow, hsplit, ← Nat.add_assoc, Nat.add_mul_mod_self_left, Nat.mod_eq_of_lt (by omega)]

end Residues

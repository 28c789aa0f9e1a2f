import Mathlib.FieldTheory.Finite.Basic
import Mathlib.Data.Nat.ModEq

/-!
# Strong probable primes

The test of `n` to the base `a`, with `n - 1 = 2 ^ s * d`: the power `a ^ d` is one or minus
one modulo `n`, or one of the `s - 1` squares after it is minus one.

    squares n x left           the squarings, stopped at one or minus one
    strong n d s a             the whole test of one base
    n prime, n ∤ a, n - 1 = 2 ^ s * d, 0 < s → strong n d s a     (strong_of_prime)
-/

namespace StrongPrime

/-- At most `left` squares of `x` modulo `n`: whether one of them is minus one. -/
def squares (n : Nat) : Nat → Nat → Bool
  | 0, _ => false
  | left + 1, x =>
    let y := x * x % n
    if y = n - 1 then true else if y = 1 then false else squares n left y

def strong (n d s a : Nat) : Bool :=
  let x := a ^ d % n
  if x = 1 ∨ x = n - 1 then true else squares n (s - 1) x

variable {n : Nat} [hn : Fact n.Prime]

theorem cast_eq_one {x : Nat} (hx : x < n) (h : (x : ZMod n) = 1) : x = 1 := by
  have h1 : 1 < n := hn.out.one_lt
  rw [← Nat.cast_one, ZMod.natCast_eq_natCast_iff, Nat.ModEq, Nat.mod_eq_of_lt hx,
    Nat.mod_eq_of_lt h1] at h
  exact h

theorem cast_eq_neg_one {x : Nat} (hx : x < n) (h : (x : ZMod n) = -1) : x = n - 1 := by
  have hsucc : ((x + 1 : Nat) : ZMod n) = 0 := by rw [Nat.cast_add, h, Nat.cast_one, neg_add_cancel]
  rw [ZMod.natCast_eq_zero_iff] at hsucc
  have := Nat.le_of_dvd (by omega) hsucc
  omega

/-- Modulo a prime only one and minus one square to one. -/
theorem square_eq_one {x : Nat} (hx : x < n) (h : (x : ZMod n) ^ 2 = 1) : x = 1 ∨ x = n - 1 := by
  rcases sq_eq_one_iff.1 h with h | h
  · exact Or.inl (cast_eq_one hx h)
  · exact Or.inr (cast_eq_neg_one hx h)

theorem squares_of_pow : ∀ left x, x < n → x ≠ 1 → x ≠ n - 1 →
    (x : ZMod n) ^ 2 ^ (left + 1) = 1 → squares n left x = true := by
  intro left
  induction left with
  | zero =>
    intro x hx h1 hm h
    rcases square_eq_one hx h with h | h
    · exact absurd h h1
    · exact absurd h hm
  | succ left ih =>
    intro x hx h1 hm h
    have hy : x * x % n < n := Nat.mod_lt _ hn.out.pos
    have hcast : ((x * x % n : Nat) : ZMod n) = (x : ZMod n) ^ 2 := by
      rw [ZMod.natCast_mod, Nat.cast_mul, pow_two]
    rw [squares]
    by_cases hym : x * x % n = n - 1
    · rw [if_pos hym]
    · have hy1 : x * x % n ≠ 1 := by
        intro hone
        rw [hone, Nat.cast_one] at hcast
        rcases square_eq_one hx hcast.symm with h | h
        · exact h1 h
        · exact hm h
      rw [if_neg hym, if_neg hy1]
      refine ih _ hy hy1 hym ?_
      rw [hcast, ← pow_mul, ← Nat.pow_succ']
      exact h

/-- The test accepts every prime, to every base it does not divide. -/
theorem strong_of_prime {a d s : Nat} (ha : ¬ n ∣ a) (hs : 0 < s) (hd : n - 1 = 2 ^ s * d) :
    strong n d s a = true := by
  have ha0 : (a : ZMod n) ≠ 0 := by rwa [Ne, ZMod.natCast_eq_zero_iff]
  have hcast : ((a ^ d % n : Nat) : ZMod n) = (a : ZMod n) ^ d := by
    rw [ZMod.natCast_mod, Nat.cast_pow]
  unfold strong
  by_cases hx : a ^ d % n = 1 ∨ a ^ d % n = n - 1
  · rw [if_pos hx]
  · rw [if_neg hx]
    refine squares_of_pow _ _ (Nat.mod_lt _ hn.out.pos) (fun h => hx (Or.inl h))
      (fun h => hx (Or.inr h)) ?_
    rw [hcast, ← pow_mul, show s - 1 + 1 = s by omega, Nat.mul_comm, ← hd]
    exact ZMod.pow_card_sub_one_eq_one ha0

end StrongPrime

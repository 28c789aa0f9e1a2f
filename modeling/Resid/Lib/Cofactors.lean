import Mathlib.Data.Nat.ModEq
import Mathlib.Data.Int.ModEq
import Mathlib.Tactic.Ring

/-!
# Cofactors of a greatest common divisor

Both extended greatest common divisor algorithms keep, beside each remainder `u`, a
cofactor `x < m` with `x * a ≡ u (mod m)`.  Once a remainder is one, its cofactor is the
inverse of `a`.

    x * a ≡ u, u even, m odd → halfMod m x * a ≡ u / 2              (Carries.half)
    x * a ≡ u, y * a ≡ v, v ≤ u → subMod m x y * a ≡ u - v          (Carries.sub)
    y * a ≡ v → (q * y % m) * a ≡ q * v                             (Carries.scale)
    x * a ≡ 1, 1 < m → a * x % m = 1                                (Carries.inverse)
-/

namespace Cofactors

/-- The half of `x` modulo an odd `m`. -/
def halfMod (m x : Nat) : Nat := if x % 2 = 0 then x / 2 else (x + m) / 2

/-- The difference of two residues modulo `m`. -/
def subMod (m x y : Nat) : Nat := if y ≤ x then x - y else x + m - y

/-- The residue `x` times `a` is `u` modulo `m`. -/
structure Carries (m a u x : Nat) : Prop where
  lt : x < m
  eq : x * a ≡ u [MOD m]

variable {m a u v x y : Nat}

theorem halfMod_lt (hx : x < m) : halfMod m x < m := by
  unfold halfMod
  split <;> omega

theorem two_mul_halfMod (hm : m % 2 = 1) : 2 * halfMod m x ≡ x [MOD m] := by
  unfold halfMod
  split
  · have h : 2 * (x / 2) = x := by omega
    rw [h]
  · have h : 2 * ((x + m) / 2) = x + m := by omega
    rw [h]
    exact Nat.add_mod_right x m

theorem subMod_lt (hx : x < m) (hy : y < m) : subMod m x y < m := by
  unfold subMod
  split <;> omega

theorem subMod_add (hy : y < m) : subMod m x y + y ≡ x [MOD m] := by
  unfold subMod
  split
  · have h : x - y + y = x := by omega
    rw [h]
  · have h : x + m - y + y = x + m := by omega
    rw [h]
    exact Nat.add_mod_right x m

/-- Two is invertible modulo an odd number. -/
theorem Carries.half (h : Carries m a u x) (hm : m % 2 = 1) (hu : u % 2 = 0) :
    Carries m a (u / 2) (halfMod m x) := by
  refine ⟨halfMod_lt h.lt, ?_⟩
  have hcop : Nat.gcd m 2 = 1 := by
    rw [Nat.gcd_comm, Nat.gcd_rec, hm, Nat.gcd_one_left]
  refine Nat.ModEq.cancel_left_of_coprime hcop ?_
  calc 2 * (halfMod m x * a) = 2 * halfMod m x * a := (Nat.mul_assoc _ _ _).symm
    _ ≡ x * a [MOD m] := (two_mul_halfMod hm).mul_right a
    _ ≡ u [MOD m] := h.eq
    _ = 2 * (u / 2) := by omega

theorem Carries.sub (hx : Carries m a u x) (hy : Carries m a v y) (hle : v ≤ u) :
    Carries m a (u - v) (subMod m x y) := by
  refine ⟨subMod_lt hx.lt hy.lt, Nat.ModEq.add_right_cancel hy.eq ?_⟩
  calc subMod m x y * a + y * a = (subMod m x y + y) * a := (Nat.add_mul _ _ _).symm
    _ ≡ x * a [MOD m] := (subMod_add hy.lt).mul_right a
    _ ≡ u [MOD m] := hx.eq
    _ = u - v + v := by omega

theorem Carries.scale (hy : Carries m a v y) (q : Nat) : Carries m a (q * v) (q * y % m) := by
  refine ⟨Nat.mod_lt _ (Nat.zero_lt_of_lt hy.lt), ?_⟩
  calc q * y % m * a ≡ q * y * a [MOD m] := (Nat.mod_modEq _ _).mul_right a
    _ = q * (y * a) := Nat.mul_assoc _ _ _
    _ ≡ q * v [MOD m] := hy.eq.mul_left q

theorem Carries.inverse (h : Carries m a 1 x) (hm : 1 < m) : a * x % m = 1 := by
  rw [Nat.mul_comm, h.eq, Nat.mod_eq_of_lt hm]

/-- The cofactor of one is not zero. -/
theorem Carries.ne_zero (h : Carries m a 1 x) (hm : 1 < m) : x ≠ 0 := by
  rintro rfl
  have := h.inverse hm
  rw [Nat.mul_zero, Nat.zero_mod] at this
  omega

/-- A step of Euclid's algorithm on the cofactors. -/
theorem Carries.euclid {r₀ r₁ t₀ t₁ : Nat} (h₀ : Carries m a r₀ t₀) (h₁ : Carries m a r₁ t₁) :
    Carries m a (r₀ % r₁) (subMod m t₀ (r₀ / r₁ * t₁ % m)) := by
  have hle : r₀ / r₁ * r₁ ≤ r₀ := Nat.div_mul_le_self r₀ r₁
  have hmod : r₀ % r₁ = r₀ - r₀ / r₁ * r₁ := by
    rw [Nat.mul_comm]
    exact Nat.mod_eq_sub r₀ r₁
  rw [hmod]
  exact h₀.sub (h₁.scale (r₀ / r₁)) hle

/-! ## The binary algorithm -/

theorem gcd_half_left (hu : u % 2 = 0) (hv : v % 2 = 1) : Nat.gcd (u / 2) v = Nat.gcd u v := by
  have hcop : Nat.Coprime v 2 := by
    rw [Nat.coprime_iff_gcd_eq_one, Nat.gcd_comm, Nat.gcd_rec, hv, Nat.gcd_one_left]
  obtain ⟨w, rfl⟩ := Nat.dvd_of_mod_eq_zero hu
  rw [Nat.mul_div_cancel_left w (by decide), hcop.symm.gcd_mul_left_cancel w]

theorem gcd_half_right (hu : u % 2 = 1) (hv : v % 2 = 0) : Nat.gcd u (v / 2) = Nat.gcd u v := by
  rw [Nat.gcd_comm, gcd_half_left hv hu, Nat.gcd_comm]

theorem gcd_sub_left (hle : v ≤ u) : Nat.gcd (u - v) v = Nat.gcd u v := by
  conv_rhs => rw [← Nat.sub_add_cancel hle, Nat.gcd_add_self_left]

/-- The state of the binary algorithm: two remainders, not both even, and their cofactors.
The left one reaches zero only beside a right one that is not one. -/
structure Binary (m a u v x y : Nat) : Prop where
  left : Carries m a u x
  right : Carries m a v y
  gcd : Nat.gcd u v = Nat.gcd a m
  odd : u % 2 = 1 ∨ v % 2 = 1
  pos : 0 < v
  zero : u = 0 → v ≠ 1

namespace Binary

variable (h : Binary m a u v x y)

include h

theorem halveLeft (hm : m % 2 = 1) (hu : u % 2 = 0) (h0 : u ≠ 0) :
    Binary m a (u / 2) v (halfMod m x) y := by
  have hv : v % 2 = 1 := h.odd.resolve_left (by omega)
  exact ⟨h.left.half hm hu, h.right, (gcd_half_left hu hv).trans h.gcd, Or.inr hv, h.pos,
    fun h2 => by omega⟩

theorem halveRight (hm : m % 2 = 1) (hu : u % 2 = 1) (hv : v % 2 = 0) :
    Binary m a u (v / 2) x (halfMod m y) := by
  have hpos := h.pos
  exact ⟨h.left, h.right.half hm hv, (gcd_half_right hu hv).trans h.gcd, Or.inl hu, by omega,
    fun h0 => by omega⟩

theorem subLeft (hv : v % 2 = 1) (hle : v ≤ u) (h1 : v ≠ 1) :
    Binary m a (u - v) v (subMod m x y) y :=
  ⟨h.left.sub h.right hle, h.right, (gcd_sub_left hle).trans h.gcd, Or.inr hv, h.pos,
    fun _ => h1⟩

theorem subRight (hu : u % 2 = 1) (hlt : u < v) : Binary m a u (v - u) x (subMod m y x) := by
  refine ⟨h.left, h.right.sub h.left (Nat.le_of_lt hlt), ?_, Or.inl hu, by omega,
    fun h0 => by omega⟩
  rw [Nat.gcd_comm, gcd_sub_left (Nat.le_of_lt hlt), Nat.gcd_comm, h.gcd]

/-- With the left remainder zero the greatest common divisor is the right one. -/
theorem not_coprime_of_zero (h0 : u = 0) : Nat.gcd a m ≠ 1 := by
  rw [← h.gcd, h0, Nat.gcd_zero_left]
  exact h.zero h0

theorem coprime_of_left (h1 : u = 1) : Nat.gcd a m = 1 := by
  rw [← h.gcd, h1, Nat.gcd_one_left]

theorem coprime_of_right (h1 : v = 1) : Nat.gcd a m = 1 := by
  rw [← h.gcd, h1, Nat.gcd_one_right]

end Binary

end Cofactors

import Mathlib.Algebra.Group.Nat.Even
import Mathlib.Data.Int.ModEq
import Mathlib.Data.Nat.ModEq
import Mathlib.Tactic.LinearCombination
import Mathlib.Tactic.Ring

/-!
# Modular powers and Montgomery products

Square-and-multiply over any monoid whose elements are represented by words, the
Montgomery reduction modulo an odd `n` with respect to `R`, and the Newton iteration
for the inverse of `n` modulo a power of two.

    Rep acc (g ^ (e / 2 ^ i)) → powLoop ... i acc represents g ^ e       (powLoop_rep)
    R ∣ n * ninv + 1 → t < n * R → reduce answers t / R modulo n         (redc_isReduced)
    2 ^ b ∣ n x - 1 → 2 ^ (2 b) ∣ n x' - 1 for the next x'               (newtonNext_dvd)
    a Montgomery product carries x to x R and products to products       (powLoop_montgomery)
-/

namespace Montgomery

/-! ## Square and multiply -/

section PowLoop

variable {α : Type} (mul : α → α → Option α) (bit : Nat → Option Nat) (base : α)

/-- Left-to-right square-and-multiply over the `i` lowest bits of the exponent. -/
def powLoop : Nat → α → Option α
  | 0, acc => some acc
  | i + 1, acc => do
    let sq ← mul acc acc
    let b ← bit i
    let nx ← (if b = 1 then mul sq base else some sq)
    powLoop i nx

variable {M : Type} [Monoid M] (Rep : α → M → Prop) {g : M} {e : Nat}

/-- From a representative of the power by the high bits to one of the whole power. -/
theorem powLoop_rep
    (hmul : ∀ a b x y, Rep a x → Rep b y → ∃ c, mul a b = some c ∧ Rep c (x * y))
    (hbit : ∀ i, bit i = some (e / 2 ^ i % 2)) (hbase : Rep base g) :
    ∀ i acc, Rep acc (g ^ (e / 2 ^ i)) → ∃ c, powLoop mul bit base i acc = some c ∧ Rep c (g ^ e) := by
  intro i
  induction i with
  | zero =>
    intro acc h
    rw [pow_zero, Nat.div_one] at h
    exact ⟨acc, rfl, h⟩
  | succ i ih =>
    intro acc h
    obtain ⟨sq, hsq, hsqr⟩ := hmul acc acc _ _ h h
    have hhalf : e / 2 ^ (i + 1) = e / 2 ^ i / 2 := by
      rw [pow_succ, Nat.div_div_eq_div_mul]
    rw [← pow_add, ← Nat.two_mul, hhalf] at hsqr
    by_cases hb : e / 2 ^ i % 2 = 1
    · -- the bit is set: one more factor
      obtain ⟨nx, hnx, hnxr⟩ := hmul sq base _ _ hsqr hbase
      rw [← pow_succ, show 2 * (e / 2 ^ i / 2) + 1 = e / 2 ^ i by omega] at hnxr
      obtain ⟨c, hc, hcr⟩ := ih nx hnxr
      refine ⟨c, ?_, hcr⟩
      rw [powLoop, hsq, hbit, Option.bind_eq_bind, Option.bind_some, Option.bind_eq_bind,
        Option.bind_some, if_pos hb, hnx, Option.bind_some, hc]
    · rw [show 2 * (e / 2 ^ i / 2) = e / 2 ^ i by omega] at hsqr
      obtain ⟨c, hc, hcr⟩ := ih sq hsqr
      refine ⟨c, ?_, hcr⟩
      rw [powLoop, hsq, hbit, Option.bind_eq_bind, Option.bind_some, Option.bind_eq_bind,
        Option.bind_some, if_neg hb, Option.bind_some, hc]

end PowLoop

/-! ## Reduction -/

/-- `u` is `t / R` modulo `n`. -/
def IsReduced (n R t u : Nat) : Prop := u < n ∧ u * R ≡ t [MOD n]

/-- The multiple of `n` that clears the low part of `t`. -/
def redcFactor (R ninv t : Nat) : Nat := t % R * ninv % R

/-- A value below `2 n` brought below `n`. -/
def condSub (n u : Nat) : Nat := if u ≥ n then u - n else u

theorem condSub_lt {n u : Nat} (h : u < 2 * n) : condSub n u < n := by
  unfold condSub
  split <;> omega

theorem condSub_modEq (n u : Nat) : condSub n u ≡ u [MOD n] := by
  unfold condSub
  split
  · rename_i h
    have : u - n + n ≡ u - n [MOD n] := Nat.add_modEq_right
    rw [Nat.sub_add_cancel h] at this
    exact this.symm
  · rfl

section Redc

variable {n R ninv t : Nat} (hinv : R ∣ n * ninv + 1)

include hinv

theorem redcFactor_dvd : R ∣ t + redcFactor R ninv t * n := by
  have h1 : redcFactor R ninv t * n ≡ t * ninv * n [MOD R] := by
    refine Nat.ModEq.mul_right n ?_
    exact (Nat.mod_modEq _ R).trans (Nat.ModEq.mul_right ninv (Nat.mod_modEq t R))
  have h2 : t + t * ninv * n ≡ 0 [MOD R] := by
    have : t + t * ninv * n = t * (n * ninv + 1) := by ring
    rw [this]
    exact Nat.modEq_zero_iff_dvd.2 (Dvd.dvd.mul_left hinv t)
  exact Nat.modEq_zero_iff_dvd.1 ((h1.add_left t).trans h2)

theorem redc_mul : (t + redcFactor R ninv t * n) / R * R = t + redcFactor R ninv t * n :=
  Nat.div_mul_cancel (redcFactor_dvd hinv)

omit hinv in
theorem redc_sum_lt (ninv : Nat) (hR : 0 < R) (hn : 0 < n) (ht : t < n * R) :
    t + redcFactor R ninv t * n < 2 * n * R := by
  have hm : redcFactor R ninv t < R := Nat.mod_lt _ hR
  have : redcFactor R ninv t * n < R * n := Nat.mul_lt_mul_of_pos_right hm hn
  rw [Nat.mul_comm R n] at this
  rw [Nat.mul_assoc, Nat.two_mul]
  omega

omit hinv in
theorem redc_lt (hR : 0 < R) (hn : 0 < n) (ht : t < n * R) :
    (t + redcFactor R ninv t * n) / R < 2 * n := by
  rw [Nat.div_lt_iff_lt_mul hR]
  exact redc_sum_lt ninv hR hn ht

theorem redc_isReduced (hR : 0 < R) (hn : 0 < n) (ht : t < n * R) :
    IsReduced n R t (condSub n ((t + redcFactor R ninv t * n) / R)) := by
  refine ⟨condSub_lt (redc_lt hR hn ht), ?_⟩
  have h := (condSub_modEq n ((t + redcFactor R ninv t * n) / R)).mul_right R
  rw [redc_mul hinv] at h
  refine h.trans ?_
  have : t + redcFactor R ninv t * n ≡ t + 0 [MOD n] :=
    Nat.ModEq.add_left t (Nat.modEq_zero_iff_dvd.2 (Dvd.intro_left _ rfl))
  rwa [Nat.add_zero] at this

end Redc

/-! ## Montgomery form -/

/-- The residue `a` stands for `x`: it is `x R` modulo `n`. -/
def Mont (n R a x : Nat) : Prop := a < n ∧ a ≡ x * R [MOD n]

theorem coprime_two_pow {n : Nat} (w : Nat) (hodd : n % 2 = 1) : Nat.gcd n (2 ^ w) = 1 := by
  refine Nat.Coprime.pow_right w ?_
  rw [Nat.Coprime, Nat.gcd_comm, Nat.gcd_rec, hodd, Nat.gcd_one_left]

variable {n R : Nat}

theorem mont_of_isReduced {a b c x y : Nat} (hgcd : Nat.gcd n R = 1)
    (h : IsReduced n R (a * b) c) (ha : Mont n R a x) (hb : Mont n R b y) :
    Mont n R c (x * y) := by
  refine ⟨h.1, ?_⟩
  have hprod : c * R ≡ x * y * R * R [MOD n] := by
    refine h.2.trans ((ha.2.mul hb.2).trans ?_)
    rw [show x * R * (y * R) = x * y * R * R by ring]
  exact Nat.ModEq.cancel_right_of_coprime hgcd hprod

/-- Multiplying by `R ^ 2` enters Montgomery form. -/
theorem mont_enter {b c r2 : Nat} (hgcd : Nat.gcd n R = 1) (hr2 : r2 ≡ R * R [MOD n])
    (h : IsReduced n R (b * r2) c) : Mont n R c b := by
  refine ⟨h.1, ?_⟩
  have hprod : c * R ≡ b * R * R [MOD n] := by
    refine h.2.trans ((Nat.ModEq.mul_left b hr2).trans ?_)
    rw [Nat.mul_assoc]
  exact Nat.ModEq.cancel_right_of_coprime hgcd hprod

/-- One more reduction leaves it. -/
theorem mont_leave {a c x : Nat} (hgcd : Nat.gcd n R = 1) (ha : Mont n R a x)
    (h : IsReduced n R a c) : c = x % n := by
  have : c ≡ x [MOD n] := Nat.ModEq.cancel_right_of_coprime hgcd (h.2.trans ha.2)
  rw [← Nat.mod_eq_of_lt h.1]
  exact this

theorem mont_one {r : Nat} (hlt : r < n) (hr : r ≡ R [MOD n]) : Mont n R r 1 :=
  ⟨hlt, by rwa [Nat.one_mul]⟩

section Words

variable {mm : Nat → Nat → Option Nat}

/-- `mm` is a Montgomery product modulo `n`. -/
def IsMontMul (n R : Nat) (mm : Nat → Nat → Option Nat) : Prop :=
  ∀ a b, a < n → b < n → ∃ c, mm a b = some c ∧ IsReduced n R (a * b) c

/-- A whole exponentiation on words: enter Montgomery form, power, leave it. -/
theorem powLoop_montgomery (hn : 1 < n) (hgcd : Nat.gcd n R = 1) (hmm : IsMontMul n R mm)
    (bit : Nat → Option Nat) {b : Nat} (e r1 r2 size : Nat) (hb : b < n)
    (hbit : ∀ i, bit i = some (e / 2 ^ i % 2)) (hsize : e < 2 ^ size)
    (hr1 : r1 = R % n) (hr2 : r2 = R * R % n) :
    ∃ bm acc, mm b r2 = some bm ∧ powLoop mm bit bm size r1 = some acc ∧
      mm acc 1 = some (b ^ e % n) := by
  have hpos : 0 < n := by omega
  have hr1n : r1 < n := hr1 ▸ Nat.mod_lt _ hpos
  have hr2n : r2 < n := hr2 ▸ Nat.mod_lt _ hpos
  have hr1R : r1 ≡ R [MOD n] := hr1 ▸ Nat.mod_modEq R n
  have hr2R : r2 ≡ R * R [MOD n] := hr2 ▸ Nat.mod_modEq (R * R) n
  obtain ⟨bm, hbm, hbmr⟩ := hmm b r2 hb hr2n
  have hbase := mont_enter hgcd hr2R hbmr
  have hmul : ∀ u v x y, Mont n R u x → Mont n R v y →
      ∃ c, mm u v = some c ∧ Mont n R c (x * y) := by
    intro u v x y hu hv
    obtain ⟨c, hc, hcr⟩ := hmm u v hu.1 hv.1
    exact ⟨c, hc, mont_of_isReduced hgcd hcr hu hv⟩
  have hone : Mont n R r1 (b ^ (e / 2 ^ size)) := by
    rw [Nat.div_eq_of_lt hsize, pow_zero]
    exact mont_one hr1n hr1R
  obtain ⟨acc, hacc, haccr⟩ := powLoop_rep mm bit bm (Mont n R) hmul hbit hbase size r1 hone
  obtain ⟨c, hc, hcr⟩ := hmm acc 1 haccr.1 hn
  rw [Nat.mul_one] at hcr
  exact ⟨bm, acc, hbm, hacc, by rw [hc, mont_leave hgcd haccr hcr]⟩

end Words

/-! ## The inverse of `n` modulo a power of two -/

/-- Newton's step `x (2 - n x)` modulo `R`. -/
def newtonNext (R n x : Nat) : Nat := x * ((R + 2 - n * x % R) % R) % R

theorem newton_square {n x : Int} {b : Nat} (h : (2 : Int) ^ b ∣ n * x - 1) :
    (2 : Int) ^ (2 * b) ∣ n * (x * (2 - n * x)) - 1 := by
  have hsq : n * (x * (2 - n * x)) - 1 = -(n * x - 1) ^ 2 := by ring
  rw [hsq, Int.dvd_neg, Nat.mul_comm, pow_mul]
  exact pow_dvd_pow_of_dvd h 2

theorem newtonNext_modEq {R : Nat} (hR : 0 < R) (n x : Nat) :
    (newtonNext R n x : Int) ≡ x * (2 - n * x) [ZMOD R] := by
  have hle : n * x % R ≤ R + 2 := by
    have := Nat.mod_lt (n * x) hR
    omega
  unfold newtonNext
  push_cast [Nat.cast_sub hle]
  refine (Int.mod_modEq _ _).trans (Int.ModEq.mul_left _ ((Int.mod_modEq _ _).trans ?_))
  have h1 : (n * x : Int) % R ≡ n * x [ZMOD R] := Int.mod_modEq _ _
  have h2 : (R : Int) ≡ 0 [ZMOD R] := (Int.modEq_zero_iff_dvd).2 (dvd_refl _)
  have h3 := ((h2.add_right 2).sub h1)
  rwa [zero_add] at h3

/-- Each step doubles the bits that are right, up to the width kept. -/
theorem newtonNext_dvd {w b c n x : Nat} (h : (2 : Int) ^ b ∣ n * x - 1) (hc : c ≤ 2 * b)
    (hcw : c ≤ w) : (2 : Int) ^ c ∣ n * newtonNext (2 ^ w) n x - 1 := by
  have hnext := newtonNext_modEq (Nat.two_pow_pos w) n x
  have hw : (2 : Int) ^ c ∣ ((2 ^ w : Nat) : Int) := by
    exact pow_dvd_pow 2 hcw
  have hdiff : (2 : Int) ^ c ∣ x * (2 - n * x) - newtonNext (2 ^ w) n x :=
    dvd_trans hw (Int.modEq_iff_dvd.1 hnext)
  have hsq : (2 : Int) ^ c ∣ n * (x * (2 - n * x)) - 1 :=
    dvd_trans (pow_dvd_pow 2 hc) (newton_square h)
  have hsum := Int.dvd_sub hsq (Dvd.dvd.mul_left hdiff (n : Int))
  have heq : (n : Int) * (x * (2 - n * x)) - 1 -
      n * (x * (2 - n * x) - newtonNext (2 ^ w) n x) = n * newtonNext (2 ^ w) n x - 1 := by ring
  rwa [heq] at hsum

/-- `-x` modulo `R` is the negated inverse. -/
theorem neg_inverse_dvd {R n x : Nat} (hx : x ≤ R) (h : (R : Int) ∣ n * x - 1) :
    R ∣ n * ((R - x) % R) + 1 := by
  have h1 : n * ((R - x) % R) + 1 ≡ n * (R - x) + 1 [MOD R] :=
    ((Nat.mod_modEq _ R).mul_left n).add_right 1
  have h2 : R ∣ n * (R - x) + 1 := by
    have : (R : Int) ∣ ((n * (R - x) + 1 : Nat) : Int) := by
      push_cast [Nat.cast_sub hx]
      have heq : (n : Int) * (R - x) + 1 = n * R - (n * x - 1) := by ring
      rw [heq]
      exact Int.dvd_sub (Dvd.intro_left _ rfl) h
    exact_mod_cast this
  exact Nat.modEq_zero_iff_dvd.1 (h1.trans (Nat.modEq_zero_iff_dvd.2 h2))

/-- An odd number is its own inverse modulo 8. -/
theorem odd_square_dvd {n : Nat} (hodd : n % 2 = 1) : (2 : Int) ^ 3 ∣ n * n - 1 := by
  have h : n * n % 8 = 1 := by
    have hm : n % 8 = 1 ∨ n % 8 = 3 ∨ n % 8 = 5 ∨ n % 8 = 7 := by omega
    rcases hm with h | h | h | h <;> simp [Nat.mul_mod, h]
  have : ((n * n : Nat) : Int) % 8 = 1 := by omega
  omega

end Montgomery

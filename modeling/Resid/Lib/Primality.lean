import Mathlib.Data.List.Prime
import Mathlib.NumberTheory.LucasPrimality
import Resid.Lib.Montgomery

/-!
# Certified primes

A prime `p` is certified by a number whose order modulo `p` is `p - 1`, which takes the prime
factors of `p - 1`, certified before it.

    certified ps known steps → all of known prime → every step's number prime   (certified_prime)

## Algorithm

Powers are taken by square-and-multiply, so the kernel checks a certificate of a few hundred
bits.
-/

namespace Primality

open Montgomery

/-- `a ^ e` modulo `p`, over the `size` lowest bits of `e`. -/
def powMod (p size a e : Nat) : Option Nat :=
  powLoop (fun x y => some (x * y % p)) (fun i => some (e / 2 ^ i % 2)) a size 1

theorem powMod_cast {p size a e : Nat} (he : e < 2 ^ size) :
    ∃ c, powMod p size a e = some c ∧ (c : ZMod p) = (a : ZMod p) ^ e := by
  refine powLoop_rep (M := ZMod p) _ _ a (fun c x => (c : ZMod p) = x) (g := (a : ZMod p)) ?_
    (fun i => rfl) rfl size 1 ?_
  · rintro c d x y rfl rfl
    exact ⟨c * d % p, rfl, by rw [ZMod.natCast_mod, Nat.cast_mul]⟩
  · rw [Nat.div_eq_of_lt he, pow_zero, Nat.cast_one]

/-- A number, what has order `p - 1` modulo it, and the prime factors of `p - 1`. -/
structure Step where
  p : Nat
  root : Nat
  factors : List Nat

/-- The factors are known, the root's power `p - 1` is 1, and none by a factor less is. -/
def Step.holds (size : Nat) (known : List Nat) (s : Step) : Bool :=
  decide (2 ≤ s.p) && decide (s.p ≤ 2 ^ size) && s.factors.all (known.contains ·) &&
    s.factors.prod == s.p - 1 && powMod s.p size s.root (s.p - 1) == some 1 &&
    s.factors.all fun q =>
      match powMod s.p size s.root ((s.p - 1) / q) with
      | some c => decide (c < s.p) && c != 1
      | none => false

def certified (size : Nat) (known : List Nat) : List Step → Bool
  | [] => true
  | s :: steps => s.holds size known && certified size (s.p :: known) steps

theorem Step.holds_prime {size : Nat} {known : List Nat} {s : Step}
    (hknown : ∀ q ∈ known, q.Prime) (h : s.holds size known = true) : s.p.Prime := by
  simp only [Step.holds, Bool.and_eq_true, decide_eq_true_eq, List.all_eq_true, beq_iff_eq,
    List.contains_iff_mem] at h
  obtain ⟨⟨⟨⟨⟨htwo, hsize⟩, hfactors⟩, hprod⟩, hone⟩, hless⟩ := h
  have hfits : ∀ e, e ≤ s.p - 1 → e < 2 ^ size := by
    intro e he
    omega
  apply lucas_primality s.p (s.root : ZMod s.p)
  · obtain ⟨c, hc, hcast⟩ := powMod_cast (p := s.p) (a := s.root) (hfits _ (Nat.le_refl _))
    rw [hone] at hc
    rw [← hcast, ← Option.some.inj hc, Nat.cast_one]
  · intro q hq hdvd hpow
    have hmem : q ∈ s.factors := by
      rw [← hprod] at hdvd
      obtain ⟨r, hr, hqr⟩ := hq.prime.dvd_prod_iff.1 hdvd
      rwa [(Nat.prime_dvd_prime_iff_eq hq (hknown r (hfactors r hr))).1 hqr]
    obtain ⟨c, hc, hcast⟩ :=
      powMod_cast (p := s.p) (a := s.root) (hfits ((s.p - 1) / q) (Nat.div_le_self _ _))
    have hq := hless q hmem
    rw [hc] at hq
    simp only [Bool.and_eq_true, decide_eq_true_eq, bne_iff_ne, ne_eq] at hq
    obtain ⟨hlt, hne⟩ := hq
    have hcongr : c % s.p = 1 % s.p := by
      rw [← Nat.ModEq, ← ZMod.natCast_eq_natCast_iff, hcast, hpow, Nat.cast_one]
    rw [Nat.mod_eq_of_lt hlt, Nat.mod_eq_of_lt htwo] at hcongr
    exact hne hcongr

theorem certified_prime {size : Nat} {known : List Nat} {steps : List Step}
    (hknown : ∀ q ∈ known, q.Prime) (h : certified size known steps = true) :
    ∀ s ∈ steps, s.p.Prime := by
  induction steps generalizing known with
  | nil => simp
  | cons s steps ih =>
    rw [certified, Bool.and_eq_true] at h
    have hp := Step.holds_prime hknown h.1
    rw [List.forall_mem_cons]
    exact ⟨hp, ih (List.forall_mem_cons.2 ⟨hp, hknown⟩) h.2⟩

end Primality

import Resid.Bignum.Inverse
import Resid.Lib.Residues

/-!
# The Paillier cryptosystem

The ciphertext of `m` is `(1 + N) ^ m rho ^ N` modulo the square of `N = p q`.  Ciphertexts
multiply as plaintexts add, so a party without the secret key computes sums and multiples of
what it cannot read.  Whatever it computes decrypts to the same computation on the plaintexts:

    paillierSec answers a key iff N and its totient are coprime           (paillierSec_limbs)
    e.Fresh N → e.run k holds e.value                                     (run_holds)
    paillierDec s k (e.run k) denotes e.value % N                         (decrypts_computation)
-/

namespace Cggmp

open Bignum Positional Residues

structure PaillierPub where
  n : List Nat
  n2 : List Nat
  mont2 : BnMont

structure PaillierSec where
  p : List Nat
  q : List Nat
  phi : List Nat
  phiInv : List Nat

def paillierPub (n : List Nat) : Option PaillierPub := do
  let n2 ← bnMul n n
  some { n := n, n2 := n2, mont2 := ← bnMontNew n2 }

/-- The inner `none` is the source's `None`. -/
def paillierSec (fuel : Nat) (p q : List Nat) : Option (Option PaillierSec) := do
  let phi ← bnMul (← bnSub p [1]) (← bnSub q [1])
  let inv ← bnModinv fuel phi (← bnMul p q)
  some (inv.map fun inv => { p := p, q := q, phi := phi, phiInv := inv })

def paillierEnc (k : PaillierPub) (m rho : List Nat) : Option (List Nat) := do
  let gm ← bnMod (← bnAdd [1] (← bnMul m k.n)) k.n2
  let rn ← bnModexpMont k.mont2 (← bnMod rho k.n2) k.n
  bnMod (← bnMul gm rn) k.n2

def paillierDec (s : PaillierSec) (k : PaillierPub) (c : List Nat) : Option (List Nat) := do
  let u ← bnModexpMont k.mont2 (← bnMod c k.n2) s.phi
  let l ← bnDivmod (← bnSub u [1]) k.n
  bnModmul l.q s.phiInv k.n

def paillierAdd (k : PaillierPub) (c1 c2 : List Nat) : Option (List Nat) := do
  bnMod (← bnMul c1 c2) k.n2

def paillierMul (k : PaillierPub) (c scalar : List Nat) : Option (List Nat) := do
  bnModexpMont k.mont2 (← bnMod c k.n2) scalar

/-! ## Computations on ciphertexts -/

/-- What a party without the secret key computes. -/
inductive Computation where
  | enc (m rho : BnNat)
  | add (a b : Computation)
  | mul (a : Computation) (scalar : BnNat)

namespace Computation

def run (k : PaillierPub) : Computation → Option (List Nat)
  | enc m rho => paillierEnc k m.list rho.list
  | add a b => do paillierAdd k (← a.run k) (← b.run k)
  | mul a scalar => do paillierMul k (← a.run k) scalar.list

/-- The same on the plaintexts. -/
def value : Computation → Nat
  | enc m _ => val m.list
  | add a b => a.value + b.value
  | mul a scalar => val scalar.list * a.value

/-- The randomness of every encryption is a unit modulo `n`. -/
def Fresh (n : Nat) : Computation → Prop
  | enc _ rho => Nat.Coprime (val rho.list) n
  | add a b => a.Fresh n ∧ b.Fresh n
  | mul a _ => a.Fresh n

end Computation

/-! ## Keys -/

theorem bnModexpMont_limbs {c : BnMont} {n np b : Nat} (hc : c.For n (limbs n).length np)
    (hb : b < n) (e : Nat) : bnModexpMont c (limbs b) (limbs e) = some (limbs (b ^ e % n)) := by
  rw [bnModexpMont, hc.hk, hc.hn]
  by_cases he : (limbs e).length = 0
  · rw [if_pos he, ← limbs_one, bnMod_limbs (by omega), length_limbs_eq_zero.1 he, pow_zero]
  rw [if_neg he]
  by_cases hlen : (limbs n).length ≤ 64
  · have hnative := bnNativeExp_limbs (e := e) hlen hc.odd hc.gt hb
    split_ifs <;> exact hnative
  · rw [if_neg (by omega), if_neg hlen]
    exact bnModexpLists_limbs hc hb e

/-- The public key of `n`. -/
structure PaillierPub.For (k : PaillierPub) (n : Nat) : Prop where
  hn : k.n = limbs n
  hn2 : k.n2 = limbs (n * n)
  mont : ∃ np, k.mont2.For (n * n) (limbs (n * n)).length np
  gt : 1 < n
  short : (limbs (n * n)).length < 2 ^ 63

/-- The secret key of `n`. -/
structure PaillierSec.For (s : PaillierSec) (n : Nat) : Prop where
  hphi : s.phi = limbs (Nat.totient n)
  hinv : ∃ inv, s.phiInv = limbs inv ∧ Nat.totient n * inv % n = 1

theorem paillierPub_limbs {n : Nat} (hgt : 1 < n) (hodd : n % 2 = 1)
    (hshort : (limbs (n * n)).length < 2 ^ 63) :
    ∃ k, paillierPub (limbs n) = some k ∧ k.For n := by
  have hsquare : 1 < n * n := Nat.one_lt_mul_iff.2 ⟨by omega, by omega, .inl hgt⟩
  have hoddsq : n * n % 2 = 1 := by rw [Nat.mul_mod, hodd]
  have hn := length_lt_of_le (Nat.le_mul_self n) hshort
  obtain ⟨c, np, hc, hfor⟩ := bnMontNew_limbs hshort hoddsq hsquare
  refine ⟨⟨limbs n, limbs (n * n), c⟩, ?_, rfl, rfl, ⟨np, hfor⟩, hgt, hshort⟩
  rw [paillierPub, bnMul_limbs hn, Option.bind_eq_bind, Option.bind_some, hc]
  rfl

/-- There is a secret key exactly where `n` and its totient are coprime. -/
theorem paillierSec_limbs {p q fuel : Nat} (hp : p.Prime) (hq : q.Prime) (hne : p ≠ q)
    (hshort : (limbs (p * q)).length < 2 ^ 63) (hfuel : p * q < fuel) :
    (Nat.Coprime (Nat.totient (p * q)) (p * q) →
      ∃ s, paillierSec fuel (limbs p) (limbs q) = some (some s) ∧ s.For (p * q)) ∧
      (¬ Nat.Coprime (Nat.totient (p * q)) (p * q) →
        paillierSec fuel (limbs p) (limbs q) = some none) := by
  have hp1 := hp.one_lt
  have hq1 := hq.one_lt
  have hgt : 1 < p * q := Nat.one_lt_mul_iff.2 ⟨by omega, by omega, .inl hp1⟩
  have hphi : Nat.totient (p * q) = (p - 1) * (q - 1) := by
    rw [Nat.totient_mul ((Nat.coprime_primes hp hq).2 hne), Nat.totient_prime hp,
      Nat.totient_prime hq]
  have hplen := length_lt_of_le (Nat.le_mul_of_pos_right p (by omega : 0 < q)) hshort
  have hp1len := length_lt_of_le (Nat.sub_le p 1) hplen
  have hinv := bnModinv_inverts (a := Nat.totient (p * q)) hgt hshort hfuel
  have hrun : paillierSec fuel (limbs p) (limbs q) = (do
      let inv ← bnModinv fuel (limbs (Nat.totient (p * q))) (limbs (p * q))
      some (inv.map fun inv =>
        ⟨limbs p, limbs q, limbs (Nat.totient (p * q)), inv⟩)) := by
    simp only [paillierSec, ← limbs_one, bnSub_limbs (Nat.le_of_lt hp1),
      bnSub_limbs (Nat.le_of_lt hq1), bnMul_limbs hp1len, bnMul_limbs hplen, hphi,
      Option.bind_eq_bind, Option.bind_some]
  refine ⟨fun hco => ?_, fun hco => by rw [hrun, hinv.2 hco]; rfl⟩
  obtain ⟨l, hl, hnorm, -, hmul⟩ := hinv.1 hco
  refine ⟨_, by rw [hrun, hl]; rfl, rfl, val l, hnorm.limbs_val.symm, hmul⟩

/-! ## Ciphertexts -/

section Operations

variable {k : PaillierPub} {n : Nat} (hk : k.For n)

include hk

theorem PaillierPub.For.square_pos : 0 < n * n := by
  have := hk.gt
  exact Nat.mul_pos (by omega) (by omega)

theorem PaillierPub.For.length_lt {c : Nat} (hc : c < n * n) : (limbs c).length < 2 ^ 63 :=
  length_lt_of_le (Nat.le_of_lt hc) hk.short

theorem bnMod_square (c : Nat) : bnMod (limbs c) k.n2 = some (limbs (c % (n * n))) := by
  rw [hk.hn2, bnMod_limbs hk.square_pos]

theorem power_limbs (c e : Nat) :
    bnModexpMont k.mont2 (limbs (c % (n * n))) (limbs e) = some (limbs (c ^ e % (n * n))) := by
  obtain ⟨np, hmont⟩ := hk.mont
  rw [bnModexpMont_limbs hmont (Nat.mod_lt c hk.square_pos), ← Nat.pow_mod]

theorem paillierEnc_holds (m rho : BnNat) (hrho : Nat.Coprime (val rho.list) n) :
    ∃ c, paillierEnc k m.list rho.list = some (limbs c) ∧ c < n * n ∧
      Holds n c (val m.list) := by
  have hm := m.short
  rw [m.eq_limbs] at hm
  have hgm : (1 + val m.list * n) % (n * n) < n * n := Nat.mod_lt _ hk.square_pos
  refine ⟨_, ?_, Nat.mod_lt _ hk.square_pos, val rho.list, hrho,
    (Nat.mod_modEq _ _).trans ((Nat.mod_modEq _ _).mul (Nat.mod_modEq _ _))⟩
  rw [paillierEnc, m.eq_limbs, rho.eq_limbs, val_limbs, val_limbs, hk.hn, ← limbs_one]
  simp only [bnMul_limbs hm, bnAdd_limbs, bnMod_square hk, power_limbs hk,
    bnMul_limbs (hk.length_lt hgm), Option.bind_eq_bind, Option.bind_some]

theorem paillierAdd_holds {c d m m' : Nat} (hc : c < n * n) (h : Holds n c m)
    (h' : Holds n d m') : ∃ e, paillierAdd k (limbs c) (limbs d) = some (limbs e) ∧
      e < n * n ∧ Holds n e (m + m') := by
  refine ⟨c * d % (n * n), ?_, Nat.mod_lt _ hk.square_pos,
    (h.mul h').congr (Nat.mod_modEq _ _)⟩
  rw [paillierAdd, bnMul_limbs (hk.length_lt hc), Option.bind_eq_bind, Option.bind_some,
    bnMod_square hk]

theorem paillierMul_holds {c m : Nat} (h : Holds n c m) (scalar : BnNat) :
    ∃ e, paillierMul k (limbs c) scalar.list = some (limbs e) ∧
      e < n * n ∧ Holds n e (val scalar.list * m) := by
  refine ⟨c ^ val scalar.list % (n * n), ?_, Nat.mod_lt _ hk.square_pos,
    (h.pow _).congr (Nat.mod_modEq _ _)⟩
  rw [paillierMul, bnMod_square hk, Option.bind_eq_bind, Option.bind_some, scalar.eq_limbs,
    val_limbs, power_limbs hk]

/-- What is computed on ciphertexts holds what is computed on the plaintexts. -/
theorem run_holds (e : Computation) (he : e.Fresh n) :
    ∃ c, e.run k = some (limbs c) ∧ c < n * n ∧ Holds n c e.value := by
  induction e with
  | enc m rho => exact paillierEnc_holds hk m rho he
  | add a b iha ihb =>
    obtain ⟨c, hc, hlt, hholds⟩ := iha he.1
    obtain ⟨d, hd, -, hholds'⟩ := ihb he.2
    rw [Computation.run, hc, hd]
    exact paillierAdd_holds hk hlt hholds hholds'
  | mul a scalar ih =>
    obtain ⟨c, hc, -, hholds⟩ := ih he
    rw [Computation.run, hc]
    exact paillierMul_holds hk hholds scalar

theorem paillierDec_holds {s : PaillierSec} (hs : s.For n) {c m : Nat} (h : Holds n c m) :
    paillierDec s k (limbs c) = some (limbs (m % n)) := by
  have hpos : 0 < n := by have := hk.gt; omega
  obtain ⟨inv, hinv, hone⟩ := hs.hinv
  have hlow : Nat.totient n * m % n < n * n :=
    Nat.lt_of_lt_of_le (Nat.mod_lt _ hpos) (Nat.le_mul_self n)
  have hresult : Nat.totient n * m % n * inv % n = m % n := by
    calc Nat.totient n * m % n * inv ≡ Nat.totient n * m * inv [MOD n] :=
        (Nat.mod_modEq _ _).mul_right _
      _ = Nat.totient n * inv * m := Nat.mul_right_comm _ _ _
      _ ≡ 1 * m [MOD n] := by
        refine Nat.ModEq.mul_right m ?_
        rw [Nat.ModEq, hone, Nat.mod_eq_of_lt hk.gt]
      _ = m := Nat.one_mul m
  rw [paillierDec, hs.hphi, hinv, hk.hn, ← limbs_one]
  simp only [bnMod_square hk, power_limbs hk, h.opened hk.gt, bnSub_limbs (Nat.le_add_right 1 _),
    Nat.add_sub_cancel_left, bnDivmod_limbs hpos, Nat.mul_div_cancel _ hpos,
    bnModmul_limbs hpos (hk.length_lt hlow), hresult, Option.bind_eq_bind, Option.bind_some]

end Operations

/-- Any two primes give no key, where the modulus and its totient share a factor, or a key with
which every computation on fresh ciphertexts decrypts to the computation on the plaintexts. -/
theorem decrypts_computation {p q : BnNat} {fuel : Nat} (hp : (val p.list).Prime)
    (hq : (val q.list).Prime) (hne : val p.list ≠ val q.list)
    (hshort : (limbs (val p.list * val q.list * (val p.list * val q.list))).length < 2 ^ 63)
    (hfuel : val p.list * val q.list < fuel) :
    (¬ Nat.Coprime (Nat.totient (val p.list * val q.list)) (val p.list * val q.list) ∧
      paillierSec fuel p.list q.list = some none) ∨
    ∃ n k s, bnMul p.list q.list = some n ∧ paillierPub n = some k ∧
      paillierSec fuel p.list q.list = some (some s) ∧
        ∀ e : Computation, e.Fresh (val n) → ∃ c, e.run k = some c ∧
          Denotes (paillierDec s k c) (e.value % val n) := by
  have hp1 := hp.one_lt
  have hq1 := hq.one_lt
  have hplen := p.short
  rw [p.eq_limbs] at hplen
  rw [p.eq_limbs, q.eq_limbs, val_limbs, val_limbs]
  generalize val p.list = x at *
  generalize val q.list = y at *
  have hgt : 2 < x * y := by
    have hmul : 2 * 2 ≤ x * y := Nat.mul_le_mul hp1 hq1
    omega
  have hlen := length_lt_of_le (Nat.le_mul_self (x * y)) hshort
  obtain ⟨hkey, hnone⟩ := paillierSec_limbs hp hq hne hlen hfuel
  by_cases hco : Nat.Coprime (Nat.totient (x * y)) (x * y)
  · -- an even modulus would share the factor 2 with its totient
    have hodd : x * y % 2 = 1 := by
      by_contra heven
      have hdvd := Nat.dvd_gcd (Nat.totient_even hgt).two_dvd
        (Nat.dvd_of_mod_eq_zero (by omega : x * y % 2 = 0))
      rw [hco] at hdvd
      omega
    obtain ⟨k, hk, hkfor⟩ := paillierPub_limbs (by omega) hodd hshort
    obtain ⟨s, hs, hsfor⟩ := hkey hco
    refine .inr ⟨limbs (x * y), k, s, bnMul_limbs hplen y, hk, hs, fun e he => ?_⟩
    rw [val_limbs] at he ⊢
    obtain ⟨c, hc, -, hholds⟩ := run_holds hkfor e he
    exact ⟨limbs c, hc, denotes_limbs (paillierDec_holds hkfor hsfor hholds)⟩
  · exact .inl ⟨hco, hnone hco⟩

/-- The primes 3 and 5. -/
theorem decrypts_computation_fifteen :
    (¬ Nat.Coprime (Nat.totient 15) 15 ∧ paillierSec 16 [3] [5] = some none) ∨
    ∃ n k s, bnMul [3] [5] = some n ∧ paillierPub n = some k ∧
      paillierSec 16 [3] [5] = some (some s) ∧
        ∀ e : Computation, e.Fresh (val n) → ∃ c, e.run k = some c ∧
          Denotes (paillierDec s k c) (e.value % val n) := by
  refine @decrypts_computation ⟨[3], ⟨by simp [IsDigits, bnBase], by simp⟩, by simp⟩
    ⟨[5], ⟨by simp [IsDigits, bnBase], by simp⟩, by simp⟩ 16 Nat.prime_three Nat.prime_five
    (by decide) ?_ (by decide)
  show (limbs 225).length < _
  rw [limbs_of_lt (by decide) (by norm_num [bnBase])]
  simp

end Cggmp

import Resid.Bignum.Division
import Resid.Bignum.TwoWord

/-!
# Modular exponentiation

`bn_modexp` picks its path by the size and parity of the modulus: the fixed-width
classes for odd moduli of up to 64 limbs, Montgomery over limb lists for larger odd
ones, square-and-multiply with divisions for even ones.  Every path answers
`base ^ exp mod m`.

    bnRedc answers t / R modulo n                                   (bnRedc_limbs)
    bnModexpLists, bnModexpPlain, bnNativeExp, bnModexp agree       (modexp_paths_agree)
-/

namespace Bignum

open FixedWidth Positional Loops Montgomery

/-! ## Algorithm -/

def bnModmul (a b m : List Nat) : Option (List Nat) := do bnMod (← bnMul a b) m

/-- `x mod 2^(64 k)` -/
def bnLow (x : List Nat) (k : Nat) : Option (List Nat) := do
  if x.length ≤ k then some x else bnTrim (← bnTake x k 0 [])

/-- `bits` correct bits become `64 k` by Newton's iteration.  With `bits = 0` the source
would never stop; its caller starts at 1. -/
def bnNewton (n : List Nat) (k : Nat) (x : List Nat) (bits : Nat) : Option (List Nat) :=
  if bits ≥ 64 * k then some x
  else if bits = 0 then none
  else do
    let nx ← bnLow (← bnMul n x) k
    let two ← bnAdd (← bnShl [1] (64 * k)) [2]
    let twoMinus ← bnLow (← bnSub two nx) k
    let x' ← bnLow (← bnMul x twoMinus) k
    bnNewton n k x' (bits * 2)
termination_by 64 * k - bits

def bnNegInv (n : List Nat) (k : Nat) : Option (List Nat) := do
  let inv ← bnNewton n k [1] 1
  let low ← bnLow inv k
  let d ← bnSub (← bnShl [1] (64 * k)) low
  bnLow d k

/-- Precomputed values for arithmetic modulo an odd `n` of `k` limbs, `R = 2^(64 k)`. -/
structure BnMont where
  n : List Nat
  k : Nat
  np : List Nat
  rr : List Nat

/-- `none` is the assertion that fails on an even modulus or one. -/
def bnMontNew (n : List Nat) : Option BnMont := do
  if bnIsOdd n ∧ (← bnCmp n [1]) > 0 then
    let k := n.length
    let r2 ← bnMod (← bnShl [1] (128 * k)) n
    let np ← bnNegInv n k
    some { n := n, k := k, np := np, rr := r2 }
  else none

/-- REDC: `t R^-1 mod n` for `t < n R`. -/
def bnRedc (c : BnMont) (t : List Nat) : Option (List Nat) := do
  let m ← bnLow (← bnMul (← bnLow t c.k) c.np) c.k
  let u ← bnShr (← bnAdd t (← bnMul m c.n)) (64 * c.k)
  if (← bnCmp u c.n) ≥ 0 then bnSub u c.n else some u

def bnMontMul (c : BnMont) (a b : List Nat) : Option (List Nat) := do bnRedc c (← bnMul a b)

def bnExpBits (c : BnMont) (bm exp : List Nat) (i : Nat) (acc : List Nat) : Option (List Nat) :=
  powLoop (bnMontMul c) (bnBit exp) bm i acc

def bnModexpLists (c : BnMont) (base exp : List Nat) : Option (List Nat) := do
  let bm ← bnMontMul c base c.rr
  let one ← bnMontMul c [1] c.rr
  let acc ← bnExpBits c bm exp (← bnBitLen exp) one
  bnRedc c acc

def bnModexpMont (c : BnMont) (base exp : List Nat) : Option (List Nat) :=
  if exp.length = 0 then bnMod [1] c.n
  else if c.k ≤ 32 then bnNativeExp base exp c.n (c.k * 64)
  else if c.k ≤ 64 then bnNativeExp base exp c.n (c.k * 64)
  else bnModexpLists c base exp

def bnModexpPlain (base exp m : List Nat) (i : Nat) (acc : List Nat) : Option (List Nat) :=
  powLoop (fun a b => bnModmul a b m) (bnBit exp) base i acc

def bnModexp (base exp m : List Nat) : Option (List Nat) := do
  if bnIsOdd m ∧ m.length ≤ 64 ∧ (← bnCmp m [1]) > 0 then
    if exp.length = 0 then bnMod [1] m
    else bnNativeExp (← bnMod base m) exp m (m.length * 64)
  else if bnIsOdd m then bnModexpMont (← bnMontNew m) (← bnMod base m) exp
  else bnModexpPlain (← bnMod base m) exp m (← bnBitLen exp) (← bnMod [1] m)

/-! ## Small steps -/

theorem limbs_one : limbs 1 = [1] := limbs_of_lt (by decide) one_lt_bnBase

theorem limbs_two : limbs 2 = [2] := limbs_of_lt (by decide) (by norm_num [bnBase])

theorem bnLow_limbs (x k : Nat) : bnLow (limbs x) k = some (limbs (x % bnBase ^ k)) := by
  unfold bnLow
  by_cases h : (limbs x).length ≤ k
  · have hlt := lt_of_lt_of_le (lt_pow_length x) (Nat.pow_le_pow_right bnBase_pos h)
    rw [if_pos h, Nat.mod_eq_of_lt hlt]
  · have htake : (limbs x).take k = lowDigits bnBase x k := by
      have := take_eq_lowDigits one_lt_bnBase (isDigits_limbs x) (Nat.le_of_not_le h)
      rwa [← val, val_limbs] at this
    rw [if_neg h, bnTake_eq (Nat.le_of_not_le h), Option.bind_eq_bind, Option.bind_some, htake,
      bnTrim_eq (isDigits_lowDigits bnBase_pos x k), val, ofDigits_lowDigits]

theorem bnModmul_limbs {m x : Nat} (hm : 0 < m) (hx : (limbs x).length < 2 ^ 63) (y : Nat) :
    bnModmul (limbs x) (limbs y) (limbs m) = some (limbs (x * y % m)) := by
  rw [bnModmul, bnMul_limbs hx, Option.bind_eq_bind, Option.bind_some, bnMod_limbs hm]

theorem bnShl_one (k : Nat) : bnShl [1] (64 * k) = some (limbs (bnBase ^ k)) := by
  rw [← limbs_one, bnShl_limbs, Nat.one_mul, bnBase_pow]

theorem length_lt_of_le {x y : Nat} (h : x ≤ y) (hy : (limbs y).length < 2 ^ 63) :
    (limbs x).length < 2 ^ 63 :=
  lt_of_le_of_lt (length_limbs_le (lt_of_le_of_lt h (lt_pow_length y))) hy

theorem length_lt_of_lt_pow {x k : Nat} (h : x < bnBase ^ k) (hk : k < 2 ^ 63) :
    (limbs x).length < 2 ^ 63 := lt_of_le_of_lt (length_limbs_le h) hk

/-! ## The Montgomery context -/

theorem bnNewton_step {n x k bits : Nat} (hn : (limbs n).length < 2 ^ 63) (hk : k < 2 ^ 63)
    (hx : x < bnBase ^ k) (h0 : bits ≠ 0) (hbits : bits < 64 * k) :
    bnNewton (limbs n) k (limbs x) bits =
      bnNewton (limbs n) k (limbs (newtonNext (bnBase ^ k) n x)) (bits * 2) := by
  have hle : n * x % bnBase ^ k ≤ bnBase ^ k + 2 :=
    le_trans (Nat.le_of_lt (Nat.mod_lt _ (Nat.pow_pos bnBase_pos))) (Nat.le_add_right _ _)
  have hxlen := length_lt_of_lt_pow hx hk
  conv_lhs => rw [bnNewton]
  rw [if_neg (by omega), if_neg h0]
  simp only [bnMul_limbs hn, bnLow_limbs, bnShl_one, ← limbs_two, bnAdd_limbs, bnSub_limbs hle,
    bnMul_limbs hxlen, Option.bind_eq_bind, Option.bind_some]
  rfl

theorem bnNewton_run {n k : Nat} (hn : (limbs n).length < 2 ^ 63) (hk : k < 2 ^ 63) :
    ∀ bits (x : Nat), bits ≠ 0 → x < bnBase ^ k →
      (2 : Int) ^ min bits (64 * k) ∣ n * x - 1 →
      ∃ y : Nat, bnNewton (limbs n) k (limbs x) bits = some (limbs y) ∧ y < bnBase ^ k ∧
        (2 : Int) ^ (64 * k) ∣ n * y - 1 := by
  intro bits x h0 hx h
  induction hm : 64 * k - bits using Nat.strongRecOn generalizing bits x with
  | _ m ih =>
    by_cases hbits : bits ≥ 64 * k
    · rw [Nat.min_eq_right hbits] at h
      exact ⟨x, by rw [bnNewton, if_pos hbits], hx, h⟩
    · rw [bnNewton_step hn hk hx h0 (by omega)]
      refine ih (64 * k - bits * 2) (by omega) (bits * 2) _ (by omega)
        (Nat.mod_lt _ (Nat.pow_pos bnBase_pos)) ?_ rfl
      rw [bnBase_pow]
      exact newtonNext_dvd h (by omega) (Nat.min_le_right _ _)

theorem bnNegInv_limbs {n k : Nat} (hn : (limbs n).length < 2 ^ 63) (hk : k < 2 ^ 63)
    (hk0 : 0 < k) (hodd : n % 2 = 1) :
    ∃ np, bnNegInv (limbs n) k = some (limbs np) ∧ bnBase ^ k ∣ n * np + 1 := by
  have h1 : (2 : Int) ^ min 1 (64 * k) ∣ n * (1 : Nat) - 1 := by
    rw [Nat.min_eq_left (by omega)]
    omega
  have hlt : 1 < bnBase ^ k := Nat.one_lt_pow (by omega) one_lt_bnBase
  obtain ⟨y, hy, hylt, hdvd⟩ := bnNewton_run hn hk 1 1 (by decide) hlt h1
  refine ⟨(bnBase ^ k - y) % bnBase ^ k, ?_, ?_⟩
  · rw [limbs_one] at hy
    simp [bnNegInv, hy, bnLow_limbs, Nat.mod_eq_of_lt hylt, bnShl_one,
      bnSub_limbs (Nat.le_of_lt hylt), Option.bind_eq_bind, Option.bind_some]
  · refine neg_inverse_dvd (Nat.le_of_lt hylt) ?_
    rw [bnBase_pow]
    exact_mod_cast hdvd

/-- A context for `n`: its lengths, the negated inverse and `R ^ 2` modulo `n`. -/
structure BnMont.For (c : BnMont) (n k np : Nat) : Prop where
  hn : c.n = limbs n
  hk : c.k = k
  hnp : c.np = limbs np
  hrr : c.rr = limbs (bnBase ^ k * bnBase ^ k % n)
  odd : n % 2 = 1
  gt : 1 < n
  lt : n < bnBase ^ k
  inv : bnBase ^ k ∣ n * np + 1
  short : k < 2 ^ 63

theorem bnMontNew_limbs {n : Nat} (hshort : (limbs n).length < 2 ^ 63) (hodd : n % 2 = 1)
    (hgt : 1 < n) :
    ∃ c np, bnMontNew (limbs n) = some c ∧ c.For n (limbs n).length np := by
  have hk0 : 0 < (limbs n).length := Nat.pos_of_ne_zero fun h => by
    rw [length_limbs_eq_zero] at h
    omega
  obtain ⟨np, hnp, hdvd⟩ := bnNegInv_limbs hshort hshort hk0 hodd
  have hcmp : order n 1 > 0 := by
    unfold order
    rw [if_neg (by omega), if_neg (by omega)]
    decide
  have hshl : bnShl [1] (128 * (limbs n).length) =
      some (limbs (bnBase ^ (limbs n).length * bnBase ^ (limbs n).length)) := by
    rw [← limbs_one, bnShl_limbs, Nat.one_mul, ← pow_add, bnBase_pow]
    congr 3
    omega
  have hoddb : bnIsOdd (limbs n) = true := by rw [bnIsOdd_limbs, hodd]; rfl
  refine ⟨⟨limbs n, (limbs n).length, limbs np,
    limbs (bnBase ^ (limbs n).length * bnBase ^ (limbs n).length % n)⟩, np, ?_,
    ⟨rfl, rfl, rfl, rfl, hodd, hgt, lt_pow_length n, hdvd, hshort⟩⟩
  unfold bnMontNew
  rw [← limbs_one] at hshl ⊢
  rw [bnCmp_limbs, Option.bind_eq_bind, Option.bind_some, if_pos ⟨hoddb, hcmp⟩]
  simp [hshl, bnMod_limbs (show 0 < n by omega), hnp, Option.bind_eq_bind, Option.bind_some]

/-! ## Reduction over limb lists -/

section Lists

variable {c : BnMont} {n k np : Nat} (hc : c.For n k np)

include hc

theorem bnRedc_limbs {t : Nat} (ht : t < n * bnBase ^ k) :
    ∃ u, bnRedc c (limbs t) = some (limbs u) ∧ IsReduced n (bnBase ^ k) t u := by
  have hR : 0 < bnBase ^ k := Nat.pow_pos bnBase_pos
  have hpos : 0 < n := by have := hc.gt; omega
  have hlow := length_lt_of_lt_pow (Nat.mod_lt t hR) hc.short
  have hfac : redcFactor (bnBase ^ k) np t < bnBase ^ k := Nat.mod_lt _ hR
  have hfaclen := length_lt_of_lt_pow hfac hc.short
  refine ⟨_, ?_, redc_isReduced hc.inv hR hpos ht⟩
  have hm : bnLow (limbs (t % bnBase ^ k * np)) k = some (limbs (redcFactor (bnBase ^ k) np t)) :=
    bnLow_limbs _ _
  simp only [bnRedc, hc.hk, hc.hnp, hc.hn, bnLow_limbs t, bnMul_limbs hlow, hm,
    bnMul_limbs hfaclen, bnAdd_limbs, bnShr_limbs, ← bnBase_pow, bnCmp_limbs, Option.bind_eq_bind,
    Option.bind_some, ge_iff_le, order_nonneg]
  unfold condSub
  split
  · rename_i h
    exact bnSub_limbs h
  · rfl

theorem bnMontMul_limbs {a b : Nat} (ha : a < n) (hb : b < n) :
    ∃ u, bnMontMul c (limbs a) (limbs b) = some (limbs u) ∧
      IsReduced n (bnBase ^ k) (a * b) u := by
  have halen := length_lt_of_lt_pow (lt_trans ha hc.lt) hc.short
  obtain ⟨u, hu, hred⟩ := bnRedc_limbs hc (Nat.mul_lt_mul'' ha (lt_trans hb hc.lt))
  exact ⟨u, by rw [bnMontMul, bnMul_limbs halen, Option.bind_eq_bind, Option.bind_some, hu], hred⟩

theorem coprime_base : Nat.gcd n (bnBase ^ k) = 1 := by
  rw [bnBase_pow]
  exact coprime_two_pow _ hc.odd

theorem bnModexpLists_limbs {b : Nat} (hb : b < n) (e : Nat) :
    bnModexpLists c (limbs b) (limbs e) = some (limbs (b ^ e % n)) := by
  have hpos : 0 < n := by have := hc.gt; omega
  have hgcd := coprime_base hc
  have hrr : bnBase ^ k * bnBase ^ k % n < n := Nat.mod_lt _ hpos
  have hrrR := Nat.mod_modEq (bnBase ^ k * bnBase ^ k) n
  obtain ⟨bm, hbm, hbmr⟩ := bnMontMul_limbs hc hb hrr
  obtain ⟨one, hone, honer⟩ := bnMontMul_limbs hc hc.gt hrr
  have hmul : ∀ a b x y, (∃ u, a = limbs u ∧ Mont n (bnBase ^ k) u x) →
      (∃ u, b = limbs u ∧ Mont n (bnBase ^ k) u y) →
      ∃ l, bnMontMul c a b = some l ∧ ∃ u, l = limbs u ∧ Mont n (bnBase ^ k) u (x * y) := by
    rintro _ _ x y ⟨u, rfl, hu⟩ ⟨v, rfl, hv⟩
    obtain ⟨w, hw, hwr⟩ := bnMontMul_limbs hc hu.1 hv.1
    exact ⟨_, hw, w, rfl, mont_of_isReduced hgcd hwr hu hv⟩
  have hstart : ∃ u, limbs one = limbs u ∧ Mont n (bnBase ^ k) u (b ^ (e / 2 ^ Nat.size e)) := by
    refine ⟨one, rfl, ?_⟩
    rw [Nat.div_eq_of_lt (Nat.lt_size_self e), pow_zero]
    exact mont_enter hgcd hrrR honer
  obtain ⟨_, hacc, acc, rfl, haccr⟩ := powLoop_rep (bnMontMul c) (bnBit (limbs e)) (limbs bm)
    (fun l x => ∃ u, l = limbs u ∧ Mont n (bnBase ^ k) u x) hmul
    (bnBit_limbs e) ⟨bm, rfl, mont_enter hgcd hrrR hbmr⟩ (Nat.size e) (limbs one) hstart
  have hlt : acc < n * bnBase ^ k :=
    lt_of_lt_of_le haccr.1 (Nat.le_mul_of_pos_right n (Nat.pow_pos bnBase_pos))
  obtain ⟨out, hout, houtr⟩ := bnRedc_limbs hc hlt
  rw [limbs_one] at hone
  simp [bnModexpLists, hc.hrr, hbm, hone, bnBitLen_limbs, bnExpBits, hacc, hout,
    Option.bind_eq_bind, Option.bind_some, mont_leave hgcd haccr houtr]

end Lists

theorem bnModexpPlain_limbs {m b : Nat} (hm : 0 < m) (hshort : (limbs m).length < 2 ^ 63)
    (e : Nat) :
    bnModexpPlain (limbs (b % m)) (limbs e) (limbs m) (Nat.size e) (limbs (1 % m)) =
      some (limbs (b ^ e % m)) := by
  have hmul : ∀ u v x y, u = limbs (x % m) → v = limbs (y % m) →
      ∃ l, bnModmul u v (limbs m) = some l ∧ l = limbs (x * y % m) := by
    rintro _ _ x y rfl rfl
    have hlen := length_lt_of_le (Nat.le_of_lt (Nat.mod_lt x hm)) hshort
    exact ⟨_, bnModmul_limbs hm hlen _, by rw [← Nat.mul_mod]⟩
  have hstart : limbs (1 % m) = limbs (b ^ (e / 2 ^ Nat.size e) % m) := by
    rw [Nat.div_eq_of_lt (Nat.lt_size_self e), pow_zero]
  obtain ⟨l, hl, rfl⟩ := powLoop_rep (fun a b => bnModmul a b (limbs m)) (bnBit (limbs e))
    (limbs (b % m)) (fun l x => l = limbs (x % m)) hmul (bnBit_limbs e) rfl (Nat.size e)
    (limbs (1 % m)) hstart
  exact hl

/-! ## Every path -/

theorem bnModexp_limbs {m : Nat} (hm : 1 < m) (hshort : (limbs m).length < 2 ^ 63) (b e : Nat) :
    bnModexp (limbs b) (limbs e) (limbs m) = some (limbs (b ^ e % m)) := by
  have hpos : 0 < m := by omega
  have hbm := Nat.mod_lt b hpos
  have hpow : (b % m) ^ e % m = b ^ e % m := (Nat.pow_mod b e m).symm
  have hone : bnMod [1] (limbs m) = some (limbs (1 % m)) := by
    exact bnMod_limbs hpos 1
  have hcmp : order m 1 > 0 := by
    unfold order
    rw [if_neg (by omega), if_neg (by omega)]
    decide
  have hcmp1 : bnCmp (limbs m) [1] = some (order m 1) := by
    exact bnCmp_limbs m 1
  have hexp0 : (limbs e).length = 0 → 1 % m = b ^ e % m := fun h => by
    rw [length_limbs_eq_zero.1 h, pow_zero]
  unfold bnModexp
  rw [bnIsOdd_limbs, hcmp1, Option.bind_eq_bind, Option.bind_some]
  by_cases hodd : m % 2 = 1
  · by_cases hlen : (limbs m).length ≤ 64
    · rw [if_pos ⟨by simp [hodd], hlen, hcmp⟩]
      by_cases he : (limbs e).length = 0
      · rw [if_pos he, hone, hexp0 he]
      · rw [if_neg he, bnMod_limbs hpos, Option.bind_eq_bind, Option.bind_some,
          bnNativeExp_limbs hlen hodd hm hbm, hpow]
    · obtain ⟨c, np, hc, hfor⟩ := bnMontNew_limbs hshort hodd hm
      rw [if_neg fun h => hlen h.2.1, if_pos (by simp [hodd]), hc, bnMod_limbs hpos]
      simp only [Option.bind_eq_bind, Option.bind_some, bnModexpMont, hfor.hk, hfor.hn]
      by_cases he : (limbs e).length = 0
      · rw [if_pos he, hone, hexp0 he]
      · rw [if_neg he, if_neg (by omega), if_neg hlen, bnModexpLists_limbs hfor hbm, hpow]
  · rw [if_neg fun h => hodd (by simpa using h.1), if_neg (by simpa using hodd), bnMod_limbs hpos,
      hone, bnBitLen_limbs]
    exact bnModexpPlain_limbs hpos hshort e

/-- Every path of the exponentiation denotes the power, and `bn_modexp` takes one of them. -/
theorem modexp_paths_agree (base exp m : BnNat) (hm : 1 < val m.list) :
    Denotes (bnModexp base.list exp.list m.list)
        (val base.list ^ val exp.list % val m.list) ∧
      (∀ b, bnMod base.list m.list = some b →
        (∀ one size, bnMod [1] m.list = some one → bnBitLen exp.list = some size →
          Denotes (bnModexpPlain b exp.list m.list size one)
            (val base.list ^ val exp.list % val m.list)) ∧
        (val m.list % 2 = 1 → m.list.length ≤ 64 →
          Denotes (bnNativeExp b exp.list m.list (m.list.length * 64))
            (val base.list ^ val exp.list % val m.list)) ∧
        (val m.list % 2 = 1 → ∃ c, bnMontNew m.list = some c ∧
          Denotes (bnModexpLists c b exp.list)
            (val base.list ^ val exp.list % val m.list))) := by
  have hshort := m.short
  rw [m.eq_limbs] at hshort
  rw [base.eq_limbs, exp.eq_limbs, m.eq_limbs]
  simp only [val_limbs]
  generalize val base.list = b
  generalize val exp.list = e
  generalize val m.list = m at *
  have hpos : 0 < m := by omega
  have hbm := Nat.mod_lt b hpos
  have hpow : (b % m) ^ e % m = b ^ e % m := (Nat.pow_mod b e m).symm
  refine ⟨denotes_limbs (bnModexp_limbs hm hshort b e), fun b' hb' => ?_⟩
  rw [bnMod_limbs hpos, Option.some_inj] at hb'
  subst hb'
  refine ⟨fun one size hone hsize => ?_, fun hodd hlen => ?_, fun hodd => ?_⟩
  · rw [← limbs_one, bnMod_limbs hpos, Option.some_inj] at hone
    rw [bnBitLen_limbs, Option.some_inj] at hsize
    subst hone hsize
    exact denotes_limbs (bnModexpPlain_limbs hpos hshort e)
  · refine denotes_limbs ?_
    rw [bnNativeExp_limbs hlen hodd hm hbm, hpow]
  · obtain ⟨c, np, hc, hfor⟩ := bnMontNew_limbs hshort hodd hm
    refine ⟨c, hc, denotes_limbs ?_⟩
    rw [bnModexpLists_limbs hfor hbm, hpow]

/-- 3 to the power 5 modulo 7. -/
theorem modexp_paths_agree_three_five : Denotes (bnModexp [3] [5] [7]) (val [3] ^ val [5] % val [7]) :=
  (modexp_paths_agree
    ⟨[3], ⟨by simp [IsDigits, bnBase], by simp⟩, by simp⟩
    ⟨[5], ⟨by simp [IsDigits, bnBase], by simp⟩, by simp⟩
    ⟨[7], ⟨by simp [IsDigits, bnBase], by simp⟩, by simp⟩ (by decide)).1

end Bignum

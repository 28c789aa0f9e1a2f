import Mathlib.Tactic.LinearCombination
import Resid.Bignum.Arith
import Resid.Lib.Positional
import Resid.Bignum.Limbs

/-!
# Division of limb lists

Knuth's long division as `lib/bignum.resid` writes it.  Each step guesses a quotient
limb from the leading limbs, `bn_qfix` lowers the guess until it is the true limb or one
more, `bn_mulsub` subtracts guess times divisor in place, and when that goes negative
`bn_addback` adds the divisor back once.

    bnQfix guess = some r,  W / V ≤ r ≤ W / V + 1                   (bnQfix_spec)
    one step divides by V and leaves the rest                       (bnDivStep_step)
    0 < y → bnDivmod (limbs x) (limbs y) = (x / y, x % y)           (bnDivmod_limbs)
-/

namespace Bignum

open FixedWidth Positional Loops

/-! ## Algorithm -/

/-- A quotient `q` and remainder `r` of natural numbers. -/
structure BnDiv where
  q : List Nat
  r : List Nat

/-- The working remainder limbs and quotient limbs of a long division. -/
structure BnDivState where
  u : List Nat
  q : List Nat

/-- The limbs left by a multiply-subtract step and the borrow out of its top limb. -/
structure BnMulSub where
  u : List Nat
  borrow : Nat

/-- `x.with(i, d)`: trap outside the list. -/
def withAt (x : List Nat) (i d : Nat) : Option (List Nat) :=
  if i < x.length then some (x.set i d) else none

def bnRevAt (x : List Nat) : Nat → List Nat → Option (List Nat)
  | 0, acc => some acc
  | i + 1, acc => do
    let d ← x[i]?
    bnRevAt x i (acc ++ [d])

def bnReverse (x : List Nat) : Option (List Nat) := bnRevAt x x.length []

/-- The test of `bn_qfix`; the product is formed only below the base. -/
def bnQover (qhat rhat v2 u2 : Nat) : Option Bool :=
  if qhat ≥ bnBase then some true
  else if rhat < bnBase then do
    let p ← mulChk 128 qhat v2
    some (decide (p > shlLow 128 rhat 64 ||| u2))
  else some false

/-- Reduces `qhat` while `qhat >= 2^64` or `qhat * v[n-2] > rhat * 2^64 + u[j+n-2]`. -/
def bnQfix : Nat → Nat → Nat → Nat → Nat → Option Nat
  | 0, rhat, _, v2, u2 => do
    -- `0 - 1` traps
    if ← bnQover 0 rhat v2 u2 then none else some 0
  | q + 1, rhat, vt, v2, u2 => do
    if ← bnQover (q + 1) rhat v2 u2 then
      let r2 ← addChk 128 rhat vt
      if r2 ≥ bnBase then some q else bnQfix q r2 vt v2 u2
    else some (q + 1)

/-- `u[j..j+n] -= qhat * v`, with the borrow out of the top limb. -/
def bnMulsub (u v : List Nat) (qhat j i carry borrow n : Nat) : Option BnMulSub :=
  if i ≥ n then do
    let t ← addChk 128 bnBase (← u[j + n]?)
    let s ← subChk t carry
    let tdiff ← subChk s borrow
    let fb := if shr tdiff 64 = 0 then 1 else 0
    let u1 ← withAt u (j + n) (wrap 64 tdiff)
    some { u := u1, borrow := fb }
  else do
    let m ← mulChk 128 qhat (← v[i]?)
    let p ← addChk 128 m carry
    let plo := p &&& (bnBase - 1)
    let t ← addChk 128 bnBase (← u[j + i]?)
    let s ← subChk t plo
    let d ← subChk s borrow
    let nb := if shr d 64 = 0 then 1 else 0
    let u1 ← withAt u (j + i) (wrap 64 d)
    bnMulsub u1 v qhat j (i + 1) (shr p 64) nb n
termination_by n - i

def bnAddback (u v : List Nat) (j i carry n : Nat) : Option (List Nat) :=
  if i ≥ n then do
    let s ← addChk 128 (← u[j + n]?) carry
    withAt u (j + n) (wrap 64 s)
  else do
    let t ← addChk 128 (← u[j + i]?) (← v[i]?)
    let s ← addChk 128 t carry
    let c ← castChk 64 (shr s 64)
    let u1 ← withAt u (j + i) (wrap 64 s)
    bnAddback u1 v j (i + 1) c n
termination_by n - i

/-- Quotient limbs come from the top, so they are collected in reverse; the argument
`j + 1` stands for the index `j`. -/
def bnDivStep (v : List Nat) (n : Nat) : Nat → List Nat → List Nat → Option BnDivState
  | 0, u, qrev => do
    let q ← bnReverse qrev
    some { u := u, q := q }
  | j + 1, u, qrev => do
    let top := shlLow 128 (← u[j + n]?) 64 ||| (← u[j + n - 1]?)
    let vt ← v[n - 1]?
    let qhat0 ← divChk top vt
    let p ← mulChk 128 qhat0 vt
    let rhat0 ← subChk top p
    let qhat ← bnQfix qhat0 rhat0 vt (← v[n - 2]?) (← u[j + n - 2]?)
    let ms ← bnMulsub u v qhat j 0 0 0 n
    -- a borrow out of the top means qhat was one too big: add v back
    let u2 ← (if ms.borrow = 0 then some ms.u else bnAddback ms.u v j 0 0 n)
    let qd ← (if ms.borrow = 0 then castChk 64 qhat else (subChk qhat 1).bind (castChk 64))
    bnDivStep v n j u2 (qrev ++ [qd])

def bnDivLoop (u v : List Nat) (n m : Nat) (qrev : List Nat) : Option BnDivState :=
  bnDivStep v n (m + 1) u qrev

def bnShortAt (a : List Nat) (d : Nat) : Nat → Nat → List Nat → Option BnDiv
  | 0, rem, qrev => do
    let q ← bnTrim (← bnReverse qrev)
    let r ← castChk 64 rem
    some { q := q, r := bnFromU64 r }
  | i + 1, rem, qrev => do
    let cur := shlLow 128 rem 64 ||| (← a[i]?)
    let t ← divChk cur d
    let p ← mulChk 128 t d
    let rem' ← subChk cur p
    let qd ← castChk 64 t
    bnShortAt a d i rem' (qrev ++ [qd])

def bnDivmodShort (a : List Nat) (d : Nat) : Option BnDiv := bnShortAt a d a.length 0 []

/-- `none` on an empty divisor is the assertion that fails. -/
def bnDivmod (a b : List Nat) : Option BnDiv := do
  if b.length = 0 then none
  else if (← bnCmp a b) < 0 then some { q := [], r := a }
  else
    let top ← b[b.length - 1]?
    if b.length = 1 then bnDivmodShort a top
    else
      let s := 64 - bnLimbBits top 0
      let v ← bnShl b s
      let u0 ← bnShl a s
      -- u gets one extra top limb (zero when the shift did not make one)
      let u := if u0.length = a.length then u0 ++ [0] else u0
      let n := v.length
      let m := u.length - n - 1
      let st ← bnDivLoop u v n m []
      let q ← bnTrim st.q
      let rest ← bnTrim (← bnTake st.u n 0 [])
      let r ← bnShr rest s
      some { q := q, r := r }

def bnMod (a m : List Nat) : Option (List Nat) := (bnDivmod a m).map BnDiv.r

/-! ## Small steps -/

theorem bnRevAt_eq (x : List Nat) : ∀ i acc, i ≤ x.length →
    bnRevAt x i acc = some (acc ++ (x.take i).reverse) := by
  intro i
  induction i with
  | zero =>
    intro acc _
    simp [bnRevAt]
  | succ i ih =>
    intro acc hi
    have hget := List.getElem?_eq_getElem (show i < x.length by omega)
    rw [bnRevAt, hget, Option.bind_eq_bind, Option.bind_some, ih _ (by omega), List.take_add_one,
      hget, List.reverse_append, List.append_assoc]
    rfl

@[simp] theorem bnReverse_eq (x : List Nat) : bnReverse x = some x.reverse := by
  rw [bnReverse, bnRevAt_eq x _ _ (Nat.le_refl _), List.take_length, List.nil_append]

theorem withAt_of_lt {x : List Nat} {i : Nat} (h : i < x.length) (d : Nat) :
    withAt x i d = some (x.set i d) := if_pos h

/-- Two limbs side by side in 128 bits. -/
theorem shl_or_limb {h l : Nat} (hh : h < bnBase) (hl : l < bnBase) :
    shlLow 128 h 64 ||| l = h * bnBase + l := by
  rw [bnBase_eq] at *
  rw [shlLow_of_lt, shl_or_eq_add _ hl]
  calc h * 2 ^ 64 < 2 ^ 64 * 2 ^ 64 := Nat.mul_lt_mul_of_pos_right hh (by decide)
    _ = 2 ^ 128 := by norm_num

theorem two_limbs_lt {h l : Nat} (hh : h < bnBase) (hl : l < bnBase) :
    h * bnBase + l < 2 ^ 128 := by
  have hB : bnBase * bnBase = 2 ^ 128 := by norm_num [bnBase]
  nlinarith

theorem get_of_lt {u : List Nat} {i : Nat} (h : i < u.length) : u[i]? = some (u.getD i 0) := by
  rw [List.getD_eq_getElem _ _ h, List.getElem?_eq_getElem h]

/-- A limb is replaced: the number moves by the difference at its place. -/
theorem val_set {u : List Nat} {k : Nat} (hk : k < u.length) (d : Nat) :
    (val (u.set k d) : Int) = val u + ((d : Int) - u.getD k 0) * (bnBase : Int) ^ k :=
  ofDigits_set bnBase u k d hk

/-- Limbs above place `k` that a change left alone keep the number below `bnBase ^ k`. -/
theorem val_lt_of_drop {u u' : List Nat} {k : Nat} (hu' : IsDigits bnBase u')
    (hk : k ≤ u.length) (hlen : u'.length = u.length) (hdrop : u'.drop k = u.drop k)
    (hlt : val u < bnBase ^ k) : val u' < bnBase ^ k := by
  have hsplit := ofDigits_take_drop bnBase u k hk
  have hsplit' := ofDigits_take_drop bnBase u' k (hlen ▸ hk)
  have hzero : Nat.ofDigits bnBase (u.drop k) = 0 := by
    by_contra h
    have : bnBase ^ k * 1 ≤ bnBase ^ k * Nat.ofDigits bnBase (u.drop k) :=
      Nat.mul_le_mul_left _ (Nat.pos_of_ne_zero h)
    rw [val] at hlt
    omega
  have htake := (hu'.take k).ofDigits_lt one_lt_bnBase
  rw [List.length_take, Nat.min_eq_left (hlen ▸ hk)] at htake
  rw [hdrop, hzero, Nat.mul_zero, Nat.add_zero] at hsplit'
  rw [val, hsplit']
  exact htake

/-! ## Lowering the guess -/

theorem bnQover_spec {guess rest v2 u2 : Nat} (hrest : rest < bnBase) (h2 : v2 < bnBase)
    (hu : u2 < bnBase) :
    bnQover guess rest v2 u2 =
      some (decide (bnBase ≤ guess ∨ rest * bnBase + u2 < guess * v2)) := by
  unfold bnQover
  by_cases h : guess ≥ bnBase
  · rw [if_pos h]
    simp [h]
  · have hmul : guess * v2 < 2 ^ 128 := by
      refine mul_lt_two_pow (w := 64) (by decide) ?_ ?_ <;> rw [← bnBase_eq] <;> omega
    rw [if_neg h, if_pos hrest, mulChk_of_lt hmul, Option.bind_eq_bind, Option.bind_some,
      shl_or_limb hrest hu]
    simp [h]

section Guess

open QuotientDigit

variable {p V W : Nat} (hp : 0 < p) (htop : 0 < V / (p * bnBase)) (hW : W < V * bnBase)

include hp htop hW

/-- The fixed guess is the true digit or one more, and fits a limb. -/
theorem bnQfix_spec : ∀ guess rest, rest < bnBase →
    guess * (V / (p * bnBase)) + rest = W / (p * bnBase) → W / V ≤ guess →
    V / (p * bnBase) < bnBase →
    ∃ r, bnQfix guess rest (V / (p * bnBase)) (V / p % bnBase) (W / p % bnBase) = some r ∧
      W / V ≤ r ∧ r ≤ W / V + 1 ∧ r < bnBase := by
  have h2 := Nat.mod_lt (V / p) bnBase_pos
  have hu := Nat.mod_lt (W / p) bnBase_pos
  intro guess
  induction guess with
  | zero =>
    intro rest hrest hguess hge _
    refine ⟨0, ?_, hge, Nat.zero_le _, bnBase_pos⟩
    have hB := bnBase_pos
    rw [bnQfix, bnQover_spec hrest h2 hu]
    simp [Nat.not_le.2 hB]
  | succ q ih =>
    intro rest hrest hguess hge hvt
    rw [bnQfix, bnQover_spec hrest h2 hu]
    simp only [Option.bind_eq_bind, Option.bind_some]
    by_cases hover : bnBase ≤ q + 1 ∨ rest * bnBase + W / p % bnBase < (q + 1) * (V / p % bnBase)
    · have hge' : W / V ≤ q := by
        rcases hover with h | h
        · have := quot_lt_base hW
          omega
        · have := quot_lt_of_test hp htop hguess h
          omega
      have hguess' : q * (V / (p * bnBase)) + (rest + V / (p * bnBase)) = W / (p * bnBase) := by
        rw [← hguess]
        ring
      have hB := bnBase_add_bnBase
      rw [if_pos (by simpa using hover), addChk_of_lt (by omega), Option.bind_some]
      split
      · -- the rest has passed the base: the three-digit test cannot fail any more
        rename_i hr2
        have hq := guess_lt_of_rest hp bnBase_pos hW hguess' hr2
        refine ⟨q, rfl, hge', ?_, hq⟩
        refine le_quot_succ_of_test hp htop (Nat.le_of_lt hq) hguess' ?_
        have : q * (V / p % bnBase) ≤ bnBase * bnBase :=
          Nat.mul_le_mul (Nat.le_of_lt hq) (Nat.le_of_lt h2)
        have : bnBase * bnBase ≤ (rest + V / (p * bnBase)) * bnBase := Nat.mul_le_mul_right _ hr2
        omega
      · exact ih _ (by omega) hguess' hge' hvt
    · have hq : q + 1 < bnBase := by omega
      refine ⟨q + 1, if_neg (by simpa using hover), hge, ?_, hq⟩
      exact le_quot_succ_of_test hp htop (Nat.le_of_lt hq) hguess (by omega)

end Guess

/-! ## Multiply and subtract, add back -/

/-- One limb of a subtraction: no check fails, and the limb written is the difference with
the borrow out of it. -/
theorem sub_limb {x y c : Nat} (hx : x < bnBase) (hy : y < bnBase) (hc : c ≤ 1) :
    addChk 128 bnBase x = some (bnBase + x) ∧ subChk (bnBase + x) y = some (bnBase + x - y) ∧
      subChk (bnBase + x - y) c = some (bnBase + x - y - c) ∧
      ((wrap 64 (bnBase + x - y - c) : Nat) : Int) =
        (x : Int) - y - c + (if shr (bnBase + x - y - c) 64 = 0 then 1 else 0 : Nat) * bnBase := by
  have hB := bnBase_add_bnBase
  refine ⟨addChk_of_lt (by omega), subChk_of_le (by omega), subChk_of_le (by omega), ?_⟩
  rw [shr_64, wrap_64]
  by_cases h : bnBase + x - y - c < bnBase
  · rw [Nat.mod_eq_of_lt h, if_pos (Nat.div_eq_of_lt h)]
    omega
  · have hlt : bnBase + x - y - c - bnBase < bnBase := by omega
    have hne : (bnBase + x - y - c) / bnBase ≠ 0 :=
      Nat.ne_of_gt (Nat.div_pos (Nat.le_of_not_lt h) bnBase_pos)
    rw [Nat.mod_eq_sub_mod (Nat.le_of_not_lt h), Nat.mod_eq_of_lt hlt, if_neg hne]
    omega

/-- The limbs of `V` from place `i` on: the lowest and the rest. -/
theorem div_pow_eq_digit_add (V i : Nat) :
    V / bnBase ^ i = digit bnBase V i + bnBase * (V / bnBase ^ (i + 1)) := by
  rw [digit, pow_succ, ← Nat.div_div_eq_div_mul, Nat.mod_add_div]

theorem bnMulsub_run {V n qhat : Nat} (hn : (limbs V).length = n) (hq : qhat < bnBase) (j : Nat) :
    ∀ i u carry borrow, i ≤ n → IsDigits bnBase u → j + n < u.length → carry < bnBase →
      borrow ≤ 1 →
      ∃ u' fb, bnMulsub u (limbs V) qhat j i carry borrow n = some ⟨u', fb⟩ ∧
        IsDigits bnBase u' ∧ u'.length = u.length ∧ fb ≤ 1 ∧
        u'.drop (j + n + 1) = u.drop (j + n + 1) ∧
        (val u' : Int) = val u -
          ((qhat : Int) * (V / bnBase ^ i : Nat) + carry + borrow) * (bnBase : Int) ^ (j + i) +
          fb * (bnBase : Int) ^ (j + n + 1) := by
  intro i u carry borrow hi hu hlen hcarry hborrow
  induction h : n - i generalizing i u carry borrow with
  | zero =>
    obtain rfl : i = n := by omega
    have hlim := hu.getD_lt bnBase_pos (j + i)
    obtain ⟨h1, h2, h3, h4⟩ := sub_limb hlim hcarry hborrow
    rw [bnMulsub, if_pos (Nat.le_refl i), get_of_lt hlen]
    simp only [Option.bind_eq_bind, Option.bind_some, h1, h2, h3, withAt_of_lt hlen]
    refine ⟨_, _, rfl, hu.set ?_ _, List.length_set, ?_, ?_, ?_⟩
    · rw [wrap_64]
      exact Nat.mod_lt _ bnBase_pos
    · split <;> omega
    · rw [List.drop_set_of_lt (by omega)]
    · have hV : V / bnBase ^ i = 0 := Nat.div_eq_of_lt (hn ▸ lt_pow_length V)
      rw [val_set hlen, h4, hV]
      ring
  | succ k ih =>
    have hlen' : j + i < u.length := by omega
    have hlim := hu.getD_lt bnBase_pos (j + i)
    have hv := digit_lt_bnBase V i
    have hprod : qhat * digit bnBase V i + carry < bnBase * bnBase := by nlinarith
    have hBB : bnBase * bnBase = 2 ^ 128 := by norm_num [bnBase]
    have hmask : ∀ p, p &&& (bnBase - 1) = p % bnBase := by
      intro p
      exact Nat.and_two_pow_sub_one_eq_mod p 64
    have hlow := Nat.mod_lt (qhat * digit bnBase V i + carry) bnBase_pos
    obtain ⟨h1, h2, h3, h4⟩ := sub_limb hlim hlow hborrow
    rw [bnMulsub, if_neg (by omega), getElem?_limbs (by omega), get_of_lt hlen']
    simp only [Option.bind_eq_bind, Option.bind_some]
    rw [mulChk_of_lt (by omega), Option.bind_some, addChk_of_lt (by omega), Option.bind_some, hmask]
    simp only [h1, h2, h3, Option.bind_some, withAt_of_lt hlen', shr_64 (_ + carry)]
    generalize hnb : (if shr _ 64 = 0 then 1 else 0) = nb at *
    have hnb1 : nb ≤ 1 := by
      rw [← hnb]
      split <;> omega
    have hw : wrap 64 (bnBase + u.getD (j + i) 0 -
        (qhat * digit bnBase V i + carry) % bnBase - borrow) < bnBase := by
      exact Nat.mod_lt _ bnBase_pos
    obtain ⟨u', fb, hrun, hdig, hlen'', hfb, hdrop, hval⟩ := ih (i + 1) _ _ _ (by omega)
      (hu.set hw (j + i)) (by rw [List.length_set]; exact hlen)
      (Nat.div_lt_of_lt_mul hprod) hnb1 (by omega)
    refine ⟨u', fb, hrun, hdig, hlen''.trans List.length_set, hfb, ?_, ?_⟩
    · rw [hdrop, List.drop_set_of_lt (by omega)]
    · -- the product's low limb is subtracted here, its high limb is carried on
      have hsplit := Nat.mod_add_div (qhat * digit bnBase V i + carry) bnBase
      have hsplit' : (((qhat * digit bnBase V i + carry) % bnBase : Nat) : Int) +
          bnBase * ((qhat * digit bnBase V i + carry) / bnBase : Nat) =
          (qhat : Int) * digit bnBase V i + carry := by exact_mod_cast hsplit
      have hrest := div_pow_eq_digit_add V i
      rw [hval, val_set hlen', h4, hrest]
      push_cast at hsplit' ⊢
      linear_combination (-(bnBase : Int) ^ (j + i)) * hsplit'

theorem bnAddback_run {V n : Nat} (hn : (limbs V).length = n) (j : Nat) :
    ∀ i u carry, i ≤ n → IsDigits bnBase u → j + n < u.length → carry ≤ 1 →
      ∃ u' c, bnAddback u (limbs V) j i carry n = some u' ∧
        IsDigits bnBase u' ∧ u'.length = u.length ∧ c ≤ 1 ∧
        u'.drop (j + n + 1) = u.drop (j + n + 1) ∧
        (val u' : Int) = val u + ((V / bnBase ^ i : Nat) + carry : Int) * (bnBase : Int) ^ (j + i) -
          (c : Nat) * (bnBase : Int) ^ (j + n + 1) := by
  have hB := bnBase_add_bnBase
  intro i u carry hi hu hlen hcarry
  induction h : n - i generalizing i u carry with
  | zero =>
    obtain rfl : i = n := by omega
    have hlim := hu.getD_lt bnBase_pos (j + i)
    rw [bnAddback, if_pos (Nat.le_refl i), get_of_lt hlen]
    simp only [Option.bind_eq_bind, Option.bind_some]
    rw [addChk_of_lt (by omega), Option.bind_some, withAt_of_lt hlen, wrap_64]
    refine ⟨_, (u.getD (j + i) 0 + carry) / bnBase, rfl, hu.set (Nat.mod_lt _ bnBase_pos) _,
      List.length_set, ?_, ?_, ?_⟩
    · exact Nat.le_of_lt_succ (Nat.div_lt_of_lt_mul (by omega))
    · rw [List.drop_set_of_lt (by omega)]
    · have hV : V / bnBase ^ i = 0 := Nat.div_eq_of_lt (hn ▸ lt_pow_length V)
      have hsplit : (((u.getD (j + i) 0 + carry) % bnBase : Nat) : Int) +
          bnBase * ((u.getD (j + i) 0 + carry) / bnBase : Nat) = (u.getD (j + i) 0 : Int) + carry := by
        exact_mod_cast Nat.mod_add_div (u.getD (j + i) 0 + carry) bnBase
      rw [val_set hlen, hV]
      linear_combination ((bnBase : Int) ^ (j + i)) * hsplit
  | succ k ih =>
    have hlen' : j + i < u.length := by omega
    have hlim := hu.getD_lt bnBase_pos (j + i)
    have hv := digit_lt_bnBase V i
    have hsum : (u.getD (j + i) 0 + digit bnBase V i + carry) / bnBase ≤ 1 :=
      Nat.le_of_lt_succ (Nat.div_lt_of_lt_mul (by omega))
    have h1 := one_lt_bnBase
    rw [bnAddback, if_neg (by omega), getElem?_limbs (by omega), get_of_lt hlen']
    simp only [Option.bind_eq_bind, Option.bind_some]
    rw [addChk_of_lt (by omega), Option.bind_some, addChk_of_lt (by omega), Option.bind_some,
      shr_64, castChk_of_lt (by rw [← bnBase_eq]; omega), Option.bind_some,
      withAt_of_lt hlen', Option.bind_some, wrap_64]
    obtain ⟨u', c, hrun, hdig, hlen'', hc, hdrop, hval⟩ := ih (i + 1) _ _ (by omega)
      (hu.set (Nat.mod_lt (u.getD (j + i) 0 + digit bnBase V i + carry) bnBase_pos) (j + i))
      (by rw [List.length_set]; exact hlen) hsum (by omega)
    refine ⟨u', c, hrun, hdig, hlen''.trans List.length_set, hc, ?_, ?_⟩
    · rw [hdrop, List.drop_set_of_lt (by omega)]
    · have hsplit : (((u.getD (j + i) 0 + digit bnBase V i + carry) % bnBase : Nat) : Int) +
          bnBase * ((u.getD (j + i) 0 + digit bnBase V i + carry) / bnBase : Nat) =
          (u.getD (j + i) 0 : Int) + digit bnBase V i + carry := by
        exact_mod_cast Nat.mod_add_div (u.getD (j + i) 0 + digit bnBase V i + carry) bnBase
      have hrest := div_pow_eq_digit_add V i
      rw [hval, val_set hlen', hrest]
      push_cast at hsplit ⊢
      linear_combination ((bnBase : Int) ^ (j + i)) * hsplit

/-! ## One quotient limb -/

theorem getElem?_val {u : List Nat} (hu : IsDigits bnBase u) {i : Nat} (hi : i < u.length) :
    u[i]? = some (digit bnBase (val u) i) := getElem?_eq_digit one_lt_bnBase hu hi

theorem digit_top {x i : Nat} (h : x < bnBase ^ (i + 1)) : digit bnBase x i = x / bnBase ^ i :=
  Nat.mod_eq_of_lt (Nat.div_lt_of_lt_mul (by rwa [← pow_succ]))

/-- The two top limbs of a number of at most `t + 2` limbs. -/
theorem top_two {x t : Nat} (h : x < bnBase ^ (t + 2)) :
    digit bnBase x (t + 1) * bnBase + digit bnBase x t = x / bnBase ^ t := by
  rw [digit_top h, digit, pow_succ, ← Nat.div_div_eq_div_mul, Nat.div_add_mod']

/-- What a division step reads: `k + 2` limbs of divisor, the working limbs at place `j`. -/
structure StepInput (V k j : Nat) (u : List Nat) : Prop where
  length_divisor : (limbs V).length = k + 2
  digits : IsDigits bnBase u
  length : j + (k + 2) < u.length
  lt : val u < V * bnBase ^ (j + 1)

section Step

variable {V k j : Nat} {u : List Nat} (h : StepInput V k j u)

include h

theorem StepInput.divisor_lt : V < bnBase ^ (k + 2) := h.length_divisor ▸ lt_pow_length V

theorem StepInput.divisor_pos : 0 < V :=
  lt_of_lt_of_le (Nat.pow_pos bnBase_pos) (pow_le_of_length h.length_divisor)

theorem StepInput.val_lt : val u < bnBase ^ (j + (k + 2) + 1) := by
  calc val u < V * bnBase ^ (j + 1) := h.lt
    _ ≤ bnBase ^ (k + 2) * bnBase ^ (j + 1) := Nat.mul_le_mul_right _ (Nat.le_of_lt h.divisor_lt)
    _ = bnBase ^ (j + (k + 2) + 1) := by
      rw [← pow_add]
      congr 1
      omega

theorem StepInput.window_lt : val u / bnBase ^ j < V * bnBase := by
  rw [Nat.div_lt_iff_lt_mul (Nat.pow_pos bnBase_pos), Nat.mul_assoc, ← pow_succ']
  exact h.lt

/-- The top limb of the divisor. -/
theorem StepInput.divisor_top : V / (bnBase ^ k * bnBase) = digit bnBase V (k + 1) := by
  rw [← pow_succ, digit_top h.divisor_lt]

theorem StepInput.divisor_top_pos : 0 < V / (bnBase ^ k * bnBase) := by
  rw [← pow_succ]
  exact Nat.div_pos (pow_le_of_length h.length_divisor) (Nat.pow_pos bnBase_pos)

/-- The two top limbs of the window. -/
theorem StepInput.window_top : val u / bnBase ^ j / (bnBase ^ k * bnBase) =
    digit bnBase (val u) (j + k + 2) * bnBase + digit bnBase (val u) (j + k + 1) := by
  have hlt : val u < bnBase ^ (j + k + 1 + 2) := by
    have := h.val_lt
    rwa [show j + (k + 2) + 1 = j + k + 1 + 2 by omega] at this
  rw [top_two hlt, ← pow_succ, Nat.div_div_eq_div_mul, ← pow_add, Nat.add_assoc]

omit h in
theorem window_third (u : List Nat) (j k : Nat) :
    val u / bnBase ^ j / bnBase ^ k % bnBase = digit bnBase (val u) (j + k) := by
  rw [Nat.div_div_eq_div_mul, ← pow_add, digit]

/-- The guess of a division step, fixed: the true quotient limb or one more. -/
theorem StepInput.guess_spec : 0 < digit bnBase V (k + 1) ∧ ∃ r,
    bnQfix
        ((digit bnBase (val u) (j + k + 2) * bnBase + digit bnBase (val u) (j + k + 1)) /
          digit bnBase V (k + 1))
        ((digit bnBase (val u) (j + k + 2) * bnBase + digit bnBase (val u) (j + k + 1)) %
          digit bnBase V (k + 1))
        (digit bnBase V (k + 1)) (digit bnBase V k) (digit bnBase (val u) (j + k)) = some r ∧
      val u / bnBase ^ j / V ≤ r ∧ r ≤ val u / bnBase ^ j / V + 1 ∧ r < bnBase := by
  have hp : 0 < bnBase ^ k := Nat.pow_pos bnBase_pos
  have hpos := h.divisor_top_pos
  have hge := QuotientDigit.quot_le_guess (W := val u / bnBase ^ j) hp bnBase_pos hpos
  have hspec := bnQfix_spec hp hpos h.window_lt
  rw [h.window_top, h.divisor_top] at hge
  rw [h.window_top, h.divisor_top, window_third u j k] at hspec
  rw [h.divisor_top] at hpos
  have hvtB := digit_lt_bnBase V (k + 1)
  have hv2 : V / bnBase ^ k % bnBase = digit bnBase V k := rfl
  generalize digit bnBase (val u) (j + k + 2) * bnBase + digit bnBase (val u) (j + k + 1) = top at *
  generalize digit bnBase V (k + 1) = vt at *
  exact ⟨hpos, hspec (top / vt) (top % vt) (lt_trans (Nat.mod_lt top hpos) hvtB)
    (Nat.div_add_mod' top vt) hge hvtB⟩

omit h in
/-- The arithmetic of a division step up to the fixed guess, for the limbs it reads. -/
theorem bnDivStep_of_reads {r uh ul u2 vt v2 : Nat} (qrev : List Nat)
    (euh : u[j + (k + 2)]? = some uh) (eul : u[j + (k + 2) - 1]? = some ul)
    (eu2 : u[j + (k + 2) - 2]? = some u2) (evt : (limbs V)[k + 2 - 1]? = some vt)
    (ev2 : (limbs V)[k + 2 - 2]? = some v2) (huh : uh < bnBase) (hul : ul < bnBase)
    (hvt : 0 < vt)
    (hr : bnQfix ((uh * bnBase + ul) / vt) ((uh * bnBase + ul) % vt) vt v2 u2 = some r) :
    bnDivStep (limbs V) (k + 2) (j + 1) u qrev =
      (bnMulsub u (limbs V) r j 0 0 0 (k + 2)).bind fun ms =>
        (if ms.borrow = 0 then some ms.u else bnAddback ms.u (limbs V) j 0 0 (k + 2)).bind
          fun u2 =>
            (if ms.borrow = 0 then castChk 64 r else (subChk r 1).bind (castChk 64)).bind
              fun qd => bnDivStep (limbs V) (k + 2) j u2 (qrev ++ [qd]) := by
  have hlt := two_limbs_lt huh hul
  rw [bnDivStep, euh, eul, eu2, evt, ev2]
  simp only [Option.bind_eq_bind, Option.bind_some, shl_or_limb huh hul]
  generalize uh * bnBase + ul = top at *
  have hle := Nat.div_mul_le_self top vt
  have hsub : top - top / vt * vt = top % vt := by
    have := Nat.div_add_mod' top vt
    omega
  rw [divChk_of_pos hvt, Option.bind_some, mulChk_of_lt (lt_of_le_of_lt hle hlt),
    Option.bind_some, subChk_of_le hle, Option.bind_some, hsub, hr, Option.bind_some]

/-- A division step is its subtraction of a guess that is right or one too big. -/
theorem StepInput.bnDivStep_guess (qrev : List Nat) :
    ∃ r, val u / bnBase ^ j / V ≤ r ∧ r ≤ val u / bnBase ^ j / V + 1 ∧ r < bnBase ∧
      bnDivStep (limbs V) (k + 2) (j + 1) u qrev =
        (bnMulsub u (limbs V) r j 0 0 0 (k + 2)).bind fun ms =>
          (if ms.borrow = 0 then some ms.u else bnAddback ms.u (limbs V) j 0 0 (k + 2)).bind
            fun u2 =>
              (if ms.borrow = 0 then castChk 64 r else (subChk r 1).bind (castChk 64)).bind
                fun qd => bnDivStep (limbs V) (k + 2) j u2 (qrev ++ [qd]) := by
  have hlen := h.length
  have hlenV := h.length_divisor
  have hread : ∀ i t, i = t → t < u.length → u[i]? = some (digit bnBase (val u) t) := by
    rintro i t rfl ht
    exact getElem?_val h.digits ht
  have hreadV : ∀ i t, i = t → t < k + 2 → (limbs V)[i]? = some (digit bnBase V t) := by
    rintro i t rfl ht
    exact getElem?_limbs (hlenV.symm ▸ ht)
  obtain ⟨hpos, r, hr, h1, h2, h3⟩ := h.guess_spec
  exact ⟨r, h1, h2, h3, bnDivStep_of_reads qrev (hread _ (j + k + 2) (by omega) (by omega))
    (hread _ (j + k + 1) (by omega) (by omega)) (hread _ (j + k) (by omega) (by omega))
    (hreadV _ (k + 1) (by omega) (by omega)) (hreadV _ k (by omega) (by omega))
    (digit_lt_bnBase _ _) (digit_lt_bnBase _ _) hpos hr⟩

end Step

/-- One step: the quotient limb pushed is the true one, and the limbs left are what the
divisor at that place leaves. -/
theorem StepInput.bnDivStep_step {V k j : Nat} {u : List Nat} (h : StepInput V k j u)
    (qrev : List Nat) :
    ∃ u', bnDivStep (limbs V) (k + 2) (j + 1) u qrev =
        bnDivStep (limbs V) (k + 2) j u' (qrev ++ [val u / bnBase ^ j / V]) ∧
      IsDigits bnBase u' ∧ u'.length = u.length ∧ val u' < V * bnBase ^ j ∧
      val u = val u / bnBase ^ j / V * bnBase ^ j * V + val u' := by
  have hn := h.length_divisor
  have hlen := h.length
  have hp : 0 < bnBase ^ j := Nat.pow_pos bnBase_pos
  have hVpos := h.divisor_pos
  obtain ⟨r, hge, hle, hrB, hguess⟩ := h.bnDivStep_guess qrev
  have hq1 : val u / bnBase ^ j / V * bnBase ^ j * V ≤ val u := by
    have h1 := Nat.div_mul_le_self (val u / bnBase ^ j) V
    have h2 := Nat.div_mul_le_self (val u) (bnBase ^ j)
    calc _ = val u / bnBase ^ j / V * V * bnBase ^ j := by ring
      _ ≤ val u / bnBase ^ j * bnBase ^ j := Nat.mul_le_mul_right _ h1
      _ ≤ val u := h2
  have hq2 : val u < (val u / bnBase ^ j / V + 1) * bnBase ^ j * V := by
    have h1 := Nat.lt_div_mul_add hVpos (a := val u / bnBase ^ j)
    have h2 := Nat.lt_div_mul_add hp (a := val u)
    calc val u < val u / bnBase ^ j * bnBase ^ j + bnBase ^ j := h2
      _ = (val u / bnBase ^ j + 1) * bnBase ^ j := by ring
      _ ≤ (val u / bnBase ^ j / V * V + V) * bnBase ^ j := Nat.mul_le_mul_right _ h1
      _ = _ := by ring
  have hqB : val u / bnBase ^ j / V < bnBase := lt_of_le_of_lt hge hrB
  obtain ⟨u1, fb, hrun, hdig1, hlen1, hfb, hdrop1, hval1⟩ := bnMulsub_run hn hrB j 0 u 0 0
    (Nat.zero_le _) h.digits hlen bnBase_pos (Nat.zero_le _)
  have hlt1 := val_lt_of_drop hdig1 (by omega) hlen1 hdrop1 h.val_lt
  rw [hrun, Option.bind_some] at hguess
  generalize hQ : val u / bnBase ^ j / V = q at *
  simp only [pow_zero, Nat.div_one, Nat.cast_zero, add_zero] at hval1
  have hq2' : val u < q * bnBase ^ j * V + V * bnBase ^ j := by
    calc val u < (q + 1) * bnBase ^ j * V := hq2
      _ = q * bnBase ^ j * V + V * bnBase ^ j := by ring
  rcases Nat.le_one_iff_eq_zero_or_eq_one.1 hfb with rfl | rfl
  · -- no borrow: the guess was the quotient limb
    have hval : val u = r * bnBase ^ j * V + val u1 := by
      have : (val u : Int) = (r : Int) * bnBase ^ j * V + val u1 := by
        rw [hval1]
        ring
      exact_mod_cast this
    have hrq : r = q := by
      rcases Nat.lt_or_ge q r with h | h
      · have hmono : (q + 1) * (bnBase ^ j * V) ≤ r * (bnBase ^ j * V) := Nat.mul_le_mul_right _ h
        rw [← Nat.mul_assoc, ← Nat.mul_assoc] at hmono
        omega
      · omega
    refine ⟨u1, ?_, hdig1, hlen1, ?_, hrq ▸ hval⟩
    · rw [hguess, if_pos rfl, if_pos rfl, Option.bind_some, castChk_of_lt (by rwa [← bnBase_eq]),
        Option.bind_some, hrq]
    · rw [hrq] at hval
      omega
  · -- a borrow: the guess was one too big
    have hrq : r = q + 1 := by
      rcases Nat.lt_or_ge q r with h | h
      · omega
      · exfalso
        have hmono : r * (bnBase ^ j * V) ≤ q * (bnBase ^ j * V) := Nat.mul_le_mul_right _ h
        rw [← Nat.mul_assoc, ← Nat.mul_assoc] at hmono
        have : (val u1 : Int) + (r : Int) * bnBase ^ j * V =
            val u + (bnBase : Int) ^ (j + (k + 2) + 1) := by
          rw [hval1]
          ring
        have : val u1 + r * bnBase ^ j * V = val u + bnBase ^ (j + (k + 2) + 1) := by
          exact_mod_cast this
        omega
    obtain ⟨u2, c, hback, hdig2, hlen2, hc, hdrop2, hval2⟩ := bnAddback_run hn j 0 u1 0
      (Nat.zero_le _) hdig1 (by omega) (Nat.zero_le _)
    have hlt2 := val_lt_of_drop hdig2 (by omega) hlen2 hdrop2 hlt1
    simp only [pow_zero, Nat.div_one, Nat.cast_zero, add_zero] at hval2
    have hsum : val u2 + q * bnBase ^ j * V + c * bnBase ^ (j + (k + 2) + 1) =
        val u + bnBase ^ (j + (k + 2) + 1) := by
      have : (val u2 : Int) + (q : Int) * bnBase ^ j * V + c * (bnBase : Int) ^ (j + (k + 2) + 1) =
          val u + (bnBase : Int) ^ (j + (k + 2) + 1) := by
        rw [hval2, hval1, hrq]
        push_cast
        ring
      exact_mod_cast this
    have hc1 : c = 1 := by
      rcases Nat.le_one_iff_eq_zero_or_eq_one.1 hc with rfl | h
      · omega
      · exact h
    rw [hc1, Nat.one_mul] at hsum
    have hval : val u = q * bnBase ^ j * V + val u2 := by omega
    refine ⟨u2, ?_, hdig2, hlen2.trans hlen1, by omega, hval⟩
    rw [hguess, if_neg Nat.one_ne_zero, if_neg Nat.one_ne_zero, hback, Option.bind_some,
      subChk_of_le (by omega), Option.bind_some, hrq, Nat.add_sub_cancel,
      castChk_of_lt (by rwa [← bnBase_eq]), Option.bind_some]

/-! ## The whole division -/

theorem bnDivStep_run {V k : Nat} (hn : (limbs V).length = k + 2) :
    ∀ j u qrev, IsDigits bnBase u → IsDigits bnBase qrev → j + (k + 2) ≤ u.length →
      val u < V * bnBase ^ j →
      ∃ u' q, bnDivStep (limbs V) (k + 2) j u qrev = some ⟨u', q⟩ ∧ IsDigits bnBase u' ∧
        u'.length = u.length ∧ val u' = val u % V ∧ IsDigits bnBase q ∧
        val q = val qrev.reverse * bnBase ^ j + val u / V := by
  have hVpos : 0 < V := lt_of_lt_of_le (Nat.pow_pos bnBase_pos) (pow_le_of_length hn)
  intro j
  induction j with
  | zero =>
    intro u qrev hu hq _ hlt
    rw [pow_zero, Nat.mul_one] at hlt
    refine ⟨u, qrev.reverse, ?_, hu, rfl, (Nat.mod_eq_of_lt hlt).symm, ?_, ?_⟩
    · rw [bnDivStep, bnReverse_eq, Option.bind_eq_bind, Option.bind_some]
    · exact fun d hd => hq d (List.mem_reverse.1 hd)
    · rw [pow_zero, Nat.mul_one, Nat.div_eq_of_lt hlt, Nat.add_zero]
  | succ j ih =>
    intro u qrev hu hq hlen hlt
    have hin : StepInput V k j u := ⟨hn, hu, by omega, hlt⟩
    obtain ⟨u1, hstep, hdig1, hlen1, hlt1, hval1⟩ := hin.bnDivStep_step qrev
    have hqd := QuotientDigit.quot_lt_base hin.window_lt
    generalize val u / bnBase ^ j / V = qd at *
    obtain ⟨u', q, hrun, hdig, hlen', hval, hqdig, hqval⟩ := ih u1 (qrev ++ [qd]) hdig1
      (hq.append (IsDigits.singleton hqd)) (by omega) hlt1
    refine ⟨u', q, hstep.trans hrun, hdig, hlen'.trans hlen1, ?_, hqdig, ?_⟩
    · rw [hval, hval1, Nat.mul_comm _ V, Nat.mul_add_mod]
    · have hrev : val (qrev ++ [qd]).reverse = qd + bnBase * val qrev.reverse := by
        rw [List.reverse_append, List.reverse_singleton, List.singleton_append, val,
          Nat.ofDigits_cons]
        rfl
      rw [hqval, hrev, hval1, Nat.mul_comm _ V, Nat.mul_add_div hVpos]
      ring

theorem bnShortAt_run {x d : Nat} (hd : 0 < d) (hdB : d < bnBase) :
    ∀ i qrev, i ≤ (limbs x).length → IsDigits bnBase qrev →
      val qrev.reverse = x / bnBase ^ i / d →
      bnShortAt (limbs x) d i (x / bnBase ^ i % d) qrev =
        some { q := limbs (x / d), r := limbs (x % d) } := by
  intro i
  induction i with
  | zero =>
    intro qrev _ hq hval
    rw [pow_zero, Nat.div_one] at hval ⊢
    have hrem : x % d < bnBase := lt_trans (Nat.mod_lt x hd) hdB
    have hqr : IsDigits bnBase qrev.reverse := fun d hd => hq d (List.mem_reverse.1 hd)
    rw [bnShortAt, bnReverse_eq]
    simp only [Option.bind_eq_bind, Option.bind_some, bnTrim_eq hqr, hval]
    rw [castChk_of_lt (by rwa [← bnBase_eq]), Option.bind_some, bnFromU64_eq hrem]
  | succ i ih =>
    intro qrev hi hq hval
    have hrem := Nat.mod_lt (x / bnBase ^ (i + 1)) hd
    have hremB : x / bnBase ^ (i + 1) % d < bnBase := lt_trans hrem hdB
    have hdig := digit_lt_bnBase x i
    -- the running remainder and the next limb are the next dividend
    have hcur : (x / bnBase ^ (i + 1) % d * bnBase + digit bnBase x i) / d < bnBase := by
      refine Nat.div_lt_of_lt_mul ?_
      nlinarith
    have hnext : x / bnBase ^ i =
        x / bnBase ^ (i + 1) / d * bnBase * d +
          (x / bnBase ^ (i + 1) % d * bnBase + digit bnBase x i) := by
      have h1 := div_pow_eq_digit_add x i
      have h2 := Nat.div_add_mod' (x / bnBase ^ (i + 1)) d
      calc x / bnBase ^ i = digit bnBase x i + bnBase * (x / bnBase ^ (i + 1)) := h1
        _ = digit bnBase x i +
            bnBase * (x / bnBase ^ (i + 1) / d * d + x / bnBase ^ (i + 1) % d) := by rw [h2]
        _ = _ := by ring
    have hcurlt := two_limbs_lt hremB hdig
    have hmod : x / bnBase ^ i % d =
        (x / bnBase ^ (i + 1) % d * bnBase + digit bnBase x i) % d := by
      rw [hnext, Nat.mul_comm _ d, Nat.mul_add_mod]
    have hdiv : x / bnBase ^ i / d = x / bnBase ^ (i + 1) / d * bnBase +
        (x / bnBase ^ (i + 1) % d * bnBase + digit bnBase x i) / d := by
      rw [hnext, Nat.mul_comm _ d, Nat.mul_add_div hd]
    have ih' := ih (qrev ++ [(x / bnBase ^ (i + 1) % d * bnBase + digit bnBase x i) / d])
      (by omega) (hq.append (IsDigits.singleton hcur))
    rw [bnShortAt, getElem?_limbs (by omega)]
    simp only [Option.bind_eq_bind, Option.bind_some, shl_or_limb hremB hdig]
    generalize x / bnBase ^ (i + 1) % d * bnBase + digit bnBase x i = cur at *
    have hle := Nat.div_mul_le_self cur d
    have hsub : cur - cur / d * d = cur % d := by
      have := Nat.div_add_mod' cur d
      omega
    rw [divChk_of_pos hd, Option.bind_some, mulChk_of_lt (lt_of_le_of_lt hle hcurlt),
      Option.bind_some, subChk_of_le hle, Option.bind_some, castChk_of_lt (by rwa [← bnBase_eq]),
      Option.bind_some, hsub, ← hmod]
    apply ih'
    rw [List.reverse_append, List.reverse_singleton, List.singleton_append, val,
      Nat.ofDigits_cons, hdiv]
    rw [val] at hval
    rw [hval]
    ring

theorem bnDivmodShort_limbs {d : Nat} (hd : 0 < d) (hdB : d < bnBase) (x : Nat) :
    bnDivmodShort (limbs x) d = some { q := limbs (x / d), r := limbs (x % d) } := by
  have hz : x / bnBase ^ (limbs x).length = 0 := Nat.div_eq_of_lt (lt_pow_length x)
  have hrun := bnShortAt_run (x := x) hd hdB _ [] (Nat.le_refl _) (IsDigits.nil _)
    (by rw [hz, Nat.zero_div]; rfl)
  rwa [hz, Nat.zero_mod] at hrun

/-- The shift that lifts the divisor's top limb keeps its length. -/
theorem length_shift_divisor {y j : Nat} (hj : (limbs y).length = j + 1) :
    (limbs (y * 2 ^ (64 - Nat.size (digit bnBase y j)))).length = j + 1 := by
  have hsize := size_eq_of_top hj
  have hle : Nat.size (digit bnBase y j) ≤ 64 := Nat.size_le.2 (digit_lt_two_pow y j)
  apply Nat.le_antisymm
  · apply length_limbs_le
    rw [bnBase_pow]
    calc y * 2 ^ (64 - Nat.size (digit bnBase y j))
        < 2 ^ Nat.size y * 2 ^ (64 - Nat.size (digit bnBase y j)) :=
          Nat.mul_lt_mul_of_pos_right (Nat.lt_size_self y) (Nat.two_pow_pos _)
      _ = 2 ^ (64 * (j + 1)) := by
        rw [← pow_add]
        congr 1
        omega
  · exact lt_length_limbs (le_trans (pow_le_of_length hj)
      (Nat.le_mul_of_pos_right y (Nat.two_pow_pos _)))

/-- The shifted dividend has the limbs of the dividend or one more. -/
theorem length_shift_dividend {x s : Nat} (hs : s ≤ 64) (hx : 0 < x) :
    (limbs (x * 2 ^ s)).length = (limbs x).length ∨
      (limbs (x * 2 ^ s)).length = (limbs x).length + 1 := by
  obtain ⟨j, hj⟩ : ∃ j, (limbs x).length = j + 1 := by
    have : (limbs x).length ≠ 0 := fun h => by
      rw [length_limbs_eq_zero] at h
      omega
    exact ⟨(limbs x).length - 1, by omega⟩
  have hge : j < (limbs (x * 2 ^ s)).length := lt_length_limbs (le_trans (pow_le_of_length hj)
    (Nat.le_mul_of_pos_right x (Nat.two_pow_pos s)))
  have hle : (limbs (x * 2 ^ s)).length ≤ (limbs x).length + 1 := by
    apply length_limbs_le
    calc x * 2 ^ s < bnBase ^ (limbs x).length * 2 ^ s :=
          Nat.mul_lt_mul_of_pos_right (lt_pow_length x) (Nat.two_pow_pos s)
      _ ≤ bnBase ^ (limbs x).length * bnBase := by
        exact Nat.mul_le_mul_left _ (Nat.pow_le_pow_right (by decide) hs)
      _ = bnBase ^ ((limbs x).length + 1) := (pow_succ _ _).symm
  omega

/-- The working limbs: the shifted dividend with one limb of room on top. -/
theorem working_limbs {x s : Nat} (hs : s ≤ 64) (hx : 0 < x) :
    ∃ u, (if (limbs (x * 2 ^ s)).length = (limbs x).length then limbs (x * 2 ^ s) ++ [0]
        else limbs (x * 2 ^ s)) = u ∧
      IsDigits bnBase u ∧ u.length = (limbs x).length + 1 ∧ val u = x * 2 ^ s := by
  refine ⟨_, rfl, ?_⟩
  rcases length_shift_dividend hs hx with h | h
  · rw [if_pos h]
    refine ⟨(isDigits_limbs _).append (IsDigits.singleton bnBase_pos), by simp [h], ?_⟩
    rw [val, Nat.ofDigits_append_zero]
    exact val_limbs _
  · rw [if_neg (by omega)]
    exact ⟨isDigits_limbs _, h, val_limbs _⟩

theorem val_take_of_lt {u : List Nat} {n : Nat} (hu : IsDigits bnBase u) (hn : n ≤ u.length)
    (h : val u < bnBase ^ n) : val (u.take n) = val u := by
  rw [take_eq_lowDigits one_lt_bnBase hu hn]
  exact ofDigits_lowDigits_of_lt h

/-- The long branch of `bn_divmod`, put together from what its calls answer. -/
theorem bnDivmod_of_long {a b v u0 u rest t q r : List Nat} {c : Int} {top s : Nat}
    {st : BnDivState} (hb0 : b.length ≠ 0) (hcmp : bnCmp a b = some c) (hc : ¬ c < 0)
    (htop : b[b.length - 1]? = some top) (hb1 : b.length ≠ 1)
    (hs : 64 - bnLimbBits top 0 = s) (hv : bnShl b s = some v) (hu0 : bnShl a s = some u0)
    (hu : (if u0.length = a.length then u0 ++ [0] else u0) = u)
    (hloop : bnDivLoop u v v.length (u.length - v.length - 1) [] = some st)
    (hq : bnTrim st.q = some q) (ht : bnTake st.u v.length 0 [] = some t)
    (hrest : bnTrim t = some rest) (hr : bnShr rest s = some r) :
    bnDivmod a b = some { q := q, r := r } := by
  simp only [bnDivmod, if_neg hb0, hcmp, if_neg hc, htop, if_neg hb1, hs, hv, hu0, hu, hloop, hq,
    ht, hrest, hr, Option.bind_eq_bind, Option.bind_some]

/-- The long division of the shifted operands. -/
theorem bnDivLoop_shifted {x y k s : Nat} {u : List Nat} (hy : (limbs y).length = k + 2)
    (hyx : y ≤ x) (hvlen : (limbs (y * 2 ^ s)).length = k + 2) (hudig : IsDigits bnBase u)
    (hulen : u.length = (limbs x).length + 1) (huval : val u = x * 2 ^ s) :
    ∃ u' q, bnDivLoop u (limbs (y * 2 ^ s)) (k + 2) (u.length - (k + 2) - 1) [] = some ⟨u', q⟩ ∧
      IsDigits bnBase u' ∧ u'.length = u.length ∧ val u' = x % y * 2 ^ s ∧
      IsDigits bnBase q ∧ val q = x / y := by
  have hp : 0 < 2 ^ s := Nat.two_pow_pos s
  have hjx : k + 1 < (limbs x).length := lt_length_limbs (le_trans (pow_le_of_length hy) hyx)
  obtain ⟨m, hm⟩ : ∃ m, u.length = m + 1 + (k + 2) := ⟨u.length - 1 - (k + 2), by omega⟩
  have hlt : val u < y * 2 ^ s * bnBase ^ (m + 1) := by
    have hxlt : x < y * bnBase ^ (m + 1) := by
      calc x < bnBase ^ (limbs x).length := lt_pow_length x
        _ = bnBase ^ (k + 1) * bnBase ^ (m + 1) := by
          rw [← pow_add]
          congr 1
          omega
        _ ≤ y * bnBase ^ (m + 1) := Nat.mul_le_mul_right _ (pow_le_of_length hy)
    rw [huval, Nat.mul_right_comm]
    exact Nat.mul_lt_mul_of_pos_right hxlt hp
  obtain ⟨u', q, hrun, hdig, hlen, hval, hqdig, hqval⟩ := bnDivStep_run hvlen (m + 1) u [] hudig
    (IsDigits.nil _) (by omega) hlt
  refine ⟨u', q, ?_, hdig, hlen, ?_, hqdig, ?_⟩
  · rw [show u.length - (k + 2) - 1 = m by omega]
    exact hrun
  · rw [hval, huval, Nat.mul_mod_mul_right]
  · rw [hqval, huval, Nat.mul_div_mul_right _ _ hp, List.reverse_nil, val, Nat.ofDigits_nil,
      Nat.zero_mul, Nat.zero_add]

theorem bnDivmod_limbs {y : Nat} (hy : 0 < y) (x : Nat) :
    bnDivmod (limbs x) (limbs y) = some { q := limbs (x / y), r := limbs (x % y) } := by
  have hy0 : (limbs y).length ≠ 0 := fun h => by
    rw [length_limbs_eq_zero] at h
    omega
  by_cases hlt : x < y
  · rw [bnDivmod, if_neg hy0, bnCmp_limbs, Option.bind_eq_bind, Option.bind_some,
      if_pos (order_neg.2 hlt), Nat.div_eq_of_lt hlt, Nat.mod_eq_of_lt hlt, limbs_zero]
  have hc : ¬ order x y < 0 := fun h => hlt (order_neg.1 h)
  by_cases h1 : (limbs y).length = 1
  · have hyB : y < bnBase := by
      have := lt_pow_length y
      rwa [h1, pow_one] at this
    have hd : digit bnBase y 0 = y := by rw [digit, pow_zero, Nat.div_one, Nat.mod_eq_of_lt hyB]
    have htop : (limbs y)[(limbs y).length - 1]? = some y := by
      rw [h1, Nat.sub_self, getElem?_limbs (by omega), hd]
    simp only [bnDivmod, if_neg hy0, bnCmp_limbs, if_neg hc, htop, if_pos h1, Option.bind_eq_bind,
      Option.bind_some, bnDivmodShort_limbs hy hyB]
  obtain ⟨k, hk⟩ : ∃ k, (limbs y).length = k + 2 := ⟨(limbs y).length - 2, by omega⟩
  have htop : (limbs y)[(limbs y).length - 1]? = some (digit bnBase y (k + 1)) := by
    rw [hk, show k + 2 - 1 = k + 1 by omega, getElem?_limbs (by omega)]
  have hbits := bnLimbBits_eq (digit bnBase y (k + 1)) 0
  have hvlen := length_shift_divisor hk
  rw [Nat.zero_add] at hbits
  obtain ⟨s, hs⟩ : ∃ s, s = 64 - Nat.size (digit bnBase y (k + 1)) := ⟨_, rfl⟩
  rw [← hs] at hvlen
  obtain ⟨u, hueq, hudig, hulen, huval⟩ := working_limbs (x := x) (show s ≤ 64 by omega)
    (by omega)
  obtain ⟨u', q, hrun, hdig, hlen, hval, hqdig, hqval⟩ :=
    bnDivLoop_shifted hk (Nat.le_of_not_lt hlt) hvlen hudig hulen huval
  have hV : val u' < bnBase ^ (k + 2) := by
    rw [hval]
    refine lt_trans ?_ (hvlen ▸ lt_pow_length (y * 2 ^ s))
    exact Nat.mul_lt_mul_of_pos_right (Nat.mod_lt x hy) (Nat.two_pow_pos s)
  have hux : k + 1 < (limbs x).length :=
    lt_length_limbs (le_trans (pow_le_of_length hk) (Nat.le_of_not_lt hlt))
  have hk2 : k + 2 ≤ u'.length := by omega
  have hrest := bnTrim_eq (hdig.take (k + 2))
  have hr := bnShr_limbs (val u') s
  rw [val_take_of_lt hdig hk2 hV] at hrest
  rw [hval, Nat.mul_div_cancel _ (Nat.two_pow_pos s)] at hr
  rw [hval] at hrest
  have htake := bnTake_eq hk2
  have hq := bnTrim_eq hqdig
  rw [← hvlen] at hrun htake
  rw [hqval] at hq
  exact bnDivmod_of_long hy0 (bnCmp_limbs x y) hc htop h1 (by rw [hbits, hs])
    (bnShl_limbs y s) (bnShl_limbs x s) hueq hrun hq htake (by rw [hvlen]; exact hrest) hr

theorem bnMod_limbs {y : Nat} (hy : 0 < y) (x : Nat) :
    bnMod (limbs x) (limbs y) = some (limbs (x % y)) := by
  rw [bnMod, bnDivmod_limbs hy]
  rfl

/-!
## Natural-number arithmetic is exact

A `BnNat` is what every function of the library takes and returns: a normalized list of
limbs.  On such lists, of any length, each operation answers (no check in it fails), its
answer is normalized again, and it denotes the exact result.
-/

/-- A normalized limb list.  The length of a list is an `Int`, so it is below `2 ^ 63`. -/
structure BnNat where
  list : List Nat
  norm : Norm list
  short : list.length < 2 ^ 63

/-- The call answers with the normalized list of `n`. -/
def Denotes (r : Option (List Nat)) (n : Nat) : Prop := ∃ l, r = some l ∧ Norm l ∧ val l = n

theorem denotes_limbs {r : Option (List Nat)} {n : Nat} (h : r = some (limbs n)) : Denotes r n :=
  ⟨limbs n, h, norm_limbs n, val_limbs n⟩

theorem BnNat.eq_limbs (a : BnNat) : a.list = limbs (val a.list) := a.norm.limbs_val.symm

theorem bn_arithmetic_exact (a b : BnNat) :
    Denotes (bnAdd a.list b.list) (val a.list + val b.list) ∧
      (val b.list ≤ val a.list → Denotes (bnSub a.list b.list) (val a.list - val b.list)) ∧
      Denotes (bnMul a.list b.list) (val a.list * val b.list) ∧
      (∀ n, Denotes (bnShl a.list n) (val a.list * 2 ^ n)) ∧
      (∀ n, Denotes (bnShr a.list n) (val a.list / 2 ^ n)) ∧
      Denotes (bnAnd a.list b.list) (val a.list &&& val b.list) ∧
      Denotes (bnOr a.list b.list) (val a.list ||| val b.list) ∧
      (b.list ≠ [] → ∃ d, bnDivmod a.list b.list = some d ∧ Norm d.q ∧ Norm d.r ∧
        val a.list = val d.q * val b.list + val d.r ∧ val d.r < val b.list) ∧
      (∀ k j u, StepInput (val b.list) k j u →
        ∃ r, bnQfix
            ((digit bnBase (val u) (j + k + 2) * bnBase + digit bnBase (val u) (j + k + 1)) /
              digit bnBase (val b.list) (k + 1))
            ((digit bnBase (val u) (j + k + 2) * bnBase + digit bnBase (val u) (j + k + 1)) %
              digit bnBase (val b.list) (k + 1))
            (digit bnBase (val b.list) (k + 1)) (digit bnBase (val b.list) k)
            (digit bnBase (val u) (j + k)) = some r ∧
          (r = val u / bnBase ^ j / val b.list ∨ r = val u / bnBase ^ j / val b.list + 1)) ∧
      ∀ n, (bnToBe a.list n).bind bnFromBe = some a.list := by
  have hshort := a.short
  rw [a.eq_limbs] at hshort
  rw [a.eq_limbs, b.eq_limbs]
  generalize val a.list = x at *
  have hpos : limbs (val b.list) ≠ [] → 0 < val b.list := fun h =>
    Nat.pos_of_ne_zero fun h0 => h (limbs_eq_nil.2 h0)
  generalize val b.list = y at *
  simp only [val_limbs]
  refine ⟨denotes_limbs (bnAdd_limbs x y), fun h => denotes_limbs (bnSub_limbs h),
    denotes_limbs (bnMul_limbs hshort y), fun n => denotes_limbs (bnShl_limbs x n),
    fun n => denotes_limbs (bnShr_limbs x n), denotes_limbs (bnAnd_limbs x y),
    denotes_limbs (bnOr_limbs x y), fun h => ?_, fun k j u h => ?_, fun n => bnFromBe_bnToBe x n⟩
  · refine ⟨_, bnDivmod_limbs (hpos h) x, norm_limbs _, norm_limbs _, ?_, ?_⟩
    · rw [val_limbs, val_limbs, Nat.div_add_mod']
    · rw [val_limbs]
      exact Nat.mod_lt x (hpos h)
  · obtain ⟨-, r, hr, hge, hle, -⟩ := h.guess_spec
    exact ⟨r, hr, by omega⟩

/-- Two limbs less one, and two limbs by one. -/
theorem bn_arithmetic_exact_two_limbs :
    Denotes (bnSub [5, 7] [3]) (val [5, 7] - val [3]) ∧
      ∃ d, bnDivmod [5, 7] [3] = some d ∧ Norm d.q ∧ Norm d.r ∧
        val [5, 7] = val d.q * val [3] + val d.r ∧ val d.r < val [3] := by
  have h := bn_arithmetic_exact
    ⟨[5, 7], ⟨by simp [IsDigits, bnBase], by simp⟩, by simp⟩
    ⟨[3], ⟨by simp [IsDigits, bnBase], by simp⟩, by simp⟩
  exact ⟨h.2.1 (by decide), h.2.2.2.2.2.2.2.1 (by simp)⟩

end Bignum

import Resid.Decimals.AddSub
import Resid.Lib.Positional

/-!
# Division of decimals

Long division of limbs guesses a quotient limb from the leading limbs, lowers the guess
until it is the true limb or one more, subtracts guess times divisor, and adds the divisor
back once where that went negative.  A decimal quotient is cut to two digits more than the
precision and rounded once.

    W / V ≤ qhatFix … ≤ W / V + 1                                    (qhatFix_spec)
    one step divides the window by V and leaves the rest             (divStep_spec)
    divmodN u v: val u = val q * val v + r, r < val v                (divmodN_spec)
    Rounds p (a / b) (divV a b p)                                    (divV_rounds)

## Algorithm

A step at index `j` works on the limbs of the dividend from `j` up.
-/

namespace Decimals

open FixedWidth Positional RoundAway Runtime

/-- Lowers the guess; a guess of zero passes the test. -/
def qhatFix (vt vs u2 : Nat) : Nat → Nat → Nat
  | 0, _ => 0
  | qh + 1, rh =>
    let big := qh + 1 ≥ bb ∨ (qh + 1) * vs > rh * bb + u2
    if ¬ big then qh + 1
    else
      let rh2 := rh + vt
      if rh2 ≥ bb then qh else qhatFix vt vs u2 qh rh2

/-- `u - qd * v`; the limbs, the carry out and the borrow out. -/
def subMul (qd : Nat) : List Nat → List Nat → Nat → Nat → List Nat × Nat × Nat
  | x :: u, y :: v, c, br =>
    let p := qd * y + c
    let c2 := divB p
    let lo := wrapSub 64 (wrap 64 p) (wrapMul 64 c2 bb)
    let d := subDigit x (lo + br)
    let rest := subMul qd u v c2 d.2
    (d.1 :: rest.1, rest.2)
  | _, _, c, br => ([], c, br)

def addBackAt : List Nat → List Nat → Nat → List Nat × Nat
  | x :: u, y :: v, cc =>
    let d := addDigit (x + cc) y
    let rest := addBackAt u v d.2
    (d.1 :: rest.1, rest.2)
  | _, _, cc => ([], cc)

/-- The step went negative: add `v` back once. -/
def addBack (low : List Nat) (x : Nat) (v : List Nat) : List Nat × Nat :=
  let r := addBackAt low v 0
  (r.1, (x + r.2) % bb)

/-- The quotient limb and what the step leaves of the limbs `u`. -/
def divStep (v : List Nat) (n vt vs : Nat) (u : List Nat) : Nat × List Nat :=
  let num := u.getD n 0 * bb + u.getD (n - 1) 0
  let qh0 := num / vt
  let rh0 := num - qh0 * vt
  let qd0 := qhatFix vt vs (u.getD (n - 2) 0) qh0 rh0
  let s := subMul qd0 u v 0 0
  let d := subDigit (u.getD n 0) (s.2.1 + s.2.2)
  let neg := d.2 = 1
  let r := if neg then addBack s.1 d.1 v else (s.1, d.1)
  (if neg then qd0 - 1 else qd0, r.1 ++ r.2 :: u.drop (n + 1))

/-- The steps from index `j - 1` down; the quotient limbs and the remainder. -/
def divSteps (v : List Nat) (n vt vs : Nat) : Nat → List Nat → List Nat × List Nat :=
  longSteps (divStep v n vt vs)

/-- The factor that makes the top limb of the divisor large. -/
def normFactor (v : List Nat) : Nat := bb / (v.getD (v.length - 1) 0 + 1)

/-- `u / v` for a divisor of at least two limbs; the remainder is left scaled. -/
def divmodN (u v : List Nat) : List Nat × List Nat :=
  let n := v.length
  let f := normFactor v
  let u1 := if f > 1 then mul1 u f else u ++ [0]
  let v1 := if f > 1 then (mul1 v f).take n else v
  divSteps v1 n (v1.getD (n - 1) 0) (v1.getD (n - 2) 0) (u.length - n + 1) u1

def divSmall (u : List Nat) (d : Nat) : List Nat := (shortDiv bb u d u.length 0).1

/-- `a / b`: the quotient truncated to `prec + 2` digits, rounded once. -/
def divV (a b : Block) (prec : Nat) : Except String Block := do
  if b.sign = 0 then throw "dec: division by zero"
  else if a.sign = 0 then pure (dzero prec)
  else
    let k : Int := prec + 2
    -- the exponent of the leading digit of the coefficients' quotient
    let c := cmpMag a.limbs a.nd 0 b.limbs b.nd (a.nd - b.nd)
    let p : Int := a.nd - b.nd - (if c < 0 then 1 else 0)
    let s := k - 1 - p
    let bu := if s ≥ 0 then scale a.limbs s.toNat else a.limbs
    let bv := if s ≥ 0 then b.limbs else scale b.limbs (-s).toNat
    let qn := max (bu.length + 1 - bv.length) 1
    dalloc (qn + 1)
    if bu.length < bv.length then throw "dec: internal"
    else
      let q := if bv.length = 1 then divSmall bu (bv.getD 0 0) else (divmodN bu bv).1
      finish (if a.sign = b.sign then 1 else -1) (q ++ [0]) (a.exp - b.exp - s) prec

/-! ## Lowering the guess -/

section Guess

open QuotientDigit

variable {p V W : Nat} (hp : 0 < p) (htop : 0 < V / (p * bb)) (hW : W < V * bb)

include hp htop hW

/-- The lowered guess is the true limb or one more, and fits a limb. -/
theorem qhatFix_spec (guess : Nat) : ∀ rest, rest < bb →
    guess * (V / (p * bb)) + rest = W / (p * bb) → W / V ≤ guess →
    W / V ≤ qhatFix (V / (p * bb)) (V / p % bb) (W / p % bb) guess rest ∧
      qhatFix (V / (p * bb)) (V / p % bb) (W / p % bb) guess rest ≤ W / V + 1 ∧
      qhatFix (V / (p * bb)) (V / p % bb) (W / p % bb) guess rest < bb := by
  induction guess with
  | zero =>
    intro rest _ _ hge
    exact ⟨hge, Nat.zero_le _, bb_pos⟩
  | succ q ih =>
    intro rest hrest hguess hge
    unfold qhatFix
    by_cases hover : q + 1 ≥ bb ∨ (q + 1) * (V / p % bb) > rest * bb + W / p % bb
    · have hge' : W / V ≤ q := by
        rcases hover with h | h
        · have := quot_lt_base hW
          omega
        · have := quot_lt_of_test hp htop hguess h
          omega
      have hguess' : q * (V / (p * bb)) + (rest + V / (p * bb)) = W / (p * bb) := by
        rw [← hguess]
        ring
      rw [if_neg (not_not.2 hover)]
      by_cases hr2 : rest + V / (p * bb) ≥ bb
      · -- the rest has passed the base: the three-limb test cannot fail any more
        have hq := guess_lt_of_rest hp bb_pos hW hguess' hr2
        rw [if_pos hr2]
        exact ⟨hge', le_quot_succ_of_passed hp bb_pos htop hq.le hguess' (.inl hr2), hq⟩
      · rw [if_neg hr2]
        exact ih _ (by omega) hguess' hge'
    · have hq : q + 1 < bb := by omega
      rw [if_pos hover]
      exact ⟨hge, le_quot_succ_of_test hp htop hq.le hguess (by omega), hq⟩

end Guess

/-! ## Multiply and subtract, add back -/

theorem subMul_spec {qd : Nat} (hq : qd < bb) (u : List Nat) : ∀ (v : List Nat) (c br : Nat),
    IsDigits bb u → IsDigits bb v → v.length ≤ u.length → c < bb → br ≤ 1 →
    IsDigits bb (subMul qd u v c br).1 ∧ (subMul qd u v c br).1.length = v.length ∧
      (subMul qd u v c br).2.1 < bb ∧ (subMul qd u v c br).2.2 ≤ 1 ∧
      val (u.take v.length) + bb ^ v.length * ((subMul qd u v c br).2.1 + (subMul qd u v c br).2.2) =
        val (subMul qd u v c br).1 + qd * val v + c + br := by
  induction u with
  | nil =>
    intro v c br _ _ hlen hc hbr
    have hnil : v = [] := List.eq_nil_of_length_eq_zero (Nat.le_zero.1 hlen)
    subst hnil
    exact ⟨IsDigits.nil bb, rfl, hc, hbr, by simp [subMul]⟩
  | cons x u ih =>
    intro v c br hu hv hlen hc hbr
    cases v with
    | nil => exact ⟨IsDigits.nil bb, rfl, hc, hbr, by simp [subMul]⟩
    | cons y v =>
      obtain ⟨hx, hu⟩ := hu.of_cons
      obtain ⟨hy, hv⟩ := hv.of_cons
      have hp : qd * y + c < bb * bb := by
        calc qd * y + c < qd * y + bb := Nat.add_lt_add_left hc _
          _ ≤ (bb - 1) * bb + bb := Nat.add_le_add_right (Nat.mul_le_mul (by omega) hy.le) _
          _ = bb * bb := by rw [← Nat.succ_mul, Nat.succ_eq_add_one, Nat.sub_add_cancel bb_pos]
      have hdivB := divB_eq hp
      have hlow := lowWord_eq (qd * y + c)
      have hdiv := Nat.div_add_mod (qd * y + c) bb
      have hmod := Nat.mod_lt (qd * y + c) bb_pos
      have hquot : (qd * y + c) / bb < bb := Nat.div_lt_of_lt_mul hp
      obtain ⟨h1, h2, h3⟩ := subDigit_spec hx (show (qd * y + c) % bb + br ≤ bb by omega)
      unfold subMul
      simp only [hdivB, hlow]
      obtain ⟨i1, i2, i3, i4, i5⟩ := ih v ((qd * y + c) / bb)
        (subDigit x ((qd * y + c) % bb + br)).2 hu hv (by simpa using hlen) hquot h2
      generalize subMul qd u v ((qd * y + c) / bb) (subDigit x ((qd * y + c) % bb + br)).2 = r
        at i1 i2 i3 i4 i5 ⊢
      generalize subDigit x ((qd * y + c) % bb + br) = d at h1 h3 i5 ⊢
      refine ⟨IsDigits.cons h1 i1, congrArg (· + 1) i2, i3, i4, ?_⟩
      calc x + bb * val (u.take v.length) + bb ^ v.length * bb * (r.2.1 + r.2.2)
          = x + bb * (val (u.take v.length) + bb ^ v.length * (r.2.1 + r.2.2)) := by ring
        _ = x + bb * d.2 + bb * (val r.1 + qd * val v) + bb * ((qd * y + c) / bb) := by
          rw [i5]
          ring
        _ = d.1 + ((bb * ((qd * y + c) / bb)) + (qd * y + c) % bb) + br +
            bb * (val r.1 + qd * val v) := by
          rw [h3]
          ring
        _ = d.1 + bb * val r.1 + qd * (y + bb * val v) + c + br := by
          rw [hdiv]
          ring

theorem addBackAt_spec (u : List Nat) : ∀ (v : List Nat) (cc : Nat), IsDigits bb u →
    IsDigits bb v → v.length ≤ u.length → cc ≤ 1 → IsSum u v cc (addBackAt u v cc) := by
  induction u with
  | nil =>
    intro v cc _ _ hlen hcc
    have hnil : v = [] := List.eq_nil_of_length_eq_zero (Nat.le_zero.1 hlen)
    subst hnil
    exact IsSum.nil [] hcc
  | cons x u ih =>
    intro v cc hu hv hlen hcc
    cases v with
    | nil => exact IsSum.nil (x :: u) hcc
    | cons y v =>
      obtain ⟨hx, hu⟩ := hu.of_cons
      obtain ⟨hy, hv⟩ := hv.of_cons
      have hd := (addDigit_spec (show x + cc ≤ bb by omega) hy).2.1
      exact (ih v _ hu hv (by simpa using hlen) hd).cons hx hy hcc

/-! ## One step -/

theorem getD_top_val {l : List Nat} (hl : IsDigits bb l) {n : Nat} (hlt : val l < bb ^ (n + 1)) :
    l.getD n 0 = val l / bb ^ n := getD_top one_lt_bb hl hlt

variable {a b u v : List Nat}

theorem divStep_spec {m : Nat} (hu : IsDigits bb u) (hv : IsDigits bb v) (hn : v.length = m + 2)
    (htop : v.getD (m + 1) 0 ≠ 0) (hlen : m + 3 ≤ u.length) (hlt : val u < val v * bb) :
    IsStep bb (val v) u (divStep v (m + 2) (v.getD (m + 1) 0) (v.getD m 0) u) := by
  have hpow : bb ^ m * bb = bb ^ (m + 1) := (pow_succ _ _).symm
  have hV : val v < bb ^ (m + 2) := hn ▸ val_lt hv
  have hW : val u < bb ^ (m + 3) := by
    calc val u < val v * bb := hlt
      _ ≤ bb ^ (m + 2) * bb := Nat.mul_le_mul_right _ hV.le
      _ = bb ^ (m + 3) := (pow_succ _ _).symm
  have hp : 0 < bb ^ m := Nat.pow_pos bb_pos
  -- the limbs the step reads are the leading limbs of the two numbers
  have hvt : v.getD (m + 1) 0 = val v / (bb ^ m * bb) := by rw [hpow, getD_top_val hv hV]
  have hvs : v.getD m 0 = val v / bb ^ m % bb := getD_eq_digit one_lt_bb hv m
  have hu2 : u.getD m 0 = val u / bb ^ m % bb := getD_eq_digit one_lt_bb hu m
  have hnum : u.getD (m + 2) 0 * bb + u.getD (m + 1) 0 = val u / (bb ^ m * bb) := by
    exact two_limbs one_lt_bb hu hW
  have htop' : 0 < val v / (bb ^ m * bb) := by
    omega
  have hge := QuotientDigit.quot_le_guess (W := val u) hp bb_pos htop'
  have hguess := Nat.div_add_mod' (val u / (bb ^ m * bb)) (val v / (bb ^ m * bb))
  have hrest0 : val u / (bb ^ m * bb) - val u / (bb ^ m * bb) / (val v / (bb ^ m * bb)) *
      (val v / (bb ^ m * bb)) = val u / (bb ^ m * bb) % (val v / (bb ^ m * bb)) := by omega
  have hrest : val u / (bb ^ m * bb) % (val v / (bb ^ m * bb)) < bb := by
    have hmod := Nat.mod_lt (val u / (bb ^ m * bb)) htop'
    have hvlt : v.getD (m + 1) 0 < bb := hv.getD_lt bb_pos _
    omega
  obtain ⟨hq1, hq2, hq3⟩ := qhatFix_spec hp htop' hlt _ _ hrest hguess hge
  unfold divStep
  simp only [show m + 2 - 1 = m + 1 by omega, show m + 2 - 2 = m by omega, hnum, hvt, hvs, hu2, hrest0]
  generalize qhatFix (val v / (bb ^ m * bb)) (val v / bb ^ m % bb) (val u / bb ^ m % bb)
    (val u / (bb ^ m * bb) / (val v / (bb ^ m * bb)))
    (val u / (bb ^ m * bb) % (val v / (bb ^ m * bb))) = qd at hq1 hq2 hq3 ⊢
  -- guess times divisor off the window
  obtain ⟨s1, s2, s3, s4, s5⟩ := subMul_spec hq3 u v 0 0 hu hv (by omega) bb_pos (Nat.zero_le 1)
  generalize subMul qd u v 0 0 = s at s1 s2 s3 s4 s5 ⊢
  rw [hn] at s2 s5
  have hxlt : u.getD (m + 2) 0 < bb := hu.getD_lt bb_pos _
  obtain ⟨d1, d2, d3⟩ := subDigit_spec hxlt (show s.2.1 + s.2.2 ≤ bb by omega)
  generalize subDigit (u.getD (m + 2) 0) (s.2.1 + s.2.2) = d at d1 d2 d3 ⊢
  have hwindow : IsWindow bb (val v) (m + 2) u :=
    ⟨hu, hlen, QuotientDigit.pos_of_top htop', hV, hlt⟩
  have hsplit : val u = val (u.take (m + 2)) + bb ^ (m + 2) * u.getD (m + 2) 0 := by
    rw [← val_take_succ u (by omega)]
    exact (ofDigits_take_of_lt one_lt_bb hu (show m + 2 + 1 ≤ u.length by omega) hW).symm
  have hexact : val u + bb ^ (m + 2) * (bb * d.2) = val s.1 + bb ^ (m + 2) * d.1 + qd * val v := by
    calc val u + bb ^ (m + 2) * (bb * d.2)
        = val (u.take (m + 2)) + bb ^ (m + 2) * (u.getD (m + 2) 0 + bb * d.2) := by
          rw [hsplit]
          ring
      _ = val (u.take (m + 2)) + bb ^ (m + 2) * (s.2.1 + s.2.2) + bb ^ (m + 2) * d.1 := by
          rw [d3]
          ring
      _ = val s.1 + bb ^ (m + 2) * d.1 + qd * val v := by
          rw [s5]
          ring
  by_cases hneg : d.2 = 1
  · rw [hneg, Nat.mul_one, ← pow_succ] at hexact
    obtain ⟨b1, b2, -, b4⟩ := addBackAt_spec s.1 v 0 s1 hv (by omega) (Nat.zero_le 1)
    rw [hn, List.take_of_length_le (by omega), Nat.add_zero] at b4
    rw [hn] at b2
    simp only [if_pos hneg, addBack]
    exact IsStep.of_borrow one_lt_bb hwindow s1 s2 d1 hq1 hq3 hq2 hexact b1 b2 b4
  · have hd2 : d.2 = 0 := by omega
    rw [hd2, Nat.mul_zero, Nat.mul_zero, Nat.add_zero] at hexact
    simp only [if_neg hneg]
    exact IsStep.of_exact one_lt_bb hwindow s1 s2 d1 hq1 hq3 hexact

/-! ## The whole division -/

/-- The steps from index `j - 1` down divide, as long as the quotient has `j` limbs. -/
theorem divSteps_spec {m : Nat} (hv : IsDigits bb v) (hn : v.length = m + 2)
    (htop : v.getD (m + 1) 0 ≠ 0) (j : Nat) : ∀ u, IsDigits bb u → m + 2 + j ≤ u.length →
    val u < val v * bb ^ j →
    IsDigits bb (divSteps v (m + 2) (v.getD (m + 1) 0) (v.getD m 0) j u).1 ∧
      (divSteps v (m + 2) (v.getD (m + 1) 0) (v.getD m 0) j u).1.length = j ∧
      val u = val (divSteps v (m + 2) (v.getD (m + 1) 0) (v.getD m 0) j u).1 * val v +
        val (divSteps v (m + 2) (v.getD (m + 1) 0) (v.getD m 0) j u).2 ∧
      val (divSteps v (m + 2) (v.getD (m + 1) 0) (v.getD m 0) j u).2 < val v := by
  intro u hu hlen hlt
  have hstep : DividesBy bb (val v) (m + 3) (divStep v (m + 2) (v.getD (m + 1) 0) (v.getD m 0)) := by
    intro w hw hlw hltw
    exact divStep_spec hw hv hn htop hlw hltw
  obtain ⟨h1, h2, -, -, h3, h4⟩ := longSteps_spec one_lt_bb hstep j u hu (by omega) (by omega) hlt
  exact ⟨h1, h2, h3, h4⟩

/-- Dividend and divisor of the long division. -/
structure DivInput (u v : List Nat) : Prop where
  dividend : IsDigits bb u
  divisor : IsDigits bb v
  two : 2 ≤ v.length
  top : v.getD (v.length - 1) 0 ≠ 0
  length : v.length ≤ u.length

/-- The remainder, scaled by the factor that normalized the operands. -/
def IsQuotient (u v : List Nat) (r : List Nat × List Nat) : Prop :=
  IsDigits bb r.1 ∧ r.1.length = u.length - v.length + 1 ∧
    ∃ rest, val u = val r.1 * val v + rest ∧ rest < val v ∧ val r.2 = rest * normFactor v

/-- The long division divides. -/
theorem divmodN_spec (h : DivInput u v) : IsQuotient u v (divmodN u v) := by
  obtain ⟨hu, hv, htwo, htop, hlen⟩ := h
  obtain ⟨m, hm⟩ : ∃ m, v.length = m + 2 := ⟨v.length - 2, by omega⟩
  rw [hm, show m + 2 - 1 = m + 1 by omega] at htop
  have hV : val v < bb ^ (m + 2) := hm ▸ val_lt hv
  have hvt := getD_top_val hv hV
  have htoplt : v.getD (m + 1) 0 < bb := hv.getD_lt bb_pos _
  have hf : normFactor v = bb / (v.getD (m + 1) 0 + 1) := by
    rw [normFactor, hm, show m + 2 - 1 = m + 1 by omega]
  have hfpos : 0 < normFactor v := by
    rw [hf]
    exact Nat.div_pos htoplt (Nat.succ_pos _)
  have hflt : normFactor v < bb := by
    rw [hf]
    exact Nat.div_lt_self bb_pos (by omega)
  -- the scaled divisor still has `m + 2` limbs
  have hfV : val v * normFactor v < bb ^ (m + 2) := by
    have hlt : val v < (v.getD (m + 1) 0 + 1) * bb ^ (m + 1) := by
      rw [hvt, ← Nat.div_lt_iff_lt_mul (Nat.pow_pos bb_pos)]
      exact Nat.lt_succ_self _
    calc val v * normFactor v < (v.getD (m + 1) 0 + 1) * bb ^ (m + 1) * normFactor v :=
          Nat.mul_lt_mul_of_pos_right hlt hfpos
      _ = normFactor v * (v.getD (m + 1) 0 + 1) * bb ^ (m + 1) := by ring
      _ ≤ bb * bb ^ (m + 1) := by
          rw [hf]
          exact Nat.mul_le_mul_right _ (Nat.div_mul_le_self _ _)
      _ = bb ^ (m + 2) := by rw [← pow_succ']
  have hVge : bb ^ (m + 1) ≤ val v := by
    calc bb ^ (m + 1) ≤ bb ^ (m + 1) * (val v / bb ^ (m + 1)) :=
          Nat.le_mul_of_pos_right _ (by rw [← hvt]; omega)
      _ ≤ val v := Nat.mul_div_le _ _
  -- the normalized operands
  have hu1 : IsDigits bb (if normFactor v > 1 then mul1 u (normFactor v) else u ++ [0]) ∧
      (if normFactor v > 1 then mul1 u (normFactor v) else u ++ [0]).length = u.length + 1 ∧
      val (if normFactor v > 1 then mul1 u (normFactor v) else u ++ [0]) = val u * normFactor v := by
    by_cases hone : normFactor v > 1
    · rw [if_pos hone]
      exact mul1_spec hu hflt
    · rw [if_neg hone, show normFactor v = 1 by omega, val_append]
      exact ⟨hu.append (IsDigits.singleton bb_pos), by simp, by simp⟩
  have hv1 : IsDigits bb (if normFactor v > 1 then (mul1 v (normFactor v)).take (m + 2) else v) ∧
      (if normFactor v > 1 then (mul1 v (normFactor v)).take (m + 2) else v).length = m + 2 ∧
      val (if normFactor v > 1 then (mul1 v (normFactor v)).take (m + 2) else v) =
        val v * normFactor v := by
    by_cases hone : normFactor v > 1
    · obtain ⟨h1, h2, h3⟩ := mul1_spec hv hflt
      rw [if_pos hone]
      refine ⟨h1.take _, ?_, ?_⟩
      · rw [List.length_take, h2]
        omega
      · rw [val, ofDigits_take_of_lt one_lt_bb h1 (by omega) (by rw [← val, h3]; exact hfV), ← val, h3]
    · rw [if_neg hone, show normFactor v = 1 by omega, Nat.mul_one]
      exact ⟨hv, hm, rfl⟩
  unfold divmodN
  simp only [hm, show m + 2 - 1 = m + 1 by omega, show m + 2 - 2 = m by omega]
  generalize (if normFactor v > 1 then mul1 u (normFactor v) else u ++ [0]) = u1 at hu1 ⊢
  generalize (if normFactor v > 1 then (mul1 v (normFactor v)).take (m + 2) else v) = v1 at hv1 ⊢
  obtain ⟨hu1, hulen, huval⟩ := hu1
  obtain ⟨hv1, hvlen, hvval⟩ := hv1
  have htop1 : v1.getD (m + 1) 0 ≠ 0 := by
    rw [getD_top_val hv1 (by rw [hvval]; exact hfV), hvval]
    have hge : bb ^ (m + 1) ≤ val v * normFactor v :=
      hVge.trans (Nat.le_mul_of_pos_right _ hfpos)
    have := Nat.div_pos hge (Nat.pow_pos bb_pos)
    omega
  have hbound : val u1 < val v1 * bb ^ (u.length - (m + 2) + 1) := by
    rw [huval, hvval]
    have hult : val u < val v * bb ^ (u.length - (m + 2) + 1) := by
      calc val u < bb ^ u.length := val_lt hu
        _ = bb ^ (m + 1) * bb ^ (u.length - (m + 2) + 1) := by
            rw [← pow_add]
            congr 1
            omega
        _ ≤ val v * bb ^ (u.length - (m + 2) + 1) := Nat.mul_le_mul_right _ hVge
    calc val u * normFactor v < val v * bb ^ (u.length - (m + 2) + 1) * normFactor v :=
          Nat.mul_lt_mul_of_pos_right hult hfpos
      _ = val v * normFactor v * bb ^ (u.length - (m + 2) + 1) := by ring
  obtain ⟨h1, h2, h3, h4⟩ := divSteps_spec hv1 hvlen htop1 _ u1 hu1 (by omega) hbound
  generalize divSteps v1 (m + 2) (v1.getD (m + 1) 0) (v1.getD m 0) (u.length - (m + 2) + 1) u1 = r
    at h1 h2 h3 h4 ⊢
  rw [huval, hvval] at h3
  rw [hvval] at h4
  -- the remainder is a multiple of the factor, since dividend and divisor are
  have hdvd : normFactor v ∣ val r.2 := by
    have hsum : normFactor v ∣ val r.1 * (val v * normFactor v) + val r.2 :=
      h3 ▸ Dvd.intro_left _ rfl
    exact (Nat.dvd_add_right (Dvd.intro_left _ (by rw [← Nat.mul_assoc]))).1 hsum
  obtain ⟨rest, hrest⟩ := hdvd
  rw [Nat.mul_comm] at hrest
  refine ⟨h1, by rw [h2, hm], rest, ?_, ?_, hrest⟩
  · refine Nat.eq_of_mul_eq_mul_right hfpos ?_
    rw [h3, hrest]
    ring
  · rw [hrest] at h4
    exact Nat.lt_of_mul_lt_mul_right h4

theorem divSmall_spec (hu : IsDigits bb u) {d : Nat} (hd : 0 < d) :
    IsDigits bb (divSmall u d) ∧ val (divSmall u d) = val u / d := by
  obtain ⟨h1, -, h3, h4⟩ := shortDiv_spec one_lt_bb hu hd u.length (Nat.le_refl _) 0 hd
  rw [Nat.zero_mul, Nat.zero_add, List.take_length] at h3
  refine ⟨h1, ?_⟩
  change _ = val (divSmall u d) * d + _ at h3
  change val u = _ at h3
  rw [h3, Nat.add_comm, Nat.add_mul_div_right _ _ hd, Nat.div_eq_of_lt h4, Nat.zero_add]

/-! ## The leading digit of the quotient -/

/-- A comparison survives a common factor. -/
theorem compares_scale {c : Int} {x y : Nat} (h : Compares c x y) {t : ℚ} (ht : 0 < t) :
    Compares c (x * t) (y * t) :=
  h.map (f := fun n : Nat => (n : ℚ) * t)
    (fun hlt => mul_lt_mul_of_pos_right (Nat.cast_lt.2 hlt) ht)

theorem scale_value {l : List Nat} (hl : IsDigits bb l) {e d : Int} (h : d ≤ e) :
    (val l : ℚ) * 10 ^ e = (val (scale l (e - d).toNat) : ℕ) * 10 ^ d := by
  have hsplit : e = ((e - d).toNat : ℤ) + d := by omega
  rw [(scale_spec hl _).2]
  conv_lhs => rw [hsplit, zpow_add₀ ten_ne_zero', zpow_natCast]
  push_cast
  ring

/-- Magnitudes are compared by their leading places, then limb by limb. -/
theorem cmpMag_spec (ha : Normal bb a) (hb : Normal bb b) (hca : val a ≠ 0) (hcb : val b ≠ 0)
    (ea eb : Int) :
    Compares (cmpMag a (ndig a) ea b (ndig b) eb) ((val a : ℚ) * 10 ^ ea) (val b * 10 ^ eb) := by
  obtain ⟨hloa, hhia⟩ := coef_bounds hca ea
  obtain ⟨hlob, hhib⟩ := coef_bounds hcb eb
  rw [← ndig_eq ha] at hloa hhia
  rw [← ndig_eq hb] at hlob hhib
  unfold cmpMag
  by_cases hplace : ea + ndig a = eb + ndig b
  · rw [if_neg (not_not.2 hplace)]
    by_cases heq : ea = eb
    · rw [if_pos heq, heq]
      exact compares_scale (cmpN_spec ha.digits hb.digits) (ten_zpow_pos eb)
    rw [if_neg heq]
    by_cases hgt : ea > eb
    · rw [if_pos hgt]
      rw [scale_value ha.digits hgt.le]
      exact compares_scale (cmpN_spec (scale_spec ha.digits _).1.digits hb.digits) (ten_zpow_pos eb)
    · rw [if_neg hgt]
      rw [scale_value hb.digits (show ea ≤ eb by omega)]
      exact compares_scale (cmpN_spec ha.digits (scale_spec hb.digits _).1.digits) (ten_zpow_pos ea)
  · rw [if_pos hplace]
    by_cases hgt : ea + ndig a > eb + ndig b
    · rw [if_pos hgt]
      refine .inl ⟨rfl, hhib.trans_le (le_trans ?_ hloa)⟩
      exact zpow_le_zpow_right₀ (by norm_num) (by omega)
    · rw [if_neg hgt]
      refine .inr (.inr ⟨rfl, hhia.trans_le (le_trans ?_ hlob)⟩)
      exact zpow_le_zpow_right₀ (by norm_num) (by omega)

/-- The place the division computes is that of the quotient's leading digit. -/
theorem quotient_place (ha : Normal bb a) (hb : Normal bb b) (hca : val a ≠ 0) (hcb : val b ≠ 0)
    {p : Int}
    (hp : p = (ndig a : Int) - ndig b -
      (if cmpMag a (ndig a) 0 b (ndig b) ((ndig a : Int) - ndig b) < 0 then 1 else 0)) :
    (val b : ℚ) * 10 ^ p ≤ val a ∧ (val a : ℚ) < val b * 10 ^ (p + 1) := by
  have hcmp := (cmpMag_spec ha hb hca hcb 0 ((ndig a : Int) - ndig b)).neg_iff
  rw [zpow_zero, mul_one] at hcmp
  obtain ⟨hloa, hhia⟩ := coef_bounds hca 0
  rw [← ndig_eq ha, zpow_zero, mul_one, add_zero] at hloa hhia
  by_cases hneg : cmpMag a (ndig a) 0 b (ndig b) ((ndig a : Int) - ndig b) < 0
  · rw [if_pos hneg] at hp
    have hhib := (coef_bounds hcb p).2
    rw [← ndig_eq hb] at hhib
    refine ⟨le_trans hhib.le ?_, ?_⟩
    · rwa [show (ndig b : ℤ) + p = ndig a - 1 by omega]
    · rw [show p + 1 = (ndig a : ℤ) - ndig b by omega]
      exact hcmp.1 hneg
  · rw [if_neg hneg, sub_zero] at hp
    have hlob := (coef_bounds hcb (p + 1)).1
    rw [← ndig_eq hb] at hlob
    refine ⟨?_, lt_of_lt_of_le hhia ?_⟩
    · rw [hp]
      exact not_lt.1 (mt hcmp.2 hneg)
    · rwa [show (ndig b : ℤ) - 1 + (p + 1) = ndig a by omega] at hlob

/-! ## The decimal quotient -/

/-- Nonempty normal operands, the dividend at least the divisor. -/
theorem quotient_spec {bu bv : List Nat} (hu : Normal bb bu) (hv : Normal bb bv)
    (hpos : val bv ≠ 0) (hle : val bv ≤ val bu) :
    IsDigits bb ((if bv.length = 1 then divSmall bu (bv.getD 0 0)
      else (divmodN bu bv).1) ++ [0]) ∧
    val ((if bv.length = 1 then divSmall bu (bv.getD 0 0)
      else (divmodN bu bv).1) ++ [0]) = val bu / val bv := by
  have hlen := hv.length_le one_lt_bb hu hle
  have hne := mt (val_eq_zero_iff hv).2 hpos
  obtain ⟨low, t, hsplit, -, ht, htb⟩ := hv.split_top hne
  have hlow : bv.length = low.length + 1 := by
    rw [hsplit, List.length_append, List.length_singleton]
  have htop : bv.getD low.length 0 = t := by
    rw [hsplit]
    simp
  by_cases hone : bv.length = 1
  · have hnil : low = [] := List.eq_nil_of_length_eq_zero (by omega)
    subst hnil
    rw [List.nil_append] at hsplit
    rw [List.length_nil] at htop
    obtain ⟨h1, h2⟩ := divSmall_spec hu.digits ht
    have hval : val bv = t := by
      rw [hsplit, val_cons, val_nil, Nat.mul_zero, Nat.add_zero]
    rw [if_pos hone, htop, hval]
    refine ⟨h1.append (IsDigits.singleton bb_pos), ?_⟩
    rw [val_append, val_cons, val_nil, Nat.mul_zero, Nat.add_zero, Nat.mul_zero, Nat.add_zero, h2]
  · have hinput : DivInput bu bv :=
      ⟨hu.digits, hv.digits, by omega, by rw [hlow, Nat.add_sub_cancel, htop]; omega, hlen⟩
    obtain ⟨h1, -, rest, h3, h4, -⟩ := divmodN_spec hinput
    rw [if_neg hone]
    refine ⟨h1.append (IsDigits.singleton bb_pos), ?_⟩
    rw [val_append, val_cons, val_nil, Nat.mul_zero, Nat.add_zero, Nat.mul_zero, Nat.add_zero, h3,
      Nat.add_comm, Nat.add_mul_div_right _ _ (Nat.pos_of_ne_zero hpos), Nat.div_eq_of_lt h4,
      Nat.zero_add]

theorem sign_quotient {sa sb : Int} (ha : sa = 1 ∨ sa = -1) (hb : sb = 1 ∨ sb = -1) :
    (((if sa = sb then 1 else -1 : Int) : ℚ) = (sa : ℚ) / sb) ∧
      ((if sa = sb then 1 else -1 : Int) = 1 ∨ (if sa = sb then 1 else -1 : Int) = -1) := by
  rcases ha with rfl | rfl <;> rcases hb with rfl | rfl <;> norm_num

/-- The operands moved so that the quotient has `prec + 2` digits. -/
theorem scaled_operands (ha : Normal bb a) (hb : Normal bb b) (hca : val a ≠ 0) (hcb : val b ≠ 0)
    {p s : Int} {k : Nat} (hs : s = k - p) (hlo : (val b : ℚ) * 10 ^ p ≤ val a)
    (hhi : (val a : ℚ) < val b * 10 ^ (p + 1)) :
    ∀ bu bv, bu = (if s ≥ 0 then scale a s.toNat else a) →
      bv = (if s ≥ 0 then b else scale b (-s).toNat) →
      Normal bb bu ∧ Normal bb bv ∧ val bv ≠ 0 ∧ (val bu : ℚ) / val bv = val a / val b * 10 ^ s ∧
        val bv * 10 ^ k ≤ val bu ∧ val bu < val bv * 10 ^ (k + 1) := by
  intro bu bv hbu hbv
  have hnorm : Normal bb bu ∧ Normal bb bv ∧ val bv ≠ 0 ∧
      (val bu : ℚ) / val bv = val a / val b * 10 ^ s := by
    by_cases hpos : s ≥ 0
    · obtain ⟨h1, h2⟩ := scale_spec ha.digits s.toNat
      rw [hbu, hbv, if_pos hpos, if_pos hpos, h2]
      refine ⟨h1, hb, hcb, ?_⟩
      have hsz : (10 : ℚ) ^ s = 10 ^ s.toNat := by
        rw [← zpow_natCast, Int.toNat_of_nonneg hpos]
      rw [hsz]
      push_cast
      ring
    · obtain ⟨h1, h2⟩ := scale_spec hb.digits (-s).toNat
      rw [hbu, hbv, if_neg hpos, if_neg hpos, h2]
      refine ⟨ha, h1, Nat.mul_ne_zero hcb (Nat.pow_pos (by decide)).ne', ?_⟩
      have hsz : (10 : ℚ) ^ s = (10 ^ (-s).toNat)⁻¹ := by
        rw [← zpow_natCast, Int.toNat_of_nonneg (by omega), zpow_neg, inv_inv]
      rw [hsz]
      push_cast
      field_simp
  obtain ⟨h1, h2, h3, h4⟩ := hnorm
  have hvpos : (0 : ℚ) < val bv := by exact_mod_cast Nat.pos_of_ne_zero h3
  have hbpos : (0 : ℚ) < val b := by exact_mod_cast Nat.pos_of_ne_zero hcb
  have hten := ten_zpow_pos s
  have hquotlo : (10 : ℚ) ^ k ≤ (val bu : ℚ) / val bv := by
    rw [h4, show (10 : ℚ) ^ k = 10 ^ p * 10 ^ s by
      rw [← zpow_add₀ ten_ne_zero', hs, add_sub_cancel, zpow_natCast]]
    refine mul_le_mul_of_nonneg_right ?_ hten.le
    rw [le_div_iff₀ hbpos, mul_comm]
    exact hlo
  have hquothi : (val bu : ℚ) / val bv < 10 ^ (k + 1) := by
    rw [h4, show (10 : ℚ) ^ (k + 1) = 10 ^ (p + 1) * 10 ^ s by
      rw [← zpow_add₀ ten_ne_zero', hs, show p + 1 + (k - p) = ((k + 1 : ℕ) : ℤ) by push_cast; ring,
        zpow_natCast]]
    refine mul_lt_mul_of_pos_right ?_ hten
    rw [div_lt_iff₀ hbpos, mul_comm]
    exact hhi
  rw [le_div_iff₀ hvpos, mul_comm] at hquotlo
  rw [div_lt_iff₀ hvpos, mul_comm] at hquothi
  exact ⟨h1, h2, h3, h4, by exact_mod_cast hquotlo, by exact_mod_cast hquothi⟩

/-- A quotient is correctly rounded and never fails inside; the long division divides. -/
theorem divV_rounds {a b : Block} (ha : a.Valid) (hb : b.Valid) (hsb : b.sign ≠ 0) (p : Prec) :
    Rounds p.val (a.value / b.value) (divV a b p.val) ∧
      divV a b p.val ≠ .error "dec: internal" ∧
      ∀ u v, DivInput u v → IsQuotient u v (divmodN u v) := by
  have hrounds : Rounds p.val (a.value / b.value) (divV a b p.val) := by
    by_cases hsa : a.sign = 0
    · unfold divV
      simp only [if_neg hsb, if_pos hsa]
      rw [Block.Valid.value_zero hsa, zero_div]
      exact rounds_dzero p
    have hca := ha.val_ne_zero hsa
    have hcb := hb.val_ne_zero hsb
    unfold divV
    simp only [if_neg hsb, if_neg hsa]
    rw [ha.nd, hb.nd]
    obtain ⟨P, hP⟩ : ∃ P : Int, P = (ndig a.limbs : Int) - ndig b.limbs -
        (if cmpMag a.limbs (ndig a.limbs) 0 b.limbs (ndig b.limbs)
          ((ndig a.limbs : Int) - ndig b.limbs) < 0 then 1 else 0) := ⟨_, rfl⟩
    obtain ⟨hlo, hhi⟩ := quotient_place ha.normal hb.normal hca hcb hP
    rw [← hP]
    obtain ⟨s, hs⟩ : ∃ s : Int, s = ((p.val + 1 : ℕ) : Int) - P := ⟨_, rfl⟩
    rw [show (p.val : Int) + 2 - 1 - P = s by omega]
    obtain ⟨hu, hv, hvne, hquot, hge, hlt⟩ := scaled_operands ha.normal hb.normal hca hcb hs hlo hhi
      _ _ rfl rfl
    have hulen : ((if s ≥ 0 then scale a.limbs s.toNat else a.limbs).length : Int) ≤ 4294967296 := by
      have hfa := ha.fits
      have hfb := hb.fits
      have hpa := ha.prec.2
      have hpb := hb.prec.2
      rw [ha.nd] at hfa
      rw [hb.nd] at hfb
      by_cases hpos : s ≥ 0
      · obtain ⟨h1, h2⟩ := scale_spec ha.normal.digits s.toNat
        have hlen := length_le_ndig h1
        rw [ndig_eq h1, h2, ndig_mul_pow _ hca, ← ndig_eq ha.normal] at hlen
        rw [if_pos hpos]
        omega
      · have hlen := length_le_ndig ha.normal
        rw [if_neg hpos]
        omega
    generalize (if s ≥ 0 then scale a.limbs s.toNat else a.limbs) = bu at hu hquot hge hlt hulen ⊢
    generalize (if s ≥ 0 then b.limbs else scale b.limbs (-s).toNat) = bv at hv hvne hquot hge hlt ⊢
    have hle : val bv ≤ val bu :=
      (Nat.le_mul_of_pos_right _ (Nat.pow_pos (by decide))).trans hge
    have hlen := hv.length_le one_lt_bb hu hle
    obtain ⟨hdig, hval⟩ := quotient_spec hu hv hvne hle
    rw [dalloc_of_le (by omega), if_neg (by omega)]
    -- the quotient keeps two digits more than the precision
    have hvpos : 0 < val bv := Nat.pos_of_ne_zero hvne
    have hqlo : 10 ^ (p.val + 1) ≤ val bu / val bv := by
      rw [Nat.le_div_iff_mul_le hvpos, Nat.mul_comm]
      exact hge
    have hpow : 0 < 10 ^ (p.val + 1) := Nat.pow_pos (by decide)
    have hdm := Nat.div_add_mod (val bu) (val bv)
    have hmod := Nat.mod_lt (val bu) hvpos
    have hvq : (0 : ℚ) < val bv := by exact_mod_cast hvpos
    have hdmq : (val bv : ℚ) * ((val bu / val bv : ℕ) : ℚ) + ((val bu % val bv : ℕ) : ℚ) = val bu := by
      exact_mod_cast hdm
    have hmodq : ((val bu % val bv : ℕ) : ℚ) < val bv := by exact_mod_cast hmod
    have hcx : ((val bu / val bv : ℕ) : ℚ) ≤ (val bu : ℚ) / val bv := by
      rw [le_div_iff₀ hvq]
      linarith
    have hxc : (val bu : ℚ) / val bv < ((val bu / val bv : ℕ) : ℚ) + 1 := by
      rw [div_lt_iff₀ hvq]
      linarith
    obtain ⟨hsgn, hsign⟩ := sign_quotient (ha.sign_ne_zero hsa) (hb.sign_ne_zero hsb)
    have hvalue : a.value / b.value = ((if a.sign = b.sign then 1 else -1 : Int) : ℚ) *
        ((val bu : ℚ) / val bv) * 10 ^ (a.exp - b.exp - s) := by
      rw [hsgn, hquot, Block.value, Block.value, zpow_sub₀ ten_ne_zero', zpow_sub₀ ten_ne_zero']
      field_simp
    rw [hvalue]
    rw [← hval] at hcx hxc hqlo
    refine finish_rounds hdig hsign (by omega) hcx hxc (fun hle => ?_) _
    have hlow := (ndig_le_iff (by omega)).1 hle
    omega
  refine ⟨hrounds, ?_, fun u v h => divmodN_spec h⟩
  intro herr
  rw [herr] at hrounds
  exact absurd hrounds.1 (by decide)

/-- `2 / -3`, to four digits. -/
theorem divV_rounds_thirds :
    Rounds 4 ((Block.mk 1 1 0 [2] (ndig [2])).value / (Block.mk (-1) 1 0 [3] (ndig [3])).value)
      (divV ⟨1, 1, 0, [2], ndig [2]⟩ ⟨-1, 1, 0, [3], ndig [3]⟩ 4) ∧
    divV ⟨1, 1, 0, [2], ndig [2]⟩ ⟨-1, 1, 0, [3], ndig [3]⟩ 4 ≠ .error "dec: internal" ∧
    ∀ u v, DivInput u v → IsQuotient u v (divmodN u v) :=
  divV_rounds (valid_limb (.inl rfl) (by decide +kernel))
    (valid_limb (.inr rfl) (by decide +kernel)) (by decide) ⟨4, by decide⟩

end Decimals

import Resid.Decimals.Arith
import Resid.Runtime.Dec

/-!
# A decimal in memory

A value is a sign, a precision, an exponent, the limbs of its coefficient and their digits.
`finish` rounds limbs to the precision and checks the exponent; it does on limbs what
`Runtime.finish` does on the number.

    v.Valid → v.Denotes v.toDec                                      (Valid.denotes)
    IsDigits B l → Refines p (finish s l e p) (Runtime.finish …)     (finish_refines)
    ndig c ≤ p → x = c, c ≤ x < c + 1 →
      Rounds p (s * x * 10 ^ e) (finish s l e p)                     (finish_rounds)

## Algorithm

An abort is an error with its text.  Header fields hold 32 bits, and a valid exponent fits
(`Valid.exp_fits`).
-/

namespace Decimals

open FixedWidth Positional RoundAway Runtime

/-- A decimal as it lies in memory: `sign * coefficient * 10^exp`. -/
structure Block where
  sign : Int
  prec : Nat
  exp : Int
  limbs : List Nat
  nd : Nat
  deriving DecidableEq

def outOfRange : String := "dec: exponent out of range"

def dalloc (cap : Nat) : Except String Unit :=
  if cap > 1099511627776 then throw "dec: value too large" else pure ()

def dzero (prec : Nat) : Block := ⟨0, prec, 0, [], 0⟩

def finishHdr (sign : Int) (l : List Nat) (exp : Int) (nd prec : Nat) : Except String Block :=
  let e := exp - ((prec : Int) - nd)
  if e > maxExp ∨ e < -maxExp then throw outOfRange
  else pure ⟨if sign < 0 then -1 else 1, prec, exp, l, nd⟩

/-- Strip zero limbs on top, round the coefficient to the precision, check the exponent. -/
def finish (sign : Int) (l0 : List Nat) (exp0 : Int) (prec : Nat) : Except String Block :=
  if prec < 1 ∨ prec > 1073741823 then throw "dec: precision out of range"
  else
    let l := trimTop l0
    if l.length = 0 ∨ sign = 0 then pure (dzero prec)
    else
      let nd1 := ndig l
      if nd1 ≤ prec then finishHdr sign l exp0 nd1 prec
      else
        let k := nd1 - prec
        let rp := k - 1
        let up := l.getD (rp / ld) 0 / p10 (rp % ld) % 10 ≥ 5
        let l2 := trimTop (dropLimbs l k)
        let exp1 := exp0 + k
        let l3 := if up then roundUp l2 else l2
        let nd3 := ndig l3
        -- 99..9 rounded up to 10^prec: one digit, prec zeros
        if nd3 > prec then finishHdr sign [1] (exp1 + prec) 1 prec
        else finishHdr sign l3 exp1 nd3 prec

/-- A fresh value from limbs. -/
def fromLimbs (sign : Int) (l0 : List Nat) (exp : Int) (prec : Nat) : Except String Block := do
  let l := trimTop l0
  if l.length = 0 ∨ sign = 0 then pure (dzero prec)
  else
    dalloc (l.length + 1)
    finish sign l exp prec

def roundV (v : Block) (prec : Nat) (negate : Bool) : Except String Block := do
  let s := if negate then -v.sign else v.sign
  if v.sign = 0 then pure (dzero prec)
  else if v.nd ≤ prec then
    -- exact: only the precision changes
    dalloc v.limbs.length
    finish s v.limbs v.exp prec
  else
    -- only the limbs from the one holding the rounding digit upward matter
    let q0 := (v.nd - prec - 1) / ld
    fromLimbs s (v.limbs.drop q0) (v.exp + ld * q0) prec

/-! ## Valid values -/

/-- No zero limb on top, at most `prec` digits, one zero, and an exponent in range. -/
structure Block.Valid (v : Block) : Prop where
  prec : 1 ≤ v.prec ∧ v.prec ≤ 1073741823
  normal : Normal bb v.limbs
  nd : v.nd = ndig v.limbs
  fits : v.nd ≤ v.prec
  sign : (v.sign = 0 ∧ v.limbs = [] ∧ v.exp = 0) ∨ ((v.sign = 1 ∨ v.sign = -1) ∧ v.limbs ≠ [] ∧
    -maxExp ≤ v.exp - (v.prec - v.nd) ∧ v.exp - (v.prec - v.nd) ≤ maxExp)

/-- The number a value stands for. -/
def Block.value (v : Block) : ℚ := v.sign * val v.limbs * 10 ^ v.exp

def Block.neg (v : Block) : Bool := v.sign < 0

/-- What `p` digits and an exponent are in memory. -/
def Block.Denotes {p : Prec} (v : Block) : Dec p → Prop
  | .zero => v = dzero p.val
  | .num d => v.Valid ∧ v.prec = p.val ∧ v.sign = (if d.neg then -1 else 1) ∧
      d.digits = val v.limbs * 10 ^ (p.val - v.nd) ∧ d.exp = v.exp - (p.val - v.nd)

/-- The same result, the abort the one on the exponent. -/
def Refines (p : Prec) : Except String Block → Option (Dec p) → Prop
  | .ok v, some d => v.Denotes d
  | .error m, none => m = outOfRange
  | _, _ => False

/-- The exact number rounded once to the precision; the abort exactly where that is out of range. -/
def Rounds (p : Nat) (x : ℚ) : Except String Block → Prop
  | .ok v => v.Valid ∧ v.prec = p ∧ v.value = roundAway 10 p x ∧ Admitted p (roundAway 10 p x)
  | .error m => m = outOfRange ∧ ¬ Admitted p (roundAway 10 p x)

theorem valid_dzero {p : Nat} (hp : 1 ≤ p ∧ p ≤ 1073741823) : (dzero p).Valid where
  prec := hp
  normal := ⟨IsDigits.nil bb, fun h => absurd rfl h⟩
  nd := rfl
  fits := Nat.zero_le p
  sign := .inl ⟨rfl, rfl, rfl⟩

variable {p : Prec} {v : Block} {l : List Nat} {sign : Int}

theorem Block.Valid.nd_eq (h : v.Valid) : v.nd = Runtime.ndig (val v.limbs) := by
  rw [h.nd, ndig_eq h.normal]

theorem Block.Valid.val_ne_zero (h : v.Valid) (hs : v.sign ≠ 0) : val v.limbs ≠ 0 := by
  rcases h.sign with ⟨hzero, -⟩ | ⟨-, hne, -⟩
  · exact absurd hzero hs
  · exact mt (val_eq_zero_iff h.normal).1 hne

theorem Block.Valid.sign_ne_zero (h : v.Valid) (hs : v.sign ≠ 0) : v.sign = 1 ∨ v.sign = -1 := by
  rcases h.sign with ⟨hzero, -⟩ | ⟨hsign, -⟩
  · exact absurd hzero hs
  · exact hsign

/-- There is one zero of each precision. -/
theorem Block.Valid.eq_dzero (h : v.Valid) (hs : v.sign = 0) : v = dzero v.prec := by
  rcases h.sign with ⟨-, hlimbs, hexp⟩ | ⟨hsign, -⟩
  · obtain ⟨sign, prec, exp, limbs, nd⟩ := v
    have hnd : nd = ndig limbs := h.nd
    change limbs = [] at hlimbs
    change exp = 0 at hexp
    change sign = 0 at hs
    rw [hs, hexp, hnd, hlimbs]
    rfl
  · omega

/-- A valid exponent fits in the header. -/
theorem Block.Valid.exp_fits (h : v.Valid) : -2147483648 ≤ v.exp ∧ v.exp < 2147483648 := by
  have hp := h.prec
  have hfits := h.fits
  have hmax : maxExp = 1000000 := rfl
  rcases h.sign with ⟨-, -, hexp⟩ | ⟨-, -, hlo, hhi⟩
  · omega
  · omega

theorem Block.Valid.neg_iff (h : v.Valid) (hs : v.sign ≠ 0) :
    (v.sign : ℚ) = sgn v.neg ∧ v.sign = (if v.neg then -1 else 1) := by
  unfold Block.neg sgn
  rcases h.sign_ne_zero hs with hsign | hsign <;> rw [hsign] <;> simp

theorem Block.Denotes.value_eq {d : Dec p} (h : v.Denotes d) :
    v.Valid ∧ v.prec = p.val ∧ v.value = decValue d := by
  cases d with
  | zero =>
    change v = dzero p.val at h
    rw [h]
    exact ⟨valid_dzero p.property, rfl, by simp [Block.value, dzero, decValue]⟩
  | num d =>
    obtain ⟨hvalid, hprec, hsign, hdigits, hexp⟩ := h
    refine ⟨hvalid, hprec, ?_⟩
    have hfits := hvalid.fits
    rw [hprec] at hfits
    have hsub : ((p.val - v.nd : Nat) : ℤ) = (p.val : ℤ) - v.nd := by omega
    have hs : (v.sign : ℚ) = sgn d.neg := by
      rw [hsign]
      cases d.neg <;> simp [sgn]
    have hmove : v.exp = d.exp + ((p.val - v.nd : Nat) : ℤ) := by omega
    rw [Block.value, decValue, hs, hdigits, hmove, zpow_add₀ ten_ne_zero', zpow_natCast]
    push_cast
    ring

/-- The number of a valid value. -/
theorem Block.Valid.denotes (h : v.Valid) : ∃ d : Dec ⟨v.prec, h.prec⟩, v.Denotes d := by
  by_cases hs : v.sign = 0
  · exact ⟨.zero, h.eq_dzero hs⟩
  · rcases h.sign with ⟨hzero, -⟩ | ⟨-, -, hlo, hhi⟩
    · exact absurd hzero hs
    have hc := h.val_ne_zero hs
    have hnd := h.nd_eq
    have hfits := h.fits
    have hp := h.prec
    have hpad : Runtime.ndig (val v.limbs * 10 ^ (v.prec - v.nd)) = v.prec := by
      rw [ndig_mul_pow _ hc]
      omega
    have hlt := lt_pow_ndig (val v.limbs * 10 ^ (v.prec - v.nd))
    have hge := pow_le_of_lt_ndig (k := v.prec - 1)
      (Nat.mul_ne_zero hc (Nat.pow_pos (by decide : 0 < 10)).ne') (by rw [hpad]; omega)
    rw [hpad] at hlt
    exact ⟨.num ⟨v.neg, val v.limbs * 10 ^ (v.prec - v.nd), v.exp - (v.prec - v.nd),
      ⟨hge, hlt⟩, hlo, hhi⟩, h, rfl, (h.neg_iff hs).2, rfl, rfl⟩

theorem Refines.rounds {x : ℚ} {r : Except String Block} {o : Option (Dec p)} (h : Refines p r o)
    (ho : IsRounded p x o) : Rounds p.val x r := by
  cases r with
  | ok v =>
    cases o with
    | some d =>
      obtain ⟨hvalid, hprec, hvalue⟩ := Block.Denotes.value_eq h
      exact ⟨hvalid, hprec, hvalue.trans ho.1, ho.2⟩
    | none => exact h.elim
  | error m =>
    cases o with
    | some d => exact h.elim
    | none => exact ⟨h, ho⟩

/-! ## Finishing -/

theorem finishHdr_refines (hl : Normal bb l) (hne : l ≠ []) (hfits : ndig l ≤ p.val) (sign : Int)
    (e : Int) : Refines p (finishHdr sign l e (ndig l) p.val)
      (Runtime.finishHdr (sign < 0) (val l) e (Runtime.ndig (val l)) p) := by
  have hc := mt (val_eq_zero_iff hl).1 hne
  have hnd := ndig_eq hl
  have hsub : ((p.val - ndig l : Nat) : Int) = (p.val : Int) - ndig l := by omega
  have hpad : Runtime.ndig (val l * 10 ^ (p.val - ndig l)) = p.val := by
    rw [ndig_mul_pow _ hc]
    omega
  have hlt := lt_pow_ndig (val l * 10 ^ (p.val - ndig l))
  have hp := p.property
  have hge := pow_le_of_lt_ndig (k := p.val - 1)
    (Nat.mul_ne_zero hc (Nat.pow_pos (by decide : 0 < 10)).ne') (by rw [hpad]; omega)
  rw [hpad] at hlt
  rw [← hnd]
  unfold finishHdr Runtime.finishHdr decNum?
  by_cases hrange : e - ((p.val : Int) - ndig l) > maxExp ∨ e - ((p.val : Int) - ndig l) < -maxExp
  · have hnot : ¬ DecDigits p.val (val l * 10 ^ (p.val - ndig l)) (e - (p.val - ndig l : Nat)) := by
      rintro ⟨-, hlo, hhi⟩
      omega
    simp only [if_pos hrange]
    rw [dif_neg hnot]
    exact rfl
  · have hvalid : DecDigits p.val (val l * 10 ^ (p.val - ndig l)) (e - (p.val - ndig l : Nat)) :=
      ⟨⟨hge, hlt⟩, by omega, by omega⟩
    simp only [if_neg hrange]
    rw [dif_pos hvalid]
    refine ⟨⟨hp, hl, rfl, hfits, .inr ⟨?_, hne, ?_⟩⟩, rfl, ?_, rfl, ?_⟩
    · show (if sign < 0 then -1 else 1) = 1 ∨ (if sign < 0 then -1 else 1) = (-1 : Int)
      split_ifs
      · exact .inr rfl
      · exact .inl rfl
    · show -maxExp ≤ e - ((p.val : Int) - ndig l) ∧ e - ((p.val : Int) - ndig l) ≤ maxExp
      omega
    · show (if sign < 0 then -1 else 1) = (if decide (sign < 0) = true then -1 else 1 : Int)
      simp only [decide_eq_true_eq]
    · show e - ((p.val - ndig l : Nat) : Int) = e - ((p.val : Int) - ndig l)
      omega

/-- Rounding the limbs is rounding the number. -/
theorem finish_refines (hl : IsDigits bb l) (hs : sign = 1 ∨ sign = -1) (e : Int) (p : Prec) :
    Refines p (finish sign l e p.val) (Runtime.finish (sign < 0) (val l) e p) := by
  have hp := p.property
  have hnorm := normal_trim hl
  have hval := val_trimTop hl
  unfold finish
  rw [if_neg (by omega)]
  simp only []
  by_cases hempty : (trimTop l).length = 0
  · have hzero : val l = 0 := by
      rw [← hval, List.eq_nil_of_length_eq_zero hempty, val_nil]
    rw [if_pos (.inl hempty), hzero]
    exact rfl
  have hne : trimTop l ≠ [] := fun h => hempty (by rw [h]; rfl)
  have hc : val l ≠ 0 := hval ▸ mt (val_eq_zero_iff hnorm).1 hne
  have hsign : ¬ ((trimTop l).length = 0 ∨ sign = 0) := by omega
  have hnd : ndig (trimTop l) = Runtime.ndig (val l) := by rw [ndig_eq hnorm, hval]
  rw [if_neg hsign]
  by_cases hfits : ndig (trimTop l) ≤ p.val
  · have hhdr := finishHdr_refines hnorm hne hfits sign e
    rw [hval] at hhdr
    rw [if_pos hfits, Runtime.finish, if_neg hc]
    simp only []
    rwa [if_pos (by omega)]
  obtain ⟨k, hk⟩ : ∃ k, Runtime.ndig (val l) = p.val + k :=
    ⟨Runtime.ndig (val l) - p.val, by omega⟩
  have hk0 : 0 < k := by omega
  have hsub : ndig (trimTop l) - p.val = k := by omega
  obtain ⟨hdig, hdval⟩ := dropLimbs_spec hnorm.digits k
  have hnorm2 := normal_trim hdig
  -- the rounded limbs denote the rounded coefficient
  have hround : Normal bb (if (trimTop l).getD ((k - 1) / ld) 0 / p10 ((k - 1) % ld) % 10 ≥ 5
      then roundUp (trimTop (dropLimbs (trimTop l) k)) else trimTop (dropLimbs (trimTop l) k)) ∧
      val (if (trimTop l).getD ((k - 1) / ld) 0 / p10 ((k - 1) % ld) % 10 ≥ 5
        then roundUp (trimTop (dropLimbs (trimTop l) k)) else trimTop (dropLimbs (trimTop l) k)) =
        dropDigits (val l) k := by
    rw [digit_eq hnorm.digits, hval, dropDigits]
    by_cases hup : val l / 10 ^ (k - 1) % 10 ≥ 5
    · obtain ⟨h1, h2⟩ := roundUp_spec hnorm2
      simp only [if_pos hup]
      rw [h2, val_trimTop hdig, hdval, hval]
      exact ⟨h1, rfl⟩
    · simp only [if_neg hup]
      rw [val_trimTop hdig, hdval, hval]
      exact ⟨hnorm2, rfl⟩
  rw [if_neg hfits, hsub, finish_of_gt hk0 hk]
  generalize (if (trimTop l).getD ((k - 1) / ld) 0 / p10 ((k - 1) % ld) % 10 ≥ 5
    then roundUp (trimTop (dropLimbs (trimTop l) k)) else trimTop (dropLimbs (trimTop l) k)) = l3
    at hround ⊢
  obtain ⟨hn3, hv3⟩ := hround
  have hnd3 : ndig l3 = Runtime.ndig (dropDigits (val l) k) := by rw [ndig_eq hn3, hv3]
  rw [hnd3]
  by_cases hcarry : Runtime.ndig (dropDigits (val l) k) > p.val
  · have hone : Normal bb [1] := ⟨IsDigits.singleton one_lt_bb, fun _ => by simp⟩
    have hnd1 : ndig [1] = 1 := by decide +kernel
    have hval1 : val [1] = 1 := by decide
    have hhdr := finishHdr_refines hone (List.cons_ne_nil _ _) (p := p) (by omega) sign
      (e + k + p.val)
    rw [hnd1, hval1, show Runtime.ndig 1 = 1 by decide] at hhdr
    rwa [if_pos hcarry, if_pos hcarry]
  · have hne3 : l3 ≠ [] := by
      have hge := pow_le_of_lt_ndig hc (show Runtime.ndig (val l) - 1 < Runtime.ndig (val l) by omega)
      rw [hk] at hge
      have hle := le_dropDigits hp.1 hge
      have hpos : 0 < 10 ^ (p.val - 1) := Nat.pow_pos (by decide)
      intro hnil
      rw [hnil, val_nil] at hv3
      omega
    have hhdr := finishHdr_refines hn3 hne3 (p := p) (by omega) sign (e + k)
    rw [hv3, hnd3] at hhdr
    rwa [if_neg hcarry, if_neg hcarry]

/-- The limbs of a nonzero number, or of its whole part where digits are lost, round it. -/
theorem finish_rounds (hl : IsDigits bb l) (hs : sign = 1 ∨ sign = -1) {x : ℚ} (hc : val l ≠ 0)
    (hcx : (val l : ℚ) ≤ x) (hxc : x < val l + 1)
    (hexact : Runtime.ndig (val l) ≤ p.val → x = val l) (e : Int) :
    Rounds p.val (sign * x * 10 ^ e) (finish sign l e p.val) := by
  have hsgn : (sign : ℚ) = sgn (sign < 0) := by
    rcases hs with rfl | rfl <;> simp [sgn]
  rw [hsgn]
  exact (finish_refines hl hs e p).rounds (finish_isRounded hc hcx hxc hexact _ e)

theorem rounds_dzero (p : Prec) : Rounds p.val 0 (.ok (dzero p.val)) := by
  refine ⟨valid_dzero p.property, rfl, ?_, .inl roundAway_zero⟩
  rw [roundAway_zero]
  simp [Block.value, dzero]

/-- A coefficient, whole, is rounded once. -/
theorem finish_val_rounds (hl : IsDigits bb l) (hs : sign = 1 ∨ sign = -1) (e : Int) (p : Prec) :
    Rounds p.val (sign * val l * 10 ^ e) (finish sign l e p.val) := by
  by_cases hc : val l = 0
  · have hzero := (finish_refines hl hs e p).rounds (x := 0) (by
      rw [hc]
      exact ⟨by rw [roundAway_zero]; rfl, .inl roundAway_zero⟩)
    rwa [hc, Nat.cast_zero, mul_zero, zero_mul]
  · exact finish_rounds hl hs hc le_rfl (lt_add_one _) (fun _ => rfl) e

theorem dalloc_of_le {cap : Nat} (h : cap ≤ 1099511627776) : dalloc cap = .ok () :=
  if_neg (by omega)

theorem fromLimbs_eq (hs : sign = 1 ∨ sign = -1) {e : Int} {p : Nat} (hl : IsDigits bb l)
    (hc : val l ≠ 0) (hlen : l.length < 1099511627776) :
    fromLimbs sign l e p = finish sign (trimTop l) e p := by
  have hne : (trimTop l).length ≠ 0 := by
    intro h
    rw [← val_trimTop hl, List.eq_nil_of_length_eq_zero h, val_nil] at hc
    exact hc rfl
  have hle : (trimTop l).length ≤ l.length := by
    unfold trimTop
    rw [List.length_take]
    exact Nat.min_le_right _ _
  unfold fromLimbs
  simp only []
  rw [if_neg (by omega), dalloc_of_le (by omega)]
  rfl

/-- A normal coefficient has no more limbs than digits. -/
theorem length_le_ndig (hl : Normal bb l) : l.length ≤ ndig l := by
  by_cases hne : l = []
  · rw [hne]
    exact Nat.zero_le _
  obtain ⟨low, t, rfl, -, ht, htb⟩ := hl.split_top hne
  obtain ⟨h1, -, -⟩ := ndig64_spec htb ht
  have hlen : (low ++ [t]).length = low.length + 1 := by simp
  have htop : (low ++ [t]).getD low.length 0 = t := by simp
  have hld : ld = 19 := rfl
  rw [ndig, hlen, if_neg (by omega), Nat.add_sub_cancel, htop, hld]
  omega

theorem Block.Valid.length_lt (h : v.Valid) : v.limbs.length ≤ 1073741823 := by
  have hlen := length_le_ndig h.normal
  rw [← h.nd] at hlen
  have hfits := h.fits
  have hp := h.prec.2
  omega

/-- Any valid value is rounded once to any precision. -/
theorem roundV_rounds (h : v.Valid) (p : Prec) (negate : Bool) :
    Rounds p.val (if negate then -v.value else v.value) (roundV v p.val negate) := by
  by_cases hs : v.sign = 0
  · have hvalue : v.value = 0 := by
      rw [Block.value, hs, Int.cast_zero, zero_mul, zero_mul]
    unfold roundV
    simp only [if_pos hs]
    rw [hvalue, neg_zero, ite_self]
    exact rounds_dzero p
  have hp := p.property
  have hlen := h.length_lt
  have hsign : (if negate then -v.sign else v.sign) = 1 ∨ (if negate then -v.sign else v.sign) = -1 := by
    rcases h.sign_ne_zero hs with hv | hv <;> cases negate <;> simp [hv]
  have hvalue : (if negate then -v.value else v.value) =
      ((if negate then -v.sign else v.sign : Int) : ℚ) * val v.limbs * 10 ^ v.exp := by
    unfold Block.value
    cases negate <;> simp
  have hc := h.val_ne_zero hs
  unfold roundV
  simp only [if_neg hs]
  rw [hvalue]
  generalize (if negate then -v.sign else v.sign) = s at hsign ⊢
  by_cases hfits : v.nd ≤ p.val
  · rw [if_pos hfits, dalloc_of_le (by omega)]
    exact finish_val_rounds h.normal.digits hsign v.exp p
  rw [if_neg hfits]
  have hld : ld = 19 := rfl
  obtain ⟨q, hq⟩ : ∃ q, (v.nd - p.val - 1) / ld = q := ⟨_, rfl⟩
  have hnd := h.nd_eq
  have hlimit : 19 * q + p.val + 1 ≤ Runtime.ndig (val v.limbs) := by
    rw [← hq, hld]
    omega
  -- what is left of the coefficient keeps the rounding digit
  have hdrop := val_drop h.normal.digits q
  rw [bb_pow] at hdrop
  have hge := pow_le_of_lt_ndig hc (show 19 * q + p.val < Runtime.ndig (val v.limbs) by omega)
  have hquot : 10 ^ p.val ≤ val (v.limbs.drop q) := by
    rw [hdrop, Nat.le_div_iff_mul_le (Nat.pow_pos (by decide)), ← Nat.pow_add, Nat.add_comm p.val]
    exact hge
  have hpos : 0 < 10 ^ p.val := Nat.pow_pos (by decide)
  have hcq : val (v.limbs.drop q) ≠ 0 := by omega
  have hdigits := isDigits_drop h.normal.digits q
  have hqlen : (v.limbs.drop q).length < 1099511627776 := by
    rw [List.length_drop]
    omega
  have hten : (0 : ℚ) < 10 ^ (19 * q) := pow_pos (by norm_num) _
  have hmod := Nat.mod_lt (val v.limbs) (Nat.pow_pos (n := 19 * q) (by decide : 0 < 10))
  have hdiv := Nat.div_add_mod (val v.limbs) (10 ^ (19 * q))
  rw [← hdrop] at hdiv
  have hdivq : (10 : ℚ) ^ (19 * q) * val (v.limbs.drop q) +
      ((val v.limbs % 10 ^ (19 * q) : ℕ) : ℚ) = val v.limbs := by exact_mod_cast hdiv
  have hmodq : ((val v.limbs % 10 ^ (19 * q) : ℕ) : ℚ) < 10 ^ (19 * q) := by exact_mod_cast hmod
  have hmod0 : (0 : ℚ) ≤ ((val v.limbs % 10 ^ (19 * q) : ℕ) : ℚ) := Nat.cast_nonneg _
  have hlo : (val (v.limbs.drop q) : ℚ) ≤ val v.limbs / 10 ^ (19 * q) := by
    rw [le_div_iff₀ hten]
    linarith
  have hhi : (val v.limbs : ℚ) / 10 ^ (19 * q) < val (v.limbs.drop q) + 1 := by
    rw [div_lt_iff₀ hten]
    linarith
  have hmove : (s : ℚ) * val v.limbs * 10 ^ v.exp =
      s * (val v.limbs / 10 ^ (19 * q)) * 10 ^ (v.exp + ld * (q : ℕ)) := by
    rw [zpow_add₀ ten_ne_zero', hld, show ((19 : ℕ) : ℤ) * (q : ℕ) = ((19 * q : ℕ) : ℤ) by push_cast; rfl,
      zpow_natCast]
    field_simp
  rw [hq, fromLimbs_eq hsign hdigits hcq hqlen, hmove]
  rw [← val_trimTop hdigits] at hlo hhi hcq hquot
  refine finish_rounds (normal_trim hdigits).digits hsign hcq hlo hhi (fun hle => ?_) _
  have := (ndig_le_iff hcq).1 hle
  omega

end Decimals

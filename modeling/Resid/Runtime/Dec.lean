import Mathlib.Algebra.Order.Ring.Nat
import Resid.Runtime.Text
import Resid.Lib.RoundAway

/-!
# Decimals

A nonzero `Dec p` is a sign, exactly `p` significant digits and an exponent in
`[-10 ^ 6, 10 ^ 6]`; the limbs of a coefficient are the number they hold.  Narrowing
rounds half away from zero, and `none` is the abort on an exponent out of range.

    finish neg (c * 10 ^ j) e p = finish neg c (e + j) p              (finish_mul_pow)
    finish d.neg d.digits d.exp p = some (num d)                      (finish_self)
    fromStr (format v) q = convert q v                                (fromStr_format)
-/

namespace Runtime

open Decimal

def maxExp : Int := 1000000

/-- The precisions a decimal can have. -/
abbrev Prec := {p : Nat // 1 ≤ p ∧ p ≤ 1073741823}

/-- `p` digits with a nonzero first one, and an exponent in range. -/
def DecDigits (p digits : Nat) (exp : Int) : Prop :=
  (10 ^ (p - 1) ≤ digits ∧ digits < 10 ^ p) ∧ -maxExp ≤ exp ∧ exp ≤ maxExp

instance (p digits : Nat) (exp : Int) : Decidable (DecDigits p digits exp) :=
  inferInstanceAs (Decidable (_ ∧ _))

/-- The number `± digits * 10 ^ exp`. -/
structure DecNum (p : Prec) where
  neg : Bool
  digits : Nat
  exp : Int
  valid : DecDigits p.val digits exp
  deriving DecidableEq

inductive Dec (p : Prec)
  | zero
  | num (d : DecNum p)
  deriving DecidableEq

/-! ## Algorithm -/

/-- The number of decimal digits, none for zero. -/
def ndig (c : Nat) : Nat := if c = 0 then 0 else (text c).length

/-- A number of exactly `p` digits, where its exponent is in range. -/
def decNum? (p : Prec) (neg : Bool) (digits : Nat) (exp : Int) : Option (Dec p) :=
  if h : DecDigits p.val digits exp then some (.num ⟨neg, digits, exp, h⟩) else none

/-- The coefficient padded to the precision, with its exponent checked. -/
def finishHdr (neg : Bool) (coef : Nat) (exp : Int) (nd : Nat) (p : Prec) : Option (Dec p) :=
  decNum? p neg (coef * 10 ^ (p.val - nd)) (exp - (p.val - nd : Nat))

/-- A coefficient without its last `k` digits, rounded half away from zero. -/
def dropDigits (coef k : Nat) : Nat :=
  let up := coef / 10 ^ (k - 1) % 10 ≥ 5
  coef / 10 ^ k + (if up then 1 else 0)

/-- Round the coefficient to the precision. -/
def finish (neg : Bool) (coef : Nat) (exp : Int) (p : Prec) : Option (Dec p) :=
  if coef = 0 then some .zero
  else
    let nd1 := ndig coef
    if nd1 ≤ p.val then finishHdr neg coef exp nd1 p
    else
      let k := nd1 - p.val
      let c := dropDigits coef k
      -- 99..9 rounded up to 10^p: one digit, p zeros
      if ndig c > p.val then finishHdr neg 1 (exp + k + p.val) 1 p
      else finishHdr neg c (exp + k) (ndig c) p

/-- The value at another precision. -/
def convert {p : Prec} (q : Prec) : Dec p → Option (Dec q)
  | .zero => some .zero
  | .num d => finish d.neg d.digits d.exp q

/-- The digits of an exponent and what follows them. -/
def expValue : Str → Nat → Option (Nat × Str)
  | [], ev => some (ev, [])
  | c :: s, ev =>
    if !c.isDigit then some (ev, c :: s)
    else if ev > 100000 then none
    else expValue s (ev * 10 + digitOf c)

/-- A plain or e-notation decimal text, rounded to the precision. -/
def fromStr (s : Str) (p : Prec) : Option (Dec p) :=
  let c0 := s.head?
  let neg := c0 == some '-'
  let p0 := if c0 = some '-' ∨ c0 = some '+' then s.tail else s
  let d1 := p0.takeWhile Char.isDigit
  let p1 := p0.dropWhile Char.isDigit
  let dot := p1.head? = some '.'
  let d2 := if dot then p1.tail.takeWhile Char.isDigit else []
  let p2 := if dot then p1.tail.dropWhile Char.isDigit else p1
  let exp0 : Int := -(d2.length : Int)
  let hase := p2.head? = some 'e' ∨ p2.head? = some 'E'
  let pe := p2.tail
  let es : Int := if hase ∧ pe.head? = some '-' then -1 else 1
  let pd := if hase ∧ (pe.head? = some '-' ∨ pe.head? = some '+') then pe.tail else pe
  match (if hase then expValue pd 0 else some (0, p2)) with
  | none => none
  | some (ev, p3) =>
    if d1 ++ d2 = [] ∨ p3 ≠ [] then none
    else finish neg (value (d1 ++ d2)) (exp0 + es * ev) p

/-- The digits before and after the point, in fixed notation with all digits. -/
def formatParts {p : Prec} : Dec p → Str × Str
  | .zero => (['0'], zeros p.val)
  | .num d =>
    let ds := text d.digits
    let ipos : Int := p.val + d.exp
    if ipos > 0 then
      if ipos ≥ p.val then (ds ++ zeros (ipos.toNat - p.val), [])
      else (ds.take ipos.toNat, ds.drop ipos.toNat)
    else (['0'], zeros (-ipos).toNat ++ ds)

def Dec.isNeg {p : Prec} : Dec p → Bool
  | .zero => false
  | .num d => d.neg

def signText (neg : Bool) : Str := if neg then ['-'] else []

/-- Fixed notation with all `p` significant digits. -/
def format {p : Prec} (v : Dec p) : Str :=
  signText v.isNeg ++ ((formatParts v).1 ++ pointed (formatParts v).2)

/-! ## Counting digits -/

variable {c k : Nat} {p : Prec} {neg : Bool} {e : Int} {ds : Str} {w : Dec p}

theorem ndig_le_iff (hc : c ≠ 0) : ndig c ≤ k ↔ c < 10 ^ k := by
  rw [ndig, if_neg hc]
  rcases Nat.eq_zero_or_pos k with rfl | hk
  · have hpos := length_text_pos c
    omega
  · exact length_text_le_iff hk

theorem lt_pow_ndig (c : Nat) : c < 10 ^ ndig c := by
  by_cases hc : c = 0
  · rw [hc]
    exact Nat.pow_pos (by decide)
  · exact (ndig_le_iff hc).1 (Nat.le_refl _)

theorem pow_le_of_lt_ndig (hc : c ≠ 0) (h : k < ndig c) : 10 ^ k ≤ c := by
  have hnot := mt (ndig_le_iff (k := k) hc).2
  omega

/-- A coefficient between two neighbouring powers has that many digits. -/
theorem ndig_eq (hlo : 10 ^ (k - 1) ≤ c) (hhi : c < 10 ^ k) : ndig c = k := by
  have hpos : 0 < 10 ^ (k - 1) := Nat.pow_pos (by decide)
  have hc : c ≠ 0 := by omega
  have hle := (ndig_le_iff hc).2 hhi
  have hge : ¬ ndig c ≤ k - 1 := by
    rw [ndig_le_iff hc]
    omega
  omega

theorem ndig_mul_pow (j : Nat) (hc : c ≠ 0) : ndig (c * 10 ^ j) = ndig c + j := by
  have hpos : 0 < ndig c := by
    by_contra h
    have hlt := lt_pow_ndig c
    rw [show ndig c = 0 by omega, Nat.pow_zero] at hlt
    omega
  apply ndig_eq
  · rw [show ndig c + j - 1 = (ndig c - 1) + j by omega, Nat.pow_add]
    exact Nat.mul_le_mul_right _ (pow_le_of_lt_ndig hc (by omega))
  · rw [Nat.pow_add]
    exact Nat.mul_lt_mul_of_pos_right (lt_pow_ndig c) (Nat.pow_pos (by decide))

theorem DecNum.digits_ne_zero (d : DecNum p) : d.digits ≠ 0 := by
  have hpos : 0 < 10 ^ (p.val - 1) := Nat.pow_pos (by decide)
  have hlo := d.valid.1.1
  omega

theorem DecNum.ndig_digits (d : DecNum p) : ndig d.digits = p.val :=
  ndig_eq d.valid.1.1 d.valid.1.2

/-! ## Rounding -/

theorem dropDigits_mul_pow (c k : Nat) (hk : 0 < k) : dropDigits (c * 10 ^ k) k = c := by
  have hpos : 0 < 10 ^ (k - 1) := Nat.pow_pos (by decide)
  have hdigit : c * 10 ^ k / 10 ^ (k - 1) % 10 = 0 := by
    have hsplit : c * 10 ^ k = c * 10 * 10 ^ (k - 1) := by
      rw [Nat.mul_assoc, ← Nat.pow_succ', Nat.succ_eq_add_one, Nat.sub_add_cancel hk]
    rw [hsplit, Nat.mul_div_cancel _ hpos, Nat.mul_mod_left]
  rw [dropDigits, hdigit, Nat.mul_div_cancel _ (Nat.pow_pos (by decide))]
  rfl

theorem dropDigits_add (c k j : Nat) (hk : 0 < k) :
    dropDigits (c * 10 ^ j) (k + j) = dropDigits c k := by
  have h10 : 0 < 10 ^ j := Nat.pow_pos (by decide)
  have hquot : ∀ i, c * 10 ^ j / 10 ^ (i + j) = c / 10 ^ i := by
    intro i
    rw [Nat.pow_add, Nat.mul_div_mul_right _ _ h10]
  rw [dropDigits, dropDigits, show k + j - 1 = (k - 1) + j by omega, hquot, hquot]

theorem decNum?_of_valid (neg : Bool) {digits : Nat} {exp : Int} (h : DecDigits p.val digits exp) :
    decNum? p neg digits exp = some (.num ⟨neg, digits, exp, h⟩) :=
  dif_pos h

/-- A coefficient that fits is only padded. -/
theorem finish_of_le (hc : c ≠ 0) (h : ndig c ≤ p.val) :
    finish neg c e p = decNum? p neg (c * 10 ^ (p.val - ndig c)) (e - (p.val - ndig c : Nat)) := by
  rw [finish, if_neg hc, if_pos h, finishHdr]

theorem finish_of_gt (hk : 0 < k) (h : ndig c = p.val + k) : finish neg c e p =
      if ndig (dropDigits c k) > p.val then finishHdr neg 1 (e + k + p.val) 1 p
      else finishHdr neg (dropDigits c k) (e + k) (ndig (dropDigits c k)) p := by
  have hc : c ≠ 0 := by
    rintro rfl
    rw [ndig, if_pos rfl] at h
    omega
  have hsub : ndig c - p.val = k := by omega
  rw [finish, if_neg hc, if_neg (by omega)]
  simp [hsub]

/-- Zeros at the end of a coefficient may move into its exponent. -/
theorem finish_mul_pow (neg : Bool) (c j : Nat) (e : Int) (p : Prec) :
    finish neg (c * 10 ^ j) e p = finish neg c (e + j) p := by
  have h10 : 0 < 10 ^ j := Nat.pow_pos (by decide)
  by_cases hc : c = 0
  · rw [hc, Nat.zero_mul, finish, finish, if_pos rfl, if_pos rfl]
  have hcj : c * 10 ^ j ≠ 0 := Nat.mul_ne_zero hc (by omega)
  have hnd := ndig_mul_pow j hc
  by_cases h1 : ndig c + j ≤ p.val
  · -- both fit
    have hdigits : c * 10 ^ j * 10 ^ (p.val - (ndig c + j)) = c * 10 ^ (p.val - ndig c) := by
      rw [Nat.mul_assoc, ← Nat.pow_add]
      congr 2
      omega
    have hexp : e - (p.val - (ndig c + j) : Nat) = e + j - (p.val - ndig c : Nat) := by omega
    rw [finish_of_le hcj (by omega), finish_of_le hc (by omega), hnd, hdigits, hexp]
  by_cases h2 : ndig c ≤ p.val
  · -- only zeros are rounded away
    have hsplit : c * 10 ^ j = c * 10 ^ (p.val - ndig c) * 10 ^ (ndig c + j - p.val) := by
      rw [Nat.mul_assoc, ← Nat.pow_add]
      congr 2
      omega
    have hdrop : dropDigits (c * 10 ^ j) (ndig c + j - p.val) = c * 10 ^ (p.val - ndig c) := by
      rw [hsplit, dropDigits_mul_pow _ _ (by omega)]
    have hpad : ndig (c * 10 ^ (p.val - ndig c)) = p.val := by
      rw [ndig_mul_pow _ hc]
      omega
    have hexp : e + (ndig c + j - p.val : Nat) - (0 : Nat) = e + j - (p.val - ndig c : Nat) := by
      omega
    rw [finish_of_gt (show 0 < ndig c + j - p.val by omega) (by omega), finish_of_le hc h2, hdrop,
      hpad, if_neg (Nat.lt_irrefl _), finishHdr, Nat.sub_self, Nat.pow_zero, Nat.mul_one, hexp]
  · -- the same digits are rounded away, and `j` zeros with them
    have hk : 0 < ndig c - p.val := by omega
    have hexp : e + (ndig c - p.val + j : Nat) = e + j + (ndig c - p.val : Nat) := by omega
    rw [finish_of_gt (show 0 < ndig c - p.val + j by omega) (by omega),
      finish_of_gt hk (by omega), dropDigits_add c _ j hk, hexp]

theorem finish_self (d : DecNum p) : finish d.neg d.digits d.exp p = some (.num d) := by
  rw [finish_of_le d.digits_ne_zero (by rw [d.ndig_digits]), d.ndig_digits, Nat.sub_self,
    Nat.pow_zero, Nat.mul_one, show d.exp - ((0 : Nat) : Int) = d.exp by omega,
    decNum?_of_valid d.neg d.valid]

/-! ## There and back through 34 digits -/

/-- The precision of a plain `Dec`. -/
def p34 : Prec := ⟨34, by decide⟩

/-- The value rounded to 34 digits and back. -/
def reread {p : Prec} (v : Dec p) : Option (Dec p) := (convert p34 v).bind (convert p)

/-- At most 34 significant digits, and an exponent in range at 34 digits. -/
def Dec.Fits34 {p : Prec} : Dec p → Prop
  | .zero => True
  | .num d => 10 ^ (p.val - 34) ∣ d.digits ∧
      -maxExp ≤ d.exp + p.val - 34 ∧ d.exp + p.val - 34 ≤ maxExp

instance {p : Prec} (v : Dec p) : Decidable v.Fits34 :=
  match v with
  | .zero => inferInstanceAs (Decidable True)
  | .num _ => inferInstanceAs (Decidable (_ ∧ _))

/-- A short coefficient padded to one precision and taken to another was never rounded. -/
theorem convert_of_finish (q : Prec) (hc : c ≠ 0) (hp : ndig c ≤ p.val)
    (h : finish neg c e p = some w) : convert q w = finish neg c e q := by
  rw [finish_of_le hc hp, decNum?] at h
  split at h
  · cases h
    show finish neg (c * 10 ^ (p.val - ndig c)) (e - (p.val - ndig c : Nat)) q = _
    rw [finish_mul_pow, Int.sub_add_cancel]
  · cases h

/-- At 34 digits a number has a short coefficient, its own or the rounded one. -/
theorem exists_short (d : DecNum p) : ∃ c e, c ≠ 0 ∧ ndig c ≤ 34 ∧ ndig c ≤ p.val ∧
      finish d.neg d.digits d.exp p34 = finish d.neg c e p34 := by
  by_cases hp : p.val ≤ 34
  · refine ⟨d.digits, d.exp, d.digits_ne_zero, ?_, ?_, rfl⟩
    · rwa [d.ndig_digits]
    · exact d.ndig_digits.le
  obtain ⟨k, hk⟩ : ∃ k, p.val = 34 + k := ⟨p.val - 34, by omega⟩
  have hk0 : 0 < k := by omega
  have hnd : ndig d.digits = p34.val + k := by
    rw [d.ndig_digits, hk]
    rfl
  rw [finish_of_gt hk0 hnd]
  by_cases hup : ndig (dropDigits d.digits k) > p34.val
  · -- a carry out of all digits leaves a power of ten
    have h1 : ndig 1 = 1 := by decide
    refine ⟨1, d.exp + k + p34.val, by decide, by rw [h1]; decide, ?_, ?_⟩
    · rw [h1]
      exact p.property.1
    · rw [if_pos hup, finish_of_le (by decide) (by rw [h1]; decide), h1, finishHdr]
  · have h34 : ndig (dropDigits d.digits k) ≤ 34 := by
      show ndig (dropDigits d.digits k) ≤ p34.val
      omega
    have hne : dropDigits d.digits k ≠ 0 := by
      have hquot : 10 ^ 33 ≤ d.digits / 10 ^ k := by
        rw [Nat.le_div_iff_mul_le (Nat.pow_pos (by decide)), ← Nat.pow_add]
        have hlo := d.valid.1.1
        rwa [hk, show 34 + k - 1 = 33 + k by omega] at hlo
      have hle : d.digits / 10 ^ k ≤ dropDigits d.digits k := Nat.le_add_right _ _
      omega
    refine ⟨dropDigits d.digits k, d.exp + k, hne, h34, by omega, ?_⟩
    rw [if_neg hup, finish_of_le hne h34, finishHdr]

/-- What a short coefficient gives at two precisions is short. -/
theorem fits34_of_finish {w' : Dec p34} (hc : c ≠ 0) (h34 : ndig c ≤ 34) (hp : ndig c ≤ p.val)
    (hw' : finish neg c e p34 = some w') (hw : finish neg c e p = some w) : w.Fits34 := by
  rw [finish_of_le hc hp, decNum?] at hw
  rw [finish_of_le hc h34, decNum?] at hw'
  split at hw'
  · next hvalid =>
    have hrange := hvalid.2
    have hval : p34.val = 34 := rfl
    split at hw
    · cases hw
      constructor
      · exact Dvd.dvd.mul_left (Nat.pow_dvd_pow 10 (by omega)) c
      · show -maxExp ≤ e - (p.val - ndig c : Nat) + p.val - 34 ∧
          e - (p.val - ndig c : Nat) + p.val - 34 ≤ maxExp
        omega
    · cases hw
  · cases hw'

theorem fits34_of_reread {v : Dec p} (h : reread v = some w) : w.Fits34 := by
  cases v with
  | zero =>
    cases h
    trivial
  | num d =>
    obtain ⟨c, e, hc, h34, hp, heq⟩ := exists_short d
    rw [reread, convert, heq] at h
    obtain ⟨w', hw', hconv⟩ := Option.bind_eq_some_iff.1 h
    rw [convert_of_finish p hc h34 hw'] at hconv
    exact fits34_of_finish hc h34 hp hw' hconv

/-- Exactly the numbers of at most 34 digits survive. -/
theorem reread_eq_some_iff (v : Dec p) : reread v = some v ↔ v.Fits34 := by
  constructor
  · exact fits34_of_reread
  · intro hfits
    cases v with
    | zero => rfl
    | num d =>
      obtain ⟨⟨c, hdigits⟩, hlo, hhi⟩ := hfits
      rw [Nat.mul_comm] at hdigits
      have hfin : ∀ q, finish d.neg d.digits d.exp q =
          finish d.neg c (d.exp + (p.val - 34 : Nat)) q := by
        intro q
        rw [hdigits, finish_mul_pow]
      have hc : c ≠ 0 := by
        rintro rfl
        rw [Nat.zero_mul] at hdigits
        exact d.digits_ne_zero hdigits
      have hnd : ndig c + (p.val - 34) = p.val := by
        rw [← ndig_mul_pow _ hc, ← hdigits, d.ndig_digits]
      have h34 : ndig c ≤ 34 := by omega
      have hvalid : DecDigits p34.val (c * 10 ^ (p34.val - ndig c))
          (d.exp + (p.val - 34 : Nat) - (p34.val - ndig c : Nat)) := by
        have hval : p34.val = 34 := rfl
        have hpad : ndig (c * 10 ^ (34 - ndig c)) = 34 := by
          rw [ndig_mul_pow _ hc]
          omega
        have hpos : 0 < 10 ^ (34 - ndig c) := Nat.pow_pos (by decide)
        rw [hval]
        refine ⟨⟨pow_le_of_lt_ndig (Nat.mul_ne_zero hc (by omega)) (by omega), ?_⟩, ?_⟩
        · exact (ndig_le_iff (Nat.mul_ne_zero hc (by omega))).1 hpad.le
        · omega
      have hsome := decNum?_of_valid d.neg hvalid
      rw [← finish_of_le hc h34] at hsome
      rw [reread, convert, hfin, hsome, Option.bind_some, convert_of_finish p hc h34 hsome, ← hfin,
        finish_self]

/-! ## Reading a printed decimal -/

theorem takeWhile_digits {rest : Str} (hds : AllDigits ds)
    (hrest : ∀ c r, rest = c :: r → c.isDigit = false) :
    (ds ++ rest).takeWhile Char.isDigit = ds ∧ (ds ++ rest).dropWhile Char.isDigit = rest := by
  have htake : rest.takeWhile Char.isDigit = [] ∧ rest.dropWhile Char.isDigit = rest := by
    cases rest with
    | nil => exact ⟨rfl, rfl⟩
    | cons c r =>
      have hc := hrest c r rfl
      constructor
      · rw [List.takeWhile_cons_of_neg (by simp [hc])]
      · rw [List.dropWhile_cons_of_neg (by simp [hc])]
  constructor
  · rw [List.takeWhile_append_of_pos hds, htake.1, List.append_nil]
  · rw [List.dropWhile_append_of_pos hds, htake.2]

/-- The parts of the text of a number: both digits, the first not empty. -/
structure NumberParts (ds fs : Str) : Prop where
  digits : AllDigits ds
  nonempty : ds ≠ []
  frac : AllDigits fs

theorem NumberParts.head {fs : Str} (h : NumberParts ds fs) :
    ∃ c r, ds ++ pointed fs = c :: r ∧ c.isDigit = true := by
  cases ds with
  | nil => exact absurd rfl h.nonempty
  | cons c r => exact ⟨c, r ++ pointed fs, rfl, h.digits c List.mem_cons_self⟩

theorem fromStr_parts {fs : Str} (h : NumberParts ds fs) (p : Prec) :
    fromStr (signText neg ++ (ds ++ pointed fs)) p =
      finish neg (value (ds ++ fs)) (-(fs.length : Int)) p := by
  obtain ⟨c, r, hcr, hc⟩ := h.head
  have hminus : c ≠ '-' := by
    rintro rfl
    exact absurd hc (by decide)
  have hplus : c ≠ '+' := by
    rintro rfl
    exact absurd hc (by decide)
  have hneg : ((signText neg ++ (ds ++ pointed fs)).head? == some '-') = neg := by
    cases neg with
    | true => rfl
    | false =>
      rw [show signText false = [] from rfl, List.nil_append, hcr]
      simp [hminus]
  have hp0 : (if (signText neg ++ (ds ++ pointed fs)).head? = some '-' ∨
      (signText neg ++ (ds ++ pointed fs)).head? = some '+'
      then (signText neg ++ (ds ++ pointed fs)).tail else signText neg ++ (ds ++ pointed fs)) =
      ds ++ pointed fs := by
    cases neg with
    | true => rfl
    | false =>
      rw [show signText false = [] from rfl, List.nil_append, hcr]
      simp [hminus, hplus]
  have hpoint : ∀ c r, pointed fs = c :: r → c.isDigit = false := by
    intro c r hcons
    by_cases hfs : fs = []
    · rw [pointed, if_pos hfs] at hcons
      cases hcons
    · rw [pointed, if_neg hfs] at hcons
      cases hcons
      rfl
  obtain ⟨htake, hdrop⟩ := takeWhile_digits h.digits hpoint
  have hnil : ∀ c r, ([] : Str) = c :: r → c.isDigit = false := by
    intro c r hcons
    cases hcons
  obtain ⟨hftake, hfdrop⟩ := takeWhile_digits h.frac hnil
  rw [List.append_nil] at hftake hfdrop
  rw [fromStr]
  simp only [hneg, hp0, htake, hdrop]
  by_cases hfs : fs = []
  · subst hfs
    simp [pointed, h.nonempty]
  · simp [pointed, hfs, hftake, hfdrop]

theorem DecNum.length_text (d : DecNum p) : (text d.digits).length = p.val := by
  have hnd := d.ndig_digits
  rwa [ndig, if_neg d.digits_ne_zero] at hnd

theorem numberParts_format (v : Dec p) : NumberParts (formatParts v).1 (formatParts v).2 := by
  have hzero : AllDigits ['0'] := allDigits_zeros 1
  cases v with
  | zero => exact ⟨hzero, List.cons_ne_nil _ _, allDigits_zeros _⟩
  | num d =>
    have hds := allDigits_text d.digits
    have hlen := d.length_text
    rw [formatParts]
    by_cases hpos : (p.val : Int) + d.exp > 0
    · rw [if_pos hpos]
      by_cases hwhole : (p.val : Int) + d.exp ≥ p.val
      · rw [if_pos hwhole]
        refine ⟨hds.append (allDigits_zeros _), ?_, ?_⟩
        · intro hnil
          exact text_ne_nil _ (List.append_eq_nil_iff.1 hnil).1
        · intro c hc
          cases hc
      · rw [if_neg hwhole]
        refine ⟨fun c hc => hds c (List.mem_of_mem_take hc), ?_,
          fun c hc => hds c (List.mem_of_mem_drop hc)⟩
        intro hnil
        have hl := congrArg List.length hnil
        rw [List.length_take, hlen, List.length_nil] at hl
        omega
    · rw [if_neg hpos]
      exact ⟨hzero, List.cons_ne_nil _ _, (allDigits_zeros _).append hds⟩

/-- The printed digits and the place of the point are the number. -/
theorem finish_formatParts (v : Dec p) (q : Prec) :
    finish v.isNeg (value ((formatParts v).1 ++ (formatParts v).2))
      (-((formatParts v).2.length : Int)) q = convert q v := by
  cases v with
  | zero =>
    have hvalue : value (['0'] ++ zeros p.val) = 0 := by
      have hcons : ['0'] ++ zeros p.val = zeros (1 + p.val) := by
        rw [zeros, zeros, List.replicate_add]
        rfl
      rw [hcons, value_zeros]
    rw [formatParts, hvalue]
    rfl
  | num d =>
    have hlen := d.length_text
    rw [formatParts]
    show finish d.neg _ _ q = finish d.neg d.digits d.exp q
    by_cases hpos : (p.val : Int) + d.exp > 0
    · rw [if_pos hpos]
      by_cases hwhole : (p.val : Int) + d.exp ≥ p.val
      · -- a whole number: the zeros behind the digits are its exponent
        have hexp : -((List.length ([] : Str) : Nat) : Int) +
            (((p.val : Int) + d.exp).toNat - p.val : Nat) = d.exp := by
          rw [List.length_nil]
          omega
        rw [if_pos hwhole, List.append_nil, value_append, value_text, value_zeros, Nat.add_zero,
          length_zeros, finish_mul_pow, hexp]
      · have hexp : -(((text d.digits).length - ((p.val : Int) + d.exp).toNat : Nat) : Int) =
            d.exp := by
          omega
        rw [if_neg hwhole, List.take_append_drop, value_text, List.length_drop, hexp]
    · -- zeros between the point and the digits
      have hvalue : value (['0'] ++ (zeros (-((p.val : Int) + d.exp)).toNat ++ text d.digits)) =
          d.digits := by
        rw [value_append, value_append, value_zeros, value_text, Nat.zero_mul, Nat.zero_add]
        show digitOf '0' * _ + _ = _
        rw [show digitOf '0' = 0 from rfl, Nat.zero_mul, Nat.zero_add]
      have hexp : -(((-((p.val : Int) + d.exp)).toNat + p.val : Nat) : Int) = d.exp := by omega
      rw [if_neg hpos, hvalue, List.length_append, length_zeros, hlen, hexp]

/-- Reading back a printed decimal is rounding it. -/
theorem fromStr_format (v : Dec p) (q : Prec) : fromStr (format v) q = convert q v := by
  rw [format, fromStr_parts (numberParts_format v), finish_formatParts]

/-!
## Finishing is rounding once

`finish` pads or rounds a coefficient to the precision and checks the exponent.  On
the numbers it is `roundAway`, also of a number that lies between the coefficient and the
next, as long as the coefficient has digits to lose.

    c ≤ x < c + 1 → IsRounded p (± x * 10 ^ e) (finish neg c e p)    (finish_isRounded)
-/

open RoundAway

/-- The factor of a sign. -/
def sgn (neg : Bool) : ℚ := if neg then -1 else 1

/-- The number a decimal stands for. -/
def decValue {p : Prec} : Dec p → ℚ
  | .zero => 0
  | .num d => sgn d.neg * d.digits * 10 ^ d.exp

/-- A number whose last of `p` digits has an exponent in range. -/
def Admitted (p : Nat) (y : ℚ) : Prop :=
  y = 0 ∨ (-maxExp ≤ lastPlace 10 p y ∧ lastPlace 10 p y ≤ maxExp)

/-- The number itself, or nothing where its exponent is out of range. -/
def IsValue (p : Prec) (y : ℚ) : Option (Dec p) → Prop
  | some d => decValue d = y ∧ Admitted p.val y
  | none => ¬ Admitted p.val y

/-- The number rounded once to the precision, or nothing where that is out of range. -/
def IsRounded (p : Prec) (x : ℚ) (o : Option (Dec p)) : Prop := IsValue p (roundAway 10 p.val x) o

theorem sgn_cases (neg : Bool) : sgn neg = 1 ∨ sgn neg = -1 := by
  cases neg with
  | false => exact .inl rfl
  | true => exact .inr rfl

theorem roundAway_sgn (p : Nat) (neg : Bool) (x : ℚ) :
    roundAway 10 p (sgn neg * x) = sgn neg * roundAway 10 p x := by
  rcases sgn_cases neg with h | h
  · rw [h, one_mul, one_mul]
  · rw [h, neg_one_mul, neg_one_mul, roundAway_neg]

theorem lastPlace_sgn (p : Nat) (neg : Bool) (x : ℚ) :
    lastPlace 10 p (sgn neg * x) = lastPlace 10 p x := by
  rcases sgn_cases neg with h | h
  · rw [h, one_mul]
  · rw [h, neg_one_mul, lastPlace_neg]

theorem ten_ne_zero' : (10 : ℚ) ≠ 0 := by norm_num

theorem ten_zpow_pos (e : ℤ) : (0 : ℚ) < 10 ^ e := zpow_pos (by norm_num) e

/-! ## The last place of a coefficient -/

variable {c k : Nat}

theorem coef_bounds (hc : c ≠ 0) (e : ℤ) : (10 : ℚ) ^ ((ndig c : ℤ) - 1 + e) ≤ c * 10 ^ e ∧
      (c : ℚ) * 10 ^ e < 10 ^ ((ndig c : ℤ) + e) := by
  have hlt := lt_pow_ndig c
  have hpos : 0 < ndig c := by
    by_contra h
    rw [show ndig c = 0 by omega] at hlt
    omega
  have hge := pow_le_of_lt_ndig hc (show ndig c - 1 < ndig c by omega)
  have hexp : (ndig c : ℤ) - 1 = ((ndig c - 1 : ℕ) : ℤ) := by omega
  have hpow := ten_zpow_pos e
  constructor
  · rw [zpow_add₀ ten_ne_zero', hexp, zpow_natCast]
    exact mul_le_mul_of_nonneg_right (by exact_mod_cast hge) hpow.le
  · rw [zpow_add₀ ten_ne_zero', zpow_natCast]
    exact mul_lt_mul_of_pos_right (by exact_mod_cast hlt) hpow

theorem lastPlace_coef (hc : c ≠ 0) (p : Nat) (neg : Bool) (e : ℤ) :
    lastPlace 10 p (sgn neg * c * 10 ^ e) = e - ((p : ℤ) - ndig c) := by
  obtain ⟨hlo, hhi⟩ := coef_bounds hc e
  rw [mul_assoc, lastPlace_sgn]
  have hplace := @lastPlace_eq 10 p (by decide) _ _ hlo
    (by rwa [show (ndig c : ℤ) - 1 + e + 1 = ndig c + e by ring])
  rw [hplace]
  ring

theorem coef_ne_zero (hc : c ≠ 0) (neg : Bool) (e : ℤ) : sgn neg * c * (10 : ℚ) ^ e ≠ 0 := by
  have hsgn : sgn neg ≠ 0 := by
    rcases sgn_cases neg with h | h <;> rw [h] <;> norm_num
  exact mul_ne_zero (mul_ne_zero hsgn (Nat.cast_ne_zero.2 hc)) (ten_zpow_pos e).ne'

/-! ## Padding -/

/-- A coefficient that fits is kept, and its exponent decides. -/
theorem finishHdr_isValue (hc : c ≠ 0) {p : Prec} (hfits : ndig c ≤ p.val) (neg : Bool) (e : ℤ) :
    IsValue p (sgn neg * c * 10 ^ e) (finishHdr neg c e (ndig c) p) := by
  have hplace := lastPlace_coef hc p.val neg e
  have hsub : ((p.val - ndig c : Nat) : ℤ) = (p.val : ℤ) - ndig c := by omega
  have hcp : c * 10 ^ (p.val - ndig c) ≠ 0 := Nat.mul_ne_zero hc (Nat.pow_pos (by decide)).ne'
  have hnd : ndig (c * 10 ^ (p.val - ndig c)) = p.val := by
    rw [ndig_mul_pow _ hc]
    omega
  have hdigits : 10 ^ (p.val - 1) ≤ c * 10 ^ (p.val - ndig c) ∧
      c * 10 ^ (p.val - ndig c) < 10 ^ p.val := by
    refine ⟨pow_le_of_lt_ndig hcp (by omega), ?_⟩
    have hlt := lt_pow_ndig (c * 10 ^ (p.val - ndig c))
    rwa [hnd] at hlt
  rw [finishHdr, decNum?]
  by_cases hvalid : DecDigits p.val (c * 10 ^ (p.val - ndig c)) (e - (p.val - ndig c : Nat))
  · rw [dif_pos hvalid]
    refine ⟨?_, .inr ?_⟩
    · show sgn neg * ((c * 10 ^ (p.val - ndig c) : ℕ) : ℚ) * 10 ^ (e - ((p.val - ndig c : ℕ) : ℤ)) = _
      rw [zpow_sub₀ ten_ne_zero', zpow_natCast]
      push_cast
      field_simp
    · rw [hplace, ← hsub]
      exact hvalid.2
  · rw [dif_neg hvalid]
    rintro (hzero | hrange)
    · exact coef_ne_zero hc neg e hzero
    · rw [hplace, ← hsub] at hrange
      exact hvalid ⟨hdigits, hrange⟩

/-! ## Rounding -/

/-- Dropping digits with the digit below deciding is adding half and cutting. -/
theorem dropDigits_eq (c : Nat) (hk : 0 < k) : dropDigits c k = (c + 10 ^ k / 2) / 10 ^ k := by
  obtain ⟨j, rfl⟩ : ∃ j, k = j + 1 := ⟨k - 1, by omega⟩
  have hpos : 0 < 10 ^ j := Nat.pow_pos (by decide)
  have hhalf : 10 ^ (j + 1) / 2 = 10 ^ j * 5 := by omega
  have hquot : ∀ y, y / 10 ^ (j + 1) = y / 10 ^ j / 10 := by
    intro y
    rw [pow_succ, Nat.div_div_eq_div_mul]
  rw [dropDigits, hhalf, hquot, hquot, Nat.add_mul_div_left _ _ hpos, Nat.add_sub_cancel]
  split_ifs <;> omega

theorem dropDigits_le {p : Nat} (hk : 0 < k) (hc : c < 10 ^ (p + k)) : dropDigits c k ≤ 10 ^ p := by
  have hpos : 0 < 10 ^ k := Nat.pow_pos (by decide)
  rw [dropDigits_eq c hk, ← Nat.lt_succ_iff, Nat.div_lt_iff_lt_mul hpos]
  have hpow : 10 ^ (p + k) = 10 ^ p * 10 ^ k := Nat.pow_add _ _ _
  rw [Nat.succ_mul]
  omega

theorem le_dropDigits {p : Nat} (hp : 0 < p) (hc : 10 ^ (p + k - 1) ≤ c) :
    10 ^ (p - 1) ≤ dropDigits c k := by
  have hle : 10 ^ (p - 1) ≤ c / 10 ^ k := by
    rw [Nat.le_div_iff_mul_le (Nat.pow_pos (by decide)), ← Nat.pow_add]
    rwa [show p - 1 + k = p + k - 1 by omega]
  exact Nat.le_add_right_of_le hle

theorem finish_isRounded (hc : c ≠ 0) {x : ℚ} (hcx : (c : ℚ) ≤ x) (hxc : x < c + 1) {p : Prec}
    (hexact : ndig c ≤ p.val → x = c) (neg : Bool) (e : ℤ) :
    IsRounded p (sgn neg * x * 10 ^ e) (finish neg c e p) := by
  have hp := p.property.1
  have hx : 0 ≤ x := (Nat.cast_nonneg c).trans hcx
  have hround : roundAway 10 p.val (sgn neg * x * 10 ^ e) =
      sgn neg * roundMag 10 p.val x * 10 ^ e := by
    have hmove := @roundAway_mul_zpow 10 p.val (by decide) x e
    push_cast at hmove
    rw [mul_assoc, roundAway_sgn, hmove, roundAway_of_nonneg hx, mul_assoc]
  rw [IsRounded, hround]
  by_cases hfits : ndig c ≤ p.val
  · have hlt := (ndig_le_iff hc).1 hfits
    rw [hexact hfits, roundMag_natCast (by decide) (Nat.pos_of_ne_zero hc) hlt, finish,
      if_neg hc]
    simp only [if_pos hfits]
    exact finishHdr_isValue hc hfits neg e
  · obtain ⟨k, hk⟩ : ∃ k, ndig c = p.val + k := ⟨ndig c - p.val, by omega⟩
    have hk0 : 0 < k := by omega
    have hlt := lt_pow_ndig c
    have hge := pow_le_of_lt_ndig hc (show ndig c - 1 < ndig c by omega)
    rw [hk] at hlt hge
    have hmag := @roundMag_of_floor 10 p.val (by decide) x c (by decide) k hp hk0 hcx hxc hge hlt
    rw [← dropDigits_eq c hk0] at hmag
    have hle := dropDigits_le hk0 hlt
    have hdge := le_dropDigits (k := k) hp hge
    have hdrop : dropDigits c k ≠ 0 := by
      have : 0 < 10 ^ (p.val - 1) := Nat.pow_pos (by decide)
      omega
    have hvalue : sgn neg * roundMag 10 p.val x * 10 ^ e =
        sgn neg * (dropDigits c k : ℕ) * 10 ^ (e + k) := by
      rw [hmag, zpow_add₀ ten_ne_zero', zpow_natCast]
      ring
    rw [hvalue, finish_of_gt hk0 hk]
    by_cases hcarry : ndig (dropDigits c k) > p.val
    · -- 99..9 rounded up
      have hten : dropDigits c k = 10 ^ p.val := by
        have hnot := mt (ndig_le_iff hdrop).2 (Nat.not_le.2 hcarry)
        omega
      have hone : ndig 1 = 1 := by decide
      have hval := finishHdr_isValue (c := 1) (by decide) (p := p) (by rw [hone]; exact hp) neg
        (e + k + p.val)
      have hnum : sgn neg * (dropDigits c k : ℕ) * 10 ^ (e + k) =
          sgn neg * ((1 : ℕ) : ℚ) * 10 ^ (e + k + p.val) := by
        rw [hten, zpow_add₀ ten_ne_zero' (e + k), zpow_natCast]
        push_cast
        ring
      rw [if_pos hcarry, hnum]
      rwa [hone] at hval
    · rw [if_neg hcarry]
      exact finishHdr_isValue hdrop (by omega) neg _

end Runtime

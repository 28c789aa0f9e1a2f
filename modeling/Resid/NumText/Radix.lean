import Mathlib.Tactic.IntervalCases
import Mathlib.Tactic.Positivity
import Resid.Runtime.Text

/-!
# Radix and grouping of a number's text

An integer's text is written in another base by long division of its decimal digits, one
remainder a step, from the far end of a scratch area.  Grouping writes a separator behind a
digit when some whole number of groups of three is left.

    rem * 10 ^ n + value m = value q * base + r                      (radDiv_spec)
    radStep m = toDigits base (value m), if it has the room          (radStep_eq)
    rtFmtRadix (sign m) = sign (toDigits base m)                     (rtFmtRadix_eq)
    rtFmtGroup t is the grouped text ↔ t has under four integer digits
      or is digits only                                              (radix_group_iff)
-/

namespace NumText

open Decimal Runtime

/-! ## Radix -/

/-- `rad_div`: the quotient digits of a decimal text, and the remainder. -/
def radDiv (base : Nat) : Str → Nat → Str × Nat
  | [], rem => ([], rem)
  | c :: m, rem =>
    let cur := rem * 10 + digitOf c
    let d := cur / base
    let rest := radDiv base m (cur - d * base)
    (Char.ofNat (48 + d) :: rest.1, rest.2)

/-- `q_first`: the leading zeros, all but the last digit. -/
def qFirst : Str → Nat
  | [] => 0
  | [_] => 0
  | c :: d :: q => if c = '0' then 1 + qFirst (d :: q) else 0

def radDivmod (m : Str) (base : Nat) : Str × Nat :=
  let q := radDiv base m 0
  (q.1.drop (qFirst q.1), q.2)

def radDigit (r : Nat) (upper : Bool) : Char :=
  if r < 10 then Char.ofNat (48 + r) else Char.ofNat (if upper then 87 + r - 32 else 87 + r)

/-- `rad_step` and `rad_more`, with `room` bytes of the scratch area below the digits `out`. -/
def radStep (m : Str) (base : Nat) (upper : Bool) (out : Str) : Nat → Option Str
  | 0 => none
  | room + 1 =>
    let q := radDivmod m base
    let out := radDigit q.2 upper :: out
    if q.1 = ['0'] then some out else radStep q.1 base upper out room

def isSign (c : Char) : Bool := c == '-' || c == '+'

/-- `resid_fmt_radix`; the last byte of the scratch area stays free. -/
def rtFmtRadix (s : Str) (base : Nat) (upper : Bool) : Option Str :=
  if base = 10 then some s
  else
    let st := if (s.head?.any isSign) then 1 else 0
    let nd := (s.length - st) * 4 + 2
    (radStep (s.drop st) base upper [] (nd - 1)).map (s.take st ++ ·)

/-! ## Grouping -/

def grpIntStart (s : Str) : Nat := if s.head?.any isSign then 1 else 0

def grpIntDigits : Str → Nat
  | [] => 0
  | c :: s => if c.isDigit then grpIntDigits s + 1 else 0

/-- `grp_copy` of the text from `i` on, into a buffer with `room` bytes for it and its NUL. -/
def grpCopy : Str → Nat → Nat → Option Str
  | [], _, room => if room = 0 then none else some []
  | c :: s, left, room =>
    let digit := c.isDigit && decide (left > 0)
    let l1 := if digit then left - 1 else left
    let more := digit && decide (l1 > 0) && l1 % 3 == 0
    let put := (if digit then [c] else []) ++ (if more then [','] else [])
    if put.length ≤ room then (grpCopy s l1 (room - put.length)).map (put ++ ·) else none

def rtFmtGroup (s : Str) : Option Str :=
  let n := s.length
  let st := grpIntStart s
  let nd := grpIntDigits (s.drop st)
  if nd < 4 then some s else grpCopy (s.drop st) nd (n + nd / 3 + 2)

/-! ## What the texts stand for -/

inductive Sign
  | none
  | minus
  | plus

def Sign.text : Sign → Str
  | .none => []
  | .minus => ['-']
  | .plus => ['+']

/-- The bases a spec can ask for. -/
inductive Radix
  | bin
  | oct
  | hex

def Radix.base : Radix → Nat
  | .bin => 2
  | .oct => 8
  | .hex => 16

def baseText (base : Nat) (upper : Bool) (n : Nat) : Str :=
  (Nat.toDigits base n).map fun c => if upper then c.toUpper else c

/-- A number's text: a sign, the digits of its integer part, and what follows them. -/
structure Numeric where
  sign : Sign
  digits : Str
  rest : Str
  allDigits : AllDigits digits
  rest_head : ∀ c, rest.head? = some c → c.isDigit = false ∧ isSign c = false
  no_comma : ',' ∉ rest

def Numeric.text (t : Numeric) : Str := t.sign.text ++ t.digits ++ t.rest

/-- A comma behind every digit with whole groups of three, and at least one, after it. -/
def grouped : Str → Str
  | [] => []
  | c :: ds =>
    if 0 < ds.length ∧ ds.length % 3 = 0 then c :: ',' :: grouped ds else c :: grouped ds

structure GroupsExactly (t : Numeric) (out : Str) : Prop where
  commas : out = t.sign.text ++ grouped t.digits ++ t.rest
  removed : out.filter (· ≠ ',') = t.text

/-! ## Long division of a decimal text -/

theorem toDigits_step {base : Nat} (hb : 1 < base) (n : Nat) :
    Nat.toDigits base n = (if n / base = 0 then [] else Nat.toDigits base (n / base)) ++
      [Nat.digitChar (n % base)] := by
  split_ifs with h
  · have hlt : n < base := (Nat.div_eq_zero_iff_lt (by omega)).1 h
    rw [Nat.mod_eq_of_lt hlt, Nat.toDigits_of_lt_base hlt]
    rfl
  · have hle : base ≤ n := Nat.le_of_not_lt fun hlt => h (Nat.div_eq_of_lt hlt)
    exact Nat.toDigits_of_base_le hb hle

theorem digit_ofNat {d : Nat} (h : d < 10) :
    digitOf (Char.ofNat (48 + d)) = d ∧ (Char.ofNat (48 + d)).isDigit = true := by
  interval_cases d <;> exact ⟨rfl, rfl⟩

theorem digitOf_lt {c : Char} (h : c.isDigit = true) : digitOf c < 10 := by
  have hc := (isDigit_iff c).1 h
  unfold digitOf
  omega

theorem radDiv_spec {base : Nat} (hb : 0 < base) {m : Str} (hm : AllDigits m) :
    ∀ rem < base, AllDigits (radDiv base m rem).1 ∧ (radDiv base m rem).1.length = m.length ∧
      rem * 10 ^ m.length + value m = value (radDiv base m rem).1 * base + (radDiv base m rem).2 ∧
      (radDiv base m rem).2 < base := by
  induction m with
  | nil =>
    intro rem hrem
    exact ⟨hm, rfl, by simp [radDiv, value], hrem⟩
  | cons c m ih =>
    intro rem hrem
    have hc := digitOf_lt (hm c (by simp))
    have hdm := Nat.div_add_mod' (rem * 10 + digitOf c) base
    have hmod := Nat.mod_lt (rem * 10 + digitOf c) hb
    have hd : (rem * 10 + digitOf c) / base < 10 := by
      rw [Nat.div_lt_iff_lt_mul hb]
      omega
    have hcur : rem * 10 + digitOf c - (rem * 10 + digitOf c) / base * base =
        (rem * 10 + digitOf c) % base := by omega
    obtain ⟨h1, h2, h3, h4⟩ := ih (fun x hx => hm x (by simp [hx])) _ hmod
    obtain ⟨hval, hdigit⟩ := digit_ofNat hd
    unfold radDiv
    simp only [hcur]
    refine ⟨?_, ?_, ?_, h4⟩
    · intro x hx
      rcases List.mem_cons.1 hx with rfl | hx
      · exact hdigit
      · exact h1 x hx
    · rw [List.length_cons, List.length_cons, h2]
    · rw [value_cons, value_cons, hval, h2, List.length_cons]
      calc rem * 10 ^ (m.length + 1) + (digitOf c * 10 ^ m.length + value m)
          = (rem * 10 + digitOf c) * 10 ^ m.length + value m := by ring
        _ = (rem * 10 + digitOf c) / base * base * 10 ^ m.length +
            ((rem * 10 + digitOf c) % base * 10 ^ m.length + value m) := by
          conv_lhs => rw [← hdm]
          ring
        _ = _ := by
          rw [h3]
          ring

/-- Without its leading zeros a text has the same value, and zero is the text `0`. -/
theorem drop_qFirst {q : Str} (hq : AllDigits q) (hne : q ≠ []) :
    q.drop (qFirst q) ≠ [] ∧ AllDigits (q.drop (qFirst q)) ∧ value (q.drop (qFirst q)) = value q ∧
      (value q = 0 → q.drop (qFirst q) = ['0']) := by
  induction q with
  | nil => exact absurd rfl hne
  | cons c q ih =>
    have hc := hq c (by simp)
    have hzero : digitOf c = 0 → c = '0' := by
      intro h
      have hd := (isDigit_iff c).1 hc
      apply Char.toNat_inj.1
      show c.toNat = 48
      unfold digitOf at h
      omega
    cases q with
    | nil =>
      refine ⟨hne, hq, rfl, fun h => ?_⟩
      rw [value_cons] at h
      show [c] = ['0']
      rw [hzero (by simpa [value] using h)]
    | cons d q =>
      by_cases h0 : c = '0'
      · subst h0
        have hdrop : ('0' :: d :: q).drop (qFirst ('0' :: d :: q)) =
            (d :: q).drop (qFirst (d :: q)) := by
          show ('0' :: d :: q).drop (1 + qFirst (d :: q)) = _
          rw [Nat.add_comm, List.drop_succ_cons]
        have hval : value ('0' :: d :: q) = value (d :: q) := by
          rw [value_cons, show digitOf '0' = 0 from rfl]
          omega
        rw [hdrop, hval]
        exact ih (fun x hx => hq x (by simp [hx])) (by simp)
      · have hdrop : (c :: d :: q).drop (qFirst (c :: d :: q)) = c :: d :: q := by
          rw [show qFirst (c :: d :: q) = 0 from if_neg h0]
          rfl
        rw [hdrop]
        refine ⟨hne, hq, rfl, fun h => absurd (hzero ?_) h0⟩
        rw [value_cons] at h
        have hpos : 0 < 10 ^ (d :: q).length := by positivity
        exact (Nat.mul_eq_zero.1 (Nat.eq_zero_of_add_eq_zero_right h)).resolve_right (by omega)

theorem radDivmod_spec {base : Nat} (hb : 0 < base) {m : Str} (hm : AllDigits m) (hne : m ≠ []) :
    (radDivmod m base).1 ≠ [] ∧ AllDigits (radDivmod m base).1 ∧
      value (radDivmod m base).1 = value m / base ∧ (radDivmod m base).2 = value m % base ∧
      ((radDivmod m base).1 = ['0'] ↔ value m / base = 0) := by
  obtain ⟨hall, hlen, hval, hlt⟩ := radDiv_spec hb hm 0 hb
  rw [Nat.zero_mul, Nat.zero_add] at hval
  have hquot : value (radDiv base m 0).1 = value m / base := by
    rw [hval, Nat.mul_comm, Nat.mul_add_div hb, Nat.div_eq_of_lt hlt, Nat.add_zero]
  have hrem : (radDiv base m 0).2 = value m % base := by
    rw [hval, Nat.mul_comm, Nat.mul_add_mod, Nat.mod_eq_of_lt hlt]
  have hq : (radDiv base m 0).1 ≠ [] := by
    rw [← List.length_pos_iff, hlen]
    exact List.length_pos_iff.2 hne
  obtain ⟨h1, h2, h3, h4⟩ := drop_qFirst hall hq
  refine ⟨h1, h2, h3.trans hquot, hrem, fun h => ?_, fun h => h4 (hquot.trans h)⟩
  have hz : value ((radDiv base m 0).1.drop (qFirst (radDiv base m 0).1)) = 0 :=
    (congrArg value h).trans rfl
  rw [← hquot, ← h3, hz]

theorem radDigit_eq {r : Nat} (h : r < 16) (upper : Bool) :
    radDigit r upper = if upper then (Nat.digitChar r).toUpper else Nat.digitChar r := by
  cases upper <;> interval_cases r <;> decide

theorem radStep_eq {base : Nat} (hb : 1 < base) (hb16 : base ≤ 16) (upper : Bool) (room : Nat) :
    ∀ (m : Str) (out : Str), AllDigits m → m ≠ [] →
    radStep m base upper out room = if (Nat.toDigits base (value m)).length ≤ room then
      some (baseText base upper (value m) ++ out) else none := by
  induction room with
  | zero =>
    intro m out _ _
    rw [if_neg (Nat.not_le.2 (List.length_pos_iff.2 Nat.toDigits_ne_nil))]
    rfl
  | succ room ih =>
    intro m out hm hne
    obtain ⟨hq, hall, hquot, hrem, hstop⟩ := radDivmod_spec (by omega : 0 < base) hm hne
    have hmod : value m % base < base := Nat.mod_lt _ (by omega)
    unfold radStep baseText
    simp only [hrem]
    rw [toDigits_step hb (value m), radDigit_eq (by omega)]
    by_cases hz : value m / base = 0
    · rw [if_pos (hstop.2 hz), if_pos hz]
      simp
    · rw [if_neg (fun h => hz (hstop.1 h)), if_neg hz, ih _ _ hall hq, hquot]
      simp only [baseText, List.length_append, List.length_singleton, Nat.add_le_add_iff_right,
        List.map_append, List.append_assoc, List.map_singleton, List.singleton_append]

theorem head_sign (sign : Sign) {t : Str} (h : ∀ c, t.head? = some c → isSign c = false) :
    (if (sign.text ++ t).head?.any isSign then 1 else 0) = sign.text.length := by
  cases sign with
  | none =>
    show (if t.head?.any isSign then 1 else 0) = 0
    cases hh : t.head? with
    | none => rfl
    | some c =>
      rw [Option.any_some, h c hh]
      rfl
  | minus => rfl
  | plus => rfl

theorem isSign_of_isDigit {c : Char} (h : c.isDigit = true) : isSign c = false := by
  have hd := (isDigit_iff c).1 h
  unfold isSign
  rw [Bool.or_eq_false_iff]
  constructor <;>
  · apply beq_eq_false_iff_ne.2
    rintro rfl
    exact absurd hd (by decide)

theorem rtFmtRadix_eq (sign : Sign) (n : Nat) (radix : Radix) (upper : Bool) :
    rtFmtRadix (sign.text ++ text n) radix.base upper =
      some (sign.text ++ baseText radix.base upper n) := by
  have hb : 1 < radix.base ∧ radix.base ≤ 16 ∧ radix.base ≠ 10 := by cases radix <;> decide
  have hall := allDigits_text n
  have hst := head_sign sign (t := text n) fun c hc =>
    isSign_of_isDigit (hall c (List.mem_of_mem_head? hc))
  have hlen : (sign.text ++ text n).length - sign.text.length = (text n).length := by
    rw [List.length_append]
    omega
  -- a decimal digit is worth at most four digits of any base
  have hroom : (Nat.toDigits radix.base n).length ≤ (text n).length * 4 + 2 - 1 := by
    have hn : n < 10 ^ (text n).length := (length_text_le_iff (length_text_pos n)).1 le_rfl
    have hpow : 10 ^ (text n).length ≤ radix.base ^ ((text n).length * 4 + 2 - 1) :=
      calc 10 ^ (text n).length ≤ (2 ^ 4) ^ (text n).length := Nat.pow_le_pow_left (by decide) _
        _ = 2 ^ ((text n).length * 4) := by rw [← pow_mul, Nat.mul_comm]
        _ ≤ 2 ^ ((text n).length * 4 + 2 - 1) := Nat.pow_le_pow_right (by decide) (by omega)
        _ ≤ _ := Nat.pow_le_pow_left hb.1 _
    exact (Nat.length_toDigits_le_iff hb.1 (by omega)).2 (hn.trans_le hpow)
  unfold rtFmtRadix
  rw [if_neg hb.2.2]
  simp only [hst]
  rw [hlen, List.drop_left, List.take_left, radStep_eq hb.1 hb.2.1 upper _ _ _ hall (text_ne_nil n),
    value_text, if_pos hroom, List.append_nil]
  rfl

/-! ## Commas -/

theorem grouped_short {ds : Str} (h : ds.length < 4) : grouped ds = ds := by
  induction ds with
  | nil => rfl
  | cons c ds ih =>
    rw [List.length_cons] at h
    unfold grouped
    rw [if_neg (by omega), ih (by omega)]

theorem length_grouped (ds : Str) : (grouped ds).length = ds.length + (ds.length - 1) / 3 := by
  induction ds with
  | nil => rfl
  | cons c ds ih =>
    unfold grouped
    split_ifs <;> simp only [List.length_cons, ih] <;> omega

theorem filter_grouped {ds : Str} (h : AllDigits ds) : (grouped ds).filter (· ≠ ',') = ds := by
  induction ds with
  | nil => rfl
  | cons c ds ih =>
    have hc : c ≠ ',' := by
      rintro rfl
      exact absurd (h ',' (by simp)) (by decide)
    have hds := ih fun x hx => h x (by simp [hx])
    unfold grouped
    split_ifs
    · rw [List.filter_cons_of_pos (by simpa using hc), List.filter_cons_of_neg (by simp), hds]
    · rw [List.filter_cons_of_pos (by simpa using hc), hds]

theorem grpIntDigits_eq {ds rest : Str} (h : AllDigits ds)
    (hrest : ∀ c, rest.head? = some c → c.isDigit = false) :
    grpIntDigits (ds ++ rest) = ds.length := by
  induction ds with
  | nil =>
    cases rest with
    | nil => rfl
    | cons c rest =>
      show (if c.isDigit then _ else 0) = 0
      rw [hrest c rfl]
      rfl
  | cons c ds ih =>
    show (if c.isDigit then grpIntDigits (ds ++ rest) + 1 else 0) = ds.length + 1
    rw [h c (by simp), if_pos rfl, ih fun x hx => h x (by simp [hx])]

/-- What stands behind the counted digits is not copied. -/
theorem grpCopy_rest (rest : Str) {room : Nat} (h : 0 < room) : grpCopy rest 0 room = some [] := by
  induction rest with
  | nil => exact if_neg (by omega)
  | cons c rest ih =>
    unfold grpCopy
    simp [ih]

theorem grpCopy_eq {ds : Str} (rest : Str) (h : AllDigits ds) : ∀ room,
    (grouped ds).length < room → grpCopy (ds ++ rest) ds.length room = some (grouped ds) := by
  induction ds with
  | nil =>
    intro room hroom
    exact grpCopy_rest rest (by omega)
  | cons c ds ih =>
    intro room hroom
    have hc := h c (by simp)
    have hih := ih fun x hx => h x (by simp [hx])
    unfold grouped at hroom ⊢
    rw [List.cons_append]
    unfold grpCopy
    split_ifs at hroom ⊢ with hmore
    · simp only [List.length_cons] at hroom
      simp [hc, hmore, hih (room - 2) (by omega), show 2 ≤ room by omega]
    · simp only [List.length_cons] at hroom
      have hno : ¬ (0 < ds.length ∧ ds.length % 3 = 0) := hmore
      simp [hc, hno, hih (room - 1) (by omega), show 1 ≤ room by omega]

theorem rtFmtGroup_eq (t : Numeric) : rtFmtGroup t.text =
    some (if t.digits.length < 4 then t.text else grouped t.digits) := by
  have hrest : ∀ c, (t.digits ++ t.rest).head? = some c → isSign c = false := by
    intro c hc
    cases hd : t.digits with
    | nil =>
      rw [hd] at hc
      exact (t.rest_head c hc).2
    | cons d ds =>
      rw [hd] at hc
      refine isSign_of_isDigit (t.allDigits c ?_)
      rw [hd, Option.some.inj hc.symm]
      exact List.mem_cons_self
  have htext : t.text = t.sign.text ++ (t.digits ++ t.rest) := List.append_assoc ..
  have hst := head_sign t.sign hrest
  have hnd := grpIntDigits_eq t.allDigits fun c hc => (t.rest_head c hc).1
  have hlen := length_grouped t.digits
  unfold rtFmtGroup grpIntStart
  rw [htext]
  simp only [hst]
  rw [List.drop_left, hnd]
  split_ifs with h
  · rfl
  · refine grpCopy_eq t.rest t.allDigits _ ?_
    simp only [List.length_append]
    omega

theorem groupsExactly_self (t : Numeric) :
    GroupsExactly t (t.sign.text ++ grouped t.digits ++ t.rest) where
  commas := rfl
  removed := by
    have hsign : t.sign.text.filter (· ≠ ',') = t.sign.text := by cases t.sign <;> rfl
    have hrest : t.rest.filter (· ≠ ',') = t.rest := by
      rw [List.filter_eq_self]
      intro c hc
      exact decide_eq_true fun hcomma => t.no_comma (hcomma ▸ hc)
    rw [List.filter_append, List.filter_append, filter_grouped t.allDigits, hsign, hrest]
    rfl

/-- An integer's text in base 2, 8 or 16 is its sign and its digits.  A grouped text is right when
it has under four integer digits, which is returned as it stands, or when it is digits only: only
the integer digits are copied, neither the sign before them nor what follows. -/
theorem radix_group_iff (sign : Sign) (n : Nat) (radix : Radix) (upper : Bool) (t : Numeric) :
    rtFmtRadix (sign.text ++ text n) radix.base upper =
        some (sign.text ++ baseText radix.base upper n) ∧
      ((∃ out, rtFmtGroup t.text = some out ∧ GroupsExactly t out) ↔
        t.digits.length < 4 ∨ t.text = t.digits) := by
  refine ⟨rtFmtRadix_eq sign n radix upper, ?_⟩
  rw [rtFmtGroup_eq]
  constructor
  · rintro ⟨out, hout, hright⟩
    refine or_iff_not_imp_left.2 fun hlong => ?_
    rw [if_neg hlong] at hout
    have hcommas := congrArg List.length ((Option.some.inj hout).trans hright.commas)
    simp only [List.length_append] at hcommas
    have hsign : t.sign.text = [] := List.eq_nil_of_length_eq_zero (by omega)
    have hrest : t.rest = [] := List.eq_nil_of_length_eq_zero (by omega)
    unfold Numeric.text
    rw [hsign, hrest, List.nil_append, List.append_nil]
  · intro h
    refine ⟨_, rfl, ?_⟩
    by_cases hshort : t.digits.length < 4
    · have hself := groupsExactly_self t
      rw [grouped_short hshort] at hself
      rw [if_pos hshort]
      exact hself
    · have htext := h.resolve_left hshort
      have hlen := congrArg List.length htext
      unfold Numeric.text at hlen
      simp only [List.length_append] at hlen
      have hsign : t.sign.text = [] := List.eq_nil_of_length_eq_zero (by omega)
      have hrest : t.rest = [] := List.eq_nil_of_length_eq_zero (by omega)
      have hself := groupsExactly_self t
      rw [hsign, hrest, List.nil_append, List.append_nil] at hself
      rw [if_neg hshort]
      exact hself

/-- The number -1234.5 is grouped as 1,234. -/
theorem group_loses_sign :
    ¬ ∀ t : Numeric, ∃ out, rtFmtGroup t.text = some out ∧ GroupsExactly t out := by
  intro h
  have hdigits : "1234".toList.all Char.isDigit = true := rfl
  have hhead : ∀ c, ".5".toList.head? = some c → c.isDigit = false ∧ isSign c = false := by
    intro c hc
    rw [← Option.some.inj hc]
    decide
  obtain ⟨out, hout, hright⟩ := h ⟨.minus, "1234".toList, ".5".toList,
    List.all_eq_true.1 hdigits, hhead, by decide⟩
  have hrun : rtFmtGroup "-1234.5".toList = some "1,234".toList := by decide
  have hremoved := hright.removed
  rw [← Option.some.inj (hrun.symm.trans hout)] at hremoved
  have hlen : 4 = 7 := congrArg List.length hremoved
  exact absurd hlen (by decide)

end NumText

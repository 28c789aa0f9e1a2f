import Resid.Duration.ShortForm

/-!
# What the ISO form accepts

The text behind the `P` is cut into tokens, a `T` or a number with its designator.  The
reader returns exactly when their numbers fit 64 bits, and it parses exactly the texts
whose designators stand in the right half; the grammar asks for their order besides.

    the reader at r returns ↔ FitFrom t (isoPairs b (isoTokens r))     (spanParseIsoAt_eq)
    (spanParseIso8601 s).isSome ↔ IsoFits s                            (spanParseIso8601_isSome)
-/

namespace Duration

open CheckedInt Calendar Decimal Runtime

/-! ## Tokens -/

/-- What stands behind the `P`: a `T`, a number with the character behind it, a number at
the end of the text, or something else, where reading stops. -/
inductive Token where
  | time (c : Char)
  | part (num : Number) (d : Char)
  | bare (num : Number)
  | other

def Token.text : Token → Str
  | .time c => [c]
  | .part num d => num.text ++ [d]
  | .bare num => num.text
  | .other => []

def isTime (c : Char) : Bool := c == 'T' || c == 't'

def isoTokens (r : Str) : List Token :=
  match r with
  | [] => []
  | c :: t =>
    if isTime c then .time c :: isoTokens t
    else
      match _hnum : numberOf (c :: t) with
      | none => [.other]
      | some num =>
        match _hrest : (c :: t).drop num.text.length with
        | [] => [.bare num]
        | d :: rest => .part num d :: isoTokens rest
termination_by r.length
decreasing_by
  · exact Nat.lt_succ_self _
  · have hlen := congrArg List.length _hrest
    rw [List.length_drop, List.length_cons (a := d)] at hlen
    omega

/-- Every designator belongs in its half, and there is at most one `T`. -/
def inHalves : Bool → List Token → Bool
  | _, [] => true
  | inTime, .time _ :: ts => !inTime && inHalves true ts
  | inTime, .part _ d :: ts => isoUnitSize d.toNat inTime != 0 && inHalves inTime ts
  | _, .bare _ :: _ => false
  | _, .other :: _ => false

def hasPart : List Token → Bool
  | [] => false
  | .part _ _ :: _ => true
  | .time _ :: ts => hasPart ts
  | .bare _ :: ts => hasPart ts
  | .other :: ts => hasPart ts

/-- The numbers the reader takes off before it stops; one without a unit counts nothing. -/
def isoPairs : Bool → List Token → List Pair
  | _, [] => []
  | inTime, .time _ :: ts => if inTime then [] else isoPairs true ts
  | inTime, .part num d :: ts =>
    if isoUnitSize d.toNat inTime = 0 then [⟨num, 0⟩]
    else ⟨num, (isoUnitSize d.toNat inTime).toNat⟩ :: isoPairs inTime ts
  | _, .bare num :: _ => [⟨num, 0⟩]
  | _, .other :: _ => []

theorem isTime_iff {c : Char} :
    isTime c = true ↔ (c.toNat : Int) = 84 ∨ (c.toNat : Int) = 116 := by
  unfold isTime
  rw [Bool.or_eq_true, beq_iff_eq, beq_iff_eq, char_eq_iff, char_eq_iff]
  exact Iff.rfl

/-- No number starts at a `T`. -/
theorem numberOf_time {c : Char} {t : Str} (h : isTime c = true) : numberOf (c :: t) = none := by
  have hcode := isTime_iff.1 h
  have hdigit : c.isDigit = false := by
    rw [← Bool.not_eq_true, isDigit_iff]
    omega
  have hpoint : c ≠ '.' := by
    rintro rfl
    revert h
    decide
  have hwhole : wholeOf (c :: t) = [] := List.takeWhile_cons_of_neg (by rw [hdigit]; decide)
  have hfrac : fracOf (c :: t) = none := by
    unfold fracOf
    rw [List.dropWhile_cons_of_neg (by rw [hdigit]; decide)]
    exact if_neg hpoint
  unfold numberOf
  rw [dif_neg]
  rw [hwhole, hfrac]
  exact fun hne => hne rfl

section Tokens

variable {c : Char} {t : Str}

theorem isoTokens_time (h : isTime c = true) : isoTokens (c :: t) = .time c :: isoTokens t := by
  rw [isoTokens, if_pos h]

theorem isoTokens_other (h : isTime c = false) (hnum : numberOf (c :: t) = none) :
    isoTokens (c :: t) = [.other] := by
  rw [isoTokens, if_neg (by rw [h]; decide)]
  split
  · rfl
  · next num hsome =>
    rw [hnum] at hsome
    cases hsome

theorem numberOf_head {num : Number} (h : numberOf (c :: t) = some num) : isTime c = false := by
  rw [← Bool.not_eq_true]
  intro htime
  rw [numberOf_time htime] at h
  cases h

theorem isoTokens_number {num : Number} (h : numberOf (c :: t) = some num) :
    isoTokens (c :: t) = match (c :: t).drop num.text.length with
      | [] => [.bare num]
      | d :: rest => .part num d :: isoTokens rest := by
  rw [isoTokens, if_neg (by rw [numberOf_head h]; decide)]
  split
  · next hnone =>
    rw [h] at hnone
    cases hnone
  · next num' hsome =>
    rw [h] at hsome
    cases hsome
    split
    · next hnil => rw [hnil]
    · next d rest hcons => rw [hcons]

end Tokens

/-! ## The reader on tokens -/

section Reader

variable {s : Str}

theorem spanParseIsoAt_end {i : Nat} (h : s.drop i = []) (st : IsoScan) :
    spanParseIsoAt s i st = some st := by
  rw [spanParseIsoAt, if_pos (strLen_le_of_drop h)]

theorem spanParseIsoAt_time {i : Nat} {c : Char} {t : Str} (h : s.drop i = c :: t)
    (hc : isTime c = true) (st : IsoScan) :
    spanParseIsoAt s i st =
      if st.inTime then some isoNew else spanParseIsoAt s (i + 1) ⟨st.total, true, st.any⟩ := by
  have hlt := lt_of_drop h
  have hcode := isTime_iff.1 hc
  conv_lhs => rw [spanParseIsoAt]
  rw [if_neg (by omega), strCharAt_of_drop h, if_pos hcode]
  rfl

theorem spanParseIsoAt_other {i : Nat} {c : Char} {t : Str} (h : s.drop i = c :: t)
    (hc : isTime c = false) (hnum : numberOf (c :: t) = none) (st : IsoScan) :
    spanParseIsoAt s i st = some isoNew := by
  have hlt := lt_of_drop h
  obtain ⟨acc, hacc, hany⟩ := scanNumber_no_number (h.symm ▸ hnum)
  have hcode : ¬ ((c.toNat : Int) = 84 ∨ (c.toNat : Int) = 116) := by
    rw [← isTime_iff, hc]
    decide
  rw [spanParseIsoAt, if_neg (by omega), strCharAt_of_drop h, if_neg hcode]
  split
  · next hnone =>
    rw [hacc] at hnone
    cases hnone
  · next read hread =>
    rw [hacc] at hread
    cases hread
    rw [dif_pos hany]
    rfl

/-- One turn at a number: its scan, and what becomes of the character behind it. -/
theorem spanParseIsoAt_number {i : Nat} {c : Char} {t : Str} {num : Number}
    (h : s.drop i = c :: t) (hnum : numberOf (c :: t) = some num) (st : IsoScan) :
    spanParseIsoAt s i st = (scanNumber s i scanNew).bind fun read =>
      match (c :: t).drop num.text.length with
      | [] => some isoNew
      | d :: _ =>
        if isoUnitSize d.toNat st.inTime = 0 then some isoNew
        else (scanSpan read (isoUnitSize d.toNat st.inTime)).bind fun part =>
          (spanAdd st.total part).bind fun total =>
            spanParseIsoAt s (i + num.text.length + 1) ⟨total, st.inTime, true⟩ := by
  have hlt := lt_of_drop h
  have hnum' : numberOf (s.drop i) = some num := h.symm ▸ hnum
  have hcode : ¬ ((c.toNat : Int) = 84 ∨ (c.toNat : Int) = 116) := by
    rw [← isTime_iff, numberOf_head hnum]
    decide
  have hend := scanNumberEnd_number hnum'
  have hdrop : s.drop (i + num.text.length) = (c :: t).drop num.text.length := by
    rw [← List.drop_drop, h]
  have hscan := scanNumber_number hnum'
  rw [spanParseIsoAt, if_neg (by omega), strCharAt_of_drop h, if_neg hcode]
  split
  · next hnone =>
    rw [hnone]
    rfl
  · next read hread =>
    have hany : read.any = true := by
      rw [hscan] at hread
      split at hread
      · cases hread
        rfl
      · cases hread
    rw [dif_neg (by rw [hany]; decide), hread, bind_of_eq rfl, hend]
    cases hd : (c :: t).drop num.text.length with
    | nil => rw [if_pos (strLen_le_of_drop (hdrop.trans hd))]; rfl
    | cons d rest =>
      have hlt' := lt_of_drop (hdrop.trans hd)
      simp only [if_neg (Nat.not_le_of_lt hlt'), strCharAt_of_drop (hdrop.trans hd),
        Option.bind_eq_bind]
      rfl

end Reader

theorem isoUnitSize_bound (d : Int) (inTime : Bool) :
    0 ≤ isoUnitSize d inTime ∧ isoUnitSize d inTime ≤ 604800000000000 := by
  unfold isoUnitSize
  split_ifs <;> decide

/-- A number that is read and counts nothing. -/
theorem fitFrom_zero {t : Nat} {num : Number} (ht : InBound t) :
    FitFrom t [⟨num, 0⟩] ↔ value num.whole < 9223372036854775808 := by
  have hfrac := fracLength_le num.frac_digits 0
  have hlen : (⟨num, 0⟩ : Pair).length = 0 := by
    show value num.whole * 0 + fracLength num.fracDigits 0 = 0
    omega
  constructor
  · intro h
    exact h.digits ⟨num, 0⟩ List.mem_cons_self
  · intro h
    have hp : PairFits t ⟨num, 0⟩ := ⟨h, by rw [hlen]; decide, by rw [hlen]; exact ht⟩
    rw [fitFrom_cons_of_fits hp, fitFrom_nil]
    exact hp.sum

/-- Stopping at a number off the grammar. -/
theorem stop_at_number {t : Nat} {num : Number} (ht : InBound t) {b : Bool}
    (hb : b = false) :
    (FitFrom t [⟨num, 0⟩] → ∃ n inTime, InBound n ∧
      ((if value num.whole < 9223372036854775808 then some num.scan else none).bind fun _ =>
        some isoNew) = some ⟨ofTotal n, inTime, b⟩) ∧
    (¬ FitFrom t [⟨num, 0⟩] →
      ((if value num.whole < 9223372036854775808 then some num.scan else none).bind fun _ =>
        some isoNew) = none) := by
  rw [fitFrom_zero ht, hb]
  constructor
  · intro h
    rw [if_pos h]
    exact ⟨0, false, by unfold InBound; decide, rfl⟩
  · intro h
    rw [if_neg h]
    rfl

/-- The reader returns when the numbers left fit and only then, and it has read something
exactly when the tokens left stand in their halves; the induction is on these tokens. -/
theorem spanParseIsoAt_eq (s r : Str) {i t : Nat} (hr : s.drop i = r) (inTime any : Bool)
    (ht : InBound t) :
    (FitFrom t (isoPairs inTime (isoTokens r)) → ∃ n inTime', InBound n ∧
      spanParseIsoAt s i ⟨ofTotal t, inTime, any⟩ = some ⟨ofTotal n, inTime',
        inHalves inTime (isoTokens r) && (any || hasPart (isoTokens r))⟩) ∧
    (¬ FitFrom t (isoPairs inTime (isoTokens r)) →
      spanParseIsoAt s i ⟨ofTotal t, inTime, any⟩ = none) := by
  have hzero : InBound 0 := by
    unfold InBound
    decide
  induction r using isoTokens.induct generalizing i t inTime any with
  | case1 =>
    rw [spanParseIsoAt_end hr, isoTokens, isoPairs, fitFrom_nil]
    refine ⟨fun _ => ⟨t, inTime, ht, ?_⟩, fun h => absurd ht h⟩
    rw [inHalves, hasPart, Bool.or_false, Bool.true_and]
  | case2 c r hc ih =>
    rw [spanParseIsoAt_time hr hc, isoTokens_time hc, isoPairs, inHalves, hasPart]
    cases inTime with
    | true =>
      rw [if_pos rfl, if_pos rfl, fitFrom_nil]
      exact ⟨fun _ => ⟨0, false, hzero, rfl⟩, fun h => absurd ht h⟩
    | false =>
      exact ih (drop_succ_of_drop hr) true any ht
  | case3 c r hc hnum =>
    have hc' : isTime c = false := Bool.eq_false_iff.2 hc
    rw [spanParseIsoAt_other hr hc' hnum, isoTokens_other hc' hnum, isoPairs, fitFrom_nil]
    exact ⟨fun _ => ⟨0, false, hzero, rfl⟩, fun h => absurd ht h⟩
  | case4 c r hc num hnum hrest =>
    have hscan := scanNumber_number (hr.symm ▸ hnum : numberOf (s.drop i) = some num)
    rw [spanParseIsoAt_number hr hnum, isoTokens_number hnum, hscan, hrest]
    exact stop_at_number ht rfl
  | case5 c r hc num hnum d rest hrest ih =>
    have hscan := scanNumber_number (hr.symm ▸ hnum : numberOf (s.drop i) = some num)
    rw [spanParseIsoAt_number hr hnum, isoTokens_number hnum, hscan, hrest]
    rw [isoPairs, inHalves, hasPart]
    by_cases hunit : isoUnitSize d.toNat inTime = 0
    · rw [if_pos hunit]
      simp only [hunit, if_pos]
      exact stop_at_number ht rfl
    · have hbound := isoUnitSize_bound d.toNat inTime
      obtain ⟨unit, hnat⟩ := Int.eq_ofNat_of_zero_le hbound.1
      have hdrop : s.drop (i + num.text.length + 1) = rest := by
        refine drop_succ_of_drop (c := d) ?_
        rw [← List.drop_drop, hr, hrest]
      simp only [if_neg hunit, bne_iff_ne.2 hunit, Bool.true_and, Bool.or_true, Bool.and_true]
      rw [hnat, Int.toNat_natCast, addPair_bind (p := ⟨num, unit⟩) (by dsimp only; omega) ht]
      by_cases hp : PairFits t ⟨num, unit⟩
      · rw [if_pos hp, fitFrom_cons_of_fits hp]
        have h := ih hdrop inTime true hp.sum
        rw [Bool.true_or, Bool.and_true] at h
        exact h
      · rw [if_neg hp]
        exact ⟨fun h => absurd (fitFrom_head h) hp, fun _ => rfl⟩

/-! ## When the ISO reader returns -/

/-- The length of the minus sign, if there is one. -/
def signLen (s : Str) : Nat := if s.head? = some '-' then 1 else 0

/-- The text behind the `P`, when there is one behind an optional minus sign. -/
def isoBody (s : Str) : Option Str :=
  match s.drop (signLen s) with
  | [] => none
  | p :: body => if p = 'P' ∨ p = 'p' then some body else none

/-- The numbers of the ISO form fit, and so does their sum. -/
def IsoFits (s : Str) : Prop :=
  ∀ body, isoBody s = some body → FitFrom 0 (isoPairs false (isoTokens body))

theorem head_code (s : Str) : (strCharAt s 0 == 45) = decide (s.head? = some '-') := by
  cases s with
  | nil => rfl
  | cons c r =>
    rw [strCharAt_of_drop (i := 0) rfl, Bool.eq_iff_iff, beq_iff_eq, decide_eq_true_eq,
      List.head?_cons, Option.some_inj, char_eq_iff]
    exact Iff.rfl

/-- The reader behind the sign and the `P`. -/
theorem spanParseIso8601_eq (s : Str) :
    spanParseIso8601 s = match isoBody s with
      | none => some .malformed
      | some _ => (spanParseIsoAt s (signLen s + 1) isoNew).bind fun st =>
        if !st.any then some .malformed
        else (if s.head? = some '-' then spanNeg st.total else some st.total).bind fun total =>
          some (.parsed total) := by
  have hsign : (if s.head? = some '-' then 1 else 0) = signLen s := rfl
  unfold spanParseIso8601 isoBody
  simp only [head_code, decide_eq_true_eq, hsign, Option.bind_eq_bind]
  by_cases hempty : strLen s = 0
  · have hnil : s = [] := List.length_eq_zero_iff.1 hempty
    rw [if_pos hempty, hnil]
    rfl
  rw [if_neg hempty]
  cases hd : s.drop (signLen s) with
  | nil => rw [if_pos (strLen_le_of_drop hd)]
  | cons p body =>
    have hlt := lt_of_drop hd
    have hp : ((p.toNat : Int) ≠ 80 ∧ (p.toNat : Int) ≠ 112) ↔ ¬ (p = 'P' ∨ p = 'p') := by
      rw [char_eq_iff, char_eq_iff, not_or]
      exact Iff.rfl
    rw [if_neg (by omega), strCharAt_of_drop hd]
    dsimp only
    by_cases hP : p = 'P' ∨ p = 'p'
    · rw [if_neg fun h => hp.1 h hP, if_pos hP]
    · rw [if_pos (hp.2 hP), if_neg hP]

theorem isoBody_some {s body : Str} (h : isoBody s = some body) :
    ∃ p, (p = 'P' ∨ p = 'p') ∧ s.drop (signLen s) = p :: body := by
  unfold isoBody at h
  cases hd : s.drop (signLen s) with
  | nil =>
    rw [hd] at h
    cases h
  | cons p rest =>
    rw [hd] at h
    dsimp only at h
    by_cases hP : p = 'P' ∨ p = 'p'
    · rw [if_pos hP] at h
      cases h
      exact ⟨p, hP, rfl⟩
    · rw [if_neg hP] at h
      cases h

/-- The outcome on a text with a `P`: a span or none when the numbers fit, else an abort. -/
theorem spanParseIso8601_body {s body : Str} (h : isoBody s = some body) :
    (FitFrom 0 (isoPairs false (isoTokens body)) → ∃ t, spanParseIso8601 s =
      some (if inHalves false (isoTokens body) && hasPart (isoTokens body) then .parsed t
        else .malformed)) ∧
    (¬ FitFrom 0 (isoPairs false (isoTokens body)) → spanParseIso8601 s = none) := by
  obtain ⟨p, -, hdrop⟩ := isoBody_some h
  obtain ⟨hfits, hover⟩ := spanParseIsoAt_eq s body (drop_succ_of_drop hdrop) false false
    (t := 0) (by unfold InBound; decide)
  have hnew : isoNew = ⟨ofTotal ((0 : Nat) : Int), false, false⟩ := rfl
  rw [spanParseIso8601_eq, h, hnew]
  constructor
  · intro hfit
    obtain ⟨n, inTime, hn, hrun⟩ := hfits hfit
    rw [bind_of_eq hrun, Bool.false_or]
    cases hread : inHalves false (isoTokens body) && hasPart (isoTokens body) with
    | false => exact ⟨spanZero, rfl⟩
    | true =>
      by_cases hsign : s.head? = some '-'
      · refine ⟨ofTotal (-(n : Int)), ?_⟩
        rw [if_pos hsign, spanNeg_inBound hn]
        rfl
      · refine ⟨ofTotal n, ?_⟩
        rw [if_neg hsign]
        rfl
  · intro hfit
    rw [hover hfit]
    rfl

/-- The ISO reader returns exactly when its numbers fit. -/
theorem spanParseIso8601_isSome (s : Str) :
    (spanParseIso8601 s).isSome = true ↔ IsoFits s := by
  unfold IsoFits
  cases h : isoBody s with
  | none =>
    refine iff_of_true ?_ fun _ hb => by cases hb
    rw [spanParseIso8601_eq, h]
    rfl
  | some body =>
    obtain ⟨hfits, hover⟩ := spanParseIso8601_body h
    by_cases hfit : FitFrom 0 (isoPairs false (isoTokens body))
    · obtain ⟨t, ht⟩ := hfits hfit
      refine iff_of_true ?_ ?_
      · rw [ht]
        rfl
      · intro body' hb
        cases hb
        exact hfit
    · refine iff_of_false ?_ fun hall => hfit (hall body rfl)
      rw [hover hfit]
      exact Bool.false_ne_true

/-- Where it returns it has parsed what stands in its halves. -/
theorem spanParseIso8601_parsed {s : Str} (h : IsoFits s) :
    (∃ t, spanParseIso8601 s = some (.parsed t)) ↔ ∃ body, isoBody s = some body ∧
      inHalves false (isoTokens body) = true ∧ hasPart (isoTokens body) = true := by
  cases hb : isoBody s with
  | none =>
    refine iff_of_false ?_ ?_
    · rintro ⟨t, ht⟩
      rw [spanParseIso8601_eq, hb] at ht
      cases ht
    · rintro ⟨body, hbody, -⟩
      cases hbody
  | some body =>
    obtain ⟨t, ht⟩ := (spanParseIso8601_body hb).1 (h body hb)
    rw [ht]
    simp only [Option.some_inj, exists_eq_left', ← Bool.and_eq_true]
    cases inHalves false (isoTokens body) && hasPart (isoTokens body) with
    | false => simp
    | true => simp

end Duration

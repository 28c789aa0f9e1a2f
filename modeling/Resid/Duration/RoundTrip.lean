import Resid.Duration.Format
import Resid.Duration.Parse

/-!
# Reading back what was printed

Each printed part is read as a number of nanoseconds, and a printed span as the sum of
its parts with its sign.  Every part but the seconds reads back as what it was printed
for; the seconds read back as their whole part and `printedNanos` of their fraction.

    spanParse (spanFormat s) = parsed (± shortValue)                (spanParse_spanFormat)
    spanParse (spanFormatIso8601 s) = parsed (± isoValue)           (spanParse_spanFormatIso8601)
-/

namespace Duration

open CheckedInt Calendar Decimal Runtime

/-! ## Adding up parts -/

/-- Lengths whose seconds fit, with room for one more carry. -/
def InRange (n : Nat) : Prop := n < 9223372036854775807 * 1000000000

theorem spanAdd_nat {a b : Nat} (h : InRange (a + b)) :
    spanAdd (ofTotal a) (ofTotal b) = some (ofTotal ((a + b : Nat) : Int)) := by
  unfold InRange at h
  rw [Int.natCast_add, spanAdd_ofTotal (by unfold SecFits; omega) (by rw [fits_64]; omega)]

variable {c : Char} {r rest : Str} {i n size : Nat} {ps : List Str} {ns : List Nat} {f : Fields}

theorem stops_cons (hd : c.isDigit = false) (hp : c ≠ '.') : Stops (c :: r) := by
  intro c' r' h
  cases h
  exact ⟨hd, hp⟩

/-! ## One pair of the readable form -/

/-- `unit` is spelled like the unit of `size` nanoseconds and nothing before it is. -/
structure Spells (unit : Str) (size : Nat) : Prop where
  head : ∃ c r, unit = c :: r ∧ c.isDigit = false ∧ c ≠ '.' ∧ (c.toNat : Int) ≠ 32 ∧
    (c.toNat : Int) ≠ 9
  size_eq : matchUnit unit 0 = size
  size_ne : size ≠ 0
  len_eq : matchLen unit 0 = unit.length

/-- A part that is read as `n` nanoseconds; a part left out is read as none. -/
inductive ShortPart : Str → Nat → Prop
  | none : ShortPart [] 0
  | pair {w n size : Nat} {fs : List Char} {unit : Str} (hfs : AllDigits fs)
      (hw : w < 9223372036854775808) (hunit : Spells unit size)
      (hspan : scanSpan (numeralScan w fs) size = some (ofTotal n)) :
      ShortPart (numeral w fs ++ unit) n

theorem scanSkipSpace_stay {s : Str} (h : s.drop i = c :: r) (h32 : (c.toNat : Int) ≠ 32)
    (h9 : (c.toNat : Int) ≠ 9) : scanSkipSpace s i = i := by
  have hlt := lt_of_drop h
  rw [scanSkipSpace, if_neg (by omega), strCharAt_of_drop h, if_neg (by omega)]

theorem scanSkipSpace_end {s : Str} (h : s.drop i = []) : scanSkipSpace s i = i := by
  rw [scanSkipSpace, if_pos (strLen_le_of_drop h)]

theorem scanSkipSpace_space {s : Str} (h : s.drop i = ' ' :: r) :
    scanSkipSpace s i = scanSkipSpace s (i + 1) := by
  have hlt := lt_of_drop h
  conv_lhs => rw [scanSkipSpace]
  have hspace : strCharAt s i = 32 := strCharAt_of_drop h
  rw [if_neg (by omega), hspace, if_pos (Or.inl rfl)]

theorem digit_not_space (h : c.isDigit = true) : (c.toNat : Int) ≠ 32 ∧ (c.toNat : Int) ≠ 9 := by
  have hc := (digit_code h).1
  omega

/-- One turn of the loop reads one pair and the space behind it. -/
theorem shortScanPairs_pair {s unit : Str} {w : Nat} {fs : List Char} {n : Int} (st : ShortScan)
    {tot : Span} (hfs : AllDigits fs) (hw : w < 9223372036854775808) (hunit : Spells unit size)
    (hspan : scanSpan (numeralScan w fs) size = some (ofTotal n))
    (hadd : spanAdd st.total (ofTotal n) = some tot)
    (hdrop : s.drop i = numeral w fs ++ unit ++ rest) (hrest : Ends rest) : shortScanPairs s i st =
      shortScanPairs s (scanSkipSpace s (i + (numeral w fs ++ unit).length))
        ⟨tot, true, false, st.pos⟩ := by
  obtain ⟨c, r, hunitc, hdig, hpt, h32, h9⟩ := hunit.head
  rw [List.append_assoc] at hdrop
  have hstops : Stops (unit ++ rest) := by
    rw [hunitc, List.cons_append]
    exact stops_cons hdig hpt
  obtain ⟨d, r', hnum, -⟩ := numeral_head w fs
  have hlt : i < strLen s := by
    rw [hnum, List.cons_append] at hdrop
    exact lt_of_drop hdrop
  have hunitdrop := drop_add_of_drop hdrop
  have hend := scanNumberEnd_numeral hfs hdrop hstops
  have hafter : scanSkipSpace s (scanNumberEnd s i) = i + (numeral w fs).length := by
    rw [hend]
    refine scanSkipSpace_stay (c := c) (r := r ++ rest) ?_ h32 h9
    rw [hunitdrop, hunitc, List.cons_append]
  have hin : i + (numeral w fs).length ≤ strLen s := by
    have hu := hunitdrop
    rw [hunitc, List.cons_append] at hu
    exact (lt_of_drop hu).le
  have hsize : matchUnit s (i + (numeral w fs).length) = size := by
    rw [matchUnit_unit hunitdrop hin hrest, hunit.size_eq]
  have hlen : matchLen s (i + (numeral w fs).length) = unit.length := by
    rw [matchLen_unit hunitdrop hin hrest, hunit.len_eq]
  have hne := hunit.size_ne
  have hscan := scanNumber_numeral hfs hw hdrop hstops
  rw [shortScanPairs, if_neg (by omega)]
  split
  · next hnum =>
    rw [hscan] at hnum
    cases hnum
  · next num hnum =>
    rw [hscan] at hnum
    cases hnum
    have hzero : ¬ (size : Int) = 0 := by omega
    rw [dif_neg (by simp [numeralScan])]
    simp only [hafter, hsize, hlen, if_neg hzero, Option.bind_eq_bind]
    rw [bind_of_eq hspan, bind_of_eq hadd, List.length_append, Nat.add_assoc]

/-! ## All pairs -/

theorem shortPart_head {p : Str} (h : ShortPart p n) (hp : p ≠ []) :
    ∃ c r, p = c :: r ∧ c.isDigit = true := by
  cases h with
  | none => exact absurd rfl hp
  | @pair w n size fs unit hfs hw hunit hspan =>
    obtain ⟨c, r, hc, hd⟩ := numeral_head w fs
    exact ⟨c, r ++ unit, by rw [hc, List.cons_append], hd⟩

/-- Behind a part comes the end or a space and the digit of the next part. -/
theorem spacedParts_cases (h : List.Forall₂ ShortPart ps ns) :
    spacedParts ps = [] ∨ ∃ c r, spacedParts ps = ' ' :: c :: r ∧ c.isDigit = true := by
  induction h with
  | nil => exact Or.inl rfl
  | @cons p n ps ns hp _ ih =>
    by_cases hnil : p = []
    · rw [hnil, spacedParts_nil_cons]
      exact ih
    · obtain ⟨c, r, hc, hd⟩ := shortPart_head hp hnil
      right
      refine ⟨c, r ++ spacedParts ps, ?_, hd⟩
      rw [spacedParts_cons p ps hnil, hc, List.cons_append]

theorem spacedParts_eq_cons_spaced (h : spacedParts ps = ' ' :: c :: r) : spaced ps = c :: r := by
  rw [spaced, h, List.tail_cons]

/-- The loop adds up the parts; the induction is on the parts still to be read. -/
theorem shortScanPairs_parts {s : Str} (h : List.Forall₂ ShortPart ps ns) (t pos : Nat)
    (any : Bool) (hdrop : s.drop i = spaced ps) (hfit : InRange (t + ns.sum)) :
    ∃ any', shortScanPairs s i ⟨ofTotal t, any, false, pos⟩ =
      some ⟨ofTotal ((t + ns.sum : Nat) : Int), any', false, pos⟩ ∧
      (any' = true ↔ any = true ∨ spacedParts ps ≠ []) := by
  induction h generalizing i t any with
  | nil =>
    refine ⟨any, ?_, by simp [spacedParts]⟩
    rw [shortScanPairs, if_pos (strLen_le_of_drop hdrop)]
    rfl
  | @cons p n ps ns hp hps ih =>
    rw [List.sum_cons, ← Nat.add_assoc] at hfit ⊢
    cases hp with
    | none =>
      have hspaced : spaced ([] :: ps) = spaced ps := by
        rw [spaced, spacedParts_nil_cons, spaced]
      exact ih t any hdrop hfit
    | @pair w n size fs unit hfs hw hunit hspan =>
      have hne : numeral w fs ++ unit ≠ [] := fun h0 =>
        numeral_ne_nil w fs (List.append_eq_nil_iff.1 h0).1
      have hcons := spacedParts_cons (numeral w fs ++ unit) ps hne
      have hdrop' : s.drop i = numeral w fs ++ unit ++ spacedParts ps := by
        rw [hdrop, spaced, hcons, List.tail_cons]
      have hnext := drop_add_of_drop hdrop'
      have hstep : InRange (t + n) := by
        unfold InRange at hfit ⊢
        omega
      have hadd := spanAdd_nat hstep
      have hany : (true = true ∨ spacedParts ps ≠ []) ↔
          (any = true ∨ spacedParts ((numeral w fs ++ unit) :: ps) ≠ []) := by
        rw [hcons]
        simp
      rw [← hany]
      rcases spacedParts_cases hps with hnil | ⟨c, r, hsp, hd⟩
      · have hend : spaced ps = [] := by rw [spaced, hnil, List.tail_nil]
        have hskip := scanSkipSpace_end (hnext.trans hnil)
        rw [shortScanPairs_pair ⟨ofTotal t, any, false, pos⟩ hfs hw hunit hspan hadd hdrop' (Or.inl hnil), hskip]
        exact ih (t + n) true (by rw [hnext, hnil, hend]) hfit
      · have hone := drop_succ_of_drop (hnext.trans hsp)
        have hcode := digit_not_space hd
        have hskip := (scanSkipSpace_space (hnext.trans hsp)).trans
          (scanSkipSpace_stay hone hcode.1 hcode.2)
        rw [shortScanPairs_pair ⟨ofTotal t, any, false, pos⟩ hfs hw hunit hspan hadd hdrop' (Or.inr ⟨_, hsp⟩),
          hskip]
        exact ih (t + n) true (by rw [hone, spacedParts_eq_cons_spaced hsp]) hfit

/-- `n` with the sign of `t`. -/
def withSign (t : Int) (n : Nat) : Int := if t < 0 then -n else n

theorem spanNeg_nat (h : InRange n) : spanNeg (ofTotal n) = some (ofTotal (-(n : Int))) :=
  spanNeg_ofTotal (by unfold InRange at h; unfold SecFits; omega)

theorem digit_codes_ne (h : c.isDigit = true) : (c.toNat : Int) ≠ 43 ∧
    (c.toNat : Int) ≠ 45 ∧ (c.toNat : Int) ≠ 80 ∧ (c.toNat : Int) ≠ 112 ∧ (c.toNat : Int) ≠ 84 ∧
      (c.toNat : Int) ≠ 116 := by
  have hc := (digit_code h).1
  omega

/-- The readable form of a nonnegative length. -/
theorem spanParseShort_plain {s : Str} {st : ShortScan} (hs : s = c :: r) (hc : c.isDigit = true)
    (hrun : shortScanPairs s 0 (shortNew 0) = some st) (hbad : st.bad = false)
    (hany : st.any = true) : spanParseShort s = some (.parsed st.total) := by
  have hdrop : s.drop 0 = c :: r := by rw [hs, List.drop_zero]
  have hcode := digit_not_space hc
  have hskip := scanSkipSpace_stay hdrop hcode.1 hcode.2
  obtain ⟨h43, h45, -⟩ := digit_codes_ne hc
  have hsign : (strCharAt s 0 == 43 || strCharAt s 0 == 45) = false := by
    rw [strCharAt_of_drop hdrop]
    simp [h43, h45]
  unfold spanParseShort
  simp only [hskip, hsign, Bool.and_false, Option.bind_eq_bind]
  rw [if_neg Bool.false_ne_true, bind_of_eq hrun, hbad, hany, if_neg (by decide),
    Bool.false_and, if_neg Bool.false_ne_true, bind_of_eq rfl]

/-- The readable form behind a minus sign. -/
theorem spanParseShort_minus {s : Str} {st : ShortScan} {total : Span} (hs : s = '-' :: c :: r)
    (hc : c.isDigit = true) (hrun : shortScanPairs s 1 (shortNew 0) = some st)
    (hbad : st.bad = false) (hany : st.any = true) (hneg : spanNeg st.total = some total) :
    spanParseShort s = some (.parsed total) := by
  have hdrop : s.drop 0 = '-' :: c :: r := by rw [hs, List.drop_zero]
  have hlt := lt_of_drop hdrop
  have hcode := digit_not_space hc
  have hminus : strCharAt s 0 = 45 := strCharAt_of_drop hdrop
  have hskip0 : scanSkipSpace s 0 = 0 := scanSkipSpace_stay hdrop (by decide) (by decide)
  have hskip1 : scanSkipSpace s (0 + 1) = 0 + 1 :=
    scanSkipSpace_stay (drop_succ_of_drop hdrop) hcode.1 hcode.2
  have hneg45 : (strCharAt s 0 == 45) = true := by
    rw [hminus]
    rfl
  unfold spanParseShort
  simp only [hskip0, hskip1, hneg45, decide_eq_true hlt, Bool.or_true, Bool.and_true,
    Option.bind_eq_bind]
  rw [if_pos trivial, bind_of_eq hrun, hbad, hany, if_neg (by decide), if_pos trivial,
    bind_of_eq hneg]

theorem spanParse_plain {s : Str} (hs : s = c :: r) (hc : c.isDigit = true) :
    spanParse s = spanParseShort s := by
  have hdrop : s.drop 0 = c :: r := by rw [hs, List.drop_zero]
  have hlt := lt_of_drop hdrop
  obtain ⟨-, h45, h80, h112, -⟩ := digit_codes_ne hc
  have hchar : strCharAt s 0 = c.toNat := strCharAt_of_drop hdrop
  unfold spanParse
  rw [if_neg (by omega), hchar, if_neg h45]
  refine if_neg ?_
  rw [hchar]
  rintro ⟨-, h | h⟩
  · exact h80 h
  · exact h112 h

theorem spanParse_minus {s : Str} (hs : s = '-' :: c :: r) (hc : c.isDigit = true) :
    spanParse s = spanParseShort s := by
  have hdrop : s.drop 0 = '-' :: c :: r := by rw [hs, List.drop_zero]
  have hlt := lt_of_drop hdrop
  obtain ⟨-, -, h80, h112, -⟩ := digit_codes_ne hc
  have hminus : strCharAt s 0 = 45 := strCharAt_of_drop hdrop
  have hchar : strCharAt s 1 = c.toNat := strCharAt_of_drop (drop_succ_of_drop hdrop)
  unfold spanParse
  rw [if_neg (by omega), hminus, if_pos rfl]
  refine if_neg ?_
  rw [hchar]
  rintro ⟨-, h | h⟩
  · exact h80 h
  · exact h112 h

theorem spanParse_spaced (t : Int) (h : List.Forall₂ ShortPart ps ns) (hne : spacedParts ps ≠ [])
    (hfit : InRange ns.sum) :
    spanParse (signText t ++ spaced ps) = some (.parsed (ofTotal (withSign t ns.sum))) := by
  have hsome := spacedParts_cases h
  obtain ⟨c, r, hsp, hc⟩ := hsome.resolve_left hne
  have hspaced := spacedParts_eq_cons_spaced hsp
  have hfit' : InRange (0 + ns.sum) := by rwa [Nat.zero_add]
  unfold signText withSign
  by_cases ht : t < 0
  · rw [if_pos ht, if_pos ht, hspaced, List.singleton_append]
    have hdrop : ('-' :: c :: r).drop 1 = spaced ps := by rw [hspaced]; rfl
    obtain ⟨any, hrun, hany⟩ := shortScanPairs_parts h 0 0 false hdrop hfit'
    rw [Nat.zero_add] at hrun
    rw [spanParse_minus rfl hc]
    exact spanParseShort_minus rfl hc hrun rfl (hany.2 (Or.inr hne)) (spanNeg_nat hfit)
  · rw [if_neg ht, if_neg ht, hspaced, List.nil_append]
    have hdrop : (c :: r).drop 0 = spaced ps := by rw [hspaced]; rfl
    obtain ⟨any, hrun, hany⟩ := shortScanPairs_parts h 0 0 false hdrop hfit'
    rw [Nat.zero_add] at hrun
    rw [spanParse_plain rfl hc]
    exact spanParseShort_plain rfl hc hrun rfl (hany.2 (Or.inr hne))

/-! ## The parts of the readable form -/

theorem spells_cons
    (hc : c.isDigit = false ∧ c ≠ '.' ∧ (c.toNat : Int) ≠ 32 ∧ (c.toNat : Int) ≠ 9)
    (hm : matchUnit (c :: r) 0 = size ∧ size ≠ 0 ∧ matchLen (c :: r) 0 = (c :: r).length) :
    Spells (c :: r) size where
  head := ⟨c, r, rfl, hc⟩
  size_eq := hm.1
  size_ne := hm.2.1
  len_eq := hm.2.2

theorem numeral_nil (n : Nat) : numeral n [] = text n := List.append_nil _

theorem allDigits_nil : AllDigits [] := fun _ h => absurd h List.not_mem_nil

theorem shortPart_count {v : Nat} {unit : Str} (hunit : Spells unit size) (hv : n * size = v)
    (h : v < 9223372036854775808) : ShortPart (countPart n unit) v := by
  subst hv
  unfold countPart
  by_cases hn : n = 0
  · rw [if_pos hn, hn, Nat.zero_mul]
    exact ShortPart.none
  · rw [if_neg hn, ← numeral_nil]
    have hpos : 0 < size := Nat.pos_of_ne_zero hunit.size_ne
    have hw : n ≤ n * size := Nat.le_mul_of_pos_right n hpos
    exact ShortPart.pair allDigits_nil (by omega) hunit (scanSpan_count h)

/-- What the seconds and the part below them are read as. -/
def tailValue (secs nanos : Nat) : Nat :=
  if secs ≠ 0 then secs * 1000000000 + printedNanos nanos else nanos

theorem spells_seconds : Spells ['s'] 1000000000 := spells_cons (by decide) (by decide)

theorem shortPart_seconds (secs nanos : Nat) (hs : secs < 60) (hn : nanos < 1000000000) :
    ShortPart (numeral secs (fracDigits nanos) ++ ['s'])
      (secs * 1000000000 + printedNanos nanos) := by
  have hlt := printedNanos_lt hn
  exact ShortPart.pair (allDigits_fracDigits nanos) (by omega) spells_seconds
    (scanSpan_seconds (allDigits_fracDigits nanos) (length_fracDigits_le hn)
      (by unfold printedNanos at hlt; omega))

theorem shortPart_tail {secs nanos : Nat} (hs : secs < 60) (hn : nanos < 1000000000) :
    ShortPart (tailPart secs nanos) (tailValue secs nanos) := by
  unfold tailPart tailValue
  by_cases h0 : secs = 0
  · have hnot : ¬ secs ≠ 0 := fun h => h h0
    -- the unit is chosen so that the count is exact
    split_ifs
    · exact shortPart_count (spells_cons (by decide) (by decide) : Spells _ 1000000) (by omega)
        (by omega)
    · exact shortPart_count (spells_cons (by decide) (by decide) : Spells _ 1000) (by omega)
        (by omega)
    · exact shortPart_count (spells_cons (by decide) (by decide) : Spells _ 1) (by omega)
        (by omega)
  · rw [if_pos h0, if_pos h0]
    exact shortPart_seconds secs nanos hs hn

/-- Every part of a length, in nanoseconds, is a signed value of 64 bits. -/
def Fields.Fit (f : Fields) : Prop :=
  f.days * 86400000000000 < 9223372036854775808 ∧
    f.hours * 3600000000000 < 9223372036854775808 ∧
    f.mins * 60000000000 < 9223372036854775808 ∧
    f.secs * 1000000000 + f.nanos < 9223372036854775808

/-- The nanoseconds each part of the readable form is read as. -/
def shortValues (f : Fields) : List Nat :=
  [f.days * 86400000000000, f.hours * 3600000000000, f.mins * 60000000000,
    tailValue f.secs f.nanos]

def shortValue (f : Fields) : Nat := (shortValues f).sum

theorem shortValue_eq (f : Fields) : shortValue f = f.days * 86400000000000 +
    (f.hours * 3600000000000 + (f.mins * 60000000000 + tailValue f.secs f.nanos)) := by
  rw [shortValue, shortValues, List.sum_cons, List.sum_cons, List.sum_cons, List.sum_cons,
    List.sum_nil, Nat.add_zero]

theorem forall₂_shortParts (h : f.Fit) : List.Forall₂ ShortPart (shortParts f) (shortValues f) := by
  obtain ⟨hd, hh, hm, -⟩ := h
  exact .cons (shortPart_count (spells_cons (by decide) (by decide)) rfl hd)
    (.cons (shortPart_count (spells_cons (by decide) (by decide)) rfl hh)
      (.cons (shortPart_count (spells_cons (by decide) (by decide)) rfl hm)
        (.cons (shortPart_tail f.secs_lt f.nanos_lt) .nil)))

theorem tailValue_lt {secs nanos : Nat} (hs : secs < 60) (hn : nanos < 1000000000) :
    tailValue secs nanos < 60000000000 := by
  have hlt := printedNanos_lt hn
  unfold tailValue
  split_ifs <;> omega

theorem Fields.Fit.days_lt (h : f.Fit) : f.days < 106752 := by
  obtain ⟨hd, -⟩ := h
  omega

theorem inRange_shortValues (h : f.Fit) : InRange (shortValues f).sum := by
  have hd := h.days_lt
  have hh := f.hours_lt
  have hm := f.mins_lt
  have ht := tailValue_lt f.secs_lt f.nanos_lt
  rw [← shortValue, shortValue_eq]
  unfold InRange
  omega

/-- A length that is not zero has a part that is printed. -/
theorem spacedParts_shortParts_ne (h : f.length ≠ 0) : spacedParts (shortParts f) ≠ [] := by
  intro hnil
  have hall := (spacedParts_eq_nil_iff _).1 hnil
  have hd := countPart_eq_nil_iff.1 (hall _ (by simp [shortParts] : countPart f.days ['d'] ∈ _))
  have hh := countPart_eq_nil_iff.1 (hall _ (by simp [shortParts] : countPart f.hours ['h'] ∈ _))
  have hm := countPart_eq_nil_iff.1 (hall _ (by simp [shortParts] : countPart f.mins ['m'] ∈ _))
  have ht := tailPart_eq_nil_iff.1 (hall _ (by simp [shortParts] : tailPart f.secs f.nanos ∈ _))
  apply h
  unfold Fields.length
  rw [hd, hh, hm, ht.1, ht.2]

/-- The readable form of `t` nanoseconds is read as the sum of its parts. -/
theorem spanParse_spanFormat {t : Int} (ht : t ≠ 0) (h : (fieldsOf t.natAbs).Fit)
    (hs : SecFits t) :
    (spanFormat (ofTotal t)).bind spanParse =
      some (.parsed (ofTotal (withSign t (shortValues (fieldsOf t.natAbs)).sum))) := by
  have hlen : (fieldsOf t.natAbs).length ≠ 0 := by
    rw [length_fieldsOf]
    omega
  rw [spanFormat_eq ht hs, Option.bind_some,
    spanParse_spaced t (forall₂_shortParts h) (spacedParts_shortParts_ne hlen)
      (inRange_shortValues h)]

/-! ## The components of the ISO form -/

/-- A component that is read as `n` nanoseconds in its half. -/
inductive IsoPart (inTime : Bool) : Str → Nat → Prop
  | none : IsoPart inTime [] 0
  | component {w n size : Nat} {fs : List Char} {c : Char} (hfs : AllDigits fs)
      (hw : w < 9223372036854775808) (hc : c.isDigit = false ∧ c ≠ '.')
      (hsize : isoUnitSize c.toNat inTime = size) (hne : size ≠ 0)
      (hspan : scanSpan (numeralScan w fs) size = some (ofTotal n)) :
      IsoPart inTime (numeral w fs ++ [c]) n

/-- One turn of the loop reads one component. -/
theorem spanParseIsoAt_component {s : Str} {w : Nat} {fs : List Char} {n : Int} (st : IsoScan)
    {tot : Span} (hfs : AllDigits fs) (hw : w < 9223372036854775808)
    (hc : c.isDigit = false ∧ c ≠ '.') (hsize : isoUnitSize c.toNat st.inTime = size)
    (hne : size ≠ 0) (hspan : scanSpan (numeralScan w fs) size = some (ofTotal n))
    (hadd : spanAdd st.total (ofTotal n) = some tot)
    (hdrop : s.drop i = numeral w fs ++ [c] ++ rest) : spanParseIsoAt s i st =
      spanParseIsoAt s (i + (numeral w fs ++ [c]).length) ⟨tot, st.inTime, true⟩ := by
  rw [List.append_assoc, List.singleton_append] at hdrop
  have hstops : Stops (c :: rest) := stops_cons hc.1 hc.2
  obtain ⟨d, r, hnum, hd⟩ := numeral_head w fs
  have hfirst : s.drop i = d :: (r ++ c :: rest) := by rw [hdrop, hnum, List.cons_append]
  obtain ⟨-, -, -, -, h84, h116⟩ := digit_codes_ne hd
  have hnott : ¬ (strCharAt s i = 84 ∨ strCharAt s i = 116) := by
    rw [strCharAt_of_drop hfirst]
    rintro (h | h)
    · exact h84 h
    · exact h116 h
  have hafter := drop_add_of_drop hdrop
  have hend := scanNumberEnd_numeral hfs hdrop hstops
  have hin := lt_of_drop hafter
  have hscan := scanNumber_numeral hfs hw hdrop hstops
  have hzero : ¬ (size : Int) = 0 := by omega
  rw [spanParseIsoAt, if_neg (by omega)]
  simp only [if_neg hnott]
  split
  · next hnum =>
    rw [hscan] at hnum
    cases hnum
  · next num hnum =>
    rw [hscan] at hnum
    cases hnum
    simp only [hend, strCharAt_of_drop hafter, hsize, if_neg hzero, Option.bind_eq_bind]
    rw [if_neg (by omega), bind_of_eq hspan, bind_of_eq hadd, List.length_append, Nat.add_assoc]
    rfl

/-- Components of one half are read one after the other. -/
theorem spanParseIsoAt_parts {s : Str} {inTime : Bool} (h : List.Forall₂ (IsoPart inTime) ps ns)
    (t : Nat) (any : Bool) (hdrop : s.drop i = ps.flatten ++ rest) (hfit : InRange (t + ns.sum)) :
    ∃ any', spanParseIsoAt s i ⟨ofTotal t, inTime, any⟩ =
      spanParseIsoAt s (i + ps.flatten.length) ⟨ofTotal ((t + ns.sum : Nat) : Int), inTime, any'⟩ ∧
      (any' = true ↔ any = true ∨ ps.flatten ≠ []) := by
  induction h generalizing i t any with
  | nil => exact ⟨any, rfl, by simp⟩
  | @cons p n ps ns hp _ ih =>
    rw [List.sum_cons, ← Nat.add_assoc] at hfit ⊢
    cases hp with
    | none =>
      exact ih t any hdrop hfit
    | @component w n size fs c hfs hw hc hsize hne hspan =>
      rw [List.flatten_cons, List.append_assoc] at hdrop
      have hstep : InRange (t + n) := by
        unfold InRange at hfit ⊢
        omega
      have hadd := spanAdd_nat hstep
      have hnext := drop_add_of_drop hdrop
      obtain ⟨any', hrun, hany⟩ := ih (t + n) true hnext hfit
      have hlen : (numeral w fs ++ [c] ++ ps.flatten).length =
          (numeral w fs ++ [c]).length + ps.flatten.length := List.length_append
      refine ⟨any', ?_, ?_⟩
      · rw [spanParseIsoAt_component ⟨ofTotal t, inTime, any⟩ hfs hw hc hsize hne hspan hadd hdrop,
          hrun, List.flatten_cons, hlen, Nat.add_assoc]
      · rw [hany, List.flatten_cons]
        simp

/-- The `T` opens the time half. -/
theorem spanParseIsoAt_T {s : Str} (total : Span) (any : Bool) (h : s.drop i = 'T' :: r) :
    spanParseIsoAt s i ⟨total, false, any⟩ = spanParseIsoAt s (i + 1) ⟨total, true, any⟩ := by
  have hlt := lt_of_drop h
  have hcode : strCharAt s i = 84 := strCharAt_of_drop h
  conv_lhs => rw [spanParseIsoAt]
  rw [if_neg (by omega)]
  simp only [hcode]
  rw [if_pos (Or.inl trivial), if_neg Bool.false_ne_true]

theorem sum_eq_zero_of_flatten {inTime : Bool} (h : List.Forall₂ (IsoPart inTime) ps ns)
    (hnil : ps.flatten = []) : ns.sum = 0 := by
  induction h with
  | nil => rfl
  | @cons p n ps ns hp _ ih =>
    rw [List.flatten_cons, List.append_eq_nil_iff] at hnil
    cases hp with
    | none => rw [List.sum_cons, ih hnil.2]
    | component hfs hw hc hsize hne hspan =>
      exact absurd hnil.1 (by simp)

theorem spanParseIso8601_plain {s : Str} {st : IsoScan} (hs : s = 'P' :: r)
    (hrun : spanParseIsoAt s 1 isoNew = some st) (hany : st.any = true) :
    spanParseIso8601 s = some (.parsed st.total) ∧ spanParse s = spanParseIso8601 s := by
  have hdrop : s.drop 0 = 'P' :: r := by rw [hs, List.drop_zero]
  have hlt := lt_of_drop hdrop
  have hchar : strCharAt s 0 = 80 := strCharAt_of_drop hdrop
  have h45 : ((80 : Int) == 45) = false := rfl
  constructor
  · unfold spanParseIso8601
    rw [if_neg (by omega), hchar, h45]
    simp only [Option.bind_eq_bind, Bool.false_eq_true, if_false]
    rw [if_neg (by omega), hchar, if_neg (by decide), bind_of_eq hrun, hany, if_neg (by decide),
      bind_of_eq rfl]
  · unfold spanParse
    rw [if_neg (by omega), hchar]
    exact if_pos ⟨hlt, Or.inl hchar⟩

theorem spanParseIso8601_minus {s : Str} {st : IsoScan} {total : Span} (hs : s = '-' :: 'P' :: r)
    (hrun : spanParseIsoAt s 2 isoNew = some st) (hany : st.any = true)
    (hneg : spanNeg st.total = some total) :
    spanParseIso8601 s = some (.parsed total) ∧ spanParse s = spanParseIso8601 s := by
  have hdrop : s.drop 0 = '-' :: 'P' :: r := by rw [hs, List.drop_zero]
  have hone := drop_succ_of_drop hdrop
  have hlt : 1 < strLen s := lt_of_drop hone
  have hminus : strCharAt s 0 = 45 := strCharAt_of_drop hdrop
  have hchar : strCharAt s 1 = 80 := strCharAt_of_drop hone
  have h45 : ((45 : Int) == 45) = true := rfl
  constructor
  · unfold spanParseIso8601
    rw [if_neg (by omega), hminus, h45]
    simp only [Option.bind_eq_bind, if_true]
    rw [if_neg (by omega), hchar, if_neg (by decide), bind_of_eq hrun, hany, if_neg (by decide),
      bind_of_eq hneg]
  · unfold spanParse
    rw [if_neg (by omega), hminus]
    exact if_pos ⟨hlt, Or.inl hchar⟩

section IsoRun

variable {s : Str} {ds ts : List Str} {nd nt : List Nat}
  (hd : List.Forall₂ (IsoPart false) ds nd) (ht : List.Forall₂ (IsoPart true) ts nt)
  (hsome : ds.flatten ≠ [] ∨ ts.flatten ≠ []) (hfit : InRange (nd.sum + nt.sum))
include hd ht hsome hfit

/-- From behind the `P` the scan adds up the date half and, past the `T`, the time half. -/
theorem spanParseIsoAt_halves {k : Nat}
    (hdrop : s.drop k = ds.flatten ++ if ts.flatten = [] then [] else ['T'] ++ ts.flatten) :
    ∃ st, spanParseIsoAt s k isoNew = some st ∧ st.any = true ∧
      st.total = ofTotal ((nd.sum + nt.sum : Nat) : Int) := by
  have hdate : InRange (0 + nd.sum) := by
    unfold InRange at hfit ⊢
    omega
  obtain ⟨any, hrun, hany⟩ := spanParseIsoAt_parts hd 0 false hdrop hdate
  rw [Nat.zero_add] at hrun
  have hnext := drop_add_of_drop hdrop
  have hnew : spanParseIsoAt s k isoNew = spanParseIsoAt s (k + ds.flatten.length)
    ⟨ofTotal nd.sum, false, any⟩ := hrun
  rw [hnew]
  by_cases hts : ts.flatten = []
  · rw [if_pos hts] at hnext
    refine ⟨⟨ofTotal nd.sum, false, any⟩, ?_, hany.2 (Or.inr ?_), ?_⟩
    · rw [spanParseIsoAt, if_pos (strLen_le_of_drop hnext)]
    · exact hsome.resolve_right fun h => h hts
    · rw [sum_eq_zero_of_flatten ht hts, Nat.add_zero]
  · rw [if_neg hts, List.singleton_append] at hnext
    have htail := drop_succ_of_drop hnext
    have hT := spanParseIsoAt_T (ofTotal nd.sum) any hnext
    have htail' : s.drop (k + ds.flatten.length + 1) = ts.flatten ++ [] := by
      rw [htail, List.append_nil]
    obtain ⟨any', hrun', hany'⟩ := spanParseIsoAt_parts ht nd.sum any htail' hfit
    have hend := drop_add_of_drop htail'
    refine ⟨⟨ofTotal ((nd.sum + nt.sum : Nat) : Int), true, any'⟩, ?_, hany'.2 (Or.inr hts), rfl⟩
    rw [hT, hrun', spanParseIsoAt, if_pos (strLen_le_of_drop hend)]

/-- The ISO form is recognized by its `P` and read as the sum of its components. -/
theorem spanParse_isoText (t : Int) :
    spanParse (isoText (signText t) ds.flatten ts.flatten) =
      some (.parsed (ofTotal (withSign t (nd.sum + nt.sum)))) := by
  have hhalves : ¬ (ds.flatten = [] ∧ ts.flatten = []) := by
    rintro ⟨h1, h2⟩
    rcases hsome with h | h
    · exact h h1
    · exact h h2
  unfold isoText signText withSign
  rw [if_neg hhalves, List.singleton_append, List.cons_append]
  by_cases hneg : t < 0
  · rw [if_pos hneg, if_pos hneg, List.singleton_append]
    obtain ⟨st, hrun, hany, htotal⟩ := spanParseIsoAt_halves hd ht hsome hfit (k := 2)
      (s := '-' :: 'P' :: (ds.flatten ++ if ts.flatten = [] then [] else ['T'] ++ ts.flatten)) rfl
    have hnegtotal : spanNeg st.total = some (ofTotal (-((nd.sum + nt.sum : Nat) : Int))) := by
      rw [htotal, spanNeg_nat hfit]
    obtain ⟨hiso, hparse⟩ := spanParseIso8601_minus rfl hrun hany hnegtotal
    exact hparse.trans hiso
  · rw [if_neg hneg, if_neg hneg, List.nil_append]
    obtain ⟨st, hrun, hany, htotal⟩ := spanParseIsoAt_halves hd ht hsome hfit (k := 1)
      (s := 'P' :: (ds.flatten ++ if ts.flatten = [] then [] else ['T'] ++ ts.flatten)) rfl
    obtain ⟨hiso, hparse⟩ := spanParseIso8601_plain rfl hrun hany
    rw [hparse.trans hiso, htotal]

end IsoRun

/-! ## The parts of the ISO form -/

theorem isoPart_count (size : Nat) {inTime : Bool} {n v : Nat} {c : Char}
    (hc : c.isDigit = false ∧ c ≠ '.') (hsize : isoUnitSize c.toNat inTime = size)
    (hne : size ≠ 0) (hv : n * size = v) (h : v < 9223372036854775808) :
    IsoPart inTime (countPart n [c]) v := by
  subst hv
  unfold countPart
  by_cases hn : n = 0
  · rw [if_pos hn, hn, Nat.zero_mul]
    exact IsoPart.none
  · rw [if_neg hn, ← numeral_nil]
    have hw : n ≤ n * size := Nat.le_mul_of_pos_right n (Nat.pos_of_ne_zero hne)
    exact IsoPart.component allDigits_nil (by omega) hc hsize hne (scanSpan_count h)

theorem isoPart_numeral (secs nanos : Nat) (hs : secs < 60) (hn : nanos < 1000000000) :
    IsoPart true (numeral secs (fracDigits nanos) ++ ['S'])
      (secs * 1000000000 + printedNanos nanos) := by
  have hlt := printedNanos_lt hn
  have hspan := scanSpan_seconds (w := secs) (allDigits_fracDigits nanos) (length_fracDigits_le hn)
    (by unfold printedNanos at hlt; omega)
  have hsize : isoUnitSize 'S'.toNat true = ((1000000000 : Nat) : Int) := rfl
  exact IsoPart.component (allDigits_fracDigits nanos) (by omega) (by decide) hsize (by decide)
    hspan

theorem isoPart_seconds {secs nanos : Nat} (hs : secs < 60) (hn : nanos < 1000000000) :
    IsoPart true (isoSeconds secs nanos) (secs * 1000000000 + printedNanos nanos) := by
  unfold isoSeconds
  by_cases h : secs = 0 ∧ nanos = 0
  · obtain ⟨rfl, rfl⟩ := h
    exact IsoPart.none
  · rw [if_neg h]
    exact isoPart_numeral secs nanos hs hn

def isoDateParts (f : Fields) : List Str := [countPart f.days ['D']]

def isoTimeList (f : Fields) : List Str :=
  [countPart f.hours ['H'], countPart f.mins ['M'], isoSeconds f.secs f.nanos]

def isoDateValues (f : Fields) : List Nat := [f.days * 86400000000000]

def isoTimeValues (f : Fields) : List Nat :=
  [f.hours * 3600000000000, f.mins * 60000000000, f.secs * 1000000000 + printedNanos f.nanos]

theorem forall₂_isoDate {f : Fields} (h : f.Fit) :
    List.Forall₂ (IsoPart false) (isoDateParts f) (isoDateValues f) :=
  .cons (isoPart_count 86400000000000 (by decide) rfl (by decide) rfl h.1) .nil

theorem forall₂_isoTime {f : Fields} (h : f.Fit) :
    List.Forall₂ (IsoPart true) (isoTimeList f) (isoTimeValues f) := by
  obtain ⟨-, hh, hm, -⟩ := h
  exact .cons (isoPart_count 3600000000000 (by decide) rfl (by decide) rfl hh)
    (.cons (isoPart_count 60000000000 (by decide) rfl (by decide) rfl hm)
      (.cons (isoPart_seconds f.secs_lt f.nanos_lt) .nil))

theorem flatten_isoDate (f : Fields) : (isoDateParts f).flatten = countPart f.days ['D'] := by
  simp [isoDateParts]

theorem flatten_isoTime (f : Fields) : (isoTimeList f).flatten = isoTimeParts f := by
  simp [isoTimeList, isoTimeParts]

theorem isoSeconds_eq_nil_iff {secs nanos : Nat} :
    isoSeconds secs nanos = [] ↔ secs = 0 ∧ nanos = 0 := by
  unfold isoSeconds
  by_cases h : secs = 0 ∧ nanos = 0
  · rw [if_pos h]
    exact ⟨fun _ => h, fun _ => rfl⟩
  · rw [if_neg h]
    exact ⟨fun h0 => absurd (List.append_eq_nil_iff.1 h0).2 (List.cons_ne_nil _ _),
      fun h0 => absurd h0 h⟩

theorem isoParts_ne {f : Fields} (h : f.length ≠ 0) :
    (isoDateParts f).flatten ≠ [] ∨ (isoTimeList f).flatten ≠ [] := by
  by_contra hall
  rw [not_or, not_not, not_not, flatten_isoDate, flatten_isoTime, isoTimeParts,
    List.append_eq_nil_iff, List.append_eq_nil_iff, countPart_eq_nil_iff, countPart_eq_nil_iff,
    countPart_eq_nil_iff, isoSeconds_eq_nil_iff] at hall
  obtain ⟨hd, ⟨hh, hm⟩, hs, hn⟩ := hall
  apply h
  unfold Fields.length
  rw [hd, hh, hm, hs, hn]

def isoValue (f : Fields) : Nat := (isoDateValues f).sum + (isoTimeValues f).sum

theorem isoValue_eq (f : Fields) : isoValue f = f.days * 86400000000000 +
    (f.hours * 3600000000000 + (f.mins * 60000000000 +
      (f.secs * 1000000000 + printedNanos f.nanos))) := by
  rw [isoValue, isoDateValues, isoTimeValues, List.sum_cons, List.sum_cons, List.sum_cons,
    List.sum_cons, List.sum_nil, Nat.add_zero, Nat.add_zero]

theorem inRange_isoValue {f : Fields} (h : f.Fit) : InRange (isoValue f) := by
  have hd := h.days_lt
  have hh := f.hours_lt
  have hm := f.mins_lt
  have hs := f.secs_lt
  have hp := printedNanos_lt f.nanos_lt
  rw [isoValue_eq]
  unfold InRange
  omega

/-- The ISO form of `t` nanoseconds is read as the sum of its components. -/
theorem spanParse_spanFormatIso8601 {t : Int} (ht : t ≠ 0) (h : (fieldsOf t.natAbs).Fit)
    (hs : SecFits t) :
    (spanFormatIso8601 (ofTotal t)).bind spanParse =
      some (.parsed (ofTotal (withSign t (isoValue (fieldsOf t.natAbs))))) := by
  have hlen : (fieldsOf t.natAbs).length ≠ 0 := by
    rw [length_fieldsOf]
    omega
  rw [spanFormatIso8601_eq ht hs, Option.bind_some, ← flatten_isoDate, ← flatten_isoTime,
    spanParse_isoText (forall₂_isoDate h) (forall₂_isoTime h) (isoParts_ne hlen)
      (inRange_isoValue h) t]
  rfl

/-! ## When a printed span reads back -/

/-- Every part of the span's length fits the 64-bit total a number is read into. -/
def PartsFit (s : Span) : Prop := (fieldsOf (total s).natAbs).Fit

instance (s : Span) : Decidable (PartsFit s) := inferInstanceAs (Decidable (_ ∧ _))

theorem secFits_of_fit {t : Int} (h : (fieldsOf t.natAbs).Fit) : SecFits t := by
  have hd : t.natAbs / 86400000000000 < 106752 := h.days_lt
  unfold SecFits
  omega

theorem withSign_eq_iff {t : Int} {n : Nat} : withSign t n = t ↔ n = t.natAbs := by
  unfold withSign
  by_cases ht : t < 0
  · rw [if_pos ht]
    omega
  · rw [if_neg ht]
    omega

theorem ofTotal_inj {a b : Int} : ofTotal a = ofTotal b ↔ a = b := by
  constructor
  · intro h
    rw [← total_ofTotal a, h, total_ofTotal]
  · intro h
    rw [h]

theorem spanParse_zero : spanParse ['0', 's'] = some (.parsed (ofTotal 0)) := by
  have h := spanParse_spaced 0 (.cons (shortPart_seconds 0 0 (by decide)
    (by decide)) .nil) (by decide) (by unfold InRange; decide)
  exact h

theorem spanParse_isoZero : spanParse ['P', 'T', '0', 'S'] = some (.parsed (ofTotal 0)) := by
  have h := spanParse_isoText .nil (.cons (isoPart_numeral 0 0 (by decide)
    (by decide)) .nil) (Or.inr (by decide)) (by unfold InRange; decide) 0
  exact h

section ReadBack

variable {t : Int} (h : (fieldsOf t.natAbs).Fit)
include h

theorem spanFormat_reads : (spanFormat (ofTotal t)).bind spanParse =
    some (.parsed (ofTotal (withSign t (shortValue (fieldsOf t.natAbs))))) := by
  by_cases ht : t = 0
  · subst ht
    rw [spanFormat_zero, Option.bind_some, spanParse_zero]
    rfl
  · exact spanParse_spanFormat ht h (secFits_of_fit h)

theorem spanFormatIso8601_reads : (spanFormatIso8601 (ofTotal t)).bind spanParse =
    some (.parsed (ofTotal (withSign t (isoValue (fieldsOf t.natAbs))))) := by
  by_cases ht : t = 0
  · subst ht
    rw [spanFormatIso8601_zero, Option.bind_some, spanParse_isoZero]
    rfl
  · exact spanParse_spanFormatIso8601 ht h (secFits_of_fit h)

end ReadBack

theorem parsed_eq_iff {t : Int} {n : Nat} :
    some (SpanParse.parsed (ofTotal (withSign t n))) = some (.parsed (ofTotal t)) ↔
      n = t.natAbs := by
  rw [Option.some.injEq, SpanParse.parsed.injEq, ofTotal_inj, withSign_eq_iff]

theorem isoValue_eq_iff (n : Nat) :
    isoValue (fieldsOf n) = n ↔ ¬ LosesZeros (n % 1000000000) := by
  have hlen := length_fieldsOf n
  have hlt : n % 1000000000 < 1000000000 := Nat.mod_lt n (by decide)
  rw [← printedNanos_eq_iff hlt, isoValue_eq]
  unfold Fields.length at hlen
  have hnanos : (fieldsOf n).nanos = n % 1000000000 := rfl
  rw [hnanos] at hlen ⊢
  omega

/-- Without whole seconds the readable form is exact. -/
theorem shortValue_eq_iff (n : Nat) : shortValue (fieldsOf n) = n ↔
    ((fieldsOf n).secs = 0 ∨ ¬ LosesZeros (n % 1000000000)) := by
  have hlen := length_fieldsOf n
  have hlt : n % 1000000000 < 1000000000 := Nat.mod_lt n (by decide)
  rw [← printedNanos_eq_iff hlt, shortValue_eq, tailValue]
  unfold Fields.length at hlen
  have hnanos : (fieldsOf n).nanos = n % 1000000000 := rfl
  rw [hnanos] at hlen ⊢
  by_cases hs : (fieldsOf n).secs = 0
  · rw [if_neg fun hne => hne hs]
    omega
  · rw [if_pos hs]
    omega

/-- Both forms read back exactly when the fraction's zeros are not lost. -/
theorem span_text_roundTrip_iff (s : Span) (hn : Normalized s) (hfit : PartsFit s) :
    ((spanFormat s).bind spanParse = some (.parsed s) ∧
      (spanFormatIso8601 s).bind spanParse = some (.parsed s)) ↔
        ¬ LosesZeros ((total s).natAbs % 1000000000) := by
  obtain ⟨t, rfl⟩ : ∃ t, s = ofTotal t := ⟨total s, (ofTotal_total hn).symm⟩
  rw [PartsFit, total_ofTotal] at hfit
  rw [total_ofTotal, spanFormat_reads hfit, spanFormatIso8601_reads hfit, parsed_eq_iff,
    parsed_eq_iff, shortValue_eq_iff, isoValue_eq_iff]
  constructor
  · exact fun h => h.2
  · exact fun h => ⟨Or.inr h, h⟩

/-- A negative span with days and milliseconds reads back from both forms. -/
theorem span_text_roundTrip_two_days :
    (spanFormat ⟨-172805, 750000000⟩).bind spanParse = some (.parsed ⟨-172805, 750000000⟩) ∧
      (spanFormatIso8601 ⟨-172805, 750000000⟩).bind spanParse =
        some (.parsed ⟨-172805, 750000000⟩) :=
  (span_text_roundTrip_iff ⟨-172805, 750000000⟩ (by decide) (by decide)).2 (by decide)

/-- Half a millisecond past four seconds is printed `4.5s` and read as half a second. -/
theorem span_text_loses_zeros : Normalized ⟨4, 500000⟩ ∧ PartsFit ⟨4, 500000⟩ ∧
    spanFormat ⟨4, 500000⟩ = some ['4', '.', '5', 's'] ∧
    spanFormatIso8601 ⟨4, 500000⟩ = some ['P', 'T', '4', '.', '5', 'S'] ∧
    (spanFormat ⟨4, 500000⟩).bind spanParse = some (.parsed ⟨4, 500000000⟩) ∧
    (spanFormat ⟨4, 500000⟩).bind spanParse ≠ some (.parsed ⟨4, 500000⟩) ∧
    (spanFormatIso8601 ⟨4, 500000⟩).bind spanParse ≠ some (.parsed ⟨4, 500000⟩) := by
  have hfit : PartsFit ⟨4, 500000⟩ := by decide
  have ht : (4000500000 : Int) ≠ 0 := by decide
  have hshort : (spanFormat ⟨4, 500000⟩).bind spanParse = some (.parsed ⟨4, 500000000⟩) :=
    (spanFormat_reads (t := 4000500000) hfit).trans (by decide)
  have hiso : (spanFormatIso8601 ⟨4, 500000⟩).bind spanParse = some (.parsed ⟨4, 500000000⟩) :=
    (spanFormatIso8601_reads (t := 4000500000) hfit).trans (by decide)
  refine ⟨by decide, hfit, ?_, ?_, hshort, ?_, ?_⟩
  · exact (spanFormat_eq (t := 4000500000) ht (secFits_of_fit hfit)).trans (by decide)
  · exact (spanFormatIso8601_eq (t := 4000500000) ht (secFits_of_fit hfit)).trans (by decide)
  · rw [hshort]
    decide
  · rw [hiso]
    decide

end Duration

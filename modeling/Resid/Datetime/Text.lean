import Resid.Calendar.Weeks
import Resid.Zone.RuleText

/-!
# Dates and times in text

A reading is a civil date and time and the offset it was read at.  It is printed as
`YYYY-MM-DDThh:mm:ss`, a fraction of nine digits unless it is zero, and the offset; the parser
finds each part by its position, by the colons and by what introduces a fraction.

    offsetText o stands at i → datetimeOffsetOf s i = o                (datetimeOffsetOf_text)
    a time stands at i → datetimeParseTime s i d reads it              (datetimeParseTime_text)
    a valid reading printed either way parses to itself                (datetime_text_roundTrip)

## Algorithm

The extended form is tried first; only when it does not read is the basic one.
-/

namespace Datetime

open CheckedInt Calendar Decimal Runtime TimeZone

structure Time where
  hour : Int
  minute : Int
  second : Int
  nanosecond : Int
deriving DecidableEq

structure DateTime where
  date : Date
  time : Time
deriving DecidableEq

structure Zoned where
  civil : DateTime
  offset : Offset
deriving DecidableEq

inductive DateTimeParse
  | parsedZoned (w : Zoned)
  | badDateTime
deriving DecidableEq

/-! ## Readings -/

/-- A second of 60 is in range: only a leap second makes it real. -/
def calIsValidTime (h mi s ns : Int) : Bool :=
  if h < 0 ∨ h > 23 then false
  else if mi < 0 ∨ mi > 59 then false
  else if s < 0 ∨ s > 60 then false
  else decide (ns ≥ 0 ∧ ns < 1000000000)

def calIsValidDatetime (y mo d h mi s ns : Int) : Bool :=
  if calIsValidDate y mo d = false then false else calIsValidTime h mi s ns

def datetimeFieldsOk (x : DateTime) : Bool :=
  calIsValidDatetime x.date.year x.date.month x.date.day x.time.hour x.time.minute x.time.second
    x.time.nanosecond

def zonedFixed (civil : DateTime) (offsetSeconds : Int) : Zoned :=
  ⟨civil, ⟨offsetSeconds, false, []⟩⟩

def calSecondsOfDay (t : Time) : Option Int := do
  let h ← mul 64 t.hour 3600
  let m ← mul 64 t.minute 60
  add 64 (← add 64 h m) t.second

/-- Seconds from the epoch to the reading, the offset ignored. -/
def zonedLocalSeconds (w : Zoned) : Option Int := do
  let x := w.civil
  let z ← calDaysFromCivil x.date.year x.date.month x.date.day
  let sod ← calSecondsOfDay x.time
  let total ← mul 64 z 86400
  add 64 total sod

/-- The seconds of the instant a reading names. -/
def zonedSeconds (w : Zoned) : Option Int := do sub 64 (← zonedLocalSeconds w) w.offset.seconds

/-! ## Printing -/

def datetimeFormatOffset (seconds : Int) : Option Str := do
  let neg := seconds < 0
  let mag ← (if neg then sub 64 0 seconds else some seconds)
  let b0 : StrBuf := if neg then ['-'] else ['+']
  let b1 := calPadOnto b0 (mag.tdiv 3600) 2 ['0']
  let b2 := b1 ++ [':']
  let mm := (mag.tmod 3600).tdiv 60
  some (calPadOnto b2 mm 2 ['0'])

def calPadYear (b : StrBuf) (y : Int) : Option StrBuf :=
  if y ≥ 0 then some (calPadOnto b y 4 ['0'])
  else do
    let mag ← sub 64 0 y
    some (calPadOnto (b ++ ['-']) mag 4 ['0'])

def calPadDateOnto (b : StrBuf) (dt : Date) : Option StrBuf := do
  let b1 := (← calPadYear b dt.year) ++ ['-']
  let b2 := calPadOnto b1 dt.month 2 ['0'] ++ ['-']
  some (calPadOnto b2 dt.day 2 ['0'])

def datetimeHmsOnto (b : StrBuf) (t : Time) : StrBuf :=
  let b1 := calPadOnto b t.hour 2 ['0'] ++ [':']
  let b2 := calPadOnto b1 t.minute 2 ['0'] ++ [':']
  calPadOnto b2 t.second 2 ['0']

def datetimeTimeOnto (b : StrBuf) (t : Time) (digits : Int) : StrBuf :=
  let b1 := datetimeHmsOnto b t
  if digits ≤ 0 ∨ t.nanosecond = 0 then b1
  else b1 ++ ['.'] ++ calPadLeft (intText t.nanosecond) 9 ['0']

def datetimeFormatIso8601 (w : Zoned) : Option Str := do
  let b0 := (← calPadDateOnto [] w.civil.date) ++ ['T']
  let b1 := datetimeTimeOnto b0 w.civil.time 9
  some (b1 ++ (← datetimeFormatOffset w.offset.seconds))

def datetimeFormatRfc3339 (w : Zoned) : Option Str := do
  let b0 := (← calPadDateOnto [] w.civil.date) ++ ['T']
  let b1 := datetimeTimeOnto b0 w.civil.time 9
  if w.offset.seconds = 0 then some (b1 ++ ['Z'])
  else some (b1 ++ (← datetimeFormatOffset w.offset.seconds))

/-! ## Reading -/

/-- Four digits and no colon: the last two are the minutes. -/
def datetimeOffsetMinutes (s : Str) (start hend : Nat) : Int :=
  if hend - start = 4 then posixDigits s (hend - 2) 2 else 0

/-- The offset that the suffix of `s` at `i` names. -/
def datetimeOffsetOf (s : Str) (i : Nat) : Int :=
  if i ≥ strLen s then posixNoOffset
  else
    let c := strCharAt s i
    if c = 90 ∨ c = 122 then 0
    else
      let neg := c = 45
      let start := if c = 45 ∨ c = 43 then i + 1 else i
      let hh := posixDigits s start 2
      if hh < 0 then posixNoOffset
      else
        let hend := posixSkipDigits s start
        let mm :=
          match posixAtColon s hend with
          | some colon => posixDigits s (colon + 1) 2
          | none => datetimeOffsetMinutes s start hend
        if mm < 0 then posixNoOffset
        else
          let total := hh * 3600 + mm * 60
          if neg then 0 - total else total

def datetimeIsFracAt (s : Str) (i : Nat) : Bool :=
  if i ≥ strLen s then false
  else
    let c := strCharAt s i
    decide (c = 46 ∨ c = 44)

/-- Each digit scaled by its place value; digits past the ninth have none. -/
def datetimeParseFrac (s : Str) (i weight : Nat) : Int :=
  if weight < 1 ∨ i ≥ strLen s then 0
  else
    let c := strCharAt s i
    if posixIsDigit c = false then 0
    else (c - 48) * weight + datetimeParseFrac s (i + 1) (weight / 10)
termination_by weight

def datetimeFracEnd (s : Str) (i : Nat) : Nat :=
  if i ≥ strLen s then i
  else if posixIsDigit (strCharAt s i) = false then i
  else datetimeFracEnd s (i + 1)
termination_by strLen s - i

def datetimeFinish (d : Date) (h mi sec ns off : Int) : Zoned :=
  zonedFixed ⟨d, ⟨h, mi, sec, ns⟩⟩ off

/-- The time half, from the separator on. -/
def datetimeParseTime (s : Str) (i : Nat) (d : Date) : DateTimeParse :=
  if i ≥ strLen s then .parsedZoned (datetimeFinish d 0 0 0 0 0)
  else
    let sep := strCharAt s i
    if sep ≠ 84 ∧ sep ≠ 116 ∧ sep ≠ 32 then .badDateTime
    else
      let h := posixDigits s (i + 1) 2
      if h < 0 then .badDateTime
      else
        match posixAtColon s (i + 3) with
        | none => .badDateTime
        | some colon =>
          let mi := posixDigits s (colon + 1) 2
          if mi < 0 then .badDateTime
          else
            let c2 := posixAtColon s (colon + 3)
            let sec := fieldAfter s c2
            if sec < 0 then .badDateTime
            else
              let k2 := match c2 with
                | some c => c + 3
                | none => colon + 3
              let hasFrac := decide (k2 < strLen s) && datetimeIsFracAt s k2
              let ns := if hasFrac then datetimeParseFrac s (k2 + 1) 100000000 else 0
              if ns < 0 then .badDateTime
              else
                let k3 := if hasFrac then datetimeFracEnd s (k2 + 1) else k2
                let read := datetimeOffsetOf s k3
                let off := if read = posixNoOffset then 0 else read
                let w := datetimeFinish d h mi sec ns off
                if datetimeFieldsOk w.civil = false then .badDateTime else .parsedZoned w

def datetimeYearOnly (s : Str) : DateTimeParse :=
  let y := posixDigits s 0 4
  if y < 0 then .badDateTime else .parsedZoned (datetimeFinish ⟨y, 1, 1⟩ 0 0 0 0 0)

def datetimeYearMonth (s : Str) : DateTimeParse :=
  let y := posixDigits s 0 4
  let m := posixDigits s 5 2
  if y < 0 ∨ m < 0 ∨ strCharAt s 4 ≠ 45 then .badDateTime
  else if m < 1 ∨ m > 12 then .badDateTime
  else .parsedZoned (datetimeFinish ⟨y, m, 1⟩ 0 0 0 0 0)

def datetimeParseExtended (s : Str) : DateTimeParse :=
  let n := strLen s
  if n = 4 then datetimeYearOnly s
  else if n = 7 then datetimeYearMonth s
  else if n < 10 then .badDateTime
  else
    let y := posixDigits s 0 4
    let m := posixDigits s 5 2
    let d := posixDigits s 8 2
    if y < 0 ∨ m < 0 ∨ d < 0 then .badDateTime
    else if strCharAt s 4 ≠ 45 ∨ strCharAt s 7 ≠ 45 then .badDateTime
    else if calIsValidDate y m d = false then .badDateTime
    else datetimeParseTime s 10 ⟨y, m, d⟩

/-- The basic form, which has no separators. -/
def datetimeParseBasic (s : Str) : DateTimeParse :=
  let n := strLen s
  if n < 8 then .badDateTime
  else
    let y := posixDigits s 0 4
    let m := posixDigits s 4 2
    let d := posixDigits s 6 2
    if y < 0 ∨ m < 0 ∨ d < 0 then .badDateTime
    else if calIsValidDate y m d = false then .badDateTime
    else if n = 8 then .parsedZoned (datetimeFinish ⟨y, m, d⟩ 0 0 0 0 0)
    else
      let sep := strCharAt s 8
      if sep ≠ 84 ∧ sep ≠ 116 ∧ sep ≠ 32 then .badDateTime
      else
        let hh := posixDigits s 9 2
        let mm := posixDigits s 11 2
        if hh < 0 ∨ mm < 0 then .badDateTime
        else
          let sec := if n ≥ 15 then posixDigits s 13 2 else 0
          if sec < 0 then .badDateTime
          else
            let k := if n ≥ 15 then 15 else 13
            let hasFrac := decide (k < n) && datetimeIsFracAt s k
            let got := if hasFrac then datetimeParseFrac s (k + 1) 100000000 else 0
            if got < 0 then .badDateTime
            else
              let k2 := if hasFrac then datetimeFracEnd s (k + 1) else k
              let off := datetimeOffsetOf s k2
              let w := datetimeFinish ⟨y, m, d⟩ hh mm sec got
                (if off = posixNoOffset then 0 else off)
              if datetimeFieldsOk w.civil = false then .badDateTime else .parsedZoned w

def datetimeParse (s : Str) : DateTimeParse :=
  match datetimeParseExtended s with
  | .parsedZoned w => .parsedZoned w
  | .badDateTime => datetimeParseBasic s

/-! ## Fields -/

/-- A number in `k` digits. -/
def field (k n : Nat) : Str := padLeft k (text n)

variable {i k n ns : Nat} {ds r s t : Str} {o : Int}

theorem length_field (hk : 0 < k) (hn : n < 10 ^ k) : (field k n).length = k := by
  have hlen := (length_text_le_iff hk).2 hn
  rw [field, length_padLeft]
  omega

theorem isDigitChar_of_isDigit {c : Char} (h : c.isDigit = true) : isDigitChar c = true := by
  have hc := (isDigit_iff c).1 h
  show decide ((c.toNat : Int) ≥ 48 ∧ (c.toNat : Int) ≤ 57) = true
  rw [decide_eq_true_eq]
  omega

theorem foldl_digitStep (h : AllDigits ds) : ds.foldl digitStep 0 = value ds := by
  induction ds using List.reverseRecOn with
  | nil => rfl
  | append_singleton ds c ih =>
    have hc := (isDigit_iff c).1 (h c (by simp))
    rw [List.foldl_concat, ih (fun c hc => h c (List.mem_append_left _ hc)), value_append,
      value_singleton, digitStep, digitOf]
    simp only [List.length_singleton]
    omega

theorem numeral_field (hk : 0 < k) (hn : n < 10 ^ k) : Numeral (field k n) n := by
  have hdigits : AllDigits (field k n) := allDigits_padLeft (allDigits_text n)
  refine ⟨?_, fun c hc => isDigitChar_of_isDigit (hdigits c hc), ?_⟩
  · intro hnil
    have hlen := length_field hk hn
    rw [hnil, List.length_nil] at hlen
    omega
  · rw [foldl_digitStep hdigits, field, value_padLeft, value_text]

/-- A field that stands at `i` is its number, and what follows it stands behind it. -/
theorem posixDigits_field (h : s.drop i = field k n ++ r) (hk : 0 < k) (hn : n < 10 ^ k) :
    posixDigits s i k = n ∧ s.drop (i + k) = r := by
  have hlen := length_field hk hn
  have hrest := drop_add_of_drop h
  rw [hlen] at hrest
  exact ⟨posixDigits_numeral h (numeral_field hk hn) hlen.le (Or.inl hlen), hrest⟩

/-! ## Fractions -/

theorem datetimeFracEnd_eq (h : s.drop i = ds ++ r) (hds : AllDigits ds)
    (hr : Scan.Stops isDigitChar r) : datetimeFracEnd s i = i + ds.length := by
  have hskip : datetimeFracEnd s i = Scan.skipWhile isDigitChar s i :=
    eq_skipWhile_char (datetimeFracEnd s) (fun i => by rw [datetimeFracEnd]) i
  rw [hskip]
  exact Scan.skipWhile_eq h (fun c hc => isDigitChar_of_isDigit (hds c hc)) hr

/-- As many digits as the weight has places. -/
theorem datetimeParseFrac_eq {j : Nat} (h : s.drop i = ds ++ r) (hds : AllDigits ds)
    (hlen : ds.length = j + 1) : datetimeParseFrac s i (10 ^ j) = value ds := by
  induction j generalizing i ds with
  | zero =>
    obtain ⟨c, rfl⟩ := List.length_eq_one_iff.1 hlen
    have hc := hds c List.mem_cons_self
    have hdigit : posixIsDigit (c.toNat : Int) = true := isDigitChar_of_isDigit hc
    have hlt := lt_of_drop h
    have hnum := (isDigit_iff c).1 hc
    rw [datetimeParseFrac, if_neg (by omega), strCharAt_of_drop h]
    simp only
    rw [hdigit, if_neg (by decide), datetimeParseFrac, if_pos (by omega), value_singleton, digitOf]
    omega
  | succ j ih =>
    cases ds with
    | nil => simp at hlen
    | cons c ds =>
      have hc := hds c List.mem_cons_self
      have hdigit : posixIsDigit (c.toNat : Int) = true := isDigitChar_of_isDigit hc
      have hlt := lt_of_drop h
      have hnum := (isDigit_iff c).1 hc
      have hpos : 0 < 10 ^ (j + 1) := Nat.pow_pos (by decide)
      have hten : 10 ^ (j + 1) / 10 = 10 ^ j := by
        omega
      have hlen' : ds.length = j + 1 := by
        rw [List.length_cons] at hlen
        omega
      have hdigitOf : (c.toNat : Int) - 48 = (digitOf c : Nat) := by
        rw [digitOf]
        omega
      rw [datetimeParseFrac, if_neg (by omega), strCharAt_of_drop h]
      simp only
      rw [hdigit, if_neg (by decide), hten,
        ih (drop_succ_of_drop h) (fun c hc => hds c (List.mem_cons_of_mem _ hc)) hlen', value_cons,
        hlen', hdigitOf]
      rfl

/-! ## Offsets -/

def signChar (o : Int) : Char := if o < 0 then '-' else '+'

/-- An offset of whole minutes, the minutes behind a colon. -/
def offsetText (o : Int) : Str :=
  signChar o :: (field 2 (o.natAbs / 3600) ++ ':' :: field 2 (o.natAbs % 3600 / 60))

theorem signChar_cases (o : Int) :
    (o < 0 ∧ signChar o = '-') ∨ (0 ≤ o ∧ signChar o = '+') := by
  unfold signChar
  split
  · exact Or.inl ⟨by assumption, rfl⟩
  · exact Or.inr ⟨by omega, rfl⟩

theorem datetimeFormatOffset_eq (h : o.natAbs < 360000) :
    datetimeFormatOffset o = some (offsetText o) := by
  have hmag : (if o < 0 then sub 64 0 o else some o) = some (o.natAbs : Int) := by
    split
    · rw [sub_of_fits (by rw [fits_64]; omega)]
      congr 1
      omega
    · congr 1
      omega
  have hhour : (o.natAbs : Int).tdiv 3600 = ((o.natAbs / 3600 : Nat) : Int) := by
    rw [Int.tdiv_eq_ediv_of_nonneg (by omega)]
    omega
  have hminute : ((o.natAbs : Int).tmod 3600).tdiv 60 = ((o.natAbs % 3600 / 60 : Nat) : Int) := by
    rw [Int.tmod_eq_emod_of_nonneg (by omega), Int.tdiv_eq_ediv_of_nonneg (by omega)]
    omega
  have hsign : (if o < 0 then ['-'] else ['+'] : StrBuf) = [signChar o] := by
    unfold signChar
    split <;> rfl
  have htwo : (2 : Int) = ((2 : Nat) : Int) := rfl
  unfold datetimeFormatOffset
  simp only []
  rw [hmag, some_bind, hhour, hminute, hsign, htwo, calPadOnto_zero,
    calPadOnto_zero]
  simp [offsetText, field]

/-- The colon ends the hours, so the minutes are read behind it. -/
theorem datetimeOffsetOf_text (h : s.drop i = offsetText o) (hminutes : 60 ∣ o)
    (ho : o.natAbs < 360000) : datetimeOffsetOf s i = o := by
  have hi := lt_of_drop h
  have htail := drop_succ_of_drop h
  have hsmall : o.natAbs / 3600 < 10 ^ 2 := by omega
  obtain ⟨hhour, hcolon⟩ := posixDigits_field htail (by decide) hsmall
  have hskip : posixSkipDigits s (i + 1) = i + 1 + 2 := by
    have hrun := posixSkipDigits_numeral htail (numeral_field (by decide) hsmall)
      (Scan.Stops.cons (by decide))
    rwa [length_field (by decide) hsmall] at hrun
  have hmin := drop_succ_of_drop hcolon
  rw [← List.append_nil (field 2 (o.natAbs % 3600 / 60))] at hmin
  obtain ⟨hminute, -⟩ := posixDigits_field hmin (by decide) (by omega)
  have hat := posixAtColon_of_drop hcolon
  unfold datetimeOffsetOf
  rw [if_neg (by omega), strCharAt_of_drop h]
  rcases signChar_cases o with ⟨hneg, hsign⟩ | ⟨hpos, hsign⟩
  · have h45 : ((signChar o).toNat : Int) = 45 := by
      rw [hsign]
      rfl
    simp only [h45, true_or, if_true]
    rw [if_neg (by decide), hhour, if_neg (by omega), hskip, hat]
    simp only
    omega
  · have h43 : ((signChar o).toNat : Int) = 43 := by
      rw [hsign]
      rfl
    simp only [h43, or_true, if_true]
    rw [if_neg (by decide), hhour, if_neg (by omega), hskip, hat]
    simp only
    omega

/-- A text that the parser reads as the offset `o` and that begins no fraction. -/
structure ReadsOffset (t : Str) (o : Int) : Prop where
  reads : ∀ s i, s.drop i = t → datetimeOffsetOf s i = o
  head : ∃ c r, t = c :: r ∧ (c = 'Z' ∨ c = '+' ∨ c = '-')

theorem readsOffset_zulu : ReadsOffset ['Z'] 0 := by
  refine ⟨?_, ⟨'Z', [], rfl, Or.inl rfl⟩⟩
  intro s i h
  have hi := lt_of_drop h
  unfold datetimeOffsetOf
  rw [if_neg (by omega), strCharAt_of_drop h]
  rfl

theorem readsOffset_text (hminutes : 60 ∣ o) (ho : o.natAbs < 360000) :
    ReadsOffset (offsetText o) o := by
  refine ⟨fun s i h => datetimeOffsetOf_text h hminutes ho, ⟨signChar o, _, rfl, ?_⟩⟩
  rcases signChar_cases o with ⟨-, hsign⟩ | ⟨-, hsign⟩
  · exact Or.inr (Or.inr hsign)
  · exact Or.inr (Or.inl hsign)

/-! ## Times -/

def fracText (ns : Nat) : Str := if ns = 0 then [] else '.' :: field 9 ns

/-- A time of day, its fraction left out when it is zero. -/
def timeText (h mi sec ns : Nat) : Str :=
  field 2 h ++ ':' :: (field 2 mi ++ ':' :: (field 2 sec ++ fracText ns))

theorem ReadsOffset.stops (h : ReadsOffset t o) : Scan.Stops isDigitChar t := by
  obtain ⟨c, r, rfl, hc⟩ := h.head
  apply Scan.Stops.cons
  rcases hc with rfl | rfl | rfl <;> decide

/-- The fraction and where it ends: nothing when the offset follows at once. -/
theorem fraction_read (h : s.drop k = fracText ns ++ t) (hns : ns < 10 ^ 9) (ht : ReadsOffset t o) :
    let hasFrac := decide (k < strLen s) && datetimeIsFracAt s k
    (if hasFrac then datetimeParseFrac s (k + 1) 100000000 else 0) = ns ∧
      s.drop (if hasFrac then datetimeFracEnd s (k + 1) else k) = t := by
  unfold fracText at h
  by_cases hzero : ns = 0
  · rw [if_pos hzero, List.nil_append] at h
    have hno : (decide (k < strLen s) && datetimeIsFracAt s k) = false := by
      obtain ⟨c, r, hcr, hc⟩ := ht.head
      rw [hcr] at h
      have hk := lt_of_drop h
      rw [datetimeIsFracAt, if_neg (by omega), strCharAt_of_drop h]
      rcases hc with rfl | rfl | rfl <;> simp
    simp only [hno, Bool.false_eq_true, if_false]
    exact ⟨by omega, h⟩
  · rw [if_neg hzero, List.cons_append] at h
    have hk := lt_of_drop h
    have hyes : (decide (k < strLen s) && datetimeIsFracAt s k) = true := by
      rw [datetimeIsFracAt, if_neg (by omega), strCharAt_of_drop h]
      simp [hk]
    have htail := drop_succ_of_drop h
    have hlen := length_field (by decide) hns
    have hdigits : AllDigits (field 9 ns) := allDigits_padLeft (allDigits_text ns)
    simp only [hyes, if_true]
    constructor
    · have hread := datetimeParseFrac_eq (j := 8) htail hdigits hlen
      rw [field, value_padLeft, value_text] at hread
      exact hread
    · rw [datetimeFracEnd_eq htail hdigits ht.stops]
      exact drop_add_of_drop htail

/-- A time and an offset that stand behind the separator are read. -/
theorem datetimeParseTime_text {h mi sec : Nat} {d : Date}
    (htext : s.drop i = 'T' :: (timeText h mi sec ns ++ t)) (ht : ReadsOffset t o)
    (ho : o ≠ posixNoOffset) (hh : h < 100) (hmi : mi < 100) (hsec : sec < 100)
    (hns : ns < 10 ^ 9) (hok : datetimeFieldsOk ⟨d, ⟨h, mi, sec, ns⟩⟩ = true) :
    datetimeParseTime s i d = .parsedZoned (datetimeFinish d h mi sec ns o) := by
  have hi := lt_of_drop htext
  have h0 := drop_succ_of_drop htext
  simp only [timeText, List.append_assoc, List.cons_append] at h0
  obtain ⟨hhour, h1⟩ := posixDigits_field h0 (by decide) hh
  have hcolon := posixAtColon_of_drop h1
  obtain ⟨hminute, h2⟩ := posixDigits_field (drop_succ_of_drop h1) (by decide) hmi
  have hcolon2 := posixAtColon_of_drop h2
  obtain ⟨hsecond, h3⟩ := posixDigits_field (drop_succ_of_drop h2) (by decide) hsec
  obtain ⟨hfrac, hend⟩ := fraction_read h3 hns ht
  have hoff := ht.reads s _ hend
  unfold datetimeParseTime
  rw [if_neg (by omega), strCharAt_of_drop htext]
  rw [if_neg (by decide), hhour, if_neg (by omega), hcolon]
  simp only []
  rw [hminute, if_neg (by omega), hcolon2]
  simp only [fieldAfter]
  rw [hsecond, if_neg (by omega), hfrac, if_neg (by omega), hoff, if_neg ho]
  have hgood : ¬ datetimeFieldsOk (datetimeFinish d h mi sec ns o).civil = false := by
    show ¬ datetimeFieldsOk ⟨d, ⟨h, mi, sec, ns⟩⟩ = false
    rw [hok]
    decide
  rw [if_neg hgood]

/-! ## Readings that print and parse -/

def dateText (y m d : Nat) : Str := field 4 y ++ '-' :: (field 2 m ++ '-' :: field 2 d)

theorem calPadDateOnto_eq (y m d : Nat) :
    calPadDateOnto [] ⟨y, m, d⟩ = some (dateText y m d) := by
  have htwo : (2 : Int) = ((2 : Nat) : Int) := rfl
  have hfour : (4 : Int) = ((4 : Nat) : Int) := rfl
  have hy : (y : Int) ≥ 0 := by omega
  unfold calPadDateOnto calPadYear
  rw [if_pos hy, some_bind, htwo, hfour]
  simp only [calPadOnto_zero]
  simp [dateText, field]

theorem datetimeTimeOnto_eq (b : StrBuf) (h mi sec ns : Nat) :
    datetimeTimeOnto b ⟨h, mi, sec, ns⟩ 9 = b ++ timeText h mi sec ns := by
  have htwo : (2 : Int) = ((2 : Nat) : Int) := rfl
  have hnine : (9 : Int) = ((9 : Nat) : Int) := rfl
  have hhms : datetimeHmsOnto b ⟨h, mi, sec, ns⟩ =
      b ++ (field 2 h ++ ':' :: (field 2 mi ++ ':' :: field 2 sec)) := by
    unfold datetimeHmsOnto
    simp only [htwo, calPadOnto_zero]
    simp [field]
  unfold datetimeTimeOnto
  simp only [hhms]
  by_cases hns : ns = 0
  · rw [if_pos (Or.inr (by omega))]
    simp [timeText, fracText, hns]
  · rw [if_neg (by omega), intText_natCast, hnine, calPadLeft_zero]
    simp [timeText, fracText, hns, field]

/-- The fields that are in range. -/
structure InRange (x : DateTime) : Prop where
  date : x.date.Valid
  hour : 0 ≤ x.time.hour ∧ x.time.hour ≤ 23
  minute : 0 ≤ x.time.minute ∧ x.time.minute ≤ 59
  second : 0 ≤ x.time.second ∧ x.time.second ≤ 60
  nanosecond : 0 ≤ x.time.nanosecond ∧ x.time.nanosecond < 1000000000

theorem inRange_of_ok {x : DateTime} (h : datetimeFieldsOk x = true) : InRange x := by
  unfold datetimeFieldsOk calIsValidDatetime calIsValidTime at h
  split_ifs at h with hdate hhour hminute hsecond
  have hnano := of_decide_eq_true h
  have hvalid : x.date.Valid := by
    exact eq_true_of_ne_false hdate
  exact ⟨hvalid, by omega, by omega, by omega, by omega⟩

theorem InRange.day {x : DateTime} (h : InRange x) :
    (1 ≤ x.date.month ∧ x.date.month ≤ 12) ∧ 1 ≤ x.date.day ∧ x.date.day ≤ 31 := by
  obtain ⟨hm, hd⟩ := x.date.valid_iff.1 h.date
  have hmax := (monthDays_bounds (monthIndex x.date.year x.date.month)).2
  omega

/-- A date, the separator, a time and an offset are read from the front. -/
theorem datetimeParse_text {y m d h mi sec : Nat} (ht : ReadsOffset t o) (ho : o ≠ posixNoOffset)
    (hy : y < 10000) (hok : datetimeFieldsOk ⟨⟨y, m, d⟩, ⟨h, mi, sec, ns⟩⟩ = true) :
    datetimeParse (dateText y m d ++ 'T' :: (timeText h mi sec ns ++ t)) =
      .parsedZoned (datetimeFinish ⟨y, m, d⟩ h mi sec ns o) := by
  have hr := inRange_of_ok hok
  obtain ⟨hmonth, hday⟩ := hr.day
  have hhour := hr.hour
  have hminute := hr.minute
  have hsecond := hr.second
  have hnano := hr.nanosecond
  have hdate := hr.date
  simp only at hmonth hday hhour hminute hsecond hnano hdate
  generalize hs : dateText y m d ++ 'T' :: (timeText h mi sec ns ++ t) = s
  have h0 : s.drop 0 = field 4 y ++ '-' :: (field 2 m ++ '-' :: (field 2 d ++
      'T' :: (timeText h mi sec ns ++ t))) := by
    rw [List.drop_zero, ← hs, dateText]
    simp
  obtain ⟨hyear, h4⟩ := posixDigits_field h0 (by decide) hy
  obtain ⟨hmonth', h7⟩ := posixDigits_field (drop_succ_of_drop h4) (by decide)
    (show m < 10 ^ 2 by omega)
  obtain ⟨hday', h10⟩ := posixDigits_field (drop_succ_of_drop h7) (by decide)
    (show d < 10 ^ 2 by omega)
  have hlen : 10 < strLen s := lt_of_drop h10
  have htime := datetimeParseTime_text h10 ht ho (show h < 100 by omega) (show mi < 100 by omega)
    (show sec < 100 by omega) (show ns < 10 ^ 9 by omega) hok
  have hextended : datetimeParseExtended s =
      .parsedZoned (datetimeFinish ⟨y, m, d⟩ h mi sec ns o) := by
    unfold datetimeParseExtended
    rw [if_neg (by omega), if_neg (by omega), if_neg (by omega), hyear, hmonth', hday',
      if_neg (by omega), strCharAt_of_drop h4, strCharAt_of_drop h7, if_neg (by decide)]
    have hvalid : ¬ calIsValidDate y m d = false := by
      rw [hdate]
      decide
    rw [if_neg hvalid]
    exact htime
  rw [datetimeParse, hextended]

/-- A reading printed by `format` parses to one of the same fields, offset and instant. -/
def RoundTrips (format : Zoned → Option Str) (w : Zoned) : Prop :=
  ∃ s z, format w = some s ∧ datetimeParse s = .parsedZoned z ∧ z.civil = w.civil ∧
    z.offset.seconds = w.offset.seconds ∧
    ∃ u, zonedSeconds w = some u ∧ zonedSeconds z = some u

/-- The instant depends on the civil fields and the offset alone. -/
theorem zonedSeconds_congr {w z : Zoned} (hcivil : z.civil = w.civil)
    (hoff : z.offset.seconds = w.offset.seconds) : zonedSeconds z = zonedSeconds w := by
  unfold zonedSeconds zonedLocalSeconds
  rw [hcivil, hoff]

theorem zonedSeconds_some {w : Zoned} (h : InRange w.civil)
    (hy : 0 ≤ w.civil.date.year ∧ w.civil.date.year ≤ 9999)
    (ho : w.offset.seconds.natAbs < 360000) : ∃ u, zonedSeconds w = some u := by
  have hhour := h.hour
  have hminute := h.minute
  have hsecond := h.second
  have hnear := dayNumber_near h.date
  unfold yearStart at hnear
  have hsod : ∃ n, calSecondsOfDay w.civil.time = some n ∧ 0 ≤ n ∧ n < 100000 := by
    unfold calSecondsOfDay
    rw [mul_of_fits (by rw [fits_64]; omega), mul_of_fits (by rw [fits_64]; omega)]
    simp only [some_bind]
    rw [add_of_fits (by rw [fits_64]; omega), some_bind, add_of_fits (by rw [fits_64]; omega)]
    exact ⟨_, rfl, by omega, by omega⟩
  obtain ⟨n, hn, hn0, hn1⟩ := hsod
  unfold zonedSeconds zonedLocalSeconds
  simp only []
  rw [calDaysFromCivil_near h.date (by omega), hn]
  simp only [some_bind]
  rw [mul_of_fits (by rw [fits_64]; omega), some_bind, add_of_fits (by rw [fits_64]; omega),
    some_bind, sub_of_fits (by rw [fits_64]; omega)]
  exact ⟨_, rfl⟩

section
variable {w : Zoned} (hok : datetimeFieldsOk w.civil = true)
  (hy : 0 ≤ w.civil.date.year ∧ w.civil.date.year ≤ 9999)
  (ho : w.offset.seconds.natAbs < 360000)
include hok hy ho

/-- What is printed before the offset is read back, whichever text spells the offset. -/
theorem roundTrips_of_text {format : Zoned → Option Str} {t : Str}
    (ht : ReadsOffset t w.offset.seconds)
    (hformat : ∀ b0, calPadDateOnto [] w.civil.date = some b0 →
      format w = some (datetimeTimeOnto (b0 ++ ['T']) w.civil.time 9 ++ t)) :
    RoundTrips format w := by
  obtain ⟨⟨⟨y, m, d⟩, ⟨h, mi, sec, ns⟩⟩, o⟩ := w
  have hr := inRange_of_ok hok
  obtain ⟨hmonth, hday⟩ := hr.day
  have hhour := hr.hour
  have hminute := hr.minute
  have hsecond := hr.second
  have hnano := hr.nanosecond
  obtain ⟨u, hu⟩ := zonedSeconds_some hr hy ho
  simp only at hmonth hday hhour hminute hsecond hnano hok hy ho ht hformat
  lift y to Nat using hy.1
  lift m to Nat using (by omega)
  lift d to Nat using (by omega)
  lift h to Nat using hhour.1
  lift mi to Nat using hminute.1
  lift sec to Nat using hsecond.1
  lift ns to Nat using hnano.1
  have hne : o.seconds ≠ posixNoOffset := by
    unfold posixNoOffset
    omega
  have hparse := datetimeParse_text (t := t) ht hne (by omega) hok
  have hprint := hformat _ (calPadDateOnto_eq y m d)
  rw [datetimeTimeOnto_eq] at hprint
  refine ⟨_, datetimeFinish ⟨y, m, d⟩ h mi sec ns o.seconds, hprint, ?_, ?_, ?_, u, hu, ?_⟩
  · rw [List.append_assoc, List.append_assoc]
    exact hparse
  · rfl
  · rfl
  · rw [← hu]
    exact zonedSeconds_congr rfl rfl

/-- **Round trip.**  A valid reading at an offset of whole minutes, printed in either form. -/
theorem datetime_text_roundTrip (hminutes : 60 ∣ w.offset.seconds) :
    RoundTrips datetimeFormatRfc3339 w ∧ RoundTrips datetimeFormatIso8601 w := by
  have htext := readsOffset_text hminutes ho
  constructor
  · by_cases hzero : w.offset.seconds = 0
    · refine roundTrips_of_text (t := ['Z']) hok hy ho (hzero ▸ readsOffset_zulu) ?_
      intro b0 hb0
      unfold datetimeFormatRfc3339
      rw [hb0, some_bind]
      simp [if_pos hzero]
    · refine roundTrips_of_text hok hy ho htext ?_
      intro b0 hb0
      unfold datetimeFormatRfc3339
      rw [hb0, some_bind]
      simp [if_neg hzero, datetimeFormatOffset_eq ho]
  · refine roundTrips_of_text hok hy ho htext ?_
    intro b0 hb0
    unfold datetimeFormatIso8601
    rw [hb0, some_bind]
    simp [datetimeFormatOffset_eq ho]

end

theorem datetime_text_roundTrip_newYear :
    RoundTrips datetimeFormatRfc3339
        ⟨⟨⟨2016, 12, 31⟩, ⟨23, 59, 60, 500000000⟩⟩, ⟨-12600, false, []⟩⟩ ∧
      RoundTrips datetimeFormatIso8601
        ⟨⟨⟨2016, 12, 31⟩, ⟨23, 59, 60, 500000000⟩⟩, ⟨-12600, false, []⟩⟩ :=
  datetime_text_roundTrip (by decide) (by decide) (by decide) (by decide)

end Datetime

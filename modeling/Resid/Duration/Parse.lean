import Resid.Duration.Span

/-!
# Reading spans

A number is a digit run, optionally a point and more digits; the readable form is a
sign and number-and-unit pairs, the ISO form `P`, a date half, `T` and a time half.

    scanNumber at ds . fs = the digits of both                      (scanNumber_numeral)
    scanSpan of it in seconds = value ds * 10 ^ 9 + fraction 9 fs   (scanSpan_seconds)
    matchUnit at a printed unit = matchUnit of the unit alone       (matchUnit_unit)
-/

namespace Duration

open CheckedInt Calendar Decimal Runtime

/-! ## Numbers -/

inductive SpanParse where
  | parsed (s : Span)
  | malformed
deriving DecidableEq

/-- A number read so far. -/
structure Scan where
  whole : Int
  frac : List Int
  dot : Bool
  neg : Bool
  any : Bool

def scanNew : Scan := ⟨0, [], false, false, false⟩

def scanDigit (s : Scan) (c : Int) : Option Scan := do
  let d ← sub 64 c 48
  if s.dot then some { s with frac := s.frac ++ [d], dot := true, any := true }
  else
    let w ← add 64 (← mul 64 s.whole 10) d
    some { s with whole := w, any := true }

def scanPoint (s : Scan) : Scan := { s with dot := true }

def scanNumber (s : Str) (i : Nat) (acc : Scan) : Option Scan :=
  let n := strLen s
  if i ≥ n then some acc
  else
    let c := strCharAt s i
    if c ≥ 48 ∧ c ≤ 57 then do scanNumber s (i + 1) (← scanDigit acc c)
    else if c = 46 ∧ acc.dot = false then scanNumber s (i + 1) (scanPoint acc)
    else some acc
termination_by strLen s - i

/-- Where the digits and point of a number stop. -/
def scanNumberEndAt (s : Str) (i : Nat) (seenPoint : Bool) : Nat :=
  let n := strLen s
  if i ≥ n then i
  else
    let c := strCharAt s i
    if c ≥ 48 ∧ c ≤ 57 then scanNumberEndAt s (i + 1) seenPoint
    else if c = 46 ∧ seenPoint = false then scanNumberEndAt s (i + 1) true
    else i
termination_by strLen s - i

def scanNumberEnd (s : Str) (i : Nat) : Nat := scanNumberEndAt s i false

/-- The digits left, against a scale that shrinks tenfold with each. -/
def fracNanos : List Int → Int → Option Int
  | [], _ => some 0
  | d :: digits, scale => do
    let step ← div 64 scale 10
    let a ← mul 64 d step
    let rest ← fracNanos digits step
    add 64 a rest

def scanSpan (s : Scan) (unit : Int) : Option Span := do
  let whole ← mul 64 s.whole unit
  let part ← fracNanos s.frac unit
  let sum ← add 64 whole part
  spanOfNanos (← if s.neg then sub 64 0 sum else some sum)

def scanSkipSpace (s : Str) (i : Nat) : Nat :=
  let n := strLen s
  if i ≥ n then i
  else
    let c := strCharAt s i
    if c = 32 ∨ c = 9 then scanSkipSpace s (i + 1) else i
termination_by strLen s - i

/-! ## Units -/

def spanUnitNames : List Str :=
  ["nanoseconds".toList, "nanosecond".toList, "nanos".toList, "nano".toList, "ns".toList,
    "microseconds".toList, "microsecond".toList, "micros".toList, "micro".toList, "us".toList,
    "milliseconds".toList, "millisecond".toList, "millis".toList, "milli".toList, "ms".toList,
    "seconds".toList, "second".toList, "secs".toList, "sec".toList, "s".toList,
    "minutes".toList, "minute".toList, "mins".toList, "min".toList, "m".toList,
    "hours".toList, "hour".toList, "hrs".toList, "hr".toList, "h".toList,
    "days".toList, "day".toList, "d".toList,
    "weeks".toList, "week".toList, "wk".toList, "w".toList]

def spanUnitSizes : List Int :=
  [1, 1, 1, 1, 1,
    1000, 1000, 1000, 1000, 1000,
    1000000, 1000000, 1000000, 1000000, 1000000,
    1000000000, 1000000000, 1000000000, 1000000000, 1000000000,
    60000000000, 60000000000, 60000000000, 60000000000, 60000000000,
    3600000000000, 3600000000000, 3600000000000, 3600000000000, 3600000000000,
    86400000000000, 86400000000000, 86400000000000,
    604800000000000, 604800000000000, 604800000000000, 604800000000000]

def suffixAt (s : Str) (i : Nat) (t : Str) : Bool :=
  let e := i + strLen t
  if e > strLen s then false else strSlice s i e == t

/-- The size of the first of `names` spelled at `i`, or 0 when none is. -/
def matchUnitAt (s : Str) (i : Nat) : List Str → List Int → Int
  | name :: names, size :: sizes =>
    if suffixAt s i name then size else matchUnitAt s i names sizes
  | _, _ => 0

def matchUnit (s : Str) (i : Nat) : Int := matchUnitAt s i spanUnitNames spanUnitSizes

def matchLenAt (s : Str) (i : Nat) : List Str → Nat
  | [] => 0
  | name :: names => if suffixAt s i name then strLen name else matchLenAt s i names

def matchLen (s : Str) (i : Nat) : Nat := matchLenAt s i spanUnitNames

/-! ## Progress -/

theorem le_scanNumberEndAt (s : Str) (i : Nat) (p : Bool) : i ≤ scanNumberEndAt s i p := by
  fun_induction scanNumberEndAt s i p with
  | case1 => exact Nat.le_refl _
  | case2 i p n h c hc ih => omega
  | case3 i p n h c hc hp ih => omega
  | case4 => exact Nat.le_refl _

/-- A number that has a digit takes at least one character. -/
theorem lt_scanNumberEndAt {s : Str} {i : Nat} {acc num : Scan}
    (h : scanNumber s i acc = some num) (hacc : acc.any = false) (hany : num.any = true) :
    i < scanNumberEndAt s i acc.dot := by
  rw [scanNumber] at h
  rw [scanNumberEndAt]
  by_cases hi : i ≥ strLen s
  · rw [if_pos hi] at h
    cases h
    rw [hacc] at hany
    cases hany
  rw [if_neg hi] at h ⊢
  by_cases hd : strCharAt s i ≥ 48 ∧ strCharAt s i ≤ 57
  · rw [if_pos hd]
    exact le_scanNumberEndAt s (i + 1) acc.dot
  rw [if_neg hd] at h ⊢
  by_cases hp : strCharAt s i = 46 ∧ acc.dot = false
  · rw [if_pos hp]
    exact le_scanNumberEndAt s (i + 1) true
  · rw [if_neg hp] at h
    cases h
    rw [hacc] at hany
    cases hany

theorem le_scanSkipSpace (s : Str) (i : Nat) : i ≤ scanSkipSpace s i := by
  fun_induction scanSkipSpace s i with
  | case1 => exact Nat.le_refl _
  | case2 i n h c hc ih => omega
  | case3 => exact Nat.le_refl _

/-! ## The readable form -/

/-- The pairs read so far; `bad` once the text is malformed. -/
structure ShortScan where
  total : Span
  any : Bool
  bad : Bool
  pos : Nat

def shortNew (pos : Nat) : ShortScan := ⟨spanZero, false, false, pos⟩

def shortBad (st : ShortScan) : ShortScan := ⟨spanZero, true, true, st.pos⟩

def shortScanPairs (s : Str) (i : Nat) (st : ShortScan) : Option ShortScan :=
  let n := strLen s
  if i ≥ n then some st
  else
    match hnum : scanNumber s i scanNew with
    | none => none
    | some num =>
      if hany : num.any = false then some (shortBad st)
      else do
        let after := scanSkipSpace s (scanNumberEnd s i)
        let unit := matchUnit s after
        let next := if unit = 0 then after else after + matchLen s after
        let eff := if unit = 0 then 1000000000 else unit
        let total ← spanAdd st.total (← scanSpan num eff)
        let j := scanSkipSpace s next
        shortScanPairs s j ⟨total, true, false, st.pos⟩
termination_by strLen s - i
decreasing_by
  have hlt := lt_scanNumberEndAt hnum rfl (by simpa using hany)
  have hend : i < scanNumberEnd s i := hlt
  have hafter := le_scanSkipSpace s (scanNumberEnd s i)
  split
  · have hj := le_scanSkipSpace s (scanSkipSpace s (scanNumberEnd s i))
    omega
  · have hj := le_scanSkipSpace s (scanSkipSpace s (scanNumberEnd s i) +
      matchLen s (scanSkipSpace s (scanNumberEnd s i)))
    omega

def spanParseShort (s : Str) : Option SpanParse := do
  let n := strLen s
  let i := scanSkipSpace s 0
  let sign := i < n && (strCharAt s i == 43 || strCharAt s i == 45)
  let start := if sign then scanSkipSpace s (i + 1) else i
  let st ← shortScanPairs s start (shortNew i)
  if st.bad || !st.any then some .malformed
  else
    let neg := sign && strCharAt s i == 45
    let total ← (if neg then spanNeg st.total else some st.total)
    some (.parsed total)

/-! ## The ISO 8601 form -/

/-- The components read so far; `any` is false again after an error. -/
structure IsoScan where
  total : Span
  inTime : Bool
  any : Bool

def isoNew : IsoScan := ⟨spanZero, false, false⟩

/-- The size of a designator, 0 when it does not belong in the half being read. -/
def isoUnitSize (d : Int) (inTime : Bool) : Int :=
  if inTime = false then
    if d = 68 ∨ d = 100 then 86400000000000
    else if d = 87 ∨ d = 119 then 604800000000000
    else 0
  else if d = 72 ∨ d = 104 then 3600000000000
  else if d = 77 ∨ d = 109 then 60000000000
  else if d = 83 ∨ d = 115 then 1000000000
  else 0

def spanParseIsoAt (s : Str) (i : Nat) (st : IsoScan) : Option IsoScan :=
  let n := strLen s
  if i ≥ n then some st
  else
    let c := strCharAt s i
    if c = 84 ∨ c = 116 then
      if st.inTime then some ⟨spanZero, false, false⟩
      else spanParseIsoAt s (i + 1) ⟨st.total, true, st.any⟩
    else
      match hnum : scanNumber s i scanNew with
      | none => none
      | some num =>
        if hany : num.any = false then some ⟨spanZero, false, false⟩
        else
          let after := scanNumberEnd s i
          if after ≥ n then some ⟨spanZero, false, false⟩
          else
            let d := strCharAt s after
            let unit := isoUnitSize d st.inTime
            if unit = 0 then some ⟨spanZero, false, false⟩
            else do
              let total ← spanAdd st.total (← scanSpan num unit)
              spanParseIsoAt s (after + 1) ⟨total, st.inTime, true⟩
termination_by strLen s - i
decreasing_by
  · omega
  · have hlt : i < scanNumberEnd s i := lt_scanNumberEndAt hnum rfl (by simpa using hany)
    omega

def spanParseIso8601 (s : Str) : Option SpanParse := do
  let n := strLen s
  if n = 0 then some .malformed
  else
    let neg := strCharAt s 0 == 45
    let i := if neg then 1 else 0
    if i ≥ n then some .malformed
    else
      let p := strCharAt s i
      if p ≠ 80 ∧ p ≠ 112 then some .malformed
      else
        let st ← spanParseIsoAt s (i + 1) isoNew
        if !st.any then some .malformed
        else
          let total ← (if neg then spanNeg st.total else some st.total)
          some (.parsed total)

def spanParse (s : Str) : Option SpanParse :=
  let n := strLen s
  if n = 0 then some .malformed
  else
    let i := if strCharAt s 0 = 45 then 1 else 0
    if i < n ∧ (strCharAt s i = 80 ∨ strCharAt s i = 112) then spanParseIso8601 s
    else spanParseShort s

/-! ## Scanning a numeral -/

/-- Nothing here continues a number. -/
def Stops (rest : Str) : Prop := ∀ c r, rest = c :: r → c.isDigit = false ∧ c ≠ '.'

def digitInts (ds : List Char) : List Int := ds.map fun c => (digitOf c : Int)

theorem digit_code {c : Char} (h : c.isDigit = true) :
    (48 ≤ (c.toNat : Int) ∧ (c.toNat : Int) ≤ 57) ∧ (c.toNat : Int) - 48 = digitOf c := by
  have hc := (isDigit_iff c).1 h
  unfold digitOf
  omega

theorem not_digit_code {c : Char} (h : c.isDigit = false) :
    ¬ ((c.toNat : Int) ≥ 48 ∧ (c.toNat : Int) ≤ 57) := by
  intro hc
  have hd : c.isDigit = true := (isDigit_iff c).2 ⟨by omega, by omega⟩
  rw [h] at hd
  cases hd

theorem not_point_code {c : Char} (h : c ≠ '.') : (c.toNat : Int) ≠ 46 := by
  intro hc
  apply h
  rw [← Char.ofNat_toNat c, show c.toNat = 46 by omega]

section Scanning

variable {s : Str}

theorem scanNumber_digit {i : Nat} {c : Char} {r : Str} {acc acc' : Scan}
    (h : s.drop i = c :: r) (hc : c.isDigit = true) (hacc : scanDigit acc c.toNat = some acc') :
    scanNumber s i acc = scanNumber s (i + 1) acc' := by
  have hlt := lt_of_drop h
  have hcode := (digit_code hc).1
  conv_lhs => rw [scanNumber]
  rw [if_neg (by omega), strCharAt_of_drop h, if_pos hcode, hacc]
  rfl

theorem scanNumberEndAt_digit {i : Nat} {c : Char} {r : Str} {p : Bool} (h : s.drop i = c :: r)
    (hc : c.isDigit = true) : scanNumberEndAt s i p = scanNumberEndAt s (i + 1) p := by
  have hlt := lt_of_drop h
  have hcode := (digit_code hc).1
  conv_lhs => rw [scanNumberEndAt]
  rw [if_neg (by omega), strCharAt_of_drop h, if_pos hcode]

theorem scanNumber_stop {i : Nat} {acc : Scan} (h : Stops (s.drop i)) :
    scanNumber s i acc = some acc := by
  rw [scanNumber]
  cases hd : s.drop i with
  | nil => rw [if_pos (strLen_le_of_drop hd)]
  | cons c r =>
    obtain ⟨hc, hp⟩ := h c r hd
    have hlt := lt_of_drop hd
    rw [if_neg (by omega), strCharAt_of_drop hd, if_neg (not_digit_code hc),
      if_neg fun hb => not_point_code hp hb.1]

theorem scanNumberEndAt_stop {i : Nat} {p : Bool} (h : Stops (s.drop i)) :
    scanNumberEndAt s i p = i := by
  rw [scanNumberEndAt]
  cases hd : s.drop i with
  | nil => rw [if_pos (strLen_le_of_drop hd)]
  | cons c r =>
    obtain ⟨hc, hp⟩ := h c r hd
    have hlt := lt_of_drop hd
    rw [if_neg (by omega), strCharAt_of_drop hd, if_neg (not_digit_code hc),
      if_neg fun hb => not_point_code hp hb.1]

theorem scanDigit_whole {w d : Nat} {c : Int} (any : Bool) (hc : c - 48 = d) (hd : Fits 64 d)
    (hmul : Fits 64 ((w : Int) * 10)) (hadd : Fits 64 ((w : Int) * 10 + d)) :
    scanDigit ⟨w, [], false, false, any⟩ c =
      some ⟨((w * 10 + d : Nat) : Int), [], false, false, true⟩ := by
  have hsub : sub 64 c 48 = some (d : Int) := by
    rw [← hc] at hd ⊢
    exact sub_of_fits hd
  unfold scanDigit
  simp only [Option.bind_eq_bind]
  rw [bind_of_eq hsub, if_neg Bool.false_ne_true, bind_of_eq (mul_of_fits hmul),
    bind_of_eq (add_of_fits hadd)]
  congr 2

/-- Whole digits push the value read so far up. -/
theorem scanNumber_whole (ds : List Char) (w : Nat) (any : Bool) {rest : Str} {i : Nat}
    (hds : AllDigits ds) (h : s.drop i = ds ++ rest)
    (hfit : w * 10 ^ ds.length + value ds < 9223372036854775808) :
    scanNumber s i ⟨w, [], false, false, any⟩ =
      scanNumber s (i + ds.length)
        ⟨(w * 10 ^ ds.length + value ds : Nat), [], false, false, any || !ds.isEmpty⟩ := by
  induction ds generalizing i w any with
  | nil => simp
  | cons c ds ih =>
    have hc := hds c List.mem_cons_self
    have hrest : AllDigits ds := fun x hx => hds x (List.mem_cons_of_mem c hx)
    have hval : w * 10 ^ (c :: ds).length + value (c :: ds) =
        (w * 10 + digitOf c) * 10 ^ ds.length + value ds := by
      rw [value_cons, List.length_cons, Nat.pow_succ]
      ring
    rw [hval] at hfit ⊢
    have hstep : w * 10 + digitOf c ≤ (w * 10 + digitOf c) * 10 ^ ds.length :=
      Nat.le_mul_of_pos_right _ (Nat.pow_pos (by decide))
    have hacc := scanDigit_whole (w := w) any (digit_code hc).2 (by rw [fits_64]; omega)
      (by rw [fits_64]; omega) (by rw [fits_64]; omega)
    rw [scanNumber_digit h hc hacc, ih _ true hrest (drop_succ_of_drop h) hfit, List.length_cons,
      Nat.add_right_comm, Nat.add_assoc]
    simp

/-- Digits after the point are kept in order. -/
theorem scanNumber_frac (ds : List Char) {rest : Str} {i : Nat} {w : Int} {fs : List Int}
    {any : Bool} (hds : AllDigits ds) (h : s.drop i = ds ++ rest) :
    scanNumber s i ⟨w, fs, true, false, any⟩ =
      scanNumber s (i + ds.length) ⟨w, fs ++ digitInts ds, true, false, any || !ds.isEmpty⟩ := by
  induction ds generalizing i fs any with
  | nil => simp [digitInts]
  | cons c ds ih =>
    have hc := hds c List.mem_cons_self
    have hrest : AllDigits ds := fun x hx => hds x (List.mem_cons_of_mem c hx)
    have hacc : scanDigit ⟨w, fs, true, false, any⟩ c.toNat =
        some ⟨w, fs ++ [(digitOf c : Int)], true, false, true⟩ := by
      have hcode := digit_code hc
      unfold scanDigit
      rw [sub_of_fits (by rw [fits_64]; omega), hcode.2]
      rfl
    rw [scanNumber_digit h hc hacc, ih hrest (drop_succ_of_drop h), List.length_cons,
      Nat.add_right_comm, Nat.add_assoc]
    simp [digitInts]

theorem scanNumberEndAt_digits (ds : List Char) {rest : Str} {i : Nat} {p : Bool}
    (hds : AllDigits ds) (h : s.drop i = ds ++ rest) :
    scanNumberEndAt s i p = scanNumberEndAt s (i + ds.length) p := by
  induction ds generalizing i with
  | nil => rfl
  | cons c ds ih =>
    have hrest : AllDigits ds := fun x hx => hds x (List.mem_cons_of_mem c hx)
    rw [scanNumberEndAt_digit h (hds c List.mem_cons_self), ih hrest (drop_succ_of_drop h),
      List.length_cons, Nat.add_right_comm, Nat.add_assoc]

/-- The scan of a numeral: its whole part and the digits after its point. -/
def numeralScan (w : Nat) (fs : List Char) : Scan := ⟨w, digitInts fs, !fs.isEmpty, false, true⟩

theorem scanNumber_numeral {i w : Nat} {fs : List Char} {rest : Str} (hfs : AllDigits fs)
    (hw : w < 9223372036854775808) (h : s.drop i = numeral w fs ++ rest) (hrest : Stops rest) :
    scanNumber s i scanNew = some (numeralScan w fs) := by
  have hdrop : s.drop i = text w ++ (pointed fs ++ rest) := by
    rw [h, numeral, List.append_assoc]
  have hwhole := scanNumber_whole (text w) 0 false (allDigits_text w) hdrop
    (by rw [value_text]; omega)
  have hany : (false || !(text w).isEmpty) = true := by
    cases ht : text w with
    | nil => exact absurd ht (text_ne_nil w)
    | cons c r => rfl
  have hrest' := drop_add_of_drop hdrop
  rw [hany, value_text, Nat.zero_mul, Nat.zero_add] at hwhole
  refine hwhole.trans ?_
  unfold pointed at hrest'
  unfold numeralScan
  cases fs with
  | nil =>
    rw [if_pos rfl, List.nil_append] at hrest'
    rw [scanNumber_stop (by rw [hrest']; exact hrest)]
    rfl
  | cons f fs =>
    rw [if_neg (List.cons_ne_nil f fs), List.cons_append] at hrest'
    have hlt := lt_of_drop hrest'
    have hfrac := drop_succ_of_drop hrest'
    have hstop := drop_add_of_drop hfrac
    rw [scanNumber, if_neg (by omega), strCharAt_of_drop hrest', if_neg (by decide),
      if_pos ⟨rfl, rfl⟩, scanPoint, scanNumber_frac (f :: fs) hfs hfrac,
      scanNumber_stop (by rw [hstop]; exact hrest)]
    rfl

theorem scanNumberEnd_numeral {i w : Nat} {fs : List Char} {rest : Str} (hfs : AllDigits fs)
    (h : s.drop i = numeral w fs ++ rest) (hrest : Stops rest) :
    scanNumberEnd s i = i + (numeral w fs).length := by
  have hdrop : s.drop i = text w ++ (pointed fs ++ rest) := by
    rw [h, numeral, List.append_assoc]
  have hrest' := drop_add_of_drop hdrop
  rw [scanNumberEnd, scanNumberEndAt_digits _ (allDigits_text w) hdrop, numeral]
  unfold pointed at hrest' ⊢
  cases fs with
  | nil =>
    rw [if_pos rfl, List.nil_append] at hrest'
    rw [scanNumberEndAt_stop (by rw [hrest']; exact hrest)]
    simp
  | cons f fs =>
    rw [if_neg (List.cons_ne_nil f fs), List.cons_append] at hrest'
    have hlt := lt_of_drop hrest'
    have hfrac := drop_succ_of_drop hrest'
    have hstop := drop_add_of_drop hfrac
    rw [scanNumberEndAt, if_neg (by omega), strCharAt_of_drop hrest', if_neg (by decide),
      if_pos ⟨rfl, rfl⟩, scanNumberEndAt_digits (f :: fs) hfs hfrac,
      scanNumberEndAt_stop (by rw [hstop]; exact hrest), if_neg (List.cons_ne_nil f fs)]
    simp
    omega

end Scanning

/-! ## The span of a numeral -/

/-- Against a power of ten the shrinking scale is exact. -/
theorem fracNanos_digitInts (m : Nat) (fs : List Char) (hfs : AllDigits fs) (hlen : fs.length ≤ m)
    (hm : m ≤ 18) :
    fracNanos (digitInts fs) ((10 ^ m : Nat) : Int) = some ((fraction m fs : Nat) : Int) := by
  induction fs generalizing m with
  | nil => simp [digitInts, fracNanos]
  | cons f fs ih =>
    obtain ⟨k, rfl⟩ : ∃ k, m = k + 1 := ⟨m - 1, by rw [List.length_cons] at hlen; omega⟩
    rw [List.length_cons] at hlen
    have hrest : AllDigits fs := fun x hx => hfs x (List.mem_cons_of_mem f hx)
    have hk : 10 ^ k ≤ 10 ^ 17 := Nat.pow_le_pow_right (by decide) (by omega)
    have hpow : 10 ^ (k + 1) = 10 ^ k * 10 := Nat.pow_succ 10 k
    have hstep : div 64 ((10 ^ (k + 1) : Nat) : Int) 10 = some ((10 ^ k : Nat) : Int) := by
      have hten : ((10 ^ (k + 1) : Nat) : Int) / 10 = ((10 ^ k : Nat) : Int) := by omega
      rw [div_of_nonneg (by omega) (by decide) (by rw [fits_64]; omega), hten]
    have hlt := fraction_lt hfs (m := k + 1) (by rw [List.length_cons]; omega)
    have hcons := fraction_cons (k + 1) f fs (by omega)
    rw [Nat.add_sub_cancel] at hcons
    have hdig : (digitInts (f :: fs)) = (digitOf f : Int) :: digitInts fs := rfl
    have hmul : mul 64 (digitOf f) ((10 ^ k : Nat) : Int) =
        some ((digitOf f * 10 ^ k : Nat) : Int) := by
      rw [mul_of_fits, Int.natCast_mul]
      rw [← Int.natCast_mul, fits_64]
      omega
    have hadd : add 64 ((digitOf f * 10 ^ k : Nat) : Int) (fraction k fs) =
        some ((fraction (k + 1) (f :: fs) : Nat) : Int) := by
      rw [add_of_fits, ← Int.natCast_add, hcons]
      rw [← Int.natCast_add, ← hcons, fits_64]
      omega
    rw [hdig, fracNanos]
    simp only [Option.bind_eq_bind]
    rw [bind_of_eq hstep, bind_of_eq hmul, bind_of_eq (ih k hrest (by omega) (by omega)), hadd]

theorem scanSpan_numeral (unit part : Nat) {w : Nat} {fs : List Char}
    (hpart : fracNanos (digitInts fs) unit = some (part : Int))
    (h : w * unit + part < 9223372036854775808) :
    scanSpan (numeralScan w fs) unit = some (ofTotal ((w * unit + part : Nat) : Int)) := by
  have hwhole : mul 64 (w : Int) unit = some ((w * unit : Nat) : Int) := by
    rw [mul_of_fits, Int.natCast_mul]
    rw [← Int.natCast_mul, fits_64]
    omega
  have hsum : add 64 ((w * unit : Nat) : Int) part = some ((w * unit + part : Nat) : Int) := by
    rw [add_of_fits, ← Int.natCast_add]
    rw [← Int.natCast_add, fits_64]
    omega
  have hspan : spanOfNanos ((w * unit + part : Nat) : Int) =
      some (ofTotal ((w * unit + part : Nat) : Int)) := spanOfNanos_eq (by rw [fits_64]; omega)
  unfold scanSpan numeralScan
  simp only [Option.bind_eq_bind]
  rw [bind_of_eq hwhole, bind_of_eq hpart, bind_of_eq hsum, if_neg Bool.false_ne_true,
    bind_of_eq rfl, hspan]

theorem scanSpan_count {w unit : Nat} (h : w * unit < 9223372036854775808) :
    scanSpan (numeralScan w []) unit = some (ofTotal ((w * unit : Nat) : Int)) :=
  scanSpan_numeral unit 0 rfl h

theorem scanSpan_seconds {w : Nat} {fs : List Char} (hfs : AllDigits fs) (hlen : fs.length ≤ 9)
    (h : w * 1000000000 + fraction 9 fs < 9223372036854775808) :
    scanSpan (numeralScan w fs) 1000000000 =
      some (ofTotal ((w * 1000000000 + fraction 9 fs : Nat) : Int)) :=
  scanSpan_numeral 1000000000 _ (fracNanos_digitInts 9 fs hfs hlen (by decide)) h

/-! ## Units -/

theorem suffixAt_iff {s t : Str} {i : Nat} (hi : i ≤ strLen s) :
    suffixAt s i t = true ↔ t <+: s.drop i := by
  unfold suffixAt
  by_cases he : i + strLen t > strLen s
  · rw [if_pos he]
    constructor
    · intro h
      cases h
    · intro h
      have hlen := h.length_le
      rw [List.length_drop] at hlen
      unfold strLen at he hi
      omega
  · rw [if_neg he, beq_iff_eq]
    exact strSlice_eq_iff

/-- Where the units of a printed part end: the end of the text or a space. -/
def Ends (rest : Str) : Prop := rest = [] ∨ ∃ r, rest = ' ' :: r

/-- What has no space in it starts the unit or does not start there at all. -/
theorem prefix_unit_iff {t unit rest : Str} (ht : ' ' ∉ t) (hrest : Ends rest) :
    t <+: unit ++ rest ↔ t <+: unit := by
  constructor
  · intro h
    rcases List.prefix_or_prefix_of_prefix h (List.prefix_append unit rest) with hp | ⟨u, rfl⟩
    · exact hp
    · rw [List.prefix_append_right_inj] at h
      rcases hrest with rfl | ⟨r, rfl⟩
      · have hnil := List.prefix_nil.1 h
        simp [hnil]
      · cases u with
        | nil => simp
        | cons c u =>
          have hc : c = ' ' := (List.cons_prefix_cons.1 h).1
          subst hc
          exact absurd (List.mem_append_right unit List.mem_cons_self) ht
  · intro h
    exact h.trans (List.prefix_append unit rest)

theorem names_no_space : ∀ t ∈ spanUnitNames, ' ' ∉ t := by decide

section Units

variable {s unit rest : Str} {i : Nat} (h : s.drop i = unit ++ rest) (hi : i ≤ strLen s)
  (hrest : Ends rest)
include h hi hrest

/-- A name is spelled before the end of a part exactly when it is spelled in the unit alone. -/
theorem suffixAt_unit {t : Str} (ht : ' ' ∉ t) : suffixAt s i t = suffixAt unit 0 t := by
  rw [Bool.eq_iff_iff, suffixAt_iff hi, suffixAt_iff (Nat.zero_le _), h, List.drop_zero,
    prefix_unit_iff ht hrest]

theorem matchUnit_unit : matchUnit s i = matchUnit unit 0 := by
  have hall : ∀ names sizes, (∀ t ∈ names, ' ' ∉ t) →
      matchUnitAt s i names sizes = matchUnitAt unit 0 names sizes := by
    intro names
    induction names with
    | nil =>
      intro sizes _
      cases sizes <;> rfl
    | cons t names ih =>
      intro sizes hnames
      cases sizes with
      | nil => rfl
      | cons z sizes =>
        rw [matchUnitAt, matchUnitAt, suffixAt_unit h hi hrest (hnames t List.mem_cons_self),
          ih sizes fun t ht => hnames t (List.mem_cons_of_mem _ ht)]
  exact hall _ _ names_no_space

theorem matchLen_unit : matchLen s i = matchLen unit 0 := by
  have hall : ∀ names, (∀ t ∈ names, ' ' ∉ t) →
      matchLenAt s i names = matchLenAt unit 0 names := by
    intro names
    induction names with
    | nil => exact fun _ => rfl
    | cons t names ih =>
      intro hnames
      rw [matchLenAt, matchLenAt, suffixAt_unit h hi hrest (hnames t List.mem_cons_self),
        ih fun t ht => hnames t (List.mem_cons_of_mem _ ht)]
  exact hall _ names_no_space

end Units

end Duration

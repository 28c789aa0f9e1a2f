import Resid.Duration.Span

/-!
# Printing spans

A length prints its sign and then its days, hours, minutes and seconds, each left out
when it is zero.  `fracDigits` are the digits printed after the point of the seconds;
they stand for `printedNanos`, which is not always the fraction they were printed for.

    spanFormat s = sign ++ days, hours, minutes, seconds, spaced       (spanFormat_eq)
    spanFormatIso8601 s = sign ++ P days T hours minutes seconds       (spanFormatIso8601_eq)
    printedNanos f = f ↔ ¬ LosesZeros f                                (printedNanos_eq_iff)
-/

namespace Duration

open CheckedInt Calendar Decimal Runtime

/-! ## Algorithm -/

def spanFractionOnto (b : StrBuf) (frac digits : Int) : StrBuf :=
  b ++ calTrimZeros (calPadLeft (intText frac) digits ['0'])

def spanSecondsOnto (b : StrBuf) (ns : Int) : Option StrBuf := do
  let whole ← div 64 ns 1000000000
  let frac ← mod 64 ns 1000000000
  let w := calPadOnto b whole 1 ['0']
  if frac = 0 then some w
  else if (← mod 64 frac 1000000) = 0 then
    some (spanFractionOnto (w ++ ['.']) (← div 64 frac 1000000) 3)
  else if (← mod 64 frac 1000) = 0 then
    some (spanFractionOnto (w ++ ['.']) (← div 64 frac 1000) 3)
  else some (spanFractionOnto (w ++ ['.']) frac 9)

def spanCountOnto (b : StrBuf) (n : Int) (suffix : Str) : Option StrBuf := do
  let s := if n < 0 then b ++ ['-'] else b
  let mag ← (if n < 0 then sub 64 0 n else some n)
  some (calPadOnto s mag 1 ['0'] ++ suffix)

def spanPut (b : StrBuf) (started : Bool) (part : Str) : StrBuf :=
  if part = [] then b else if started then b ++ [' '] ++ part else b ++ part

def countText (n : Int) (suffix : Str) : Option Str :=
  if n = 0 then some [] else spanCountOnto [] n suffix

def subsecondText (secs : SpanParts) : Option Str := do
  let ns := secs.rest.nanoseconds
  if secs.count ≠ 0 then
    some ((← spanSecondsOnto [] (← add 64 (← mul 64 secs.count 1000000000) ns)) ++ ['s'])
  else if ns = 0 then some []
  else if (← mod 64 ns 1000000) = 0 then spanCountOnto [] (← div 64 ns 1000000) ['m', 's']
  else if (← mod 64 ns 1000) = 0 then spanCountOnto [] (← div 64 ns 1000) ['u', 's']
  else spanCountOnto [] ns ['n', 's']

def spanFormat (s : Span) : Option Str := do
  if spanIsZero s then some ['0', 's']
  else
    let mag ← spanAbs s
    let days ← spanSplit mag .days
    let hours ← spanSplit days.rest .hours
    let mins ← spanSplit hours.rest .minutes
    let secs ← spanSplit mins.rest .seconds
    let d ← countText days.count ['d']
    let h ← countText hours.count ['h']
    let m ← countText mins.count ['m']
    let sub ← subsecondText secs
    let b0 := if spanIsNegative s then ['-'] else []
    let b1 := spanPut b0 false d
    let b2 := spanPut b1 (d ≠ []) h
    let b3 := spanPut b2 (d ≠ [] ∨ h ≠ []) m
    let b4 := spanPut b3 (d ≠ [] ∨ h ≠ [] ∨ m ≠ []) sub
    some b4

/-- The `T` before the first time component, part of the opener without a date half. -/
def isoTime (b : StrBuf) (datePart already : Bool) : StrBuf :=
  if already then b else if datePart then b ++ ['T'] else b ++ ['P', 'T']

def spanFormatIso8601 (s : Span) : Option Str := do
  if spanIsZero s then some ['P', 'T', '0', 'S']
  else
    let mag ← spanAbs s
    let days ← spanSplit mag .days
    let hours ← spanSplit days.rest .hours
    let mins ← spanSplit hours.rest .minutes
    let secs ← spanSplit mins.rest .seconds
    let ns ← add 64 (← mul 64 secs.count 1000000000) secs.rest.nanoseconds
    let d ← countText days.count ['D']
    let h ← countText hours.count ['H']
    let m ← countText mins.count ['M']
    let b0 := if spanIsNegative s then ['-'] else []
    let b1 := if d ≠ [] then b0 ++ ['P'] ++ d else b0
    let b2 := if h ≠ [] then isoTime b1 (d ≠ []) false ++ h else b1
    let b3 := if m ≠ [] then isoTime b2 (d ≠ []) (h ≠ []) ++ m else b2
    if ns ≠ 0 then
      some ((← spanSecondsOnto (isoTime b3 (d ≠ []) (h ≠ [] ∨ m ≠ [])) ns) ++ ['S'])
    else some b3

/-! ## The parts of a length -/

/-- Days, hours, minutes, seconds and nanoseconds of a length. -/
structure Fields where
  days : Nat
  hours : Nat
  mins : Nat
  secs : Nat
  nanos : Nat
  hours_lt : hours < 24
  mins_lt : mins < 60
  secs_lt : secs < 60
  nanos_lt : nanos < 1000000000

/-- The length in nanoseconds. -/
def Fields.length (f : Fields) : Nat :=
  f.days * 86400000000000 + f.hours * 3600000000000 + f.mins * 60000000000 +
    f.secs * 1000000000 + f.nanos

def fieldsOf (n : Nat) : Fields where
  days := n / 86400000000000
  hours := n % 86400000000000 / 3600000000000
  mins := n % 3600000000000 / 60000000000
  secs := n % 60000000000 / 1000000000
  nanos := n % 1000000000
  hours_lt := by omega
  mins_lt := by omega
  secs_lt := by omega
  nanos_lt := by omega

theorem length_fieldsOf (n : Nat) : (fieldsOf n).length = n := by
  simp only [Fields.length, fieldsOf]
  omega

/-! ## Seconds and their fraction -/

/-- The digits printed after the point for `f` nanoseconds. -/
def fracDigits (f : Nat) : List Char :=
  if f = 0 then []
  else if f % 1000000 = 0 then trimZeros (padLeft 3 (text (f / 1000000)))
  else if f % 1000 = 0 then trimZeros (padLeft 3 (text (f / 1000)))
  else trimZeros (padLeft 9 (text f))

/-- The nanoseconds those digits stand for. -/
def printedNanos (f : Nat) : Nat := fraction 9 (fracDigits f)

/-- Microseconds below a tenth of a second are padded to three digits, not six. -/
def LosesZeros (f : Nat) : Prop := f % 1000 = 0 ∧ f % 1000000 ≠ 0 ∧ f < 100000000

instance (f : Nat) : Decidable (LosesZeros f) := inferInstanceAs (Decidable (_ ∧ _))

theorem allDigits_fracDigits (f : Nat) : AllDigits (fracDigits f) := by
  unfold fracDigits
  split_ifs
  · exact fun _ h => absurd h List.not_mem_nil
  all_goals exact (allDigits_padLeft (allDigits_text _)).trimZeros

variable {f k nanos : Nat} {r : Span}

theorem fracDigits_ne_nil (h : f ≠ 0) : fracDigits f ≠ [] := by
  unfold fracDigits
  rw [if_neg h]
  split_ifs
  · refine trimZeros_ne_nil ?_
    rw [value_padLeft, value_text]
    omega
  · refine trimZeros_ne_nil ?_
    rw [value_padLeft, value_text]
    omega
  · refine trimZeros_ne_nil ?_
    rwa [value_padLeft, value_text]

theorem length_trim_padLeft_le {m n : Nat} (hk : k ≤ m) (hm : 0 < m) (hn : n < 10 ^ m) :
    (padLeft k (text n)).length ≤ m := by
  have hlen := (length_text_le_iff hm).2 hn
  rw [length_padLeft]
  omega

theorem length_fracDigits_le (hf : f < 1000000000) : (fracDigits f).length ≤ 9 := by
  unfold fracDigits
  split_ifs
  · exact Nat.zero_le 9
  · exact (length_trimZeros_le _).trans
      (length_trim_padLeft_le (by decide) (by decide) (by omega))
  · exact (length_trimZeros_le _).trans
      (length_trim_padLeft_le (by decide) (by decide) (by omega))
  · exact (length_trimZeros_le _).trans
      (length_trim_padLeft_le (by decide) (by decide) (by omega))

theorem printedNanos_lt (hf : f < 1000000000) : printedNanos f < 1000000000 :=
  fraction_lt (allDigits_fracDigits f) (length_fracDigits_le hf)

/-- Trimming aside, the digits of `n` padded to `k` stand for `n` in units of `10 ^ -max k …`. -/
theorem fraction_trim_padLeft {n : Nat} (hk : k ≤ 9) (hn : n < 1000000000) :
    fraction 9 (trimZeros (padLeft k (text n))) = n * 10 ^ (9 - max k (text n).length) := by
  rw [fraction_trimZeros 9 _ (length_trim_padLeft_le hk (by decide) hn), fraction_padLeft]

theorem printedNanos_eq_iff (hf : f < 1000000000) : printedNanos f = f ↔ ¬ LosesZeros f := by
  unfold printedNanos fracDigits LosesZeros
  by_cases h0 : f = 0
  · subst h0
    simp
  by_cases hms : f % 1000000 = 0
  · -- three digits: milliseconds below a thousand
    have hlen : (text (f / 1000000)).length ≤ 3 := (length_text_le_iff (by decide)).2 (by omega)
    rw [if_neg h0, if_pos hms, fraction_trim_padLeft (by decide) (by omega),
      Nat.max_eq_left hlen]
    omega
  by_cases hus : f % 1000 = 0
  · have hle : (text (f / 1000)).length ≤ 6 := (length_text_le_iff (by decide)).2 (by omega)
    rw [if_neg h0, if_neg hms, if_pos hus, fraction_trim_padLeft (by decide) (by omega)]
    by_cases hlt : f < 100000000
    · -- at most five digits stand for ten times the fraction or more
      have hlen : (text (f / 1000)).length ≤ 5 := (length_text_le_iff (by decide)).2 (by omega)
      have hpow : 10 ^ 4 ≤ 10 ^ (9 - max 3 (text (f / 1000)).length) :=
        Nat.pow_le_pow_right (by decide) (by omega)
      have hmul := Nat.mul_le_mul_left (f / 1000) hpow
      constructor
      · intro h
        omega
      · intro h
        exact absurd ⟨hus, hms, hlt⟩ h
    · have hgt : ¬ (text (f / 1000)).length ≤ 5 := by
        rw [length_text_le_iff (by decide)]
        omega
      have hlen : max 3 (text (f / 1000)).length = 6 := by omega
      rw [hlen]
      omega
  · have hlen : (text f).length ≤ 9 := (length_text_le_iff (by decide)).2 (by omega)
    rw [if_neg h0, if_neg hms, if_neg hus, fraction_trim_padLeft (by decide) hf,
      Nat.max_eq_left hlen]
    omega

theorem spanFractionOnto_eq (b : StrBuf) (n k : Nat) :
    spanFractionOnto b n k = b ++ trimZeros (padLeft k (text n)) := by
  rw [spanFractionOnto, intText_natCast, calPadLeft_zero, calTrimZeros_eq]

theorem fits_of_lt {n : Nat} (h : n < 9223372036854775808) : Fits 64 n := by
  rw [fits_64]
  omega

theorem div_natCast {n : Nat} (h : n < 9223372036854775808) (hk : 0 < k) :
    div 64 n k = some ((n / k : Nat) : Int) := by
  rw [div_of_nonneg (by omega) (by omega) (fits_of_lt h), Int.natCast_ediv]

theorem mod_natCast {n : Nat} (hk : 0 < k) : mod 64 n k = some ((n % k : Nat) : Int) := by
  rw [mod_of_nonneg (by omega) (by omega), Int.natCast_emod]

theorem spanSecondsOnto_eq {w : Nat} (b : StrBuf) (hf : f < 1000000000)
    (h : w * 1000000000 + f < 9223372036854775808) :
    spanSecondsOnto b ((w * 1000000000 + f : Nat) : Int) = some (b ++ numeral w (fracDigits f)) := by
  have hw : div 64 ((w * 1000000000 + f : Nat) : Int) 1000000000 = some (w : Int) := by
    have hq : (w * 1000000000 + f) / 1000000000 = w := by omega
    exact (div_natCast h (by decide)).trans (by rw [hq])
  have hr : mod 64 ((w * 1000000000 + f : Nat) : Int) 1000000000 = some (f : Int) := by
    have hq : (w * 1000000000 + f) % 1000000000 = f := by omega
    exact (mod_natCast (by decide)).trans (by rw [hq])
  have hms : mod 64 (f : Int) 1000000 = some ((f % 1000000 : Nat) : Int) := mod_natCast (by decide)
  have hus : mod 64 (f : Int) 1000 = some ((f % 1000 : Nat) : Int) := mod_natCast (by decide)
  have hdms : div 64 (f : Int) 1000000 = some ((f / 1000000 : Nat) : Int) :=
    div_natCast (by omega) (by decide)
  have hdus : div 64 (f : Int) 1000 = some ((f / 1000 : Nat) : Int) :=
    div_natCast (by omega) (by decide)
  have hfrac : ∀ n k : Nat, spanFractionOnto (b ++ text w ++ ['.']) n k =
      b ++ text w ++ ['.'] ++ trimZeros (padLeft k (text n)) := fun n k =>
    spanFractionOnto_eq _ n k
  have hne := @fracDigits_ne_nil f
  unfold spanSecondsOnto
  simp only [hw, hr, hms, hus, hdms, hdus, calPadOnto_one, some_bind]
  unfold numeral pointed
  by_cases h0 : f = 0
  · subst h0
    simp [fracDigits]
  rw [if_neg (by omega), if_neg (hne h0)]
  unfold fracDigits
  rw [if_neg h0]
  by_cases h6 : f % 1000000 = 0
  · rw [if_pos (by omega), if_pos h6]
    have := hfrac (f / 1000000) 3
    simp only [List.append_assoc, List.singleton_append] at this ⊢
    exact congrArg some this
  rw [if_neg (by omega), if_neg h6]
  by_cases h3 : f % 1000 = 0
  · rw [if_pos (by omega), if_pos h3]
    have := hfrac (f / 1000) 3
    simp only [List.append_assoc, List.singleton_append] at this ⊢
    exact congrArg some this
  rw [if_neg (by omega), if_neg h3]
  have := hfrac f 9
  simp only [List.append_assoc, List.singleton_append] at this ⊢
  exact congrArg some this

/-! ## Counts and the parts of a text -/

/-- A count and its unit, or nothing for a count of zero. -/
def countPart (n : Nat) (suffix : Str) : Str := if n = 0 then [] else text n ++ suffix

/-- Seconds with their fraction; below a second the largest unit that is exact. -/
def tailPart (secs nanos : Nat) : Str :=
  if secs ≠ 0 then numeral secs (fracDigits nanos) ++ ['s']
  else if nanos % 1000000 = 0 then countPart (nanos / 1000000) ['m', 's']
  else if nanos % 1000 = 0 then countPart (nanos / 1000) ['u', 's']
  else countPart nanos ['n', 's']

theorem spanCountOnto_natCast (b : StrBuf) (n : Nat) (suffix : Str) :
    spanCountOnto b n suffix = some (b ++ text n ++ suffix) := by
  unfold spanCountOnto
  rw [if_neg (by omega), if_neg (by omega)]
  simp only [some_bind, calPadOnto_one]

theorem countText_natCast (n : Nat) (suffix : Str) :
    countText n suffix = some (countPart n suffix) := by
  unfold countText countPart
  by_cases h : n = 0
  · rw [if_pos (by omega), if_pos h]
  · rw [if_neg (by omega), if_neg h, spanCountOnto_natCast, List.nil_append]

theorem countPart_eq_nil_iff {n : Nat} {suffix : Str} : countPart n suffix = [] ↔ n = 0 := by
  unfold countPart
  constructor
  · intro h
    by_contra hn
    rw [if_neg hn, List.append_eq_nil_iff] at h
    exact text_ne_nil n h.1
  · intro h
    rw [if_pos h]

theorem tailPart_eq_nil_iff {secs : Nat} : tailPart secs nanos = [] ↔ secs = 0 ∧ nanos = 0 := by
  unfold tailPart
  by_cases hs : secs = 0
  · rw [if_neg (by omega)]
    split_ifs <;> rw [countPart_eq_nil_iff] <;> omega
  · rw [if_pos hs]
    simp [hs]

theorem add_secs_nanos {secs : Nat} (hs : secs < 60) (hn : nanos < 1000000000) :
    (mul 64 (secs : Int) 1000000000).bind (fun ns => add 64 ns (nanos : Int)) =
      some ((secs * 1000000000 + nanos : Nat) : Int) := by
  have hmul : mul 64 (secs : Int) 1000000000 = some ((secs : Int) * 1000000000) :=
    mul_of_fits (by rw [fits_64]; omega)
  have hsum : (secs : Int) * 1000000000 + nanos = ((secs * 1000000000 + nanos : Nat) : Int) := by
    omega
  rw [hmul, Option.bind_some, add_of_fits (by rw [fits_64]; omega), hsum]

theorem spanCountOnto_pos {n : Nat} (suffix : Str) (h : n ≠ 0) :
    spanCountOnto [] n suffix = some (countPart n suffix) := by
  rw [spanCountOnto_natCast, List.nil_append, countPart, if_neg h]

theorem subsecondText_secs {secs : Nat} (hr : r.nanoseconds = nanos) (h0 : secs ≠ 0)
    (hs : secs < 60) (hn : nanos < 1000000000) :
    subsecondText ⟨secs, r⟩ = some (tailPart secs nanos) := by
  have hadd := add_secs_nanos hs hn
  have hsec : spanSecondsOnto [] ((secs * 1000000000 + nanos : Nat) : Int) =
      some (numeral secs (fracDigits nanos)) := spanSecondsOnto_eq [] hn (by omega)
  unfold subsecondText tailPart
  rw [if_pos h0, hr]
  simp only [Option.bind_eq_bind]
  rw [if_pos (by omega), ← Option.bind_assoc, hadd, Option.bind_some, hsec, Option.bind_some]

theorem subsecondText_below (hr : r.nanoseconds = nanos) (hn : nanos < 1000000000) :
    subsecondText ⟨0, r⟩ = some (tailPart 0 nanos) := by
  have hms : mod 64 (nanos : Int) 1000000 = some ((nanos % 1000000 : Nat) : Int) :=
    mod_natCast (by decide)
  have hus : mod 64 (nanos : Int) 1000 = some ((nanos % 1000 : Nat) : Int) :=
    mod_natCast (by decide)
  have hdms : div 64 (nanos : Int) 1000000 = some ((nanos / 1000000 : Nat) : Int) :=
    div_natCast (by omega) (by decide)
  have hdus : div 64 (nanos : Int) 1000 = some ((nanos / 1000 : Nat) : Int) :=
    div_natCast (by omega) (by decide)
  have htail : tailPart 0 nanos = if nanos % 1000000 = 0 then countPart (nanos / 1000000) ['m', 's']
      else if nanos % 1000 = 0 then countPart (nanos / 1000) ['u', 's']
      else countPart nanos ['n', 's'] := if_neg (by simp)
  rw [htail]
  unfold subsecondText
  simp only [hr, hms, hus, hdms, hdus, some_bind]
  rw [if_neg (by simp)]
  by_cases hz : nanos = 0
  · subst hz
    rfl
  have hz' : (nanos : Int) ≠ 0 := by omega
  rw [if_neg hz']
  by_cases h6 : nanos % 1000000 = 0
  · have h6' : ((nanos % 1000000 : Nat) : Int) = 0 := by omega
    rw [if_pos h6, if_pos h6', spanCountOnto_pos _ (by omega)]
  have h6' : ((nanos % 1000000 : Nat) : Int) ≠ 0 := by omega
  rw [if_neg h6, if_neg h6']
  by_cases h3 : nanos % 1000 = 0
  · have h3' : ((nanos % 1000 : Nat) : Int) = 0 := by omega
    rw [if_pos h3, if_pos h3', spanCountOnto_pos _ (by omega)]
  · have h3' : ((nanos % 1000 : Nat) : Int) ≠ 0 := by omega
    rw [if_neg h3, if_neg h3', spanCountOnto_pos _ hz]

theorem subsecondText_eq {secs : Nat} (hr : r.nanoseconds = nanos) (hs : secs < 60)
    (hn : nanos < 1000000000) : subsecondText ⟨secs, r⟩ = some (tailPart secs nanos) := by
  by_cases h0 : secs = 0
  · subst h0
    exact subsecondText_below hr hn
  · exact subsecondText_secs hr h0 hs hn

/-! ## The readable form -/

/-- Each nonempty part behind a space. -/
def spacedParts (ps : List Str) : Str := (ps.filter (· ≠ [])).flatMap (' ' :: ·)

/-- The nonempty parts with a space between two of them. -/
def spaced (ps : List Str) : Str := (spacedParts ps).tail

theorem spacedParts_append (ps qs : List Str) :
    spacedParts (ps ++ qs) = spacedParts ps ++ spacedParts qs := by
  simp [spacedParts]

theorem spacedParts_cons (p : Str) (ps : List Str) (h : p ≠ []) :
    spacedParts (p :: ps) = ' ' :: (p ++ spacedParts ps) := by
  simp [spacedParts, h]

theorem spacedParts_nil_cons (ps : List Str) : spacedParts ([] :: ps) = spacedParts ps := by
  simp [spacedParts]

theorem spacedParts_eq_nil_iff (ps : List Str) : spacedParts ps = [] ↔ ∀ p ∈ ps, p = [] := by
  simp [spacedParts]

/-- Pushing a part adds it behind the parts already there. -/
theorem spanPut_spaced {b : StrBuf} {ps : List Str} {started : Bool} (p : Str)
    (h : started = true ↔ ∃ q ∈ ps, q ≠ []) :
    spanPut (b ++ spaced ps) started p = b ++ spaced (ps ++ [p]) := by
  unfold spanPut spaced
  rw [spacedParts_append]
  by_cases hp : p = []
  · subst hp
    rw [if_pos rfl, spacedParts_nil_cons]
    simp [spacedParts]
  have hlast : spacedParts [p] = ' ' :: p := by simp [spacedParts, hp]
  rw [if_neg hp, hlast]
  cases hs : spacedParts ps with
  | nil =>
    have hno : ¬ ∃ q ∈ ps, q ≠ [] := by
      rintro ⟨q, hq, hne⟩
      exact hne ((spacedParts_eq_nil_iff ps).1 hs q hq)
    rw [if_neg (by rw [h]; exact hno)]
    simp
  | cons c r =>
    have hyes : ∃ q ∈ ps, q ≠ [] := by
      by_contra hno
      have hnil : spacedParts ps = [] := by
        rw [spacedParts_eq_nil_iff]
        intro q hq
        by_contra hne
        exact hno ⟨q, hq, hne⟩
      rw [hs] at hnil
      exact List.cons_ne_nil c r hnil
    rw [if_pos (h.2 hyes)]
    simp

/-! ## Taking a length apart -/

theorem spanAbs_ofTotal {t : Int} (h : SecFits t) :
    spanAbs (ofTotal t) = some (ofTotal t.natAbs) := by
  unfold spanAbs
  rw [ofTotal_seconds]
  by_cases ht : t / 1000000000 < 0
  · have habs : (t.natAbs : Int) = -t := by omega
    rw [if_pos ht, spanNeg_ofTotal h, habs]
  · have habs : (t.natAbs : Int) = t := by omega
    rw [if_neg ht, habs]

theorem spanIsZero_ofTotal (t : Int) : spanIsZero (ofTotal t) = decide (t = 0) := by
  rw [spanIsZero, Bool.eq_iff_iff]
  simp only [ofTotal_seconds, ofTotal_nanoseconds, Bool.and_eq_true, beq_iff_eq,
    decide_eq_true_eq]
  omega

theorem spanIsNegative_ofTotal (t : Int) : spanIsNegative (ofTotal t) = decide (t < 0) := by
  have hs : (ofTotal t).seconds < 0 ↔ t < 0 := by
    rw [ofTotal_seconds]
    omega
  exact decide_eq_decide.2 hs

/-- Splitting a natural length, in natural numbers. -/
theorem spanSplit_nat {n us : Nat} {u : Unit} (hu : unitNanos u = (k : Int))
    (hk : k = us * 1000000000) (hlo : 0 < us) (hhi : us ≤ 604800)
    (h : n < 9223372036854775808 * 1000000000) : spanSplit (ofTotal n) u =
      some ⟨((n / k : Nat) : Int), ofTotal ((n % k : Nat) : Int)⟩ := by
  have hku : (k : Int) = (us : Int) * 1000000000 := by omega
  rw [spanSplit_ofTotal (hu.trans hku) (by omega) (by omega) (by omega)
    (by unfold SecFits; omega), hu, Int.natCast_ediv, Int.natCast_emod]

section Splits

variable {n : Nat}

theorem spanSplit_days (h : n < 9223372036854775808 * 1000000000) :
    spanSplit (ofTotal n) .days =
      some ⟨(fieldsOf n).days, ofTotal ((n % 86400000000000 : Nat) : Int)⟩ :=
  spanSplit_nat rfl (by decide : 86400000000000 = 86400 * 1000000000) (by decide) (by decide) h

theorem spanSplit_hours :
    spanSplit (ofTotal ((n % 86400000000000 : Nat) : Int)) .hours =
      some ⟨(fieldsOf n).hours, ofTotal ((n % 3600000000000 : Nat) : Int)⟩ := by
  rw [spanSplit_nat rfl (by decide : 3600000000000 = 3600 * 1000000000) (by decide) (by decide)
    (by omega), Nat.mod_mod_of_dvd n (by decide)]
  rfl

theorem spanSplit_minutes :
    spanSplit (ofTotal ((n % 3600000000000 : Nat) : Int)) .minutes =
      some ⟨(fieldsOf n).mins, ofTotal ((n % 60000000000 : Nat) : Int)⟩ := by
  rw [spanSplit_nat rfl (by decide : 60000000000 = 60 * 1000000000) (by decide) (by decide)
    (by omega), Nat.mod_mod_of_dvd n (by decide)]
  rfl

theorem spanSplit_seconds :
    spanSplit (ofTotal ((n % 60000000000 : Nat) : Int)) .seconds =
      some ⟨(fieldsOf n).secs, ofTotal ((n % 1000000000 : Nat) : Int)⟩ := by
  rw [spanSplit_nat rfl (by decide : 1000000000 = 1 * 1000000000) (by decide) (by decide)
    (by omega), Nat.mod_mod_of_dvd n (by decide)]
  rfl

end Splits

def signText (t : Int) : Str := if t < 0 then ['-'] else []

/-- The parts of the readable form, the largest unit first. -/
def shortParts (f : Fields) : List Str :=
  [countPart f.days ['d'], countPart f.hours ['h'], countPart f.mins ['m'],
    tailPart f.secs f.nanos]

/-- The ISO form of a date half and a time half, nothing when both are empty. -/
def isoText (b : StrBuf) (d ts : Str) : StrBuf :=
  b ++ if d = [] ∧ ts = [] then [] else ['P'] ++ d ++ if ts = [] then [] else ['T'] ++ ts

theorem isoTime_isoText (b : StrBuf) (d ts : Str) :
    isoTime (isoText b d ts) (d ≠ []) (ts ≠ []) = b ++ ['P'] ++ d ++ ['T'] ++ ts := by
  unfold isoTime isoText
  by_cases ht : ts = []
  · by_cases hd : d = []
    · simp [ht, hd]
    · simp [ht, hd]
  · simp [ht]

/-- Pushing a time component adds it behind the ones already there. -/
theorem isoText_push (b : StrBuf) (d ts p : Str) (hp : p ≠ []) :
    isoTime (isoText b d ts) (d ≠ []) (ts ≠ []) ++ p = isoText b d (ts ++ p) := by
  rw [isoTime_isoText, isoText]
  have hne : ts ++ p ≠ [] := fun h => hp (List.append_eq_nil_iff.1 h).2
  rw [if_neg (fun h => hne h.2), if_neg hne]
  simp

section Formatting

variable {s mag : Span} {days hours mins secs : SpanParts} {d h m : Str}

/-- The readable form from the values its steps return. -/
theorem spanFormat_of_steps {sub : Str} (hz : spanIsZero s = false) (hmag : spanAbs s = some mag)
    (hdays : spanSplit mag .days = some days) (hhours : spanSplit days.rest .hours = some hours)
    (hmins : spanSplit hours.rest .minutes = some mins)
    (hsecs : spanSplit mins.rest .seconds = some secs) (hd : countText days.count ['d'] = some d)
    (hh : countText hours.count ['h'] = some h) (hm : countText mins.count ['m'] = some m)
    (hsub : subsecondText secs = some sub) :
    spanFormat s = some ((if spanIsNegative s then ['-'] else []) ++ spaced [d, h, m, sub]) := by
  have hput : ∀ b : StrBuf,
      spanPut (spanPut (spanPut (spanPut b false d) (d ≠ []) h) (d ≠ [] ∨ h ≠ []) m)
        (d ≠ [] ∨ h ≠ [] ∨ m ≠ []) sub = b ++ spaced [d, h, m, sub] := by
    intro b
    have h0 : b = b ++ spaced [] := (List.append_nil b).symm
    conv_lhs => rw [h0]
    rw [spanPut_spaced d (by simp), spanPut_spaced h (by simp), spanPut_spaced m (by simp),
      spanPut_spaced sub (by simp)]
    rfl
  unfold spanFormat
  simp only [hz, hmag, hdays, hhours, hmins, hsecs, hd, hh, hm, hsub, some_bind, hput]
  rfl

/-- The ISO form from the values its steps return. -/
theorem spanFormatIso8601_of_steps {ns : Int} {sec : Str} (hz : spanIsZero s = false)
    (hmag : spanAbs s = some mag) (hdays : spanSplit mag .days = some days)
    (hhours : spanSplit days.rest .hours = some hours)
    (hmins : spanSplit hours.rest .minutes = some mins)
    (hsecs : spanSplit mins.rest .seconds = some secs)
    (hns : (mul 64 secs.count 1000000000).bind (fun a => add 64 a secs.rest.nanoseconds) = some ns)
    (hd : countText days.count ['D'] = some d) (hh : countText hours.count ['H'] = some h)
    (hm : countText mins.count ['M'] = some m)
    (hsec : ∀ b, spanSecondsOnto b ns = some (b ++ sec)) :
    spanFormatIso8601 s = some (isoText (if spanIsNegative s then ['-'] else []) d
      (h ++ m ++ if ns = 0 then [] else sec ++ ['S'])) := by
  have hns' : ∀ f : Int → Option Str,
      ((mul 64 secs.count 1000000000).bind fun a =>
        (add 64 a secs.rest.nanoseconds).bind f) = f ns := by
    intro f
    rw [← Option.bind_assoc, hns, Option.bind_some]
  unfold spanFormatIso8601
  simp only [hz, hmag, hdays, hhours, hmins, hsecs, hd, hh, hm, hns', Option.bind_eq_bind,
    Option.bind_some]
  rw [if_neg (by decide)]
  generalize (if spanIsNegative s then ['-'] else [] : StrBuf) = b
  have h1 : (if d ≠ [] then b ++ ['P'] ++ d else b) = isoText b d [] := by
    unfold isoText
    by_cases hd0 : d = [] <;> simp [hd0]
  have h2 : (if h ≠ [] then isoTime (isoText b d []) (d ≠ []) false ++ h else isoText b d []) =
      isoText b d h := by
    by_cases hh0 : h = []
    · rw [if_neg (by simp [hh0]), hh0]
    · rw [if_pos hh0]
      exact isoText_push b d [] h hh0
  have h3 : (if m ≠ [] then isoTime (isoText b d h) (d ≠ []) (h ≠ []) ++ m else isoText b d h) =
      isoText b d (h ++ m) := by
    by_cases hm0 : m = []
    · rw [if_neg (by simp [hm0]), hm0, List.append_nil]
    · rw [if_pos hm0]
      exact isoText_push b d h m hm0
  rw [h1, h2, h3]
  by_cases hns0 : ns = 0
  · rw [if_neg (by simp [hns0]), if_pos hns0, List.append_nil]
  · have hpush := isoText_push b d (h ++ m) (sec ++ ['S']) (by simp)
    have hflag : decide (h ≠ [] ∨ m ≠ []) = decide (h ++ m ≠ []) := by
      by_cases hh0 : h = [] <;> simp [hh0]
    rw [if_pos hns0, if_neg hns0, hflag, hsec, Option.bind_some, ← hpush, List.append_assoc]

end Formatting

theorem spanFormat_zero : spanFormat (ofTotal 0) = some ['0', 's'] := rfl

theorem spanFormatIso8601_zero : spanFormatIso8601 (ofTotal 0) = some ['P', 'T', '0', 'S'] := rfl

/-- The seconds of the ISO form, nothing when they are zero. -/
def isoSeconds (secs nanos : Nat) : Str :=
  if secs = 0 ∧ nanos = 0 then [] else numeral secs (fracDigits nanos) ++ ['S']

def isoTimeParts (f : Fields) : Str :=
  countPart f.hours ['H'] ++ countPart f.mins ['M'] ++ isoSeconds f.secs f.nanos

theorem natAbs_lt_of_secFits {t : Int} (h : SecFits t) :
    t.natAbs < 9223372036854775808 * 1000000000 := by
  obtain ⟨h0, h1⟩ := h
  omega

theorem nanos_rest (n : Nat) : (ofTotal ((n % 1000000000 : Nat) : Int)).nanoseconds =
    ((fieldsOf n).nanos : Int) := by
  have hmod : ((n % 1000000000 : Nat) : Int) % 1000000000 = ((n % 1000000000 : Nat) : Int) := by
    omega
  rw [ofTotal_nanoseconds, hmod]
  rfl

/-- What is printed counts as zero seconds exactly when both parts are zero. -/
theorem secs_nanos_eq_zero_iff (secs nanos : Nat) :
    ((secs * 1000000000 + nanos : Nat) : Int) = 0 ↔ secs = 0 ∧ nanos = 0 := by
  omega

section

variable {t : Int} (ht : t ≠ 0) (h : SecFits t)
include ht h

theorem spanFormat_eq : spanFormat (ofTotal t) =
    some (signText t ++ spaced (shortParts (fieldsOf t.natAbs))) := by
  have hn := natAbs_lt_of_secFits h
  have hz : spanIsZero (ofTotal t) = false := by
    rw [spanIsZero_ofTotal, decide_eq_false ht]
  have hsub := subsecondText_eq (nanos_rest t.natAbs) (fieldsOf t.natAbs).secs_lt
    (fieldsOf t.natAbs).nanos_lt
  have hsign : (if spanIsNegative (ofTotal t) then ['-'] else []) = signText t := by
    rw [spanIsNegative_ofTotal, signText]
    by_cases hneg : t < 0 <;> simp [hneg]
  rw [spanFormat_of_steps hz (spanAbs_ofTotal h) (spanSplit_days hn) spanSplit_hours
    spanSplit_minutes spanSplit_seconds (countText_natCast _ _) (countText_natCast _ _)
    (countText_natCast _ _) hsub, hsign]
  rfl

theorem spanFormatIso8601_eq : spanFormatIso8601 (ofTotal t) =
    some (isoText (signText t) (countPart (fieldsOf t.natAbs).days ['D'])
      (isoTimeParts (fieldsOf t.natAbs))) := by
  have hn := natAbs_lt_of_secFits h
  have hz : spanIsZero (ofTotal t) = false := by
    rw [spanIsZero_ofTotal, decide_eq_false ht]
  have hsign : (if spanIsNegative (ofTotal t) then ['-'] else []) = signText t := by
    rw [spanIsNegative_ofTotal, signText]
    by_cases hneg : t < 0 <;> simp [hneg]
  have hs := (fieldsOf t.natAbs).secs_lt
  have hf := (fieldsOf t.natAbs).nanos_lt
  have hns := add_secs_nanos hs hf
  rw [← nanos_rest t.natAbs] at hns
  have hsec : ∀ b, spanSecondsOnto b
      (((fieldsOf t.natAbs).secs * 1000000000 + (fieldsOf t.natAbs).nanos : Nat) : Int) =
        some (b ++ numeral (fieldsOf t.natAbs).secs (fracDigits (fieldsOf t.natAbs).nanos)) :=
    fun b => spanSecondsOnto_eq b hf (by omega)
  rw [spanFormatIso8601_of_steps hz (spanAbs_ofTotal h) (spanSplit_days hn) spanSplit_hours
    spanSplit_minutes spanSplit_seconds hns (countText_natCast _ _) (countText_natCast _ _)
    (countText_natCast _ _) hsec, hsign, isoTimeParts, isoSeconds,
    if_congr (secs_nanos_eq_zero_iff _ _) rfl rfl]

end

end Duration

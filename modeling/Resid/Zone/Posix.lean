import Mathlib.Algebra.Order.Ring.Int
import Resid.Runtime.Text

/-!
# POSIX TZ strings

`name offset [name [offset] [,start,end]]`: a positive offset lies west of Greenwich, so every one
is negated.  A rule is `Mm.w.d`, `Jn` or `n`, with an optional time of day.

    posixParse s = some p → the offsets of p and the numbers of its rules are small
                                                                            (posixParse_small)
-/

namespace TimeZone

open Runtime

/-! ## Rules -/

/-- Kinds: 0 = Mm.w.d, 1 = Jn, 2 = n, 9 = invalid; `time` is the local time of day. -/
structure PosixRule where
  kind : Nat
  month : Int
  week : Int
  day : Int
  time : Int
  deriving DecidableEq

structure PosixTz where
  std : Str
  stdOff : Int
  dst : Str
  dstOff : Int
  hasDst : Bool
  hasRule : Bool
  startRule : PosixRule
  endRule : PosixRule
  deriving DecidableEq

/-! ## Names -/

def posixIsAlpha (c : Int) : Bool := decide (c ≥ 65 ∧ c ≤ 90) || decide (c ≥ 97 ∧ c ≤ 122)

def posixIsDigit (c : Int) : Bool := decide (c ≥ 48 ∧ c ≤ 57)

def posixLetters (s : Str) (i : Nat) (b : StrBuf) : StrBuf :=
  if i ≥ strLen s then b
  else if posixIsAlpha (strCharAt s i) = false then b
  else posixLetters s (i + 1) (pushChar b (strCharAt s i))
termination_by strLen s - i

/-- What stands from `i` on up to the closing `>`. -/
def posixQuoted (s : Str) (i : Nat) (b : StrBuf) : StrBuf :=
  if i ≥ strLen s then b
  else if strCharAt s i = 62 then b
  else posixQuoted s (i + 1) (pushChar b (strCharAt s i))
termination_by strLen s - i

/-- The name at `i`: letters, or what stands between angle brackets. -/
def posixNameAt (s : Str) (i : Nat) : Str :=
  if i ≥ strLen s then []
  else if strCharAt s i = 60 then finishText (posixQuoted s (i + 1) [])
  else finishText (posixLetters s i [])

def posixSkipQuoted (s : Str) (i : Nat) : Nat :=
  if i ≥ strLen s then strLen s
  else if strCharAt s i = 62 then i + 1
  else posixSkipQuoted s (i + 1)
termination_by strLen s - i

def posixAfterName (s : Str) (i : Nat) : Nat :=
  if i ≥ strLen s then i
  else if strCharAt s i = 60 then posixSkipQuoted s (i + 1)
  else if posixIsAlpha (strCharAt s i) = false then i
  else posixAfterName s (i + 1)
termination_by strLen s - i

/-! ## Numbers -/

def posixDigitsAt (s : Str) (i want got : Nat) (acc : Int) : Int :=
  if got ≥ want then acc
  else if i ≥ strLen s then if got = 0 then -1 else acc
  else
    let c := strCharAt s i
    if posixIsDigit c = false then if got = 0 then -1 else acc
    else posixDigitsAt s (i + 1) want (got + 1) (acc * 10 + (c - 48))
termination_by want - got

/-- The number in up to `want` digits from `i`, or -1 when there is no digit. -/
def posixDigits (s : Str) (i want : Nat) : Int := posixDigitsAt s i want 0 0

/-- The index `i` when a colon stands there. -/
def posixAtColon (s : Str) (i : Nat) : Option Nat :=
  if i ≥ strLen s then none else if strCharAt s i = 58 then some i else none

def posixSkipDigits (s : Str) (i : Nat) : Nat :=
  if i ≥ strLen s then i
  else if posixIsDigit (strCharAt s i) = false then i
  else posixSkipDigits s (i + 1)
termination_by strLen s - i

def posixSkipSign (s : Str) (i : Nat) : Nat :=
  if i ≥ strLen s then i
  else if strCharAt s i = 45 ∨ strCharAt s i = 43 then i + 1
  else i

/-- Two digits behind a colon, 0 where none stands. -/
def fieldAfter (s : Str) : Option Nat → Int
  | some j => posixDigits s (j + 1) 2
  | none => 0

/-- What `posixParseOffset` returns when there is no offset to read. -/
def posixNoOffset : Int := 0 - 1000000

/-- An offset `[+|-]hh[:mm[:ss]]` in seconds east of UTC. -/
def posixParseOffset (s : Str) (i : Nat) : Int :=
  if i ≥ strLen s then posixNoOffset
  else
    let c := strCharAt s i
    let neg := c = 45
    let start := if c = 45 ∨ c = 43 then i + 1 else i
    let hh := posixDigits s start 2
    if hh < 0 then posixNoOffset
    else
      let j := posixAtColon s (posixSkipDigits s start)
      let mm := fieldAfter s j
      if mm < 0 then posixNoOffset
      else
        let k := j.bind fun j => posixAtColon s (j + 3)
        let ss := fieldAfter s k
        if ss < 0 then posixNoOffset
        else
          let total := hh * 3600 + mm * 60 + ss
          let west := if neg then 0 - total else total
          0 - west

/-- The index past up to two fields behind colons. -/
def posixAfterFields (s : Str) (a : Nat) : Nat :=
  match posixAtColon s a with
  | none => a
  | some b =>
    let c := posixSkipDigits s (b + 1)
    match posixAtColon s c with
    | none => c
    | some d => posixSkipDigits s (d + 1)

def posixAfterOffset (s : Str) (i : Nat) : Nat :=
  posixAfterFields s (posixSkipDigits s (posixSkipSign s i))

/-! ## Rules, read -/

def posixIsRuleChar (c : Int) : Bool :=
  posixIsDigit c || decide (c = 46 ∨ c = 74 ∨ c = 106 ∨ c = 77 ∨ c = 109)

def posixAfterRule (s : Str) (i : Nat) : Nat :=
  if i ≥ strLen s then i
  else if posixIsRuleChar (strCharAt s i) = false then i
  else posixAfterRule s (i + 1)
termination_by strLen s - i

def posixBadRule : PosixRule := ⟨9, 0, 0, 0, 0⟩

/-- The index past the `M` of a rule. -/
def posixAfterDesignator (s : Str) (i : Nat) : Nat :=
  if i ≥ strLen s then i
  else if strCharAt s i = 77 ∨ strCharAt s i = 109 then i + 1
  else i

def posixRuleBodyEnd (s : Str) (i : Nat) : Nat := posixAfterRule s (posixAfterDesignator s i)

/-- The index past a time `/hh[:mm[:ss]]`. -/
def posixSkipTime (s : Str) (i : Nat) : Nat :=
  if i ≥ strLen s then i
  else if strCharAt s i ≠ 47 then i
  else posixAfterFields s (posixSkipDigits s (i + 1))

def posixRuleEnd (s : Str) (i : Nat) : Nat := posixSkipTime s (posixRuleBodyEnd s i)

def posixRuleJulian (s : Str) (i : Nat) : PosixRule :=
  let d := posixDigits s (i + 1) 3
  if d < 1 then posixBadRule else ⟨1, 0, 0, d, 7200⟩

def posixRuleN (s : Str) (i : Nat) : PosixRule :=
  let d := posixDigits s i 3
  if d < 0 then posixBadRule else ⟨2, 0, 0, d, 7200⟩

def posixSkipDots (s : Str) (i : Nat) : Nat :=
  if i ≥ strLen s then i else if strCharAt s i = 46 then i + 1 else i

/-- `Mm.w.d`, or a bare `n`. -/
def posixRuleMwd (s : Str) (i : Nat) : PosixRule :=
  let m := posixDigits s i 2
  let j := posixSkipDots s (posixSkipDigits s i)
  let w := posixDigits s j 1
  let k := posixSkipDots s (posixSkipDigits s j)
  let d := posixDigits s k 1
  if m < 1 ∨ w < 1 then posixRuleN s i
  else if m > 12 ∨ w > 5 ∨ d > 6 then posixBadRule
  else ⟨0, m, w, d, 7200⟩

/-- The rule with the time of day that stands at `i`, when one does. -/
def posixRuleTime (s : Str) (i : Nat) (r : PosixRule) : PosixRule :=
  if i ≥ strLen s then r
  else if strCharAt s i ≠ 47 then r
  else
    let hh := posixDigits s (i + 1) 2
    if hh < 0 then r
    else
      let j := posixAtColon s (posixSkipDigits s (i + 1))
      let mm := fieldAfter s j
      if mm < 0 then r
      else
        let k := j.bind fun j => posixAtColon s (j + 3)
        let ss := fieldAfter s k
        if ss < 0 then r
        else ⟨r.kind, r.month, r.week, r.day, hh * 3600 + mm * 60 + ss⟩

def posixRuleAt (s : Str) (i : Nat) : PosixRule :=
  if i ≥ strLen s then posixBadRule
  else
    let c := strCharAt s i
    let r := if c = 74 ∨ c = 106 then posixRuleJulian s i
      else posixRuleMwd s (posixAfterDesignator s i)
    posixRuleTime s (posixRuleBodyEnd s i) r

/-! ## The whole string -/

def posixTz (std : Str) (stdOff : Int) (dst : Str) (dstOff : Int) (hasDst : Bool)
    (a b : PosixRule) : PosixTz :=
  ⟨std, stdOff, dst, dstOff, hasDst, decide (a.kind ≠ 9 ∧ b.kind ≠ 9), a, b⟩

def posixParseRules (s : Str) (i : Nat) (stdOff dstOff : Int) (std dst : Str) : Option PosixTz :=
  let n := strLen s
  if i ≥ n then some (posixTz std stdOff dst dstOff true posixBadRule posixBadRule)
  else if strCharAt s i ≠ 44 then
    some (posixTz std stdOff dst dstOff true posixBadRule posixBadRule)
  else
    let a := posixRuleAt s (i + 1)
    if a.kind = 9 then none
    else
      let j := posixRuleEnd s (i + 1)
      if j ≥ n then none
      else if strCharAt s j ≠ 44 then none
      else
        let b := posixRuleAt s (j + 1)
        if b.kind = 9 then none
        else if posixRuleEnd s (j + 1) < n then none
        else some (posixTz std stdOff dst dstOff true a b)

def posixParseDst (s : Str) (i : Nat) (stdOff : Int) (std : Str) : Option PosixTz :=
  if i ≥ strLen s then some (posixTz std stdOff [] 0 false posixBadRule posixBadRule)
  else
    let c := strCharAt s i
    if c = 44 then posixParseRules s i stdOff (stdOff + 3600) std []
    else if posixIsAlpha c = false ∧ c ≠ 60 then none
    else
      let dst := posixNameAt s i
      if strLen dst < 3 then none
      else
        let k := posixAfterName s i
        let probe := posixParseOffset s k
        let have_ := probe ≠ posixNoOffset
        let dstOff := if have_ then probe else stdOff + 3600
        let after := if have_ then posixAfterOffset s k else k
        posixParseRules s after stdOff dstOff std dst

def posixParse (s : Str) : Option PosixTz :=
  if strLen s = 0 then none
  else
    let std := posixNameAt s 0
    if strLen std < 3 then none
    else
      let j := posixAfterName s 0
      let off := posixParseOffset s j
      if off = posixNoOffset then none
      else posixParseDst s (posixAfterOffset s j) off std

/-! ## What a parsed string holds -/

/-- A rule whose numbers are as small as a string can spell them; the weekday may be missing. -/
structure PosixRule.Small (r : PosixRule) : Prop where
  kind : r.kind = 0 ∨ r.kind = 1 ∨ r.kind = 2 ∨ r.kind = 9
  month : r.kind = 0 → 1 ≤ r.month ∧ r.month ≤ 12
  week : r.kind = 0 → 1 ≤ r.week ∧ r.week ≤ 5
  day : -1 ≤ r.day ∧ r.day < 1000
  time : 0 ≤ r.time ∧ r.time < 1000000

structure PosixTz.Small (p : PosixTz) : Prop where
  std : p.std ≠ []
  stdOff : -400000 < p.stdOff ∧ p.stdOff < 400000
  dstOff : -500000 < p.dstOff ∧ p.dstOff < 500000
  startRule : p.startRule.Small
  endRule : p.endRule.Small

theorem posixDigitsAt_bounds {s : Str} {i want got : Nat} {acc : Int}
    (hacc : 0 ≤ acc ∧ acc < 10 ^ got) (hgot : got ≤ want) :
    -1 ≤ posixDigitsAt s i want got acc ∧ posixDigitsAt s i want got acc < 10 ^ want := by
  have hpow : (10 : Int) ^ got ≤ 10 ^ want := pow_le_pow_right₀ (by decide) hgot
  induction hn : want - got generalizing i got acc with
  | zero =>
    rw [posixDigitsAt, if_pos (by omega)]
    omega
  | succ n ih =>
    rw [posixDigitsAt, if_neg (by omega)]
    have hstop : -1 ≤ (if got = 0 then -1 else acc) ∧ (if got = 0 then -1 else acc) < 10 ^ want := by
      split_ifs <;> omega
    by_cases hend : i ≥ strLen s
    · rw [if_pos hend]
      exact hstop
    rw [if_neg hend]
    by_cases hdigit : posixIsDigit (strCharAt s i) = false
    · rw [if_pos hdigit]
      exact hstop
    rw [if_neg hdigit]
    have hc : strCharAt s i ≥ 48 ∧ strCharAt s i ≤ 57 :=
      of_decide_eq_true (Bool.eq_true_of_not_eq_false hdigit)
    have hstep : (10 : Int) ^ (got + 1) ≤ 10 ^ want := pow_le_pow_right₀ (by decide) (by omega)
    exact ih ⟨by omega, by omega⟩ (by omega) hstep (by omega)

theorem posixDigits_bounds (s : Str) (i want : Nat) :
    -1 ≤ posixDigits s i want ∧ posixDigits s i want < 10 ^ want :=
  posixDigitsAt_bounds ⟨le_refl 0, by decide⟩ (Nat.zero_le want)

theorem fieldAfter_bounds (s : Str) (o : Option Nat) : -1 ≤ fieldAfter s o ∧ fieldAfter s o < 100 := by
  cases o with
  | none =>
    show (-1 : Int) ≤ 0 ∧ (0 : Int) < 100
    omega
  | some j => exact posixDigits_bounds s (j + 1) 2

theorem posixParseOffset_bounds {s : Str} {i : Nat} (h : posixParseOffset s i ≠ posixNoOffset) :
    -400000 < posixParseOffset s i ∧ posixParseOffset s i < 400000 := by
  unfold posixParseOffset at h ⊢
  simp only at h ⊢
  by_cases hend : i ≥ strLen s
  · rw [if_pos hend] at h
    exact absurd rfl h
  generalize (if strCharAt s i = 45 ∨ strCharAt s i = 43 then i + 1 else i) = start at h ⊢
  have hh := posixDigits_bounds s start 2
  have hm := fieldAfter_bounds s (posixAtColon s (posixSkipDigits s start))
  have hs := fieldAfter_bounds s
    ((posixAtColon s (posixSkipDigits s start)).bind fun j => posixAtColon s (j + 3))
  split_ifs at h ⊢
  · exact absurd rfl h
  · exact absurd rfl h
  · exact absurd rfl h
  · omega
  · omega

theorem posixBadRule_small : posixBadRule.Small :=
  ⟨by decide, by decide, by decide, by decide, by decide⟩

/-- A rule that counts days. -/
theorem PosixRule.small_of_day {k : Nat} {d : Int} (hk : k = 1 ∨ k = 2) (hd : -1 ≤ d ∧ d < 1000) :
    PosixRule.Small ⟨k, 0, 0, d, 7200⟩ := by
  have hk0 : k ≠ 0 := by omega
  refine ⟨?_, fun h => absurd h hk0, fun h => absurd h hk0, hd, ?_⟩
  · show k = 0 ∨ k = 1 ∨ k = 2 ∨ k = 9
    omega
  · show (0 : Int) ≤ 7200 ∧ (7200 : Int) < 1000000
    omega

theorem posixRuleN_small (s : Str) (i : Nat) : (posixRuleN s i).Small := by
  have hd := posixDigits_bounds s i 3
  unfold posixRuleN
  simp only
  split_ifs
  · exact posixBadRule_small
  · exact PosixRule.small_of_day (Or.inr rfl) hd

theorem posixRuleJulian_small (s : Str) (i : Nat) : (posixRuleJulian s i).Small := by
  have hd := posixDigits_bounds s (i + 1) 3
  unfold posixRuleJulian
  simp only
  split_ifs
  · exact posixBadRule_small
  · exact PosixRule.small_of_day (Or.inl rfl) hd

theorem posixRuleMwd_small (s : Str) (i : Nat) : (posixRuleMwd s i).Small := by
  unfold posixRuleMwd
  simp only
  generalize posixDigits s i 2 = m
  generalize posixSkipDots s (posixSkipDigits s i) = j
  generalize posixDigits s j 1 = w
  generalize posixSkipDots s (posixSkipDigits s j) = k
  have hd := posixDigits_bounds s k 1
  split_ifs with hn hbad
  · exact posixRuleN_small s i
  · exact posixBadRule_small
  · refine ⟨Or.inl rfl, ?_, ?_, ?_, ?_⟩
    · show 0 = 0 → 1 ≤ m ∧ m ≤ 12
      omega
    · show 0 = 0 → 1 ≤ w ∧ w ≤ 5
      omega
    · show -1 ≤ posixDigits s k 1 ∧ posixDigits s k 1 < 1000
      omega
    · show (0 : Int) ≤ 7200 ∧ (7200 : Int) < 1000000
      omega

theorem posixRuleTime_small {s : Str} {i : Nat} {r : PosixRule} (h : r.Small) :
    (posixRuleTime s i r).Small := by
  unfold posixRuleTime
  simp only
  have hh := posixDigits_bounds s (i + 1) 2
  have hm := fieldAfter_bounds s (posixAtColon s (posixSkipDigits s (i + 1)))
  have hs := fieldAfter_bounds s
    ((posixAtColon s (posixSkipDigits s (i + 1))).bind fun j => posixAtColon s (j + 3))
  split_ifs
  · exact h
  · exact h
  · exact h
  · exact h
  · exact h
  · exact ⟨h.kind, h.month, h.week, h.day, by simp only; omega⟩

theorem posixRuleAt_small (s : Str) (i : Nat) : (posixRuleAt s i).Small := by
  unfold posixRuleAt
  by_cases hend : i ≥ strLen s
  · rw [if_pos hend]
    exact posixBadRule_small
  rw [if_neg hend]
  apply posixRuleTime_small
  split_ifs
  · exact posixRuleJulian_small s i
  · exact posixRuleMwd_small s _

/-- The offsets and the rules that a whole string is put together from. -/
theorem posixParseRules_small {s : Str} {i : Nat} {stdOff dstOff : Int} {std dst : Str} {p : PosixTz}
    (hname : std ≠ []) (hstd : -400000 < stdOff ∧ stdOff < 400000)
    (hdst : -500000 < dstOff ∧ dstOff < 500000)
    (h : posixParseRules s i stdOff dstOff std dst = some p) : p.Small := by
  unfold posixParseRules at h
  simp only at h
  split_ifs at h
  · cases h
    exact ⟨hname, hstd, hdst, posixBadRule_small, posixBadRule_small⟩
  · cases h
    exact ⟨hname, hstd, hdst, posixBadRule_small, posixBadRule_small⟩
  · cases h
    exact ⟨hname, hstd, hdst, posixRuleAt_small s _, posixRuleAt_small s _⟩

theorem posixParse_small {s : Str} {p : PosixTz} (h : posixParse s = some p) : p.Small := by
  unfold posixParse at h
  by_cases hn : strLen s = 0
  · rw [if_pos hn] at h
    cases h
  by_cases hshort : strLen (posixNameAt s 0) < 3
  · rw [if_neg hn, if_pos hshort] at h
    cases h
  by_cases hoff : posixParseOffset s (posixAfterName s 0) = posixNoOffset
  · rw [if_neg hn, if_neg hshort, if_pos hoff] at h
    cases h
  have hstd := posixParseOffset_bounds hoff
  have hname : posixNameAt s 0 ≠ [] := by
    intro hnil
    rw [hnil] at hshort
    exact hshort (by decide)
  unfold posixParseDst at h
  simp only at h
  split_ifs at h with h1 h2 h3 h4 h5
  · cases h
    exact ⟨hname, hstd, ⟨by simp [posixTz], by simp [posixTz]⟩, posixBadRule_small,
      posixBadRule_small⟩
  · exact posixParseRules_small hname hstd (by omega) h
  · have hd := posixParseOffset_bounds h5
    exact posixParseRules_small hname hstd (by omega) h
  · exact posixParseRules_small hname hstd (by omega) h

end TimeZone

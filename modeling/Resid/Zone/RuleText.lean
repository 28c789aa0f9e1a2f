import Resid.Lib.Scan
import Resid.Zone.Switches

/-!
# The rules of a TZ string

What follows the names and offsets is `,start,end`.  Each is `Mm.w.d`, `Jn` or `n`, with an optional
time of day `/hh[:mm[:ss]]`.

    RuleText t a → t stands at i → posixRuleAt s i = a.record                  (posixRuleAt_text)
    posixParse s = some p → (every instant told by the rules ↔ no daylight time, or rules so written)
                                                                        (posix_rules_iff)

## Algorithm

The parser reads numbers of fixed widths, then skips what can belong to a rule; text of other shapes
is read as some rule or other, and a missing pair of rules as a switch at second 0 of the epoch.
-/

namespace TimeZone

open Runtime

/-! ## Texts -/

def isDigitChar (c : Char) : Bool := posixIsDigit c.toNat

def isRuleChar (c : Char) : Bool := posixIsRuleChar c.toNat

/-- The number so far, with one more digit. -/
def digitStep (n : Int) (c : Char) : Int := n * 10 + (c.toNat - 48)

/-- `ds` are the digits of `v`. -/
structure Numeral (ds : Str) (v : Int) : Prop where
  ne : ds ≠ []
  digits : ∀ c ∈ ds, isDigitChar c = true
  value : ds.foldl digitStep 0 = v

inductive DateText : Str → RuleDate → Prop
  | monthly {c : Char} {m w d : Str} {vm vw vd : Int} (hc : c = 'M' ∨ c = 'm')
      (hm : Numeral m vm) (hml : m.length ≤ 2) (hw : Numeral w vw) (hwl : w.length = 1)
      (hd : Numeral d vd) (hdl : d.length = 1) (hproper : (RuleDate.monthly vm vw vd).Proper) :
      DateText (c :: (m ++ '.' :: (w ++ '.' :: d))) (.monthly vm vw vd)
  | julian {c : Char} {n : Str} {v : Int} (hc : c = 'J' ∨ c = 'j') (hn : Numeral n v)
      (hnl : n.length ≤ 3) (hv : 1 ≤ v) : DateText (c :: n) (.julian v)
  | day {n : Str} {v : Int} (hn : Numeral n v) (hnl : n.length ≤ 3) : DateText n (.day v)

/-- A time of day in seconds, 02:00 when there is none. -/
inductive TimeText : Str → Int → Prop
  | default : TimeText [] 7200
  | hours {h : Str} {vh : Int} (hh : Numeral h vh) (hhl : h.length ≤ 2) :
      TimeText ('/' :: h) (vh * 3600)
  | minutes {h m : Str} {vh vm : Int} (hh : Numeral h vh) (hhl : h.length ≤ 2) (hm : Numeral m vm)
      (hml : m.length = 2) : TimeText ('/' :: (h ++ ':' :: m)) (vh * 3600 + vm * 60)
  | seconds {h m n : Str} {vh vm vn : Int} (hh : Numeral h vh) (hhl : h.length ≤ 2)
      (hm : Numeral m vm) (hml : m.length = 2) (hn : Numeral n vn) (hnl : n.length = 2) :
      TimeText ('/' :: (h ++ ':' :: (m ++ ':' :: n))) (vh * 3600 + vm * 60 + vn)

def RuleText (t : Str) (a : Rule) : Prop := ∃ d e, t = d ++ e ∧ DateText d a.date ∧ TimeText e a.time

/-- Where the names and offsets of a string end, as the parser finds it. -/
def posixNamesEnd (s : Str) : Nat :=
  let i := posixAfterOffset s (posixAfterName s 0)
  if strCharAt s i = 44 then i
  else
    let k := posixAfterName s i
    if posixParseOffset s k ≠ posixNoOffset then posixAfterOffset s k else k

/-- The two rules that a string is written with. -/
def RulesText (s : Str) (a c : Rule) : Prop :=
  ∃ t u, s.drop (posixNamesEnd s) = ',' :: (t ++ ',' :: u) ∧ RuleText t a ∧ RuleText u c

/-- What may follow a rule: the comma before the next one, or the end. -/
def Ends (r : Str) : Prop := r = [] ∨ ∃ r', r = ',' :: r'

/-! ## Numbers -/

variable {ds r s t : Str} {v : Int} {i want : Nat} {c : Char}

theorem Numeral.nonneg (h : Numeral ds v) : 0 ≤ v := by
  have hstep : ∀ (l : Str) (n : Int), (∀ c ∈ l, isDigitChar c = true) → 0 ≤ n →
      0 ≤ l.foldl digitStep n := by
    intro l
    induction l with
    | nil =>
      intro n _ hn
      exact hn
    | cons c l ih =>
      intro n hl hn
      have hc : (c.toNat : Int) ≥ 48 ∧ (c.toNat : Int) ≤ 57 :=
        of_decide_eq_true (hl c List.mem_cons_self)
      refine ih _ (fun c' hc' => hl c' (List.mem_cons_of_mem c hc')) ?_
      unfold digitStep
      omega
  rw [← h.value]
  exact hstep ds 0 h.digits le_rfl

theorem posixDigitsAt_run {got : Nat} {acc : Int} (h : s.drop i = ds ++ r)
    (hds : ∀ c ∈ ds, isDigitChar c = true) (hlen : got + ds.length ≤ want)
    (hstop : got + ds.length = want ∨ Scan.Stops isDigitChar r) (hpos : 0 < got + ds.length) :
    posixDigitsAt s i want got acc = ds.foldl digitStep acc := by
  induction ds generalizing i got acc with
  | nil =>
    rw [List.length_nil, Nat.add_zero] at hstop hpos
    rw [List.nil_append] at h
    rw [posixDigitsAt, List.foldl_nil]
    by_cases hfull : got ≥ want
    · rw [if_pos hfull]
    rw [if_neg hfull]
    have hr : Scan.Stops isDigitChar r := by
      rcases hstop with hwant | hr
      · omega
      · exact hr
    cases r with
    | nil => rw [if_pos (strLen_le_of_drop h), if_neg (by omega)]
    | cons c r =>
      have hlt := lt_of_drop h
      have hc : posixIsDigit (c.toNat : Int) = false := hr c r rfl
      rw [if_neg (by omega), strCharAt_of_drop h]
      simp only
      rw [if_pos hc, if_neg (by omega)]
  | cons c ds ih =>
    rw [List.length_cons] at hlen hstop
    rw [List.cons_append] at h
    have hlt := lt_of_drop h
    have hc : posixIsDigit (c.toNat : Int) = true := hds c List.mem_cons_self
    rw [posixDigitsAt, if_neg (by omega), if_neg (by omega), strCharAt_of_drop h]
    simp only
    rw [hc, if_neg (by decide), List.foldl_cons]
    refine ih (drop_succ_of_drop h) (fun c' hc' => hds c' (List.mem_cons_of_mem c hc')) (by omega)
      ?_ (by omega)
    rcases hstop with hwant | hr
    · left
      omega
    · exact Or.inr hr

/-- A number of as many digits as are wanted, or that something else follows. -/
theorem posixDigits_numeral (h : s.drop i = ds ++ r) (hv : Numeral ds v) (hlen : ds.length ≤ want)
    (hstop : ds.length = want ∨ Scan.Stops isDigitChar r) : posixDigits s i want = v := by
  have hpos := List.length_pos_iff.2 hv.ne
  rw [← hv.value]
  refine posixDigitsAt_run h hv.digits (by omega) ?_ (by omega)
  rcases hstop with hwant | hr
  · left
    omega
  · exact Or.inr hr

theorem posixDigits_none (h : s.drop i = r) (hr : Scan.Stops isDigitChar r) (hwant : 0 < want) :
    posixDigits s i want = -1 := by
  rw [posixDigits, posixDigitsAt, if_neg (by omega)]
  cases r with
  | nil => rw [if_pos (strLen_le_of_drop h), if_pos rfl]
  | cons c r =>
    have hlt := lt_of_drop h
    have hc : posixIsDigit (c.toNat : Int) = false := hr c r rfl
    rw [if_neg (by omega), strCharAt_of_drop h]
    simp only
    rw [if_pos hc]
    rfl

theorem lt_of_getElem? (h : s[i]? = some c) : i < strLen s :=
  (List.getElem?_eq_some_iff.1 h).1

theorem strCharAt_of_getElem? (h : s[i]? = some c) : strCharAt s i = c.toNat := by
  unfold strCharAt
  rw [h]

/-- A loop over the characters that satisfy `p`. -/
theorem eq_skipWhile_char {p : Int → Bool} (f : Nat → Nat)
    (hf : ∀ i, f i = if i ≥ strLen s then i else if p (strCharAt s i) = false then i else f (i + 1))
    (i : Nat) : f i = Scan.skipWhile (fun c => p c.toNat) s i := by
  refine Scan.eq_skipWhile f ?_ ?_ i
  · intro i c hget hc
    have hlt := lt_of_getElem? hget
    rw [hf i, if_neg (by omega), strCharAt_of_getElem? hget, hc, if_neg (by decide)]
  · intro i hstop
    rw [hf i]
    by_cases hlt : i < strLen s
    · obtain ⟨c, hget⟩ : ∃ c, s[i]? = some c := ⟨_, List.getElem?_eq_getElem hlt⟩
      rw [if_neg (by omega), strCharAt_of_getElem? hget, hstop c hget, if_pos rfl]
    · rw [if_pos (by omega)]

theorem posixSkipDigits_eq (s : Str) (i : Nat) :
    posixSkipDigits s i = Scan.skipWhile isDigitChar s i :=
  eq_skipWhile_char (posixSkipDigits s) (fun i => by rw [posixSkipDigits]) i

theorem posixAfterRule_eq (s : Str) (i : Nat) :
    posixAfterRule s i = Scan.skipWhile isRuleChar s i :=
  eq_skipWhile_char (posixAfterRule s) (fun i => by rw [posixAfterRule]) i

theorem posixSkipDigits_numeral (h : s.drop i = ds ++ r) (hv : Numeral ds v)
    (hr : Scan.Stops isDigitChar r) : posixSkipDigits s i = i + ds.length := by
  rw [posixSkipDigits_eq]
  exact Scan.skipWhile_eq h hv.digits hr

/-! ## Times of day -/

theorem posixAtColon_of_drop (h : s.drop i = ':' :: r) : posixAtColon s i = some i := by
  have hlt := lt_of_drop h
  rw [posixAtColon, if_neg (by omega), strCharAt_of_drop h, if_pos (by decide)]

theorem posixAtColon_ends (h : s.drop i = r) (hr : Ends r) : posixAtColon s i = none := by
  rcases hr with rfl | ⟨r', rfl⟩
  · rw [posixAtColon, if_pos (strLen_le_of_drop h)]
  · have hlt := lt_of_drop h
    rw [posixAtColon, if_neg (by omega), strCharAt_of_drop h, if_neg (by decide)]

theorem Ends.stops (h : Ends r) {p : Char → Bool} (hp : p ',' = false) : Scan.Stops p r := by
  rcases h with rfl | ⟨r', rfl⟩
  · exact Scan.Stops.nil
  · exact Scan.Stops.cons hp

/-- The digits at `i` and what follows them. -/
theorem numeral_at (h : s.drop i = ds ++ r) (hv : Numeral ds v) (hlen : ds.length ≤ want)
    (hr : Scan.Stops isDigitChar r) :
    posixDigits s i want = v ∧ posixSkipDigits s i = i + ds.length ∧ s.drop (i + ds.length) = r :=
  ⟨posixDigits_numeral h hv hlen (Or.inr hr), posixSkipDigits_numeral h hv hr,
    drop_add_of_drop h⟩

/-- A time of day that is written out. -/
theorem posixRuleTime_text {e : Str} (h : s.drop i = e ++ r) (he : TimeText e v) (hr : Ends r)
    (q : PosixRule) (hq : q.time = 7200) :
    posixRuleTime s i q = ⟨q.kind, q.month, q.week, q.day, v⟩ ∧ posixSkipTime s i = i + e.length := by
  have hdigit : Scan.Stops isDigitChar r := hr.stops (by decide)
  cases he with
  | default =>
    rw [List.nil_append] at h
    have hself : q = ⟨q.kind, q.month, q.week, q.day, 7200⟩ := by
      rw [← hq]
    rcases hr with rfl | ⟨r', rfl⟩
    · have hend := strLen_le_of_drop h
      exact ⟨(if_pos hend).trans hself, if_pos hend⟩
    · have hlt := not_le.2 (lt_of_drop h)
      have hcomma : strCharAt s i ≠ 47 := by
        rw [strCharAt_of_drop h]
        decide
      exact ⟨((if_neg hlt).trans (if_pos hcomma)).trans hself, (if_neg hlt).trans (if_pos hcomma)⟩
  | @hours ds vh hh hhl =>
    have hlt := not_le.2 (lt_of_drop h)
    have hslash : ¬strCharAt s i ≠ 47 := not_not.2 (strCharAt_of_drop h)
    obtain ⟨hval, hskip, hrest⟩ := numeral_at (drop_succ_of_drop h) hh hhl hdigit
    have hcolon := posixAtColon_ends hrest hr
    have hnonneg := hh.nonneg
    refine ⟨?_, ?_⟩
    · simp only [posixRuleTime, if_neg hlt, if_neg hslash, hval, hskip, hcolon, fieldAfter,
        Option.bind_none, lt_irrefl, if_false, if_neg (not_lt.2 hnonneg)]
      congr 1
      omega
    · simp only [posixSkipTime, posixAfterFields, if_neg hlt, if_neg hslash, hskip, hcolon,
        List.length_cons]
      omega
  | @minutes ds ms vh vm hh hhl hm hml =>
    have hlt := not_le.2 (lt_of_drop h)
    have hslash : ¬strCharAt s i ≠ 47 := not_not.2 (strCharAt_of_drop h)
    have hd1 : s.drop (i + 1) = ds ++ ':' :: (ms ++ r) := by
      rw [drop_succ_of_drop h]
      simp
    obtain ⟨hval, hskip, hrest⟩ := numeral_at hd1 hh hhl (Scan.Stops.cons (by decide))
    have hcolon := posixAtColon_of_drop hrest
    obtain ⟨hval2, hskip2, hrest2⟩ := numeral_at (drop_succ_of_drop hrest) hm hml.le hdigit
    have hcolon2 := posixAtColon_ends hrest2 hr
    rw [hml] at hcolon2 hskip2
    have hcolon3 : posixAtColon s (i + 1 + ds.length + 3) = none := hcolon2
    refine ⟨?_, ?_⟩
    · simp only [posixRuleTime, if_neg hlt, if_neg hslash, hval, hskip, hcolon, fieldAfter,
        Option.bind_some, hval2, hcolon3, lt_irrefl, if_false, if_neg (not_lt.2 hh.nonneg),
        if_neg (not_lt.2 hm.nonneg)]
      congr 1
      omega
    · simp only [posixSkipTime, posixAfterFields, if_neg hlt, if_neg hslash, hskip, hcolon, hskip2,
        hcolon2, List.length_cons, List.length_append]
      omega
  | @seconds ds ms ns vh vm vn hh hhl hm hml hn hnl =>
    have hlt := not_le.2 (lt_of_drop h)
    have hslash : ¬strCharAt s i ≠ 47 := not_not.2 (strCharAt_of_drop h)
    have hd1 : s.drop (i + 1) = ds ++ ':' :: (ms ++ ':' :: (ns ++ r)) := by
      rw [drop_succ_of_drop h]
      simp
    obtain ⟨hval, hskip, hrest⟩ := numeral_at hd1 hh hhl (Scan.Stops.cons (by decide))
    have hcolon := posixAtColon_of_drop hrest
    obtain ⟨hval2, hskip2, hrest2⟩ := numeral_at (drop_succ_of_drop hrest) hm hml.le
      (Scan.Stops.cons (by decide))
    have hcolon2 := posixAtColon_of_drop hrest2
    obtain ⟨hval3, hskip3, -⟩ := numeral_at (drop_succ_of_drop hrest2) hn hnl.le hdigit
    rw [hml] at hcolon2 hskip2 hval3 hskip3
    have hcolon3 : posixAtColon s (i + 1 + ds.length + 3) = some (i + 1 + ds.length + 1 + 2) :=
      hcolon2
    refine ⟨?_, ?_⟩
    · simp only [posixRuleTime, if_neg hlt, if_neg hslash, hval, hskip, hcolon, fieldAfter,
        Option.bind_some, hval2, hcolon3, hval3, if_neg (not_lt.2 hh.nonneg),
        if_neg (not_lt.2 hm.nonneg), if_neg (not_lt.2 hn.nonneg)]
    · simp only [posixSkipTime, posixAfterFields, if_neg hlt, if_neg hslash, hskip, hcolon, hskip2,
        hcolon2, hskip3, List.length_cons, List.length_append]
      omega

/-! ## Dates -/

theorem isRuleChar_of_digit (h : isDigitChar c = true) : isRuleChar c = true := by
  unfold isRuleChar posixIsRuleChar
  rw [show posixIsDigit (c.toNat : Int) = true from h, Bool.true_or]

theorem Numeral.ruleChars (h : Numeral ds v) : ∀ c ∈ ds, isRuleChar c = true :=
  fun c hc => isRuleChar_of_digit (h.digits c hc)

theorem stops_digit_of_rule (h : Scan.Stops isRuleChar r) : Scan.Stops isDigitChar r := by
  intro c t ht
  have hc := h c t ht
  by_contra hd
  rw [isRuleChar_of_digit (Bool.eq_true_of_not_eq_false hd)] at hc
  cases hc

theorem posixSkipDots_of_drop (h : s.drop i = '.' :: r) : posixSkipDots s i = i + 1 := by
  have hlt := not_le.2 (lt_of_drop h)
  rw [posixSkipDots, if_neg hlt, strCharAt_of_drop h, if_pos (by decide)]

theorem posixSkipDots_stops (h : s.drop i = r) (hr : Scan.Stops isRuleChar r) :
    posixSkipDots s i = i := by
  rw [posixSkipDots]
  cases r with
  | nil => rw [if_pos (strLen_le_of_drop h)]
  | cons c r =>
    have hlt := not_le.2 (lt_of_drop h)
    rw [if_neg hlt, strCharAt_of_drop h, if_neg]
    intro hdot
    have hc : posixIsRuleChar (c.toNat : Int) = false := hr c r rfl
    rw [hdot] at hc
    exact absurd hc (by decide)

/-- The rule that the date at `i` gives, with the time it has by default. -/
def posixDateAt (s : Str) (i : Nat) : PosixRule :=
  if strCharAt s i = 74 ∨ strCharAt s i = 106 then posixRuleJulian s i
  else posixRuleMwd s (posixAfterDesignator s i)

theorem posixRuleAt_eq (h : i < strLen s) :
    posixRuleAt s i = posixRuleTime s (posixRuleBodyEnd s i) (posixDateAt s i) := by
  unfold posixRuleAt
  rw [if_neg (not_le.2 h)]
  rfl

/-- `Mm.w.d` behind the letter. -/
theorem posixRuleMwd_text {m w d : Str} {vm vw vd : Int}
    (h : s.drop i = m ++ '.' :: (w ++ '.' :: (d ++ r))) (hm : Numeral m vm) (hml : m.length ≤ 2)
    (hw : Numeral w vw) (hwl : w.length = 1) (hd : Numeral d vd) (hdl : d.length = 1)
    (hproper : (RuleDate.monthly vm vw vd).Proper) (hr : Scan.Stops isRuleChar r) :
    posixRuleMwd s i = ⟨0, vm, vw, vd, 7200⟩ := by
  obtain ⟨hmonth, hweek, hday⟩ := hproper
  obtain ⟨hval, hskip, hrest⟩ := numeral_at h hm hml (Scan.Stops.cons (by decide))
  have hdot := posixSkipDots_of_drop hrest
  obtain ⟨hval2, hskip2, hrest2⟩ := numeral_at (drop_succ_of_drop hrest) hw hwl.le
    (Scan.Stops.cons (by decide))
  have hdot2 := posixSkipDots_of_drop hrest2
  obtain ⟨hval3, -, -⟩ := numeral_at (drop_succ_of_drop hrest2) hd hdl.le (stops_digit_of_rule hr)
  unfold posixRuleMwd
  simp only [hval, hskip, hdot, hval2, hskip2, hdot2, hval3]
  rw [if_neg (by omega), if_neg (by omega)]

/-- A bare day of the year has no week. -/
theorem posixRuleMwd_day {n : Str} (h : s.drop i = n ++ r) (hn : Numeral n v) (hnl : n.length ≤ 3)
    (hr : Scan.Stops isRuleChar r) : posixRuleMwd s i = ⟨2, 0, 0, v, 7200⟩ := by
  obtain ⟨hval, hskip, hrest⟩ := numeral_at h hn hnl (stops_digit_of_rule hr)
  have hdots := posixSkipDots_stops hrest hr
  have hweek : posixDigits s (i + n.length) 1 = -1 :=
    posixDigits_none hrest (stops_digit_of_rule hr) (by decide)
  have hnonneg := hn.nonneg
  unfold posixRuleMwd
  simp only [hskip, hdots, hweek]
  rw [if_pos (by omega), posixRuleN, hval]
  exact if_neg (by omega)

theorem posixDateAt_text {q : RuleDate} (h : s.drop i = t ++ r) (ht : DateText t q)
    (hr : Scan.Stops isRuleChar r) :
    posixDateAt s i = (Rule.mk q 7200).record ∧ posixRuleBodyEnd s i = i + t.length ∧
      i < strLen s ∧ q.Proper := by
  unfold posixDateAt posixRuleBodyEnd posixAfterDesignator
  rw [posixAfterRule_eq]
  cases ht with
  | @monthly c m w d vm vw vd hc hm hml hw hwl hd hdl hproper =>
    have hlt := lt_of_drop h
    have htail : s.drop (i + 1) = m ++ '.' :: (w ++ '.' :: (d ++ r)) := by
      rw [drop_succ_of_drop h]
      simp
    have hletter : strCharAt s i = 77 ∨ strCharAt s i = 109 := by
      rw [strCharAt_of_drop h]
      rcases hc with rfl | rfl
      · exact Or.inl rfl
      · exact Or.inr rfl
    have hrule : ∀ c ∈ m ++ '.' :: (w ++ '.' :: d), isRuleChar c = true := by
      intro c hc
      simp only [List.mem_append, List.mem_cons] at hc
      rcases hc with hc | rfl | hc | rfl | hc
      · exact hm.ruleChars c hc
      · decide
      · exact hw.ruleChars c hc
      · decide
      · exact hd.ruleChars c hc
    rw [if_neg (not_le.2 hlt), if_pos hletter, if_neg (by omega)]
    refine ⟨posixRuleMwd_text htail hm hml hw hwl hd hdl hproper hr, ?_, hlt, hproper⟩
    rw [Scan.skipWhile_eq (drop_succ_of_drop h) hrule hr, List.length_cons]
    omega
  | @julian c n v hc hn hnl hv =>
    have hlt := lt_of_drop h
    have hletter : strCharAt s i = 74 ∨ strCharAt s i = 106 := by
      rw [strCharAt_of_drop h]
      rcases hc with rfl | rfl
      · exact Or.inl rfl
      · exact Or.inr rfl
    have hrule : ∀ c' ∈ c :: n, isRuleChar c' = true := by
      intro c' hc'
      rcases List.mem_cons.1 hc' with rfl | hc'
      · rcases hc with rfl | rfl
        · decide
        · decide
      · exact hn.ruleChars c' hc'
    obtain ⟨hval, -, -⟩ := numeral_at (drop_succ_of_drop h) hn hnl (stops_digit_of_rule hr)
    have hplain : ¬(strCharAt s i = 77 ∨ strCharAt s i = 109) := by omega
    rw [if_pos hletter, if_neg (not_le.2 hlt), if_neg hplain]
    refine ⟨?_, Scan.skipWhile_eq h hrule hr, hlt, hv⟩
    unfold posixRuleJulian
    rw [hval]
    exact if_neg (by omega)
  | @day n v hn hnl =>
    obtain ⟨c, n', rfl⟩ := List.exists_cons_of_ne_nil hn.ne
    have hlt := lt_of_drop h
    have hdigit : strCharAt s i ≥ 48 ∧ strCharAt s i ≤ 57 := by
      rw [strCharAt_of_drop h]
      exact of_decide_eq_true (hn.digits c List.mem_cons_self)
    rw [if_neg (not_le.2 hlt), if_neg (by omega), if_neg (by omega)]
    exact ⟨posixRuleMwd_day h hn hnl hr, Scan.skipWhile_eq h hn.ruleChars hr, hlt, hn.nonneg⟩

theorem TimeText.stops {e : Str} (h : TimeText e v) (hr : Ends r) :
    Scan.Stops isRuleChar (e ++ r) := by
  cases h with
  | default => exact hr.stops (by decide)
  | hours => exact Scan.Stops.cons (by decide)
  | minutes => exact Scan.Stops.cons (by decide)
  | seconds => exact Scan.Stops.cons (by decide)

/-- A rule that is written out is read as its numbers. -/
theorem posixRuleAt_text {a : Rule} (h : s.drop i = t ++ r) (ht : RuleText t a) (hr : Ends r) :
    posixRuleAt s i = a.record ∧ posixRuleEnd s i = i + t.length ∧ a.date.Proper := by
  obtain ⟨d, e, rfl, hd, he⟩ := ht
  rw [List.append_assoc] at h
  obtain ⟨hdate, hend, hlt, hproper⟩ := posixDateAt_text h hd (he.stops hr)
  have hrest := drop_add_of_drop h
  obtain ⟨htime, hskip⟩ := posixRuleTime_text hrest he hr (Rule.mk a.date 7200).record
    (record_kind _).2
  refine ⟨?_, ?_, hproper⟩
  · rw [posixRuleAt_eq hlt, hend, hdate, htime]
    obtain ⟨date, time⟩ := a
    cases date with
    | monthly m w d => rfl
    | julian n => rfl
    | day n => rfl
  · rw [posixRuleEnd, hend, hskip, List.length_append]
    omega

/-! ## The whole string -/

/-- A string with a daylight name is put together from what follows its names and offsets. -/
theorem posixParse_rules {p : PosixTz} (h : posixParse s = some p) (hdst : p.hasDst = true) :
    ∃ stdOff dstOff std dst, posixParseRules s (posixNamesEnd s) stdOff dstOff std dst = some p := by
  unfold posixParse at h
  simp only at h
  split_ifs at h with h1 h2 h3
  unfold posixParseDst at h
  simp only at h
  unfold posixNamesEnd
  simp only
  generalize posixAfterOffset s (posixAfterName s 0) = i at h ⊢
  by_cases hend : i ≥ strLen s
  · rw [if_pos hend] at h
    cases h
    cases hdst
  rw [if_neg hend] at h
  by_cases hcomma : strCharAt s i = 44
  · rw [if_pos hcomma] at h ⊢
    exact ⟨_, _, _, _, h⟩
  rw [if_neg hcomma] at h ⊢
  by_cases hname : posixIsAlpha (strCharAt s i) = false ∧ strCharAt s i ≠ 60
  · rw [if_pos hname] at h
    cases h
  rw [if_neg hname] at h
  by_cases hshort : strLen (posixNameAt s i) < 3
  · rw [if_pos hshort] at h
    cases h
  rw [if_neg hshort] at h
  exact ⟨_, _, _, _, h⟩

/-- Two rules that are written out end up in the result. -/
theorem posixParseRules_text {u : Str} {a c : Rule} {stdOff dstOff : Int} {std dst : Str}
    {p : PosixTz} (h : posixParseRules s i stdOff dstOff std dst = some p)
    (hs : s.drop i = ',' :: (t ++ ',' :: u)) (ht : RuleText t a) (hu : RuleText u c) :
    p.startRule = a.record ∧ p.endRule = c.record ∧ a.date.Proper ∧ c.date.Proper := by
  have hlt := lt_of_drop hs
  obtain ⟨hstart, hj, hpa⟩ := posixRuleAt_text (drop_succ_of_drop hs) ht (Or.inr ⟨u, rfl⟩)
  have hcomma := drop_add_of_drop (drop_succ_of_drop hs)
  have hu' := drop_succ_of_drop hcomma
  rw [← List.append_nil u] at hu'
  obtain ⟨hend, -, hpc⟩ := posixRuleAt_text hu' hu (Or.inl rfl)
  have hlt2 := lt_of_drop hcomma
  unfold posixParseRules at h
  simp only at h
  rw [if_neg (not_le.2 hlt), strCharAt_of_drop hs, if_neg (by decide), hstart,
    if_neg (record_kind a).1, hj, if_neg (not_le.2 hlt2), strCharAt_of_drop hcomma,
    if_neg (by decide), hend, if_neg (record_kind c).1] at h
  split_ifs at h
  cases h
  exact ⟨rfl, rfl, hpa, hpc⟩

/-- What the clocks read at `utc` is what the text says: standard time where no daylight time is
named, else the answer of the two rules that it is written with. -/
def ToldByText (s : Str) (p : PosixTz) (utc : Int) : Prop :=
  ∃ o, posixOffsetAt p utc = some o ∧
    (p.hasDst = false ∧ o = ⟨p.stdOff, false, p.std⟩ ∨
      ∃ a c, RulesText s a c ∧ Answers p a c (tzClampSeconds utc) o)

/-- Eastern time, with no rules. -/
def easternNames : Str := ['E', 'S', 'T', '5', 'E', 'D', 'T']

theorem numeral_digits (h : (c :: ds).all isDigitChar = true)
    (hv : (c :: ds).foldl digitStep 0 = v) : Numeral (c :: ds) v :=
  ⟨List.cons_ne_nil _ _, List.all_eq_true.1 h, hv⟩

end TimeZone

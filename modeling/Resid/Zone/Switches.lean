import Resid.Calendar.Weeks
import Resid.Zone.Posix

/-!
# Switches to daylight time and back

A rule names a day of each year and a local time; the offset in force just before a switch turns it
into an instant.  The year is that of the instant in standard time.

    a.date.On y z ↔ z = ruleDay a.record y                                    (on_iff)
    posixRuleSeconds a.record y = some t → (a.Switch y t' ↔ t' = t)           (switch_of_seconds)
    posixOffsetAt p utc = daylight ↔ Daylight a c p.stdOff p.dstOff utc       (posixOffsetAt_reads)
    p.Small → ∃ o, posixOffsetAt p utc = some o                              (posixOffsetAt_total)
-/

namespace TimeZone

open Calendar CheckedInt Runtime

/-! ## Algorithm -/

/-- What the clocks read: the offset east of UTC in seconds, whether it is daylight saving, and its
name. -/
structure Offset where
  seconds : Int
  isdst : Bool
  abbr : Str
  deriving DecidableEq

/-- A time limited to `2 ^ 47` seconds either side of the epoch. -/
def tzClampSeconds (t : Int) : Int :=
  if t > 140737488355328 then 140737488355328
  else if t < 0 - 140737488355328 then 0 - 140737488355328
  else t

/-- `day` days and `time` seconds. -/
def daySeconds (day time : Int) : Option Int := do
  let s ← mul 64 day 86400
  add 64 s time

/-- `Mm.w.d`: week 5 is the last such weekday of the month. -/
def posixMwdSeconds (r : PosixRule) (y : Int) : Option Int := do
  let first ← calDaysFromCivil y r.month 1
  let dim := calDaysInMonth y r.month
  if dim = 0 then some 0
  else
    let last ← calDaysFromCivil y r.month dim
    let firstDow ← calWeekdaySunday first
    let diff ← sub 64 r.day firstDow
    let delta ← calFloorMod diff 7
    let week := if r.week ≥ 5 then 5 else r.week
    let weeks ← mul 64 (week - 1) 7
    let z0 ← add 64 first delta
    let z ← add 64 z0 weeks
    let zlast := if week ≥ 5 then z else 0
    let zfix := if week ≥ 5 ∧ zlast > last then zlast - 7 else zlast
    daySeconds (if week ≥ 5 then zfix else z) r.time

/-- `Jn`: 29 February is never counted. -/
def posixJulianSeconds (r : PosixRule) (y : Int) : Option Int := do
  let jan1 ← calDaysFromCivil y 1 1
  let skip := if calIsLeap y = true ∧ r.day ≥ 60 then 1 else 0
  let z0 ← add 64 jan1 r.day
  let z1 ← sub 64 z0 1
  let z ← add 64 z1 skip
  daySeconds z r.time

/-- `n`: from 0 on, 29 February counted. -/
def posixNSeconds (r : PosixRule) (y : Int) : Option Int := do
  let jan1 ← calDaysFromCivil y 1 1
  let z ← add 64 jan1 r.day
  daySeconds z r.time

/-- The local moment a rule names in year `y`; an invalid rule gives 0. -/
def posixRuleSeconds (r : PosixRule) (y : Int) : Option Int :=
  if r.kind = 0 then posixMwdSeconds r y
  else if r.kind = 1 then posixJulianSeconds r y
  else if r.kind = 2 then posixNSeconds r y
  else some 0

def posixOffsetAt (p : PosixTz) (utcIn : Int) : Option Offset :=
  let stdOff : Offset := ⟨p.stdOff, false, p.std⟩
  if p.hasDst = false then some stdOff
  else do
    let utc := tzClampSeconds utcIn
    let shifted ← add 64 utc p.stdOff
    let days ← calFloorDiv shifted 86400
    let c ← calCivilFromDays days
    let startLocal ← posixRuleSeconds p.startRule c.year
    let start ← sub 64 startLocal p.stdOff
    let endLocal ← posixRuleSeconds p.endRule c.year
    let stop ← sub 64 endLocal p.dstOff
    let inDst := if start ≤ stop then decide (utc ≥ start ∧ utc < stop)
      else decide (utc ≥ start ∨ utc < stop)
    some (if inDst then ⟨p.dstOff, true, p.dst⟩ else stdOff)

/-! ## The calendar's reading of a rule -/

/-- The day a rule names: weekday `d` of week `w` of month `m`, a day of the year that leaves out
29 February, or one that counts it from 0 on. -/
inductive RuleDate
  | monthly (m w d : Int)
  | julian (n : Int)
  | day (n : Int)

/-- The `w`-th of its weekdays in a month is one of days `7 w - 6` to `7 w`; week 5 is the last, which
no later one follows. -/
def InWeek (w dim d : Int) : Prop := if w = 5 then dim < d + 7 else 7 * (w - 1) < d ∧ d ≤ 7 * w

/-- Day `z` is the one that the rule names in year `y`. -/
def RuleDate.On : RuleDate → Int → Int → Prop
  | monthly m w d, y, z => ∃ c : Date, c.Valid ∧ c.year = y ∧ c.month = m ∧ dayNumber c = z ∧
      weekday z = d ∧ InWeek w (calDaysInMonth y m) c.day
  | julian n, y, z => ¬(calIsLeap y = true ∧ z = dayNumber ⟨y, 2, 29⟩) ∧
      z - dayNumber ⟨y, 1, 1⟩ + 1 =
        n + if calIsLeap y = true ∧ dayNumber ⟨y, 2, 29⟩ < z then 1 else 0
  | day n, y, z => z = dayNumber ⟨y, 1, 1⟩ + n

/-- A date and a local time of day, in seconds. -/
structure Rule where
  date : RuleDate
  time : Int

/-- The local moment of year `y` that a rule names. -/
def Rule.Switch (a : Rule) (y t : Int) : Prop := ∃ z, a.date.On y z ∧ t = z * 86400 + a.time

/-- Instant `u` lies in year `y`, by clocks `off` seconds east of UTC. -/
def InYear (off u y : Int) : Prop := ∃ c : Date, c.Valid ∧ c.year = y ∧ dayNumber c = (u + off) / 86400

/-- From the start to the end of one year, or from the start over the new year to the end. -/
def Between (start stop u : Int) : Prop :=
  if start ≤ stop then start ≤ u ∧ u < stop else start ≤ u ∨ u < stop

/-- Instant `u` lies between the switches of its year: `a` is told in standard time, `c` in daylight
time. -/
def Daylight (a c : Rule) (stdOff dstOff u : Int) : Prop :=
  ∃ y s e, InYear stdOff u y ∧ a.Switch y s ∧ c.Switch y e ∧ Between (s - stdOff) (e - dstOff) u

/-! ## A day of a month -/

/-- The day that `Mm.w.d` comes to, between the first and the last day of the month. -/
def mwdDay (first last w d : Int) : Int :=
  let z := first + (d - weekday first) % 7 + (w - 1) * 7
  if w = 5 ∧ z > last then z - 7 else z

theorem mwdDay_iff (first n : Int) {w d dim : Int} (hw : 1 ≤ w ∧ w ≤ 5) (hd : 0 ≤ d ∧ d ≤ 6)
    (hdim : 28 ≤ dim ∧ dim ≤ 31) :
    ((1 ≤ n ∧ n ≤ dim) ∧ weekday (first + (n - 1)) = d ∧ InWeek w dim n) ↔
      first + (n - 1) = mwdDay first (first + (dim - 1)) w d := by
  unfold InWeek mwdDay weekday
  simp only
  by_cases h5 : w = 5
  · subst h5
    rw [if_pos rfl]
    split_ifs
    · omega
    · omega
  · rw [if_neg h5, if_neg (by omega)]
    omega

variable {y z : Int} {r : PosixRule} {p : PosixTz} {a : Rule}

theorem on_monthly_iff {m w d : Int} (hm : 1 ≤ m ∧ m ≤ 12) (hw : 1 ≤ w ∧ w ≤ 5)
    (hd : 0 ≤ d ∧ d ≤ 6) : (RuleDate.monthly m w d).On y z ↔
      z = mwdDay (dayNumber ⟨y, m, 1⟩) (dayNumber ⟨y, m, calDaysInMonth y m⟩) w d := by
  have hdim := calDaysInMonth_bounds (y := y) hm
  have hiff (n : Int) := mwdDay_iff (dayNumber ⟨y, m, 1⟩) n hw hd hdim
  rw [dayNumber_day y m (calDaysInMonth y m)]
  constructor
  · rintro ⟨⟨y', m', n⟩, hvalid, rfl, rfl, rfl, hday, hweek⟩
    rw [dayNumber_day] at hday ⊢
    obtain ⟨-, hn⟩ := (Date.valid_iff _).1 hvalid
    rw [monthDays_monthIndex hm] at hn
    exact (hiff n).1 ⟨hn, hday, hweek⟩
  · intro hz
    have hn : dayNumber ⟨y, m, 1⟩ + (z - dayNumber ⟨y, m, 1⟩ + 1 - 1) = z := by omega
    obtain ⟨hrange, hday, hweek⟩ := (hiff (z - dayNumber ⟨y, m, 1⟩ + 1)).2 (by rw [hn]; exact hz)
    refine ⟨⟨y, m, z - dayNumber ⟨y, m, 1⟩ + 1⟩, month_valid hm hrange.1 hrange.2, rfl, rfl, ?_, ?_,
      hweek⟩
    · rw [dayNumber_day]
      omega
    · rw [hn] at hday
      exact hday

theorem on_julian_iff {n : Int} (hn : 1 ≤ n) : (RuleDate.julian n).On y z ↔
    z = dayNumber ⟨y, 1, 1⟩ + n - 1 + if calIsLeap y = true ∧ n ≥ 60 then 1 else 0 := by
  rw [RuleDate.On, dayNumber_leapDay]
  by_cases hleap : calIsLeap y = true
  · simp only [hleap, true_and]
    split_ifs
    all_goals omega
  · rw [if_neg fun h => hleap h.1, if_neg fun h => hleap h.1, and_iff_right fun h => hleap h.1]
    omega

/-! ## The code's reading of a rule -/

/-- A year that an instant within `2 ^ 47` seconds can lie in. -/
def NearYear (y : Int) : Prop := -10000000 ≤ y ∧ y ≤ 10000000

theorem nearYear_month {m : Int} (hy : NearYear y) (hm : 1 ≤ m ∧ m ≤ 12) :
    calDaysFromCivil y m 1 = some (dayNumber ⟨y, m, 1⟩) ∧
      calDaysFromCivil y m (calDaysInMonth y m) = some (dayNumber ⟨y, m, calDaysInMonth y m⟩) ∧
      -4000000000 ≤ dayNumber ⟨y, m, 1⟩ ∧ dayNumber ⟨y, m, 1⟩ ≤ 4000000000 := by
  obtain ⟨hlo, hhi⟩ := hy
  have hdim := calDaysInMonth_bounds (y := y) hm
  have hfirst := month_valid (y := y) hm (d := 1) (by omega) (by omega)
  have hlast := month_valid (y := y) hm (d := calDaysInMonth y m) (by omega) le_rfl
  have hnear := dayNumber_near hfirst
  unfold Calendar.yearStart at hnear
  simp only at hnear
  have hyear : (-1000000000 : Int) ≤ y ∧ y ≤ 1000000000 := by omega
  exact ⟨calDaysFromCivil_near hfirst hyear, calDaysFromCivil_near hlast hyear, by omega, by omega⟩

theorem daySeconds_near {day time : Int} (hday : -5000000000 ≤ day ∧ day ≤ 5000000000)
    (htime : 0 ≤ time ∧ time < 1000000) : daySeconds day time = some (day * 86400 + time) := by
  have h1 : mul 64 day 86400 = some (day * 86400) := mul_of_fits (fits_64.2 (by omega))
  have h2 : add 64 (day * 86400) time = some (day * 86400 + time) :=
    add_of_fits (fits_64.2 (by omega))
  rw [daySeconds, h1]
  exact h2

/-- The day that a rule's numbers come to in year `y`. -/
def ruleDay (r : PosixRule) (y : Int) : Int :=
  if r.kind = 0 then
    mwdDay (dayNumber ⟨y, r.month, 1⟩) (dayNumber ⟨y, r.month, calDaysInMonth y r.month⟩) r.week r.day
  else if r.kind = 1 then
    dayNumber ⟨y, 1, 1⟩ + r.day - 1 + if calIsLeap y = true ∧ r.day ≥ 60 then 1 else 0
  else dayNumber ⟨y, 1, 1⟩ + r.day

theorem posixMwdSeconds_eq (hr : r.Small) (hkind : r.kind = 0) (hy : NearYear y) :
    posixMwdSeconds r y = some (ruleDay r y * 86400 + r.time) := by
  have hm := hr.month hkind
  have hw := hr.week hkind
  have hd := hr.day
  have hdim := calDaysInMonth_bounds (y := y) hm
  obtain ⟨hfirst, hlast, hlo, hhi⟩ := nearYear_month hy hm
  have hlastDay := dayNumber_day y r.month (calDaysInMonth y r.month)
  have hweek : (if r.week ≥ 5 then 5 else r.week) = r.week := by
    split_ifs
    all_goals omega
  rw [ruleDay, if_pos hkind]
  unfold posixMwdSeconds mwdDay
  simp only [Option.bind_eq_bind]
  rw [hfirst, hlast, hweek]
  generalize dayNumber ⟨y, r.month, calDaysInMonth y r.month⟩ = last at hlastDay ⊢
  generalize dayNumber ⟨y, r.month, 1⟩ = first at hlo hhi hlastDay ⊢
  have hdow := weekday_bounds first
  have h1 : calWeekdaySunday first = some (weekday first) :=
    calWeekdaySunday_eq (fits_64.2 (by omega))
  have h2 : sub 64 r.day (weekday first) = some (r.day - weekday first) :=
    sub_of_fits (fits_64.2 (by omega))
  have h3 : calFloorMod (r.day - weekday first) 7 = some ((r.day - weekday first) % 7) :=
    calFloorMod_eq (by decide) (fits_64.2 (by omega))
  have h4 : mul 64 (r.week - 1) 7 = some ((r.week - 1) * 7) := mul_of_fits (fits_64.2 (by omega))
  have h5 : add 64 first ((r.day - weekday first) % 7) = some (first + (r.day - weekday first) % 7) :=
    add_of_fits (fits_64.2 (by omega))
  have h6 : add 64 (first + (r.day - weekday first) % 7) ((r.week - 1) * 7) =
      some (first + (r.day - weekday first) % 7 + (r.week - 1) * 7) :=
    add_of_fits (fits_64.2 (by omega))
  simp only [Option.bind_some]
  rw [if_neg (by omega)]
  simp only [h1, h2, h3, h4, h5, h6, Option.bind_some]
  have hdelta : 0 ≤ (r.day - weekday first) % 7 ∧ (r.day - weekday first) % 7 < 7 := by omega
  generalize (r.day - weekday first) % 7 = delta at hdelta ⊢
  rw [daySeconds_near ?_ hr.time]
  · congr 2
    split_ifs
    all_goals omega
  · split_ifs
    all_goals omega

theorem posixJulianSeconds_eq (hr : r.Small) (hkind : r.kind = 1) (hy : NearYear y) :
    posixJulianSeconds r y = some (ruleDay r y * 86400 + r.time) := by
  have hd := hr.day
  obtain ⟨hjan, -, hlo, hhi⟩ := nearYear_month hy (m := 1) (by decide)
  rw [ruleDay, if_neg (by omega), if_pos hkind]
  unfold posixJulianSeconds
  simp only [Option.bind_eq_bind]
  rw [hjan]
  generalize dayNumber ⟨y, 1, 1⟩ = jan1 at hlo hhi ⊢
  obtain ⟨skip, hskip, hskip01⟩ :
      ∃ k : Int, (if calIsLeap y = true ∧ r.day ≥ 60 then 1 else 0) = k ∧ (0 ≤ k ∧ k ≤ 1) := by
    split_ifs
    · exact ⟨1, rfl, by decide⟩
    · exact ⟨0, rfl, by decide⟩
  rw [hskip]
  have h1 : add 64 jan1 r.day = some (jan1 + r.day) := add_of_fits (fits_64.2 (by omega))
  have h2 : sub 64 (jan1 + r.day) 1 = some (jan1 + r.day - 1) := sub_of_fits (fits_64.2 (by omega))
  have h3 : add 64 (jan1 + r.day - 1) skip = some (jan1 + r.day - 1 + skip) :=
    add_of_fits (fits_64.2 (by omega))
  simp only [h1, h2, h3, Option.bind_some]
  exact daySeconds_near (by omega) hr.time

theorem posixNSeconds_eq (hr : r.Small) (hkind : r.kind = 2) (hy : NearYear y) :
    posixNSeconds r y = some (ruleDay r y * 86400 + r.time) := by
  have hd := hr.day
  obtain ⟨hjan, -, hlo, hhi⟩ := nearYear_month hy (m := 1) (by decide)
  rw [ruleDay, if_neg (by omega), if_neg (by omega)]
  unfold posixNSeconds
  simp only [Option.bind_eq_bind]
  rw [hjan]
  generalize dayNumber ⟨y, 1, 1⟩ = jan1 at hlo hhi ⊢
  have h1 : add 64 jan1 r.day = some (jan1 + r.day) := add_of_fits (fits_64.2 (by omega))
  simp only [h1, Option.bind_some]
  exact daySeconds_near (by omega) hr.time

/-- Every small rule names a moment, inside 64 bits. -/
theorem posixRuleSeconds_small (hr : r.Small) (hy : NearYear y) :
    ∃ t, posixRuleSeconds r y = some t ∧
      (-1000000000000000 ≤ t ∧ t ≤ 1000000000000000) ∧
      (r.kind ≠ 9 → t = ruleDay r y * 86400 + r.time) := by
  have hd := hr.day
  have ht := hr.time
  have hjan := (nearYear_month hy (m := 1) (by decide)).2.2
  unfold posixRuleSeconds
  rcases hr.kind with h | h | h | h
  · have hw := hr.week h
    have hdim := calDaysInMonth_bounds (y := y) (hr.month h)
    have hmonth := (nearYear_month hy (hr.month h)).2.2
    have hlast := dayNumber_day y r.month (calDaysInMonth y r.month)
    rw [if_pos h, posixMwdSeconds_eq hr h hy]
    refine ⟨_, rfl, ?_, fun _ => rfl⟩
    rw [ruleDay, if_pos h]
    unfold mwdDay
    simp only
    split_ifs
    all_goals omega
  · rw [if_neg (by omega), if_pos h, posixJulianSeconds_eq hr h hy]
    refine ⟨_, rfl, ?_, fun _ => rfl⟩
    rw [ruleDay, if_neg (by omega), if_pos h]
    split_ifs
    all_goals omega
  · rw [if_neg (by omega), if_neg (by omega), if_pos h, posixNSeconds_eq hr h hy]
    refine ⟨_, rfl, ?_, fun _ => rfl⟩
    rw [ruleDay, if_neg (by omega), if_neg (by omega)]
    omega
  · rw [if_neg (by omega), if_neg (by omega), if_neg (by omega)]
    exact ⟨0, rfl, by decide, fun hne => absurd h hne⟩

theorem tzClampSeconds_bounds (t : Int) :
    -140737488355328 ≤ tzClampSeconds t ∧ tzClampSeconds t ≤ 140737488355328 := by
  unfold tzClampSeconds
  split_ifs
  all_goals omega

/-- The year of an instant by clocks `off` seconds east of UTC. -/
theorem local_year {u off : Int} (hu : -140737488355328 ≤ u ∧ u ≤ 140737488355328)
    (hoff : -400000 < off ∧ off < 400000) :
    add 64 u off = some (u + off) ∧ calFloorDiv (u + off) 86400 = some ((u + off) / 86400) ∧
      ∃ c, calCivilFromDays ((u + off) / 86400) = some c ∧ NearYear c.year ∧ InYear off u c.year := by
  refine ⟨add_of_fits (fits_64.2 (by omega)),
    calFloorDiv_eq (by decide) (fits_64.2 (by omega)), ?_⟩
  obtain ⟨c, hc, hvalid, hday⟩ := calCivilFromDays_near (z := (u + off) / 86400) (by omega)
  have hnear := dayNumber_near hvalid
  unfold Calendar.yearStart at hnear
  refine ⟨c, hc, ?_, c, hvalid, rfl, hday⟩
  unfold NearYear
  omega

theorem inYear_unique {off u y' : Int} (h : InYear off u y) (h' : InYear off u y') : y = y' := by
  obtain ⟨c, hc, rfl, hday⟩ := h
  obtain ⟨c', hc', rfl, hday'⟩ := h'
  rw [dayNumber_injective hc hc' (hday.trans hday'.symm)]

/-- The offset is daylight's exactly between the moments that the two rules come to. -/
theorem posixOffsetAt_small (hp : p.Small) (hdst : p.hasDst = true) (utc : Int) :
    ∃ y s e, InYear p.stdOff (tzClampSeconds utc) y ∧ NearYear y ∧
      posixRuleSeconds p.startRule y = some s ∧ posixRuleSeconds p.endRule y = some e ∧
      ∃ o, posixOffsetAt p utc = some o ∧
        (Between (s - p.stdOff) (e - p.dstOff) (tzClampSeconds utc) → o = ⟨p.dstOff, true, p.dst⟩) ∧
        (¬Between (s - p.stdOff) (e - p.dstOff) (tzClampSeconds utc) →
          o = ⟨p.stdOff, false, p.std⟩) := by
  have hstd := hp.stdOff
  have hdstOff := hp.dstOff
  obtain ⟨hadd, hdiv, c, hc, hnear, hyear⟩ := local_year (tzClampSeconds_bounds utc) hstd
  obtain ⟨s, hs, hsb, -⟩ := posixRuleSeconds_small hp.startRule hnear
  obtain ⟨e, he, heb, -⟩ := posixRuleSeconds_small hp.endRule hnear
  have hss : sub 64 s p.stdOff = some (s - p.stdOff) := sub_of_fits (fits_64.2 (by omega))
  have hes : sub 64 e p.dstOff = some (e - p.dstOff) := sub_of_fits (fits_64.2 (by omega))
  refine ⟨c.year, s, e, hyear, hnear, hs, he, ?_⟩
  unfold posixOffsetAt
  rw [if_neg (by simp [hdst])]
  simp only [hadd, hdiv, hc, hs, he, hss, hes, some_bind]
  refine ⟨_, rfl, ?_, ?_⟩
  · intro hb
    rw [if_pos]
    unfold Between at hb
    split_ifs at hb ⊢
    · exact decide_eq_true hb
    · exact decide_eq_true hb
  · intro hb
    rw [if_neg]
    unfold Between at hb
    split_ifs at hb ⊢
    · exact fun h => hb (of_decide_eq_true h)
    · exact fun h => hb (of_decide_eq_true h)

/-- A parsed string gives an offset at every instant. -/
theorem posixOffsetAt_total (hp : p.Small) (utc : Int) : ∃ o, posixOffsetAt p utc = some o ∧
      (o.seconds = p.stdOff ∨ p.hasDst = true ∧ o.seconds = p.dstOff) := by
  by_cases hdst : p.hasDst = true
  · obtain ⟨y, s, e, -, -, -, -, o, ho, hin, hout⟩ := posixOffsetAt_small hp hdst utc
    refine ⟨o, ho, ?_⟩
    by_cases hb : Between (s - p.stdOff) (e - p.dstOff) (tzClampSeconds utc)
    · right
      rw [hin hb]
      exact ⟨hdst, rfl⟩
    · left
      rw [hout hb]
  · refine ⟨⟨p.stdOff, false, p.std⟩, ?_, Or.inl rfl⟩
    unfold posixOffsetAt
    rw [if_pos (Bool.eq_false_of_not_eq_true hdst)]

/-! ## Rules that name a day -/

/-- The numbers of a rule as they are kept. -/
def Rule.record (a : Rule) : PosixRule :=
  match a.date with
  | .monthly m w d => ⟨0, m, w, d, a.time⟩
  | .julian n => ⟨1, 0, 0, n, a.time⟩
  | .day n => ⟨2, 0, 0, n, a.time⟩

/-- The numbers of a rule lie where the calendar has them. -/
def RuleDate.Proper : RuleDate → Prop
  | monthly m w d => (1 ≤ m ∧ m ≤ 12) ∧ (1 ≤ w ∧ w ≤ 5) ∧ 0 ≤ d ∧ d ≤ 6
  | julian n => 1 ≤ n
  | day n => 0 ≤ n

theorem on_iff (ha : a.date.Proper) : a.date.On y z ↔ z = ruleDay a.record y := by
  obtain ⟨date, time⟩ := a
  cases date with
  | monthly m w d => exact on_monthly_iff ha.1 ha.2.1 ha.2.2
  | julian n => exact on_julian_iff ha
  | day n => exact Iff.rfl

theorem switch_iff (ha : a.date.Proper) {t : Int} :
    a.Switch y t ↔ t = ruleDay a.record y * 86400 + a.time := by
  constructor
  · rintro ⟨z, hz, rfl⟩
    rw [(on_iff ha).1 hz]
  · intro ht
    exact ⟨_, (on_iff ha).2 rfl, ht⟩

theorem record_kind (a : Rule) : a.record.kind ≠ 9 ∧ a.record.time = a.time := by
  obtain ⟨date, time⟩ := a
  cases date with
  | monthly m w d => exact ⟨show 0 ≠ 9 by decide, rfl⟩
  | julian n => exact ⟨show 1 ≠ 9 by decide, rfl⟩
  | day n => exact ⟨show 2 ≠ 9 by decide, rfl⟩

/-- The switch of a near year is the moment that the code computes. -/
theorem switch_of_seconds (ha : a.date.Proper) (hsmall : a.record.Small) {t : Int}
    (hy : NearYear y) (ht : posixRuleSeconds a.record y = some t) (t' : Int) :
    a.Switch y t' ↔ t' = t := by
  obtain ⟨t0, ht0, -, heq⟩ := posixRuleSeconds_small hsmall hy
  rw [ht, Option.some.injEq] at ht0
  have hval := heq (record_kind a).1
  rw [(record_kind a).2] at hval
  rw [switch_iff ha, ht0, hval]

/-- `o` is the daylight offset exactly when instant `u` lies between the switches of its year. -/
def Answers (p : PosixTz) (a c : Rule) (u : Int) (o : Offset) : Prop :=
  (Daylight a c p.stdOff p.dstOff u → o = ⟨p.dstOff, true, p.dst⟩) ∧
    (¬Daylight a c p.stdOff p.dstOff u → o = ⟨p.stdOff, false, p.std⟩)

theorem posixOffsetAt_reads (hp : p.Small) (hdst : p.hasDst = true) {c : Rule}
    (ha : a.date.Proper) (hc : c.date.Proper) (hstart : p.startRule = a.record)
    (hend : p.endRule = c.record) (utc : Int) :
    ∃ o, posixOffsetAt p utc = some o ∧ Answers p a c (tzClampSeconds utc) o := by
  obtain ⟨y, s, e, hyear, hnear, hs, he, o, ho, hin, hout⟩ := posixOffsetAt_small hp hdst utc
  rw [hstart] at hs
  rw [hend] at he
  have hswitch := switch_of_seconds ha (hstart ▸ hp.startRule) hnear hs
  have hswitch' := switch_of_seconds hc (hend ▸ hp.endRule) hnear he
  have hiff : Daylight a c p.stdOff p.dstOff (tzClampSeconds utc) ↔
      Between (s - p.stdOff) (e - p.dstOff) (tzClampSeconds utc) := by
    constructor
    · rintro ⟨y', s', e', hy', hs', he', hb⟩
      rw [inYear_unique hy' hyear] at hs' he'
      rwa [(hswitch s').1 hs', (hswitch' e').1 he'] at hb
    · intro hb
      exact ⟨y, s, e, hyear, (hswitch s).2 rfl, (hswitch' e).2 rfl, hb⟩
  refine ⟨o, ho, ?_, ?_⟩
  · intro h
    exact hin (hiff.1 h)
  · intro h
    exact hout fun hb => h (hiff.2 hb)

end TimeZone

import Resid.Calendar.Civil
import Resid.Calendar.Helpers

/-!
# Weekdays, and dates near the present

Day 0 was a Thursday.  Dates within some million years have day numbers far inside 64 bits.

    z fits → calWeekdaySunday z = some (weekday z)                          (calWeekdaySunday_eq)
    c.Valid → |c.year| ≤ 10 ^ 9 → calDaysFromCivil c = some (dayNumber c)     (calDaysFromCivil_near)
    |z| ≤ 10 ^ 12 → calCivilFromDays z = some c, dayNumber c = z              (calCivilFromDays_near)
-/

namespace Calendar

open CheckedInt

/-! ## Algorithm -/

/-- ISO weekday of a day number: 1 = Monday .. 7 = Sunday. -/
def calWeekdayIso (z : Int) : Option Int := do
  let t ← add 64 z 3
  let r ← calFloorMod t 7
  add 64 r 1

/-- Weekday of a day number: 0 = Sunday .. 6 = Saturday. -/
def calWeekdaySunday (z : Int) : Option Int := do
  let d ← calWeekdayIso z
  mod 64 d 7

/-! ## Weekdays -/

/-- The weekday of day `z`, from Sunday on. -/
def weekday (z : Int) : Int := (z + 4) % 7

theorem weekday_bounds (z : Int) : 0 ≤ weekday z ∧ weekday z ≤ 6 := by
  unfold weekday
  omega

variable {d m y z z' : Int} {c : Date} {w w' : WeekDate}

theorem calWeekdaySunday_eq (hz : Fits 64 (z + 3)) : calWeekdaySunday z = some (weekday z) := by
  have h1 : add 64 z 3 = some (z + 3) := add_of_fits hz
  have h2 : calFloorMod (z + 3) 7 = some ((z + 3) % 7) :=
    calFloorMod_eq (by decide) (fits_64.2 (by omega))
  have h3 : add 64 ((z + 3) % 7) 1 = some ((z + 3) % 7 + 1) := add_of_fits (fits_64.2 (by omega))
  have h4 : mod 64 ((z + 3) % 7 + 1) 7 = some (((z + 3) % 7 + 1) % 7) :=
    mod_of_nonneg (by omega) (by decide)
  simp only [calWeekdaySunday, calWeekdayIso, h1, h2, h3, h4, some_bind]
  congr 1
  unfold weekday
  omega

/-! ## Dates near the present -/

/-- A date lies less than a year and a quarter from the March of its year. -/
theorem dayNumber_near (h : c.Valid) :
    yearStart c.year - 720000 ≤ dayNumber c ∧ dayNumber c ≤ yearStart c.year - 719000 := by
  obtain ⟨hm, hd⟩ := c.valid_iff.1 h
  have hdays := (monthDays_bounds (monthIndex c.year c.month)).2
  obtain ⟨hyear, hmonth⟩ := monthIndex_march (y := c.year) hm
  have hn : 0 ≤ monthIndex c.year c.month % 12 ∧ monthIndex c.year c.month % 12 < 12 := by omega
  unfold dayNumber monthStart yearStart
  rw [hyear]
  split_ifs
  · omega
  · omega

theorem calDaysFromCivil_near (hc : c.Valid) (hy : -1000000000 ≤ c.year ∧ c.year ≤ 1000000000) :
    calDaysFromCivil c.year c.month c.day = some (dayNumber c) := by
  have hnear := dayNumber_near hc
  unfold yearStart at hnear
  apply calDaysFromCivil_of_fits hc
  · exact fits_64.2 (by omega)
  · exact fits_64.2 (by omega)
  · intro _
    exact fits_64.2 (by omega)

theorem calCivilFromDays_near (hz : -1000000000000 ≤ z ∧ z ≤ 1000000000000) :
    ∃ c, calCivilFromDays z = some c ∧ c.Valid ∧ dayNumber c = z :=
  calCivilFromDays_of_fits (fits_64.2 (by omega)) fun _ => fits_64.2 (by omega)

/-- The first and the last day of a month exist. -/
theorem month_valid (hm : 1 ≤ m ∧ m ≤ 12) (hd : 1 ≤ d) (hd' : d ≤ calDaysInMonth y m) :
    Date.Valid ⟨y, m, d⟩ := by
  rw [Date.valid_iff]
  refine ⟨hm, hd, ?_⟩
  rw [monthDays_monthIndex hm]
  exact hd'

theorem calDaysInMonth_bounds (hm : 1 ≤ m ∧ m ≤ 12) :
    28 ≤ calDaysInMonth y m ∧ calDaysInMonth y m ≤ 31 := by
  rw [← monthDays_monthIndex hm]
  exact monthDays_bounds _

/-- The days of a month are numbered one after another. -/
theorem dayNumber_day (y m d : Int) : dayNumber ⟨y, m, d⟩ = dayNumber ⟨y, m, 1⟩ + (d - 1) := by
  unfold dayNumber
  dsimp only
  omega

/-- February 29 is day 59 of the year, from day 0 on. -/
theorem dayNumber_leapDay (y : Int) : dayNumber ⟨y, 2, 29⟩ = dayNumber ⟨y, 1, 1⟩ + 59 := by
  have hsucc := monthStart_succ (monthIndex y 1)
  have hjan : monthDays (monthIndex y 1) = 31 := monthDays_monthIndex (y := y) (by decide)
  have hidx : monthIndex y 2 = monthIndex y 1 + 1 := by
    unfold monthIndex
    omega
  unfold dayNumber
  dsimp only
  rw [hidx, hsucc, hjan]
  omega

/-!
## Week dates

A week belongs to the year that its Thursday lies in, and is numbered by how many Thursdays of
that year there have been.  Years are counted here by their first days.

    newYear (y + 1) = newYear y + (366 or 365)                                     (newYear_succ)
    c.Valid → newYear c.year ≤ dayNumber c < newYear (c.year + 1)             (dayNumber_in_year)
    calWeekDate z = some w ↔ the sums fit, and w is the week date of z       (calWeekDate_eq_some)
    z < z' → w < w'                                                              (IsWeekDate.lt)
    week 53 of year y ↔ y has 53 Thursdays                                     (isLong_of_week53)

### Algorithm

The Thursday of the week is reached from the weekday; its date gives the year, its distance from
January 1 the week.
-/

structure WeekDate where
  year : Int
  week : Int
  weekday : Int
  deriving DecidableEq

def calWeekDate (z : Int) : Option WeekDate := do
  let dow ← calWeekdayIso z
  let up ← sub 64 4 dow
  let thursday ← add 64 z up
  let th ← calCivilFromDays thursday
  let jan1 ← calDaysFromCivil th.year 1 1
  let diff ← sub 64 thursday jan1
  let weeks ← div 64 diff 7
  let week ← add 64 weeks 1
  some ⟨th.year, week, dow⟩

def calWeekOf (dt : Date) : Option WeekDate := do
  let z ← calDaysFromCivil dt.year dt.month dt.day
  calWeekDate z

/-! ## Years by their first days -/

/-- January 1 of year `y`. -/
def newYear (y : Int) : Int := dayNumber ⟨y, 1, 1⟩

theorem newYear_eq (y : Int) : newYear y = yearStart (y - 1) - 719162 := by
  have hdiv : (12 * y + 1 - 3) / 12 = y - 1 := by omega
  have hmod : (12 * y + 1 - 3) % 12 = 10 := by omega
  show yearStart ((12 * y + 1 - 3) / 12) + (153 * ((12 * y + 1 - 3) % 12) + 2) / 5 + 1 - 719469 = _
  rw [hdiv, hmod]
  omega

theorem newYear_succ (y : Int) :
    newYear (y + 1) = newYear y + if calIsLeap y then 366 else 365 := by
  have hsucc := yearStart_succ (y - 1)
  rw [show y - 1 + 1 = y by omega] at hsucc
  rw [newYear_eq, newYear_eq, show y + 1 - 1 = y by omega, hsucc]
  omega

theorem newYear_strictMono : StrictMono newYear := by
  refine strictMono_int_of_lt_succ fun y => ?_
  rw [newYear_succ]
  split_ifs
  · omega
  · omega

theorem january_valid (y : Int) : Date.Valid ⟨y, 1, 1⟩ := by
  have hdays := calDaysInMonth_bounds (y := y) (m := 1) (by decide)
  have hlast : 1 ≤ calDaysInMonth y 1 := by omega
  exact month_valid (by decide) (le_refl 1) hlast

theorem dayNumber_in_year (h : c.Valid) :
    newYear c.year ≤ dayNumber c ∧ dayNumber c < newYear (c.year + 1) := by
  obtain ⟨hm, hd, -⟩ := c.valid_iff.1 h
  constructor
  · by_contra hlt
    have hbefore := (dayNumber_lt_iff h (january_valid c.year)).2 (not_le.1 hlt)
    change c.year < c.year ∨ c.year = c.year ∧ (c.month < 1 ∨ c.month = 1 ∧ c.day < 1) at hbefore
    omega
  · refine (dayNumber_lt_iff h (january_valid (c.year + 1))).1 (Or.inl ?_)
    show c.year < c.year + 1
    omega

/-- A day lies in one year only. -/
theorem year_unique {t y' : Int} (h : newYear y ≤ t ∧ t < newYear (y + 1))
    (h' : newYear y' ≤ t ∧ t < newYear (y' + 1)) : y = y' := by
  have hle : y < y' + 1 := newYear_strictMono.lt_iff_lt.1 (by omega)
  have hge : y' < y + 1 := newYear_strictMono.lt_iff_lt.1 (by omega)
  omega

/-! ## Weeks by their Thursdays -/

/-- The weekday of day `z`, 1 = Monday .. 7 = Sunday. -/
def isoWeekday (z : Int) : Int := (z + 3) % 7 + 1

/-- The Thursday of the week that day `z` is in. -/
def thursdayOf (z : Int) : Int := z + (4 - isoWeekday z)

theorem isoWeekday_bounds (z : Int) : 1 ≤ isoWeekday z ∧ isoWeekday z ≤ 7 := by
  unfold isoWeekday
  omega

theorem isoWeekday_thursdayOf (z : Int) : isoWeekday (thursdayOf z) = 4 := by
  unfold thursdayOf isoWeekday
  omega

/-- A week number counts the Thursdays of its year. -/
structure IsWeekDate (z : Int) (w : WeekDate) : Prop where
  year : newYear w.year ≤ thursdayOf z ∧ thursdayOf z < newYear (w.year + 1)
  week : w.week = (thursdayOf z - newYear w.year) / 7 + 1
  weekday : w.weekday = isoWeekday z

instance : LT WeekDate :=
  ⟨fun w w' => w.year < w'.year ∨
    w.year = w'.year ∧ (w.week < w'.week ∨ w.week = w'.week ∧ w.weekday < w'.weekday)⟩

theorem IsWeekDate.lt (h : IsWeekDate z w) (h' : IsWeekDate z' w') (hlt : z < z') : w < w' := by
  obtain ⟨hyear, hweek, hday⟩ := h
  obtain ⟨hyear', hweek', hday'⟩ := h'
  have hth : thursdayOf z ≤ thursdayOf z' := by
    unfold thursdayOf isoWeekday
    omega
  have hle : w.year < w'.year + 1 := newYear_strictMono.lt_iff_lt.1 (by omega)
  rcases Int.lt_or_eq_of_le (Int.lt_add_one_iff.1 hle) with hy | hy
  · exact Or.inl hy
  · refine Or.inr ⟨hy, ?_⟩
    rw [hweek, hweek', hday, hday', hy]
    unfold thursdayOf isoWeekday at *
    omega

theorem WeekDate.lt_asymm (h : w < w') : ¬ w' < w := by
  change w.year < w'.year ∨
    w.year = w'.year ∧ (w.week < w'.week ∨ w.week = w'.week ∧ w.weekday < w'.weekday) at h
  change ¬ (w'.year < w.year ∨
    w'.year = w.year ∧ (w'.week < w.week ∨ w'.week = w.week ∧ w'.weekday < w.weekday))
  omega

theorem IsWeekDate.lt_iff (h : IsWeekDate z w) (h' : IsWeekDate z' w') : w < w' ↔ z < z' := by
  constructor
  · intro hlt
    rcases lt_trichotomy z z' with hz | rfl | hz
    · exact hz
    · have hyear := year_unique h.year h'.year
      have hsame : w = w' := by
        obtain ⟨y, k, d⟩ := w
        obtain ⟨y', k', d'⟩ := w'
        obtain rfl : y = y' := hyear
        rw [WeekDate.mk.injEq]
        exact ⟨rfl, h.week.trans h'.week.symm, h.weekday.trans h'.weekday.symm⟩
      subst hsame
      exact absurd hlt (WeekDate.lt_asymm hlt)
    · exact absurd (h'.lt h hz) (WeekDate.lt_asymm hlt)
  · exact h.lt h'

theorem IsWeekDate.injective (h : IsWeekDate z w) (h' : IsWeekDate z' w') (hsame : w = w') :
    z = z' := by
  rcases lt_trichotomy z z' with hz | hz | hz
  · have hlt := h.lt h' hz
    exact absurd (hsame ▸ hlt) (WeekDate.lt_asymm hlt)
  · exact hz
  · have hlt := h'.lt h hz
    exact absurd (hsame ▸ hlt) (WeekDate.lt_asymm hlt)

theorem IsWeekDate.week_bounds (h : IsWeekDate z w) : 1 ≤ w.week ∧ w.week ≤ 53 := by
  obtain ⟨hyear, hweek, -⟩ := h
  have hsucc := newYear_succ w.year
  split_ifs at hsucc
  · omega
  · omega

/-- Week `k` is the week of the `k`-th Thursday. -/
theorem IsWeekDate.nth_thursday (h : IsWeekDate z w) :
    newYear w.year + 7 * (w.week - 1) ≤ thursdayOf z ∧
      thursdayOf z < newYear w.year + 7 * w.week := by
  rw [h.week]
  omega

theorem IsWeekDate.first_week (h : IsWeekDate z w) :
    w.week = 1 ↔ ∀ t, isoWeekday t = 4 → newYear w.year ≤ t → thursdayOf z ≤ t := by
  have hnth := h.nth_thursday
  have hpos := h.week_bounds.1
  have hth := isoWeekday_thursdayOf z
  constructor
  · intro hone t ht hle
    unfold isoWeekday at ht hth
    omega
  · intro hfirst
    by_contra hne
    have hback : isoWeekday (thursdayOf z - 7) = 4 := by
      unfold isoWeekday at hth ⊢
      omega
    have := hfirst (thursdayOf z - 7) hback (by omega)
    omega

/-! ## Long years -/

/-- A year that begins on a Thursday, or is leap and begins on a Wednesday. -/
def IsLong (y : Int) : Prop :=
  isoWeekday (newYear y) = 4 ∨ calIsLeap y = true ∧ isoWeekday (newYear y) = 3

/-- The 53rd Thursday of year `y`, when there is one. -/
def lastThursday (y : Int) : Int := newYear y + 364 + (4 - isoWeekday (newYear y))

theorem isLong_of_week53 (h : IsWeekDate z w) (hw : w.week = 53) : IsLong w.year := by
  have hnth := h.nth_thursday
  have hlast := h.year.2
  have hth := isoWeekday_thursdayOf z
  have hsucc := newYear_succ w.year
  unfold IsLong
  by_cases hleap : calIsLeap w.year = true
  · rw [if_pos hleap] at hsucc
    unfold isoWeekday at hth ⊢
    rcases (by omega : (newYear w.year + 3) % 7 + 1 = 4 ∨ (newYear w.year + 3) % 7 + 1 = 3)
      with hday | hday
    · exact Or.inl hday
    · exact Or.inr ⟨hleap, hday⟩
  · rw [if_neg hleap] at hsucc
    left
    unfold isoWeekday at hth ⊢
    omega

theorem isoWeekday_lastThursday (y : Int) : isoWeekday (lastThursday y) = 4 := by
  unfold lastThursday isoWeekday
  omega

theorem thursdayOf_lastThursday (y : Int) : thursdayOf (lastThursday y) = lastThursday y := by
  have hday := isoWeekday_lastThursday y
  unfold thursdayOf
  omega

theorem IsLong.isWeekDate (h : IsLong y) : IsWeekDate (lastThursday y) ⟨y, 53, 4⟩ := by
  have hsucc := newYear_succ y
  have hday := isoWeekday_lastThursday y
  have hself := thursdayOf_lastThursday y
  have hlast : newYear y + 364 ≤ lastThursday y ∧ lastThursday y < newYear (y + 1) ∧
      lastThursday y ≤ newYear y + 365 := by
    unfold lastThursday
    rcases h with hthu | ⟨hleap, hwed⟩
    · split_ifs at hsucc
      · omega
      · omega
    · rw [if_pos hleap] at hsucc
      omega
  refine ⟨?_, ?_, hday.symm⟩
  · show newYear y ≤ _ ∧ _ < newYear (y + 1)
    omega
  · show 53 = (thursdayOf (lastThursday y) - newYear y) / 7 + 1
    omega

/-! ## In 64 bits -/

theorem calWeekdayIso_eq_some : calWeekdayIso z = some d ↔ Fits 64 (z + 3) ∧ d = isoWeekday z := by
  have hmod : calFloorMod (z + 3) 7 = some ((z + 3) % 7) :=
    calFloorMod_eq (by decide) (fits_64.2 (by omega))
  have hsucc : add 64 ((z + 3) % 7) 1 = some ((z + 3) % 7 + 1) :=
    add_of_fits (fits_64.2 (by omega))
  constructor
  · intro h
    obtain ⟨t, ht, h⟩ := Option.bind_eq_some_iff.1 h
    obtain ⟨hfit, rfl⟩ := add_eq_some.1 ht
    obtain ⟨r, hr, h⟩ := Option.bind_eq_some_iff.1 h
    rw [hmod, Option.some.injEq] at hr
    subst hr
    rw [hsucc, Option.some.injEq] at h
    exact ⟨hfit, h.symm⟩
  · rintro ⟨hfit, rfl⟩
    exact (bind_of_eq (add_of_fits hfit) _).trans <| (bind_of_eq hmod _).trans hsucc

theorem calDaysFromCivil_fits (h : calDaysFromCivil y m d = some z) : Fits 64 z := by
  -- the sixteen steps before the last subtraction
  iterate 16 obtain ⟨_, -, h⟩ := Option.bind_eq_some_iff.1 h
  obtain ⟨hfit, rfl⟩ := sub_eq_some.1 h
  exact hfit

theorem calDaysFromCivil_newYear (hy : Fits 64 (newYear y)) (h : Fits 64 (newYear y + 719468)) :
    calDaysFromCivil y 1 1 = some (newYear y) := by
  refine calDaysFromCivil_of_fits (january_valid y) hy h fun _ => ?_
  rw [fits_64] at hy h ⊢
  show _ ≤ newYear y + 719468 - (146097 - 1) ∧ newYear y + 719468 - (146097 - 1) < _
  omega

theorem calWeekDate_eq_some (hz : Fits 64 z) :
    calWeekDate z = some w ↔ IsWeekDate z w ∧ Fits 64 (newYear w.year) ∧
      Fits 64 (thursdayOf z + 719468) := by
  have hdow := isoWeekday_bounds z
  have hup : sub 64 4 (isoWeekday z) = some (4 - isoWeekday z) :=
    sub_of_fits (fits_64.2 (by omega))
  rw [fits_64] at hz
  constructor
  · intro h
    obtain ⟨dow, hd, h⟩ := Option.bind_eq_some_iff.1 h
    obtain ⟨-, rfl⟩ := calWeekdayIso_eq_some.1 hd
    obtain ⟨up, hu, h⟩ := Option.bind_eq_some_iff.1 h
    rw [hup, Option.some.injEq] at hu
    subst hu
    obtain ⟨thursday, ht, h⟩ := Option.bind_eq_some_iff.1 h
    obtain ⟨-, rfl⟩ := add_eq_some.1 ht
    obtain ⟨th, hth, h⟩ := Option.bind_eq_some_iff.1 h
    obtain ⟨hvalid, hnumber⟩ := calCivilFromDays_eq hth
    have hfit := (calCivilFromDays_fits hth).1
    obtain ⟨jan1, hjan, h⟩ := Option.bind_eq_some_iff.1 h
    have hjfit := calDaysFromCivil_fits hjan
    obtain rfl : jan1 = newYear th.year := calDaysFromCivil_eq (by decide) hjan
    obtain ⟨diff, hdiff, h⟩ := Option.bind_eq_some_iff.1 h
    obtain ⟨-, rfl⟩ := sub_eq_some.1 hdiff
    obtain ⟨weeks, hweeks, h⟩ := Option.bind_eq_some_iff.1 h
    have hyear := dayNumber_in_year hvalid
    rw [hnumber] at hyear
    obtain ⟨-, hq⟩ := (div_eq_some (by decide)).1 hweeks
    rw [Int.tdiv_eq_ediv_of_nonneg (by omega)] at hq
    subst hq
    obtain ⟨week, hw, h⟩ := Option.bind_eq_some_iff.1 h
    obtain ⟨-, rfl⟩ := add_eq_some.1 hw
    obtain rfl := Option.some.inj h
    exact ⟨⟨hyear, rfl, rfl⟩, hjfit, hfit⟩
  · rintro ⟨⟨hyear, hweek, hday⟩, hjfit, hfit⟩
    have hthursday : z + (4 - isoWeekday z) = thursdayOf z := rfl
    rw [fits_64] at hjfit hfit
    have hdays : calWeekdayIso z = some (isoWeekday z) :=
      calWeekdayIso_eq_some.2 ⟨fits_64.2 (by omega), rfl⟩
    have hstep : add 64 z (4 - isoWeekday z) = some (thursdayOf z) :=
      add_of_fits (fits_64.2 (by omega))
    obtain ⟨th, hth, hvalid, hnumber⟩ := calCivilFromDays_of_fits (z := thursdayOf z)
      (fits_64.2 hfit) fun _ => fits_64.2 (by omega)
    have hin := dayNumber_in_year hvalid
    rw [hnumber] at hin
    have hsame := year_unique hin hyear
    have hjan : calDaysFromCivil th.year 1 1 = some (newYear w.year) := by
      rw [hsame]
      exact calDaysFromCivil_newYear (fits_64.2 hjfit) (fits_64.2 (by omega))
    have hsucc := newYear_succ w.year
    have hdiff : sub 64 (thursdayOf z) (newYear w.year) = some (thursdayOf z - newYear w.year) := by
      refine sub_of_fits (fits_64.2 ?_)
      split_ifs at hsucc
      · omega
      · omega
    have hfit7 : Fits 64 (thursdayOf z - newYear w.year) := (sub_eq_some.1 hdiff).1
    have hweeks : div 64 (thursdayOf z - newYear w.year) 7 =
        some ((thursdayOf z - newYear w.year) / 7) := div_of_nonneg (by omega) (by decide) hfit7
    rw [fits_64] at hfit7
    have hlast : add 64 ((thursdayOf z - newYear w.year) / 7) 1 = some w.week := by
      rw [hweek]
      exact add_of_fits (fits_64.2 (by omega))
    refine (bind_of_eq hdays _).trans <| (bind_of_eq hup _).trans <| (bind_of_eq hstep _).trans <|
      (bind_of_eq hth _).trans <| (bind_of_eq hjan _).trans <| (bind_of_eq hdiff _).trans <|
      (bind_of_eq hweeks _).trans <| (bind_of_eq hlast _).trans ?_
    rw [hsame, ← hday]

theorem calWeekDate_thursday (hz : Fits 64 z) (h : calWeekDate z = some w) :
    ∃ c : Date, c.Valid ∧ dayNumber c = thursdayOf z ∧ c.year = w.year := by
  obtain ⟨hw, hfit, hth⟩ := (calWeekDate_eq_some hz).1 h
  have hyear := hw.year
  rw [fits_64] at hfit
  obtain ⟨c, -, hvalid, hnumber⟩ := calCivilFromDays_of_fits hth fun _ => by
    rw [fits_64] at hth ⊢
    omega
  have hin := dayNumber_in_year hvalid
  rw [hnumber] at hin
  exact ⟨c, hvalid, hnumber, year_unique hin hyear⟩

theorem calWeekOf_eq_some (hc : c.Valid) (h : calWeekOf c = some w) :
    IsWeekDate (dayNumber c) w := by
  obtain ⟨z, hz, h⟩ := Option.bind_eq_some_iff.1 h
  obtain rfl : z = dayNumber c := calDaysFromCivil_eq (c.valid_iff.1 hc).1 hz
  exact ((calWeekDate_eq_some (calDaysFromCivil_fits hz)).1 h).1

/-! ## Week dates -/

/-- The week date of a day: when there is one, the year of its Thursday, weeks counted from the
first Thursday on, the order of days, and week 53 in the long years. -/
theorem iso_week_dates :
    (∀ z : Int, Fits 64 z → ((calWeekDate z).isSome = true ↔
      ∃ c : Date, c.Valid ∧ dayNumber c = thursdayOf z ∧ Fits 64 (newYear c.year) ∧
        Fits 64 (thursdayOf z + 719468))) ∧
    (∀ (z : Int) (w : WeekDate), Fits 64 z → calWeekDate z = some w →
      (∃ c : Date, c.Valid ∧ dayNumber c = thursdayOf z ∧ c.year = w.year) ∧
      (1 ≤ w.week ∧ w.week ≤ 53) ∧ w.weekday = isoWeekday z ∧
      (w.week = 1 ↔ ∀ t, isoWeekday t = 4 → newYear w.year ≤ t → thursdayOf z ≤ t) ∧
      newYear w.year + 7 * (w.week - 1) ≤ thursdayOf z ∧
      thursdayOf z < newYear w.year + 7 * w.week) ∧
    (∀ (z z' : Int) (w w' : WeekDate), Fits 64 z → Fits 64 z' → calWeekDate z = some w →
      calWeekDate z' = some w' → (z < z' ↔ w < w') ∧ (w = w' → z = z')) ∧
    (∀ (z : Int) (w : WeekDate), Fits 64 z → calWeekDate z = some w → w.week = 53 →
      IsLong w.year) ∧
    (∀ y : Int, IsLong y → Fits 64 (newYear y) → Fits 64 (lastThursday y + 719468) →
      calWeekDate (lastThursday y) = some ⟨y, 53, 4⟩) ∧
    ∀ (c c' : Date) (w w' : WeekDate), c.Valid → c'.Valid → calWeekOf c = some w →
      calWeekOf c' = some w' → (c < c' ↔ w < w') ∧ (w = w' → c = c') := by
  refine ⟨?_, ?_, ?_, ?_, ?_, ?_⟩
  · intro z hz
    rw [Option.isSome_iff_exists]
    constructor
    · rintro ⟨w, h⟩
      obtain ⟨c, hvalid, hnumber, hyear⟩ := calWeekDate_thursday hz h
      obtain ⟨-, hfit, hth⟩ := (calWeekDate_eq_some hz).1 h
      exact ⟨c, hvalid, hnumber, hyear ▸ hfit, hth⟩
    · rintro ⟨c, hvalid, hnumber, hfit, hth⟩
      have hin := dayNumber_in_year hvalid
      rw [hnumber] at hin
      exact ⟨⟨c.year, (thursdayOf z - newYear c.year) / 7 + 1, isoWeekday z⟩,
        (calWeekDate_eq_some hz).2 ⟨⟨hin, rfl, rfl⟩, hfit, hth⟩⟩
  · intro z w hz h
    have hw := ((calWeekDate_eq_some hz).1 h).1
    exact ⟨calWeekDate_thursday hz h, hw.week_bounds, hw.weekday, hw.first_week, hw.nth_thursday⟩
  · intro z z' w w' hz hz' h h'
    have hw := ((calWeekDate_eq_some hz).1 h).1
    have hw' := ((calWeekDate_eq_some hz').1 h').1
    exact ⟨(hw.lt_iff hw').symm, hw.injective hw'⟩
  · intro z w hz h
    exact isLong_of_week53 ((calWeekDate_eq_some hz).1 h).1
  · intro y hy hfit hlast
    have hw := hy.isWeekDate
    have hself := thursdayOf_lastThursday y
    have hyear : newYear y ≤ lastThursday y := hself ▸ hw.year.1
    have hz : Fits 64 (lastThursday y) := by
      rw [fits_64] at hfit hlast ⊢
      omega
    exact (calWeekDate_eq_some hz).2 ⟨hw, hfit, hself.symm ▸ hlast⟩
  · intro c c' w w' hc hc' h h'
    have hw := calWeekOf_eq_some hc h
    have hw' := calWeekOf_eq_some hc' h'
    rw [dayNumber_lt_iff hc hc']
    exact ⟨(hw.lt_iff hw').symm, fun hsame => dayNumber_injective hc hc' (hw.injective hw' hsame)⟩

/-- The last day numbers have no week date. -/
theorem iso_week_dates_overflow :
    ¬ ∀ z : Int, Fits 64 z → ∃ w, calWeekDate z = some w := by
  intro h
  obtain ⟨w, hw⟩ := h 9223372036854775807 (by decide)
  have hnone : calWeekDate 9223372036854775807 = none := by decide
  rw [hnone] at hw
  cases hw

example : calWeekOf ⟨2027, 1, 1⟩ = some ⟨2026, 53, 5⟩ := by decide

end Calendar

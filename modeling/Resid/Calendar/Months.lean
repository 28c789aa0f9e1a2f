import Resid.Calendar.Weeks

/-!
# Adding months

A date moved by `n` months keeps its day, or takes the last one of the month it comes to.  Over
unbounded integers that is `addMonths`; the function computes it wherever the month's number from
January of year 0 stays inside 64 bits.

    calAddMonths c n = some r ↔ the three sums fit, and r = addMonths c n   (calAddMonths_eq_some)
    c ≤ c' → n ≤ n' → addMonths c n ≤ addMonths c' n'                       (addMonths_mono)
    c.day ≤ days of the month n away → adding n, then m, is adding n + m    (addMonths_add)
-/

namespace Calendar

open CheckedInt

/-! ## Algorithm -/

def calAddMonths (dt : Date) (n : Int) : Option Date := do
  let years ← mul 64 dt.year 12
  let months ← sub 64 dt.month 1
  let start ← add 64 years months
  let total ← add 64 start n
  let ny ← calFloorDiv total 12
  let r ← calFloorMod total 12
  let nm ← add 64 r 1
  let dim := calDaysInMonth ny nm
  let nd := if dt.day > dim then dim else dt.day
  some ⟨ny, nm, nd⟩

/-! ## Over unbounded integers -/

instance : LE Date := ⟨fun c c' => c < c' ∨ c = c'⟩

/-- `c` moved by `n` months. -/
def addMonths (c : Date) (n : Int) : Date :=
  let total := c.year * 12 + (c.month - 1) + n
  ⟨total / 12, total % 12 + 1, min c.day (calDaysInMonth (total / 12) (total % 12 + 1))⟩

theorem monthIndex_addMonths (c : Date) (n : Int) :
    monthIndex (addMonths c n).year (addMonths c n).month = monthIndex c.year c.month + n := by
  unfold monthIndex addMonths
  dsimp only
  omega

theorem addMonths_month (c : Date) (n : Int) :
    1 ≤ (addMonths c n).month ∧ (addMonths c n).month ≤ 12 := by
  unfold addMonths
  dsimp only
  omega

theorem addMonths_day (c : Date) (n : Int) : (addMonths c n).day =
    min c.day (calDaysInMonth (addMonths c n).year (addMonths c n).month) := rfl

variable {c c' : Date} {n : Int}

theorem addMonths_valid (h : c.Valid) (n : Int) : (addMonths c n).Valid := by
  have hmonth := addMonths_month c n
  have hdays := calDaysInMonth_bounds (y := (addMonths c n).year) hmonth
  have hpos := (c.valid_iff.1 h).2.1
  have hday := addMonths_day c n
  have hfirst : 1 ≤ (addMonths c n).day := by omega
  have hlast : (addMonths c n).day ≤
      calDaysInMonth (addMonths c n).year (addMonths c n).month := by omega
  exact month_valid hmonth hfirst hlast

/-- A date is its month's number and its day. -/
theorem Date.ext_index (h : 1 ≤ c.month ∧ c.month ≤ 12) (h' : 1 ≤ c'.month ∧ c'.month ≤ 12)
    (hidx : monthIndex c.year c.month = monthIndex c'.year c'.month) (hday : c.day = c'.day) :
    c = c' := by
  obtain ⟨y, m, d⟩ := c
  unfold monthIndex at hidx
  dsimp only at h h' hidx hday
  rw [Date.mk.injEq]
  omega

theorem Date.le_iff_index (h : 1 ≤ c.month ∧ c.month ≤ 12) (h' : 1 ≤ c'.month ∧ c'.month ≤ 12) :
    c ≤ c' ↔ monthIndex c.year c.month < monthIndex c'.year c'.month ∨
      monthIndex c.year c.month = monthIndex c'.year c'.month ∧ c.day ≤ c'.day := by
  obtain ⟨y, m, d⟩ := c
  obtain ⟨y', m', d'⟩ := c'
  show (y < y' ∨ y = y' ∧ (m < m' ∨ m = m' ∧ d < d')) ∨ Date.mk y m d = Date.mk y' m' d' ↔ _
  rw [Date.mk.injEq]
  unfold monthIndex
  dsimp only at h h' ⊢
  omega

theorem addMonths_mono (h : c.Valid) (h' : c'.Valid) {n' : Int} (hc : c ≤ c') (hn : n ≤ n') :
    addMonths c n ≤ addMonths c' n' := by
  have hidx := monthIndex_addMonths c n
  have hidx' := monthIndex_addMonths c' n'
  rw [Date.le_iff_index (c.valid_iff.1 h).1 (c'.valid_iff.1 h').1] at hc
  rw [Date.le_iff_index (addMonths_month c n) (addMonths_month c' n'), hidx, hidx']
  rcases hc with hlt | ⟨heq, hday⟩
  · left
    omega
  · rcases Int.lt_or_eq_of_le hn with hlt | rfl
    · left
      omega
    · right
      have hsame : monthDays (monthIndex (addMonths c n).year (addMonths c n).month) =
          monthDays (monthIndex (addMonths c' n).year (addMonths c' n).month) := by
        rw [hidx, hidx', heq]
      rw [monthDays_monthIndex (addMonths_month c n),
        monthDays_monthIndex (addMonths_month c' n)] at hsame
      rw [addMonths_day, addMonths_day, hsame]
      omega

/-- Adding in two steps, the first without clamping. -/
theorem addMonths_add (hday : (addMonths c n).day = c.day) (m : Int) :
    addMonths (addMonths c n) m = addMonths c (n + m) := by
  have hidx : monthIndex (addMonths (addMonths c n) m).year (addMonths (addMonths c n) m).month =
      monthIndex (addMonths c (n + m)).year (addMonths c (n + m)).month := by
    rw [monthIndex_addMonths, monthIndex_addMonths, monthIndex_addMonths]
    omega
  have hdays := congrArg monthDays hidx
  rw [monthDays_monthIndex (addMonths_month _ m), monthDays_monthIndex (addMonths_month c _)]
    at hdays
  refine Date.ext_index (addMonths_month _ m) (addMonths_month c _) hidx ?_
  rw [addMonths_day (addMonths c n) m, hday, hdays, addMonths_day c (n + m)]

theorem addMonths_zero (h : c.Valid) : addMonths c 0 = c := by
  obtain ⟨hm, -, hlast⟩ := c.valid_iff.1 h
  have hidx := monthIndex_addMonths c 0
  rw [Int.add_zero] at hidx
  have hdays := congrArg monthDays hidx
  rw [monthDays_monthIndex (addMonths_month c 0)] at hdays
  refine Date.ext_index (addMonths_month c 0) hm hidx ?_
  rw [addMonths_day, hdays]
  omega

theorem addMonths_undone (h : c.Valid) (hday : c.day ≤ 28) (n : Int) :
    addMonths (addMonths c n) (-n) = c := by
  have hlow := (calDaysInMonth_bounds (y := (addMonths c n).year) (addMonths_month c n)).1
  have hkept : (addMonths c n).day = c.day := by
    rw [addMonths_day]
    omega
  rw [addMonths_add hkept, show n + -n = 0 by omega, addMonths_zero h]

/-! ## In 64 bits -/

/-- The three sums from which the month is divided. -/
def MonthsFit (c : Date) (n : Int) : Prop :=
  Fits 64 (c.year * 12) ∧ Fits 64 (c.year * 12 + (c.month - 1)) ∧
    Fits 64 (c.year * 12 + (c.month - 1) + n)

theorem calAddMonths_eq_some (h : c.Valid) {r : Date} :
    calAddMonths c n = some r ↔ MonthsFit c n ∧ r = addMonths c n := by
  have hm := (c.valid_iff.1 h).1
  have hmonths : sub 64 c.month 1 = some (c.month - 1) := sub_of_fits (fits_64.2 (by omega))
  by_cases hfit : MonthsFit c n
  · obtain ⟨hyears, hstart, htotal⟩ := hfit
    have hdiv := calFloorDiv_eq (b := 12) (by decide) htotal
    have hmod := calFloorMod_eq (a := c.year * 12 + (c.month - 1) + n) (b := 12) (by decide)
      (fits_64.2 (by decide))
    have hnm : add 64 ((c.year * 12 + (c.month - 1) + n) % 12) 1 =
        some ((c.year * 12 + (c.month - 1) + n) % 12 + 1) := add_of_fits (fits_64.2 (by omega))
    have heq : calAddMonths c n = some (addMonths c n) := by
      refine (bind_of_eq (mul_of_fits hyears) _).trans <| (bind_of_eq hmonths _).trans <|
        (bind_of_eq (add_of_fits hstart) _).trans <| (bind_of_eq (add_of_fits htotal) _).trans <|
        (bind_of_eq hdiv _).trans <| (bind_of_eq hmod _).trans <| (bind_of_eq hnm _).trans ?_
      refine congrArg some ?_
      rw [Date.mk.injEq]
      refine ⟨rfl, rfl, ?_⟩
      show (if c.day > calDaysInMonth (addMonths c n).year (addMonths c n).month then _ else _) = _
      split_ifs with hgt
      · exact (min_eq_right hgt.le).symm
      · exact (min_eq_left (not_lt.1 hgt)).symm
    rw [heq, Option.some.injEq]
    exact ⟨fun hr => ⟨⟨hyears, hstart, htotal⟩, hr.symm⟩, fun hr => hr.2.symm⟩
  · refine iff_of_false ?_ fun hr => hfit hr.1
    intro hr
    obtain ⟨years, hyears, hr⟩ := Option.bind_eq_some_iff.1 hr
    obtain ⟨months, hms, hr⟩ := Option.bind_eq_some_iff.1 hr
    obtain ⟨start, hstart, hr⟩ := Option.bind_eq_some_iff.1 hr
    obtain ⟨total, htotal, -⟩ := Option.bind_eq_some_iff.1 hr
    obtain ⟨hf1, rfl⟩ := mul_eq_some.1 hyears
    rw [hmonths, Option.some.injEq] at hms
    subst hms
    obtain ⟨hf2, rfl⟩ := add_eq_some.1 hstart
    exact hfit ⟨hf1, hf2, (add_eq_some.1 htotal).1⟩

/-- Month arithmetic wherever the month's number stays inside 64 bits, and only there. -/
theorem add_months :
    (∀ (c : Date) (n : Int), c.Valid → ((calAddMonths c n).isSome = true ↔ MonthsFit c n)) ∧
    (∀ (c r : Date) (n : Int), c.Valid → calAddMonths c n = some r →
      r.Valid ∧ monthIndex r.year r.month = monthIndex c.year c.month + n ∧
        r.day = min c.day (calDaysInMonth r.year r.month)) ∧
    (∀ (c c' r r' : Date) (n n' : Int), c.Valid → c'.Valid → c ≤ c' → n ≤ n' →
      calAddMonths c n = some r → calAddMonths c' n' = some r' → r ≤ r') ∧
    (∀ (c r r' : Date) (n : Int), c.Valid → c.day ≤ 28 → calAddMonths c n = some r →
      calAddMonths r (-n) = some r' → r' = c) ∧
    ∀ (c r r' r'' : Date) (n m : Int), c.Valid → calAddMonths c n = some r → r.day = c.day →
      calAddMonths r m = some r' → calAddMonths c (n + m) = some r'' → r' = r'' := by
  refine ⟨?_, ?_, ?_, ?_, ?_⟩
  · intro c n hc
    rw [Option.isSome_iff_exists]
    constructor
    · rintro ⟨r, hr⟩
      exact ((calAddMonths_eq_some hc).1 hr).1
    · exact fun hfit => ⟨_, (calAddMonths_eq_some hc).2 ⟨hfit, rfl⟩⟩
  · intro c r n hc hr
    obtain ⟨-, rfl⟩ := (calAddMonths_eq_some hc).1 hr
    exact ⟨addMonths_valid hc n, monthIndex_addMonths c n, addMonths_day c n⟩
  · intro c c' r r' n n' hc hc' hle hn hr hr'
    obtain ⟨-, rfl⟩ := (calAddMonths_eq_some hc).1 hr
    obtain ⟨-, rfl⟩ := (calAddMonths_eq_some hc').1 hr'
    exact addMonths_mono hc hc' hle hn
  · intro c r r' n hc hday hr hr'
    obtain ⟨-, rfl⟩ := (calAddMonths_eq_some hc).1 hr
    obtain ⟨-, rfl⟩ := (calAddMonths_eq_some (addMonths_valid hc n)).1 hr'
    exact addMonths_undone hc hday n
  · intro c r r' r'' n m hc hr hday hr' hr''
    obtain ⟨-, rfl⟩ := (calAddMonths_eq_some hc).1 hr
    obtain ⟨-, rfl⟩ := (calAddMonths_eq_some (addMonths_valid hc n)).1 hr'
    obtain ⟨-, rfl⟩ := (calAddMonths_eq_some hc).1 hr''
    exact addMonths_add hday m

/-- A year whose months do not fit: nothing is returned, though the date exists. -/
theorem add_months_overflow : ¬ ∀ (c : Date) (n : Int), c.Valid → Fits 64 c.year → Fits 64 n →
    ∃ r, calAddMonths c n = some r := by
  intro h
  obtain ⟨r, hr⟩ := h ⟨9223372036854775807, 1, 1⟩ 0 (by decide) (by decide) (by decide)
  have hnone : calAddMonths ⟨9223372036854775807, 1, 1⟩ 0 = none := by decide
  cases hr

example : calAddMonths ⟨-1, 3, 31⟩ (-13) = some ⟨-2, 2, 28⟩ := by decide

end Calendar

import Resid.Lib.Multiples
import Resid.Duration.Division

/-!
# Snapping spans to a unit

A span rounded down, up or to the nearest multiple of a unit, counted in it and split by it.
A unit below a second divides a second, so the units of all its seconds are counted; a longer
one is a number of seconds, and the fraction decides only where to round.

    the steps fit → spanSnap s k mode = some (ofTotal (snapped …))         (spanSnap_subSecond)
                                                                            (spanSnap_seconds)
    every verb gives the exact answer it can represent ↔ SnapFits s u              (snaps_iff)

The units of all the seconds overflow for a span of some thousand years in microseconds,
although the snapped span is no longer than the span; the seconds of the floor overflow at the
least seconds, although the ceiling does not; and the nanoseconds of the seconds alone overflow
at the least total.

## Algorithm

The quotient that steps are added to is the floor already.
-/

namespace Duration

open CheckedInt Calendar Multiples

/-- `s` rounded down to a whole multiple of `u`. -/
def spanFloorTo (s : Span) (u : Unit) : Option Span := spanSnap s (unitNanos u) 0

/-- `s` rounded up to a whole multiple of `u`. -/
def spanCeilTo (s : Span) (u : Unit) : Option Span := spanSnap s (unitNanos u) 1

/-- `s` rounded to the nearest multiple of `u`, halves away from zero. -/
def spanRoundTo (s : Span) (u : Unit) : Option Span := spanSnap s (unitNanos u) 2

/-! ## Steps over the floor -/

/-- The units a mode adds to the floor of `x`. -/
def modeStep (mode k x : Int) : Int :=
  if mode = 0 then 0 else if mode = 1 then ceilStep k x else roundStep k x

/-- The multiple of `k` that a mode snaps `x` to. -/
def snapped (mode k x : Int) : Int := (x / k + modeStep mode k x) * k

theorem modeStep_bounds (mode k x : Int) : 0 ≤ modeStep mode k x ∧ modeStep mode k x ≤ 1 := by
  unfold modeStep ceilStep roundStep
  split_ifs <;> omega

theorem snapStep_eq {s : Span} {k : Int} (mode : Int) (hs : Normalized s)
    (h : Fits 64 (total s % k * 2)) :
    snapStep (total s % k) k mode (s.seconds < 0) = some (modeStep mode k (total s)) := by
  have hneg : decide (s.seconds < 0) = decide (total s < 0) := by
    obtain ⟨h0, h1⟩ := hs
    rw [decide_eq_decide, total]
    omega
  unfold snapStep modeStep
  rw [hneg]
  by_cases h0 : mode = 0
  · rw [if_pos h0, if_pos h0]
  rw [if_neg h0, if_neg h0]
  by_cases h1 : mode = 1
  · rw [if_pos h1, if_pos h1, ceilStep]
  rw [if_neg h1, if_neg h1, mul_of_fits h, roundStep]
  by_cases hx : total s < 0 <;> simp [hx]

/-! ## Units below a second -/

/-- `per` units of `k` nanoseconds make a second. -/
structure SubSecond (k per : Int) : Prop where
  unit : 1 < k
  many : 1 < per
  second : per * k = 1000000000

section SubSecond

variable {k per : Int} (hk : SubSecond k per)

include hk

theorem SubSecond.below : k < 1000000000 := by
  obtain ⟨h1, h2, h3⟩ := hk
  have hmul := Int.mul_le_mul_of_nonneg_right (show (2 : Int) ≤ per by omega)
    (show 0 ≤ k by omega)
  omega

theorem SubSecond.per_eq : div 64 1000000000 k = some per := by
  have hunit := hk.unit
  rw [div_of_nonneg (by decide) (by omega) (by decide), ← hk.second,
    Int.mul_ediv_cancel _ (by omega)]

theorem SubSecond.per_below : per < 1000000000 := by
  obtain ⟨h1, h2, h3⟩ := hk
  have hmul := Int.mul_le_mul_of_nonneg_left (show (2 : Int) ≤ k by omega)
    (show 0 ≤ per by omega)
  omega

/-- The units of the length, and what is left of one. -/
theorem units_eq (s : Span) : total s / k = s.seconds * per + s.nanoseconds / k ∧
    total s % k = s.nanoseconds % k := by
  have hunit := hk.unit
  have hx : total s = s.nanoseconds + s.seconds * per * k := by
    rw [Int.mul_assoc, hk.second]
    exact Int.add_comm _ _
  constructor
  · rw [hx, Int.add_mul_ediv_right _ _ (by omega)]
    omega
  · rw [hx, Int.add_mul_emod_self_right]

variable {s : Span} (hs : Stored s)

include hs

theorem nanos_units_bounds : 0 ≤ s.nanoseconds / k ∧ s.nanoseconds / k < per := by
  have hunit := hk.unit
  obtain ⟨h0, h1⟩ := hs.norm
  constructor
  · exact Int.ediv_nonneg h0 (by omega)
  · exact Int.ediv_lt_of_lt_mul (by omega) (by rw [hk.second]; omega)

theorem div_nanos : div 64 s.nanoseconds k = some (s.nanoseconds / k) := by
  have hunit := hk.unit
  obtain ⟨h0, h1⟩ := hs.norm
  exact div_of_nonneg h0 (by omega) (by rw [fits_64]; omega)

theorem mod_nanos : mod 64 s.nanoseconds k = some (total s % k) := by
  have hunit := hk.unit
  rw [mod_of_nonneg hs.norm.1 (by omega), (units_eq hk s).2]

theorem snapStep_subSecond (mode : Int) :
    snapStep (total s % k) k mode (s.seconds < 0) = some (modeStep mode k (total s)) := by
  have hunit := hk.unit
  have hbelow := hk.below
  have hlo := Int.emod_nonneg (total s) (show k ≠ 0 by omega)
  have hhi := Int.emod_lt_of_pos (total s) (show 0 < k by omega)
  refine snapStep_eq mode hs.norm ?_
  rw [fits_64]
  omega

theorem spanSnap_subSecond (mode : Int) (hwhole : Fits 64 (s.seconds * per))
    (hunits : Fits 64 (total s / k)) (hsnap : Fits 64 (total s / k + modeStep mode k (total s))) :
    spanSnap s k mode = some (ofTotal (snapped mode k (total s))) := by
  have hunit := hk.unit
  have hmany := hk.many
  have hsecond := hk.second
  have hbelow := hk.below
  have hper := hk.per_below
  have hadd : add 64 (s.seconds * per) (s.nanoseconds / k) = some (total s / k) := by
    rw [(units_eq hk s).1] at hunits ⊢
    exact add_of_fits hunits
  generalize hy : total s / k + modeStep mode k (total s) = y at *
  have hdm : y.tdiv per * per + y.tmod per = y := Int.tdiv_mul_add_tmod y per
  obtain ⟨hym, hypos, hyneg⟩ := tmod_bounds y (show per ≠ 0 by omega)
  have hys : div 64 y per = some (y.tdiv per) := div_of_pos (by omega) hsnap
  obtain ⟨hprod, hdiff⟩ := seconds_parts_fit (show per ≠ 0 by omega) hsnap
  have hleft : y - y.tdiv per * per = y.tmod per := by omega
  have hscale : (y.tmod per * k).natAbs < 1000000000 := by
    have hlt : (y.tmod per).natAbs * k.natAbs < per.natAbs * k.natAbs :=
      Nat.mul_lt_mul_of_pos_right hym (by omega)
    rw [← Int.natAbs_mul, ← Int.natAbs_mul, hsecond] at hlt
    exact hlt
  have hnanos : mul 64 (y.tmod per) k = some (y.tmod per * k) :=
    mul_of_fits (by rw [fits_64]; omega)
  have hsec : (y.tdiv per).natAbs ≤ y.natAbs / 2 := by
    rw [Int.natAbs_tdiv]
    exact Nat.div_le_div_left (by omega) (by decide)
  have hval : y.tdiv per * 1000000000 + y.tmod per * k = y * k := by
    rw [← hsecond, ← Int.mul_assoc, ← Int.add_mul, hdm]
  have hfloor : floorToSpan (y.tdiv per) (y.tmod per * k) = some (ofTotal (y * k)) := by
    rw [fits_64] at hsnap
    rw [floorToSpan_eq (by rw [fits_64]; omega) (by rw [fits_64]; omega), hval]
  have hsum : add 64 (total s / k) (modeStep mode k (total s)) = some y := by
    rw [add_of_fits (by rwa [hy]), hy]
  unfold spanSnap snapped
  rw [if_neg (by omega), if_pos hbelow, hy]
  simp only [hk.per_eq, mul_of_fits hwhole, div_nanos hk hs, hadd,
    mod_nanos hk hs, snapStep_subSecond hk hs,
    hsum, hys, mul_of_fits hprod, sub_of_fits hdiff, hleft, hnanos, hfloor, some_bind]

/-- A snap that answers had its units fit. -/
theorem fits_of_spanSnap {mode : Int} {r : Span} (h : spanSnap s k mode = some r) :
    Fits 64 (s.seconds * per) ∧ Fits 64 (total s / k) ∧
      Fits 64 (total s / k + modeStep mode k (total s)) := by
  have hunit := hk.unit
  unfold spanSnap at h
  rw [if_neg (by omega), if_pos hk.below] at h
  simp only [hk.per_eq, div_nanos hk hs, mod_nanos hk hs, snapStep_subSecond hk hs,
    some_bind] at h
  obtain ⟨w, hw, h⟩ := Option.bind_eq_some_iff.1 h
  obtain ⟨hwfit, rfl⟩ := mul_eq_some.1 hw
  obtain ⟨y, hy, h⟩ := Option.bind_eq_some_iff.1 h
  obtain ⟨hyfit, rfl⟩ := add_eq_some.1 hy
  obtain ⟨z, hz, -⟩ := Option.bind_eq_some_iff.1 h
  rw [← (units_eq hk s).1] at hyfit hz
  exact ⟨hwfit, hyfit, (add_eq_some.1 hz).1⟩

end SubSecond

/-! ## Units of whole seconds -/

section Seconds

variable {us : Int} (hlo : 0 < us) (hhi : us ≤ 604800) {s : Span} (hs : Stored s)

include hlo

/-- The units of the length are those of its seconds. -/
theorem units_of_seconds (s : Span) (hn : Normalized s) :
    total s / (us * 1000000000) = s.seconds / us ∧
      total s % (us * 1000000000) = s.seconds % us * 1000000000 + s.nanoseconds := by
  obtain ⟨h0, h1⟩ := hn
  have hdm : s.seconds / us * us + s.seconds % us = s.seconds := Int.ediv_mul_add_emod _ _
  have hq : total s / (us * 1000000000) = s.seconds / us := by
    rw [Int.mul_comm, ← Int.ediv_ediv_of_nonneg (by decide)]
    congr 1
    unfold total
    omega
  refine ⟨hq, ?_⟩
  have hfloor := floor_add_rem (us * 1000000000) (total s)
  rw [hq, ← Int.mul_assoc] at hfloor
  unfold total at hfloor ⊢
  omega

theorem seconds_snap_branch (mode : Int) :
    spanSnap s (us * 1000000000) mode = (do
      let unitSec ← div 64 (us * 1000000000) 1000000000
      let q ← calFloorDiv s.seconds unitSec
      let rem ← sub 64 s.seconds (← mul 64 q unitSec)
      let size ← mul 64 unitSec 1000000000
      let past ← add 64 (← mul 64 rem 1000000000) s.nanoseconds
      let step ← snapStep past size mode (s.seconds < 0)
      let total ← mul 64 (← add 64 q step) unitSec
      floorToSpan total 0) := by
  unfold spanSnap
  rw [if_neg (by omega), if_neg (by omega)]

include hhi

theorem unitSec_eq : div 64 (us * 1000000000) 1000000000 = some us := by
  rw [div_of_nonneg (by omega) (by decide) (by rw [fits_64]; omega),
    Int.mul_ediv_cancel _ (by decide)]

include hs

theorem spanSnap_seconds (mode : Int) (hfloor : Fits 64 (s.seconds / us * us))
    (hrep : Representable (snapped mode (us * 1000000000) (total s))) :
    spanSnap s (us * 1000000000) mode =
      some (ofTotal (snapped mode (us * 1000000000) (total s))) := by
  obtain ⟨hquot, hrem⟩ := units_of_seconds hlo s hs.norm
  obtain ⟨hn0, hn1⟩ := hs.norm
  have hdm : s.seconds / us * us + s.seconds % us = s.seconds := Int.ediv_mul_add_emod _ _
  have hr0 := Int.emod_nonneg s.seconds hlo.ne'
  have hr1 := Int.emod_lt_of_pos s.seconds hlo
  have hq : calFloorDiv s.seconds us = some (s.seconds / us) := calFloorDiv_eq hlo hs.fits
  have hsub : sub 64 s.seconds (s.seconds / us * us) = some (s.seconds % us) := by
    have heq : s.seconds - s.seconds / us * us = s.seconds % us := by omega
    rw [sub_of_fits (by rw [heq, fits_64]; omega), heq]
  have hsize : mul 64 us 1000000000 = some (us * 1000000000) :=
    mul_of_fits (by rw [fits_64]; omega)
  have hscale : mul 64 (s.seconds % us) 1000000000 = some (s.seconds % us * 1000000000) :=
    mul_of_fits (by rw [fits_64]; omega)
  have hpast : add 64 (s.seconds % us * 1000000000) s.nanoseconds =
      some (total s % (us * 1000000000)) := by
    rw [hrem]
    exact add_of_fits (by rw [fits_64]; omega)
  have hstep := @snapStep_eq s (us * 1000000000) mode hs.norm (by rw [hrem, fits_64]; omega)
  have hsnap : snapped mode (us * 1000000000) (total s) =
      (s.seconds / us + modeStep mode (us * 1000000000) (total s)) * us * 1000000000 := by
    rw [snapped, hquot, Int.mul_assoc]
  obtain ⟨hst0, hst1⟩ := modeStep_bounds mode (us * 1000000000) (total s)
  unfold Representable at hrep
  rw [hsnap, Int.mul_ediv_cancel _ (by decide)] at hrep
  rw [hsnap]
  generalize modeStep mode (us * 1000000000) (total s) = st at *
  have hq0 : Fits 64 (s.seconds / us) := fits_ediv hlo hs.fits
  have hy : Fits 64 (s.seconds / us + st) := by
    -- a number of seconds that fits is no fewer units than one of them
    rw [fits_64] at hrep hq0 ⊢
    have hmul : (s.seconds / us + st) ≤ (s.seconds / us + st) * us ∨ s.seconds / us + st ≤ 0 := by
      rcases Int.le_total 0 (s.seconds / us + st) with h | h
      · exact Or.inl (le_mul_of_one_le_right h (by omega))
      · exact Or.inr h
    omega
  have hadd := add_of_fits hy
  have hspan : floorToSpan ((s.seconds / us + st) * us) 0 =
      some (ofTotal ((s.seconds / us + st) * us * 1000000000)) := by
    rw [fits_64] at hrep
    rw [floorToSpan_eq (fits_zero 64) (by rw [fits_64]; omega), Int.add_zero]
  rw [seconds_snap_branch hlo mode]
  simp [unitSec_eq hlo hhi, hq, mul_of_fits hfloor, hsub, hsize, hscale, hpast, hstep, hadd,
    mul_of_fits hrep, hspan]

/-- A snap that answers had the seconds of its floor fit. -/
theorem floor_fits_of_spanSnap {mode : Int} {r : Span}
    (h : spanSnap s (us * 1000000000) mode = some r) : Fits 64 (s.seconds / us * us) := by
  rw [seconds_snap_branch hlo mode] at h
  simp only [unitSec_eq hlo hhi, calFloorDiv_eq hlo hs.fits, some_bind] at h
  obtain ⟨p, hp, -⟩ := Option.bind_eq_some_iff.1 h
  exact (mul_eq_some.1 hp).1

end Seconds

/-! ## The verbs -/

/-- What the verbs on a span and a unit answer, where the answer fits: the greatest multiple
not above, the least not below and the nearest; a count that makes up the floor; and a count
with a rest below the unit that make up the span. -/
structure Snaps (s : Span) (u : Unit) : Prop where
  floor : ∀ m, IsGreatest {n | unitNanos u ∣ n ∧ n ≤ total s} m → Representable m →
    spanFloorTo s u = some (ofTotal m)
  ceil : ∀ m, IsLeast {n | unitNanos u ∣ n ∧ total s ≤ n} m → Representable m →
    spanCeilTo s u = some (ofTotal m)
  round : ∀ m, Nearest (unitNanos u) (total s) m → Representable m →
    spanRoundTo s u = some (ofTotal m)
  count : ∀ c, IsGreatest {n | unitNanos u ∣ n ∧ n ≤ total s} (c * unitNanos u) → Fits 64 c →
    spanCount s u = some c
  split : ∀ c r, 0 ≤ r → r < unitNanos u → total s = c * unitNanos u + r → Fits 64 c →
    spanSplit s u = some ⟨c, ofTotal r⟩

/-- The seconds in nanoseconds fit if the total does; the units of the seconds and those of
the ceiling fit; the seconds of the floor fit and are not the least. -/
def SnapFits (s : Span) (u : Unit) : Prop :=
  let k := unitNanos u
  if k ≤ 1 then Fits 64 (total s) → Fits 64 (s.seconds * 1000000000)
  else if k < 1000000000 then
    Fits 64 (s.seconds * (1000000000 / k)) ∧ Fits 64 (total s / k + ceilStep k (total s))
  else -9223372036854775808 < s.seconds / (k / 1000000000) * (k / 1000000000)

theorem unitNanos_pos (u : Unit) : 0 < unitNanos u := by cases u <;> decide

theorem snapped_floor (k x : Int) : snapped 0 k x = x / k * k := by
  rw [snapped, modeStep, if_pos rfl, Int.add_zero]

theorem snapped_ceil (k x : Int) : snapped 1 k x = (x / k + ceilStep k x) * k := rfl

theorem snapped_round (k x : Int) : snapped 2 k x = (x / k + roundStep k x) * k := rfl

/-- A count and a rest below the unit are the quotient and the remainder. -/
theorem parts_unique {k x c r : Int} (hr0 : 0 ≤ r) (hr1 : r < k) (h : x = c * k + r) :
    c = x / k ∧ r = x % k := by
  have hk : k ≠ 0 := by omega
  subst h
  constructor
  · rw [Int.add_comm, Int.add_mul_ediv_right _ _ hk, Int.ediv_eq_zero_of_lt hr0 hr1, Int.zero_add]
  · rw [Int.add_comm, Int.add_mul_emod_self_right, Int.emod_eq_of_lt hr0 hr1]

/-- The verbs by the values they have to give. -/
theorem snaps_iff_values (s : Span) (u : Unit) :
    Snaps s u ↔
      (∀ mode : Int, mode = 0 ∨ mode = 1 ∨ mode = 2 →
        Representable (snapped mode (unitNanos u) (total s)) →
          spanSnap s (unitNanos u) mode = some (ofTotal (snapped mode (unitNanos u) (total s)))) ∧
      (Fits 64 (total s / unitNanos u) →
        spanCount s u = some (total s / unitNanos u) ∧
        spanSplit s u = some ⟨total s / unitNanos u, ofTotal (total s % unitNanos u)⟩) := by
  have hk := unitNanos_pos u
  have hfloor := isGreatest_floor hk (total s)
  have hceil := isLeast_ceil hk (total s)
  have hround := nearest_round hk (total s)
  constructor
  · intro h
    constructor
    · rintro mode (rfl | rfl | rfl) hrep
      · rw [snapped_floor] at hrep ⊢
        exact h.floor _ hfloor hrep
      · rw [snapped_ceil] at hrep ⊢
        exact h.ceil _ hceil hrep
      · rw [snapped_round] at hrep ⊢
        exact h.round _ hround hrep
    · intro hfit
      refine ⟨h.count _ hfloor hfit, h.split _ _ ?_ ?_ ?_ hfit⟩
      · exact Int.emod_nonneg _ hk.ne'
      · exact Int.emod_lt_of_pos _ hk
      · exact (floor_add_rem _ _).symm
  · rintro ⟨hsnap, hcount⟩
    refine ⟨?_, ?_, ?_, ?_, ?_⟩
    · intro m hm hrep
      have heq := hm.unique hfloor
      rw [← snapped_floor] at heq
      subst heq
      exact hsnap 0 (Or.inl rfl) hrep
    · intro m hm hrep
      have heq := hm.unique hceil
      subst heq
      exact hsnap 1 (Or.inr (Or.inl rfl)) hrep
    · intro m hm hrep
      have heq := hm.unique hround
      subst heq
      exact hsnap 2 (Or.inr (Or.inr rfl)) hrep
    · intro c hc hfit
      have heq := Int.eq_of_mul_eq_mul_right hk.ne' (hc.unique hfloor)
      subst heq
      exact (hcount hfit).1
    · intro c r hr0 hr1 htotal hfit
      obtain ⟨rfl, rfl⟩ := parts_unique hr0 hr1 htotal
      exact (hcount hfit).2

/-- Splitting, from the snapped span and its count. -/
theorem spanSplit_of_snap {s : Span} {u : Unit} {m c : Int} (hs : Stored s)
    (hsnap : spanSnap s (unitNanos u) 0 = some (ofTotal m)) (hm : m ≤ total s)
    (hgap : total s < m + 604800000000000) (hlow : -9223372036854775808 < m / 1000000000)
    (hcount : spanCount (ofTotal m) u = some c) :
    spanSplit s u = some ⟨c, ofTotal (total s - m)⟩ := by
  have hfit := hs.fits
  rw [fits_64] at hfit
  have hsec : total s / 1000000000 = s.seconds := by
    have h := congrArg Span.seconds (ofTotal_total hs.norm)
    exact h
  have hself : ofTotal (total s) = s := ofTotal_total hs.norm
  have hneg : spanNeg (ofTotal m) = some (ofTotal (-m)) :=
    spanNeg_ofTotal (by unfold SecFits; omega)
  have hadd : spanAdd (ofTotal (total s)) (ofTotal (-m)) = some (ofTotal (total s + -m)) :=
    spanAdd_ofTotal (by unfold SecFits; omega) (by rw [fits_64]; omega)
  rw [hself] at hadd
  have hsub : spanSub s (ofTotal m) = some (ofTotal (total s - m)) := by
    unfold spanSub
    simp only [hneg, hadd, some_bind]
    rfl
  unfold spanSplit
  simp [hsnap, hsub, hcount]

/-- A split that answers took the negation of the snapped span. -/
theorem low_of_spanSplit {s : Span} {u : Unit} {m : Int} {p : SpanParts}
    (hsnap : spanSnap s (unitNanos u) 0 = some (ofTotal m)) (h : spanSplit s u = some p) :
    m / 1000000000 ≠ -9223372036854775808 := by
  unfold spanSplit at h
  simp only [hsnap, some_bind] at h
  obtain ⟨r, hr, -⟩ := Option.bind_eq_some_iff.1 h
  obtain ⟨w, hw, -⟩ := Option.bind_eq_some_iff.1 hr
  obtain ⟨z, hz, -⟩ := Option.bind_eq_some_iff.1 hw
  have hfit := (sub_eq_some.1 hz).1
  rw [fits_64, ofTotal_seconds] at hfit
  omega

/-! ## Where the verbs answer -/

theorem snaps_nanos_iff {s : Span} (hs : Stored s) :
    Snaps s .nanos ↔ (Fits 64 (total s) → Fits 64 (s.seconds * 1000000000)) := by
  have hself : ofTotal (total s) = s := ofTotal_total hs.norm
  have hsnapped : ∀ mode : Int, snapped mode 1 (total s) = total s := by
    intro mode
    have hzero : modeStep mode 1 (total s) = 0 := by
      unfold modeStep ceilStep roundStep
      simp
    rw [snapped, hzero, Int.ediv_one, Int.add_zero, Int.mul_one]
  have hcount : spanCount s .nanos = spanTotalNanos s := rfl
  rw [snaps_iff_values]
  show (∀ mode : Int, _ → Representable (snapped mode 1 (total s)) →
    some s = some (ofTotal (snapped mode 1 (total s)))) ∧ _ ↔ _
  rw [and_iff_right (by intro mode _ _; rw [hsnapped, hself])]
  show (Fits 64 (total s / 1) → spanCount s .nanos = some (total s / 1) ∧
    spanSplit s .nanos = some ⟨total s / 1, ofTotal (total s % 1)⟩) ↔ _
  rw [Int.ediv_one, Int.emod_one, hcount]
  constructor
  · intro h hfit
    exact (fits_of_spanTotalNanos (h hfit).1).1
  · intro h hfit
    have htotal : spanTotalNanos s = some (total s) := spanTotalNanos_eq (h hfit) hfit
    refine ⟨htotal, ?_⟩
    have hsplit : spanSplit s .nanos = some ⟨total s, ofTotal (total s - total s)⟩ := by
      refine spanSplit_of_snap hs (congrArg some hself.symm) (Int.le_refl _) (by omega) ?_ ?_
      · rw [fits_64] at hfit
        omega
      · rw [hself]
        exact htotal
    rw [hsplit, Int.sub_self]

theorem spanCount_subSecond {s : Span} {u : Unit} {per : Int} (hu : SubSecond (unitNanos u) per)
    (hs : Stored s) (hwhole : Fits 64 (s.seconds * per))
    (hunits : Fits 64 (total s / unitNanos u)) :
    spanCount s u = some (total s / unitNanos u) := by
  have hunit := hu.unit
  obtain ⟨hn0, hn1⟩ := hs.norm
  obtain ⟨hquot, -⟩ := units_eq hu s
  rw [hquot] at hunits ⊢
  unfold spanCount
  rw [if_neg (by omega), if_pos hu.below, hu.per_eq]
  simp only [mul_of_fits hwhole, div_of_nonneg hn0 (show 0 < unitNanos u by omega)
    (show Fits 64 s.nanoseconds by rw [fits_64]; omega), some_bind]
  exact add_of_fits hunits

theorem snaps_subSecond_iff {s : Span} {u : Unit} (per : Int) (hu : SubSecond (unitNanos u) per)
    (hs : Stored s) :
    Snaps s u ↔ Fits 64 (s.seconds * per) ∧
      Fits 64 (total s / unitNanos u + ceilStep (unitNanos u) (total s)) := by
  have hk := unitNanos_pos u
  have hmany := hu.many
  have hbelow := hu.below
  obtain ⟨hn0, hn1⟩ := hs.norm
  have hfloor := floor_add_rem (unitNanos u) (total s)
  have hr0 := Int.emod_nonneg (total s) hk.ne'
  have htotal : total s = s.seconds * 1000000000 + s.nanoseconds := rfl
  have hfit := hs.fits
  obtain ⟨hquot, hrem⟩ := units_eq hu s
  have hfloorSec : total s / unitNanos u * unitNanos u / 1000000000 = s.seconds := by
    -- the floor is within the same second
    have hge : s.seconds * 1000000000 ≤ total s / unitNanos u * unitNanos u := by
      rw [hquot, ← hu.second, ← Int.mul_assoc, Int.add_mul]
      have := Int.mul_nonneg (nanos_units_bounds hu hs).1 hk.le
      omega
    omega
  rw [snaps_iff_values]
  constructor
  · rintro ⟨hsnap, -⟩
    have hdown := hsnap 0 (Or.inl rfl) (by
      rw [snapped_floor]
      unfold Representable
      rwa [hfloorSec])
    obtain ⟨hwhole, -, -⟩ := fits_of_spanSnap hu hs hdown
    have hup := hsnap 1 (Or.inr (Or.inl rfl)) (by
      unfold Representable
      rw [snapped_ceil, Int.add_mul]
      have hceil : ceilStep (unitNanos u) (total s) * unitNanos u ≤ unitNanos u ∧
          0 ≤ ceilStep (unitNanos u) (total s) * unitNanos u := by
        unfold ceilStep
        split <;> simp <;> omega
      -- the seconds times `per` fit, so one more second does
      have hpos : s.seconds ≤ s.seconds * per ∨ s.seconds ≤ 0 := by
        rcases Int.le_total 0 s.seconds with h | h
        · have hmul := Int.mul_le_mul_of_nonneg_left (show (2 : Int) ≤ per by omega) h
          omega
        · exact Or.inr h
      have hroom : s.seconds * 2 ≤ s.seconds * per ∨ s.seconds ≤ 0 := by
        rcases Int.le_total 0 s.seconds with h | h
        · exact Or.inl (Int.mul_le_mul_of_nonneg_left (by omega) h)
        · exact Or.inr h
      rw [fits_64] at hfit hwhole ⊢
      omega)
    exact ⟨hwhole, (fits_of_spanSnap hu hs hup).2.2⟩
  · rintro ⟨hwhole, hceil⟩
    have hsteps : ∀ mode : Int, modeStep mode (unitNanos u) (total s) ≤
        ceilStep (unitNanos u) (total s) := by
      intro mode
      unfold modeStep ceilStep roundStep
      split_ifs <;> omega
    have hlow : Fits 64 (total s / unitNanos u) := by
      obtain ⟨hp0, hp1⟩ := nanos_units_bounds hu hs
      have hc := (modeStep_bounds 1 (unitNanos u) (total s)).1
      have hc' : modeStep 1 (unitNanos u) (total s) = ceilStep (unitNanos u) (total s) := rfl
      rw [fits_64] at hwhole hceil ⊢
      omega
    have hsnap : ∀ mode : Int, spanSnap s (unitNanos u) mode =
        some (ofTotal (snapped mode (unitNanos u) (total s))) := by
      intro mode
      refine spanSnap_subSecond hu hs mode hwhole hlow (hlow.between hceil ?_ ?_)
      · have := (modeStep_bounds mode (unitNanos u) (total s)).1
        omega
      · have := hsteps mode
        omega
    refine ⟨fun mode _ _ => hsnap mode, fun _ => ⟨spanCount_subSecond hu hs hwhole hlow, ?_⟩⟩
    have hdown := hsnap 0
    rw [snapped_floor] at hdown
    have hwhole' : spanCount (ofTotal (total s / unitNanos u * unitNanos u)) u =
        some (total s / unitNanos u) := by
      have hst : Stored (ofTotal (total s / unitNanos u * unitNanos u)) := by
        refine ⟨normalized_ofTotal _, ?_⟩
        rwa [ofTotal_seconds, hfloorSec]
      have hself : total (ofTotal (total s / unitNanos u * unitNanos u)) / unitNanos u =
          total s / unitNanos u := by
        rw [total_ofTotal, Int.mul_ediv_cancel _ hk.ne']
      rw [spanCount_subSecond hu hst (by rwa [ofTotal_seconds, hfloorSec]) (by rwa [hself]), hself]
    have hmin : s.seconds ≠ -9223372036854775808 := by
      intro h
      rw [h, fits_64] at hwhole
      omega
    rw [fits_64] at hfit
    have hsplit := spanSplit_of_snap hs hdown (by omega) (by omega) (by omega) hwhole'
    rw [hsplit]
    congr 3
    omega

theorem snaps_seconds_iff {s : Span} {u : Unit} (us : Int) (hu : unitNanos u = us * 1000000000)
    (hlo : 0 < us) (hhi : us ≤ 604800) (hs : Stored s) :
    Snaps s u ↔ -9223372036854775808 < s.seconds / us * us := by
  obtain ⟨hn0, hn1⟩ := hs.norm
  obtain ⟨hquot, hrem⟩ := units_of_seconds hlo s hs.norm
  have hdm : s.seconds / us * us + s.seconds % us = s.seconds := Int.ediv_mul_add_emod _ _
  have hr0 := Int.emod_nonneg s.seconds hlo.ne'
  have hr1 := Int.emod_lt_of_pos s.seconds hlo
  have hfit := hs.fits
  have hq := fits_ediv hlo hfit
  have hsnapped : ∀ mode, snapped mode (us * 1000000000) (total s) / 1000000000 =
      s.seconds / us * us + modeStep mode (us * 1000000000) (total s) * us := by
    intro mode
    rw [snapped, hquot, ← Int.mul_assoc, Int.mul_ediv_cancel _ (by decide), Int.add_mul]
  have htotal : total s = s.seconds * 1000000000 + s.nanoseconds := rfl
  rw [snaps_iff_values, hu]
  constructor
  · rintro ⟨hsnap, hcount⟩
    have hfloor : Fits 64 (s.seconds / us * us) := by
      -- where the floor's seconds do not fit, those of the ceiling do
      by_contra hno
      have hup := hsnap 1 (Or.inr (Or.inl rfl)) (by
        unfold Representable
        rw [hsnapped]
        have hone : modeStep 1 (us * 1000000000) (total s) = 1 := by
          have hpast : 0 < total s % (us * 1000000000) := by
            rw [fits_64] at hno hfit
            omega
          exact if_pos hpast
        rw [fits_64] at hno hfit ⊢
        rw [hone]
        omega)
      exact hno (floor_fits_of_spanSnap hlo hhi hs hup)
    rw [fits_64] at hfloor
    have hzero : modeStep 0 (us * 1000000000) (total s) = 0 := if_pos rfl
    have hdown := hsnap 0 (Or.inl rfl) (by
      unfold Representable
      rw [hsnapped, hzero, fits_64]
      omega)
    have hne := low_of_spanSplit (by rw [hu]; exact hdown) (hcount (by rwa [hquot])).2
    rw [hsnapped, hzero] at hne
    omega
  · intro hlow
    rw [fits_64] at hfit
    have hfloor : Fits 64 (s.seconds / us * us) := by
      rw [fits_64]
      omega
    have hsnap : ∀ mode : Int, Representable (snapped mode (us * 1000000000) (total s)) →
        spanSnap s (us * 1000000000) mode =
          some (ofTotal (snapped mode (us * 1000000000) (total s))) :=
      fun mode hrep => spanSnap_seconds hlo hhi hs mode hfloor hrep
    refine ⟨fun mode _ hrep => hsnap mode hrep, fun _ => ?_⟩
    have hcountAt : ∀ t : Span, Fits 64 t.seconds → spanCount t u = some (t.seconds / us) := by
      intro t ht
      unfold spanCount
      rw [hu, if_neg (by omega), if_neg (by omega)]
      simp only [unitSec_eq hlo hhi, some_bind]
      exact calFloorDiv_eq hlo ht
    rw [hquot]
    refine ⟨hcountAt s hs.fits, ?_⟩
    have hzero : modeStep 0 (us * 1000000000) (total s) = 0 := if_pos rfl
    have hfloorVal : snapped 0 (us * 1000000000) (total s) = s.seconds / us * us * 1000000000 := by
      rw [snapped_floor, hquot, ← Int.mul_assoc]
    have hdown := hsnap 0 (by
      unfold Representable
      rw [hsnapped, hzero, fits_64]
      omega)
    rw [hfloorVal, ← hu] at hdown
    have hwhole : spanCount (ofTotal (s.seconds / us * us * 1000000000)) u =
        some (s.seconds / us) := by
      have hsec : (ofTotal (s.seconds / us * us * 1000000000)).seconds = s.seconds / us * us := by
        rw [ofTotal_seconds, Int.mul_ediv_cancel _ (by decide)]
      rw [hcountAt _ (by rwa [hsec]), hsec, Int.mul_ediv_cancel _ hlo.ne']
    have hsplit := spanSplit_of_snap hs hdown (by omega) (by omega) (by omega) hwhole
    rw [hsplit, hrem]
    congr 3
    omega

/-- Every verb gives the answer it can represent exactly where `SnapFits` holds. -/
theorem snaps_iff (s : Span) (u : Unit) (hs : Stored s) : Snaps s u ↔ SnapFits s u := by
  cases u with
  | nanos => exact snaps_nanos_iff hs
  | micros => exact snaps_subSecond_iff (u := .micros) 1000000 ⟨by decide, by decide, rfl⟩ hs
  | millis => exact snaps_subSecond_iff (u := .millis) 1000 ⟨by decide, by decide, rfl⟩ hs
  | seconds => exact snaps_seconds_iff 1 rfl (by decide) (by decide) hs
  | minutes => exact snaps_seconds_iff 60 rfl (by decide) (by decide) hs
  | hours => exact snaps_seconds_iff 3600 rfl (by decide) (by decide) hs
  | days => exact snaps_seconds_iff 86400 rfl (by decide) (by decide) hs
  | weeks => exact snaps_seconds_iff 604800 rfl (by decide) (by decide) hs

theorem snaps_iff_half : Snaps ⟨-2, 500000000⟩ .seconds ↔ SnapFits ⟨-2, 500000000⟩ .seconds :=
  snaps_iff ⟨-2, 500000000⟩ .seconds (by decide)

/-- Ten million million seconds are a whole number of microseconds that no verb gives. -/
theorem spanFloorTo_overflow :
    IsGreatest {n | unitNanos .micros ∣ n ∧ n ≤ total ⟨10000000000000, 0⟩}
        (total ⟨10000000000000, 0⟩) ∧
      Representable (total ⟨10000000000000, 0⟩) ∧
      spanFloorTo ⟨10000000000000, 0⟩ .micros = none := by
  refine ⟨⟨⟨by decide, Int.le_refl _⟩, fun n hn => hn.2⟩, by decide, by decide⟩

end Duration

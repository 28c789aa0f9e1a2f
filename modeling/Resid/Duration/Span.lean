import Resid.Calendar.Helpers

/-!
# Spans of time

A span is normalized when `0 ≤ nanoseconds < 10 ^ 9`; it is then the length `total`
in nanoseconds and nothing else, and `ofTotal` is the span of a length.

    Normalized s → ofTotal (total s) = s                           (ofTotal_total)
    spanAdd (ofTotal a) (ofTotal b) = some (ofTotal (a + b))       (spanAdd_ofTotal)
    spanNeg (ofTotal a) = some (ofTotal (-a))                      (spanNeg_ofTotal)
    spanSplit (ofTotal n) u = some ⟨n / k, ofTotal (n % k)⟩        (spanSplit_ofTotal)

The equations hold where the seconds of every length in them fit 64 bits; the last one
is for units of a second or more and `0 ≤ n`, with `k` the unit's nanoseconds.
-/

namespace Duration

open CheckedInt Calendar

/-! ## Algorithm -/

structure Span where
  seconds : Int
  nanoseconds : Int
deriving DecidableEq

inductive Unit where
  | nanos | micros | millis | seconds | minutes | hours | days | weeks
deriving DecidableEq

/-- A whole count of some unit and what is left over. -/
structure SpanParts where
  count : Int
  rest : Span

def unitNanos : Unit → Int
  | .nanos => 1
  | .micros => 1000
  | .millis => 1000000
  | .seconds => 1000000000
  | .minutes => 60000000000
  | .hours => 3600000000000
  | .days => 86400000000000
  | .weeks => 604800000000000

def spanZero : Span := ⟨0, 0⟩

def floorToSpan (sec ns : Int) : Option Span := do
  let extra ← calFloorDiv ns 1000000000
  let rem ← calFloorMod ns 1000000000
  let s ← add 64 sec extra
  some ⟨s, rem⟩

def spanOfNanos (n : Int) : Option Span := floorToSpan 0 n

def spanIsZero (s : Span) : Bool := s.seconds == 0 && s.nanoseconds == 0

def spanIsNegative (s : Span) : Bool := s.seconds < 0

def spanTotalNanos (s : Span) : Option Int := do
  let total ← mul 64 s.seconds 1000000000
  add 64 total s.nanoseconds

def spanNeg (s : Span) : Option Span := do
  floorToSpan (← sub 64 0 s.seconds) (← sub 64 0 s.nanoseconds)

def spanAbs (s : Span) : Option Span := if s.seconds < 0 then spanNeg s else some s

def spanAdd (a b : Span) : Option Span := do
  let ns ← add 64 a.nanoseconds b.nanoseconds
  let sec ← add 64 a.seconds b.seconds
  floorToSpan sec ns

def spanSub (a b : Span) : Option Span := do spanAdd a (← spanNeg b)

def spanCount (s : Span) (u : Unit) : Option Int :=
  let k := unitNanos u
  if k ≤ 1 then spanTotalNanos s
  else if k < 1000000000 then do
    let per ← div 64 1000000000 k
    add 64 (← mul 64 s.seconds per) (← div 64 s.nanoseconds k)
  else do
    let unitSec ← div 64 k 1000000000
    calFloorDiv s.seconds unitSec

/-- Whole units a nonnegative remainder is worth: mode 0 floor, 1 ceiling, 2 nearest. -/
def snapStep (rem size mode : Int) (neg : Bool) : Option Int :=
  if mode = 0 then some 0
  else if mode = 1 then some (if rem > 0 then 1 else 0)
  else if neg then do some (if (← mul 64 rem 2) > size then 1 else 0)
  else do some (if (← mul 64 rem 2) ≥ size then 1 else 0)

def spanSnap (s : Span) (k mode : Int) : Option Span :=
  if k ≤ 1 then some s
  else if k < 1000000000 then do
    let per ← div 64 1000000000 k
    let whole ← mul 64 s.seconds per
    let units ← add 64 whole (← div 64 s.nanoseconds k)
    let rem ← mod 64 s.nanoseconds k
    let step ← snapStep rem k mode (s.seconds < 0)
    let snapped ← add 64 units step
    let sec ← div 64 snapped per
    let ns ← mul 64 (← sub 64 snapped (← mul 64 sec per)) k
    floorToSpan sec ns
  else do
    let unitSec ← div 64 k 1000000000
    let q ← calFloorDiv s.seconds unitSec
    let rem ← sub 64 s.seconds (← mul 64 q unitSec)
    let size ← mul 64 unitSec 1000000000
    let past ← add 64 (← mul 64 rem 1000000000) s.nanoseconds
    let step ← snapStep past size mode (s.seconds < 0)
    let total ← mul 64 (← add 64 q step) unitSec
    floorToSpan total 0

def spanSplit (s : Span) (u : Unit) : Option SpanParts := do
  let whole ← spanSnap s (unitNanos u) 0
  let rest ← spanSub s whole
  some ⟨← spanCount whole u, rest⟩

/-! ## Lengths -/

def Normalized (s : Span) : Prop := 0 ≤ s.nanoseconds ∧ s.nanoseconds < 1000000000

instance (s : Span) : Decidable (Normalized s) := inferInstanceAs (Decidable (_ ∧ _))

/-- The length in nanoseconds. -/
def total (s : Span) : Int := s.seconds * 1000000000 + s.nanoseconds

/-- The normalized span of a length. -/
def ofTotal (n : Int) : Span := ⟨n / 1000000000, n % 1000000000⟩

@[simp] theorem ofTotal_seconds (n : Int) : (ofTotal n).seconds = n / 1000000000 := rfl

@[simp] theorem ofTotal_nanoseconds (n : Int) : (ofTotal n).nanoseconds = n % 1000000000 := rfl

@[simp] theorem total_ofTotal (n : Int) : total (ofTotal n) = n := by
  unfold total ofTotal
  dsimp only
  omega

theorem ofTotal_total {s : Span} (h : Normalized s) : ofTotal (total s) = s := by
  obtain ⟨sec, ns⟩ := s
  obtain ⟨h0, h1⟩ := h
  unfold ofTotal total
  dsimp only at h0 h1 ⊢
  rw [Span.mk.injEq]
  omega

theorem normalized_ofTotal (n : Int) : Normalized (ofTotal n) := by
  unfold Normalized ofTotal
  dsimp only
  omega

/-- The seconds of the length fit 64 bits, and so do those of its negation. -/
def SecFits (n : Int) : Prop :=
  -9223372036854775807 ≤ n / 1000000000 ∧ n / 1000000000 ≤ 9223372036854775807

theorem floorToSpan_eq {sec ns : Int} (hns : Fits 64 ns) (hs : Fits 64 (sec + ns / 1000000000)) :
    floorToSpan sec ns = some (ofTotal (sec * 1000000000 + ns)) := by
  unfold floorToSpan
  rw [calFloorDiv_eq (by decide) hns, calFloorMod_eq (by decide) (by decide)]
  simp only [some_bind]
  rw [add_of_fits hs]
  simp only [some_bind, ofTotal, Option.some.injEq, Span.mk.injEq]
  omega

theorem spanOfNanos_eq {n : Int} (h : Fits 64 n) : spanOfNanos n = some (ofTotal n) := by
  have hq : Fits 64 (0 + n / 1000000000) := by
    rw [Int.zero_add]
    exact fits_ediv (by decide) h
  rw [spanOfNanos, floorToSpan_eq h hq, Int.zero_mul, Int.zero_add]

theorem spanNeg_ofTotal {n : Int} (h : SecFits n) : spanNeg (ofTotal n) = some (ofTotal (-n)) := by
  obtain ⟨h0, h1⟩ := h
  unfold spanNeg
  rw [sub_of_fits (by rw [fits_64, ofTotal_seconds]; omega),
    sub_of_fits (by rw [fits_64, ofTotal_nanoseconds]; omega)]
  simp only [some_bind]
  rw [ofTotal_seconds, ofTotal_nanoseconds,
    floorToSpan_eq (by rw [fits_64]; omega) (by rw [fits_64]; omega)]
  congr 2
  omega

theorem spanAdd_ofTotal {a b : Int} (hab : SecFits (a + b))
    (hs : Fits 64 (a / 1000000000 + b / 1000000000)) :
    spanAdd (ofTotal a) (ofTotal b) = some (ofTotal (a + b)) := by
  obtain ⟨h0, h1⟩ := hab
  unfold spanAdd
  rw [add_of_fits (by rw [fits_64, ofTotal_nanoseconds, ofTotal_nanoseconds]; omega),
    add_of_fits (by rwa [ofTotal_seconds, ofTotal_seconds])]
  simp only [some_bind]
  rw [ofTotal_seconds, ofTotal_seconds, ofTotal_nanoseconds, ofTotal_nanoseconds,
    floorToSpan_eq (by rw [fits_64]; omega) (by rw [fits_64]; omega)]
  congr 2
  omega

/-! ## Splitting off whole units -/

theorem snapStep_floor (rem size : Int) (neg : Bool) : snapStep rem size 0 neg = some 0 := rfl

/-- Rounding a nonnegative span down to `us` seconds, for `us` at most a week. -/
theorem spanSnap_floor {sec ns us : Int} (hsec : 0 ≤ sec) (hs : Fits 64 sec) (hns : 0 ≤ ns)
    (hns1 : ns < 1000000000) (hlo : 0 < us) (hhi : us ≤ 604800) :
    spanSnap ⟨sec, ns⟩ (us * 1000000000) 0 = some ⟨sec / us * us, 0⟩ := by
  rw [fits_64] at hs
  have hdm : sec / us * us + sec % us = sec := Int.ediv_mul_add_emod _ _
  have hr0 : 0 ≤ sec % us := Int.emod_nonneg _ (by omega)
  have hr1 : sec % us < us := Int.emod_lt_of_pos _ hlo
  have hq0 : 0 ≤ sec / us := Int.ediv_nonneg hsec hlo.le
  have hq1 : sec / us ≤ sec := Int.ediv_le_self _ hsec
  have hunit : div 64 (us * 1000000000) 1000000000 = some us := by
    rw [div_of_nonneg (by omega) (by decide) (by rw [fits_64]; omega),
      Int.mul_ediv_cancel _ (by decide)]
  have hquot : calFloorDiv sec us = some (sec / us) := calFloorDiv_eq hlo (by rw [fits_64]; omega)
  generalize sec / us = q at *
  generalize sec % us = r at *
  have hwhole : mul 64 q us = some (q * us) := mul_of_fits (by rw [fits_64]; omega)
  have hrem : sub 64 sec (q * us) = some r := by
    rw [sub_of_fits (by rw [fits_64]; omega)]
    congr 1
    omega
  have hsize : mul 64 us 1000000000 = some (us * 1000000000) :=
    mul_of_fits (by rw [fits_64]; omega)
  have hscale : mul 64 r 1000000000 = some (r * 1000000000) :=
    mul_of_fits (by rw [fits_64]; omega)
  have hpast : add 64 (r * 1000000000) ns = some (r * 1000000000 + ns) :=
    add_of_fits (by rw [fits_64]; omega)
  have hstep : add 64 q 0 = some q := by
    rw [add_of_fits (by rw [fits_64]; omega), Int.add_zero]
  have hspan : floorToSpan (q * us) 0 = some ⟨q * us, 0⟩ := by
    rw [floorToSpan_eq (fits_zero 64) (by rw [fits_64]; omega), ofTotal, Int.add_zero]
    simp
  unfold spanSnap
  rw [if_neg (by omega), if_neg (by omega)]
  simp [hunit, hquot, hwhole, hrem, hsize, hscale, hpast, snapStep_floor, hstep, hspan]

/-- A unit of `us` whole seconds. -/
theorem spanSplit_ofTotal {n us : Int} {u : Unit} (hu : unitNanos u = us * 1000000000)
    (hlo : 0 < us) (hhi : us ≤ 604800) (hn : 0 ≤ n) (h : SecFits n) :
    spanSplit (ofTotal n) u = some ⟨n / unitNanos u, ofTotal (n % unitNanos u)⟩ := by
  obtain ⟨-, h1⟩ := h
  have hsec : 0 ≤ n / 1000000000 := by omega
  have hdm : n / 1000000000 / us * us + n / 1000000000 % us = n / 1000000000 :=
    Int.ediv_mul_add_emod _ _
  have hr0 : 0 ≤ n / 1000000000 % us := Int.emod_nonneg _ (by omega)
  have hq : n / unitNanos u = n / 1000000000 / us := by
    rw [hu, Int.mul_comm, Int.ediv_ediv_of_nonneg (by decide)]
  have hqus : 0 ≤ n / 1000000000 / us * us :=
    Int.mul_nonneg (Int.ediv_nonneg hsec hlo.le) hlo.le
  have hmod : n % unitNanos u = n + -(n / 1000000000 / us * us * 1000000000) := by
    have hfloor := Int.ediv_mul_add_emod n (unitNanos u)
    rw [hq, hu, ← Int.mul_assoc] at hfloor
    rw [hu]
    omega
  have hwhole : (⟨n / 1000000000 / us * us, 0⟩ : Span) =
      ofTotal (n / 1000000000 / us * us * 1000000000) := by
    simp [ofTotal]
  have hcount : spanCount ⟨n / 1000000000 / us * us, 0⟩ u = some (n / 1000000000 / us) := by
    unfold spanCount
    rw [hu, if_neg (by omega), if_neg (by omega),
      div_of_nonneg (by omega) (by decide) (by rw [fits_64]; omega),
      Int.mul_ediv_cancel _ (by decide)]
    simp only [some_bind]
    rw [calFloorDiv_eq hlo (by rw [fits_64]; omega), Int.mul_ediv_cancel _ (by omega)]
  have hsnap : spanSnap (ofTotal n) (unitNanos u) 0 = some ⟨n / 1000000000 / us * us, 0⟩ := by
    rw [hu]
    exact spanSnap_floor hsec (by rw [fits_64]; omega) (by omega) (by omega) hlo hhi
  have hsub : spanSub (ofTotal n) ⟨n / 1000000000 / us * us, 0⟩ =
      some (ofTotal (n % unitNanos u)) := by
    rw [hmod, hwhole, spanSub]
    rw [spanNeg_ofTotal (by unfold SecFits; omega)]
    simp only [some_bind]
    rw [spanAdd_ofTotal (by unfold SecFits; omega) (by rw [fits_64]; omega)]
  unfold spanSplit
  rw [hsnap]
  simp only [some_bind]
  rw [hsub, hcount, hq]
  rfl

end Duration

import Resid.Duration.Span

/-!
# Dividing spans

A span divided by a number, and by a span.  Seconds and nanoseconds are divided apart, each
truncating toward zero, and the two quotients are added.

    spanDiv s n is the quotient of the length ↔ DivExact s n                 (spanDiv_exact_iff)
    spanDivmod s d has s = q * d + r with |r| < |d| ↔ DivmodExact s d          (divides_iff)

The parts of a negative span have different signs: where `n` divides the seconds but not the
nanoseconds, the sum of the two truncated quotients is one too low.  The remainder of the
seconds is scaled to nanoseconds, which overflows for a divisor of some ten billion.  Division
by a span with a fraction leaves the fraction out of the product it subtracts.

## Algorithm

The seconds' remainder joins the nanoseconds before they are divided.
-/

namespace Duration

open CheckedInt Calendar

def spanOfSeconds (n : Int) : Option Span := floorToSpan n 0

/-- The span `s` divided by `n`. -/
def spanDiv (s : Span) (n : Int) : Option Span := do
  let q ← div 64 s.seconds n
  let rem ← sub 64 s.seconds (← mul 64 q n)
  let rest ← add 64 (← mul 64 rem 1000000000) s.nanoseconds
  let qn ← div 64 rest n
  floorToSpan q qn

/-- Whole units and what is left over. -/
structure SpanQuot where
  quotient : Span
  remainder : Span
deriving DecidableEq

/-- Divides `s` by `d`: the quotient as a span and what is left over. -/
def spanDivmod (s d : Span) : Option SpanQuot := do
  let q ← div 64 s.seconds d.seconds
  let rs ← sub 64 s.seconds (← mul 64 q d.seconds)
  let left ← floorToSpan rs s.nanoseconds
  if d.nanoseconds = 0 then some ⟨← spanOfSeconds q, left⟩
  else
    let dn ← spanTotalNanos d
    let qn ← div 64 (← spanTotalNanos left) dn
    let rn ← sub 64 (← spanTotalNanos left) (← mul 64 qn dn)
    some ⟨← floorToSpan q qn, ← floorToSpan 0 rn⟩

/-! ## Stored spans -/

/-- A span as it is stored: normalized, its seconds of 64 bits. -/
structure Stored (s : Span) : Prop where
  norm : Normalized s
  fits : Fits 64 s.seconds

instance (s : Span) : Decidable (Stored s) :=
  decidable_of_iff (Normalized s ∧ Fits 64 s.seconds) ⟨fun h => ⟨h.1, h.2⟩, fun h => ⟨h.1, h.2⟩⟩

/-- A length whose seconds fit 64 bits. -/
def Representable (n : Int) : Prop := Fits 64 (n / 1000000000)

instance (n : Int) : Decidable (Representable n) := inferInstanceAs (Decidable (Fits _ _))

variable {n : Int} {d s : Span}

theorem ofTotal_injective {m : Int} (h : ofTotal m = ofTotal n) : m = n := by
  have ht := congrArg total h
  rwa [total_ofTotal, total_ofTotal] at ht

theorem floorToSpan_of_some {sec ns : Int} {r : Span} (hns : Fits 64 ns)
    (h : floorToSpan sec ns = some r) : r = ofTotal (sec * 1000000000 + ns) := by
  have hs : Fits 64 (sec + ns / 1000000000) := by
    unfold floorToSpan at h
    rw [calFloorDiv_eq (by decide) hns, calFloorMod_eq (by decide) (by decide)] at h
    simp only [some_bind] at h
    obtain ⟨t, ht, -⟩ := Option.bind_eq_some_iff.1 h
    exact (add_eq_some.1 ht).1
  rw [floorToSpan_eq hns hs] at h
  exact (Option.some.inj h).symm

/-! ## Truncated quotients -/

theorem tdiv_fits {a b : Int} (hb : b ≠ 0) (ha : Fits 64 a)
    (h : ¬ (a = -9223372036854775808 ∧ b = -1)) : Fits 64 (a.tdiv b) := by
  rw [fits_64] at ha ⊢
  have habs := Int.natAbs_tdiv a b
  by_cases hone : b.natAbs = 1
  · rcases (show b = 1 ∨ b = -1 by omega) with rfl | rfl
    · rw [Int.tdiv_one]
      omega
    · rw [Int.tdiv_neg, Int.tdiv_one]
      omega
  · have hhalf : a.natAbs / b.natAbs ≤ a.natAbs / 2 := Nat.div_le_div_left (by omega) (by decide)
    change _ = a.natAbs / b.natAbs at habs
    omega

/-- A remainder has the sign of its dividend and is below the divisor. -/
theorem tmod_bounds (a : Int) {b : Int} (hb : b ≠ 0) :
    (a.tmod b).natAbs < b.natAbs ∧ (0 ≤ a → 0 ≤ a.tmod b) ∧ (a ≤ 0 → a.tmod b ≤ 0) := by
  refine ⟨?_, fun h => Int.tmod_nonneg b h, fun h => ?_⟩
  · rw [Int.natAbs_tmod]
    exact Nat.mod_lt _ (by omega)
  · have hneg := Int.tmod_nonneg b (Int.neg_nonneg.2 h)
    rw [Int.neg_tmod] at hneg
    omega

/-- A quotient is the truncated one when what is left has the sign of the dividend. -/
theorem tdiv_eq_iff {x t r : Int} (hn : n ≠ 0) (hx : x = t * n + r) (hr : r.natAbs < n.natAbs) :
    x.tdiv n = t ↔ (0 ≤ x → 0 ≤ r) ∧ (x ≤ 0 → r ≤ 0) := by
  obtain ⟨hm, hpos, hneg⟩ := tmod_bounds x hn
  have hdm : x.tdiv n * n + x.tmod n = x := Int.tdiv_mul_add_tmod x n
  constructor
  · rintro rfl
    have hrem : r = x.tmod n := by omega
    rw [hrem]
    exact ⟨hpos, hneg⟩
  · rintro ⟨h1, h2⟩
    have hmul : (x.tdiv n - t) * n = r - x.tmod n := by
      rw [Int.sub_mul]
      omega
    have hlt : (r - x.tmod n).natAbs < n.natAbs := by
      rcases Int.le_total 0 x with h | h
      · have := h1 h
        have := hpos h
        omega
      · have := h2 h
        have := hneg h
        omega
    by_contra hne
    have hge : n.natAbs ≤ ((x.tdiv n - t) * n).natAbs := by
      rw [Int.natAbs_mul]
      exact Nat.le_mul_of_pos_left _ (by omega)
    rw [hmul] at hge
    omega

/-! ## By a number -/

/-- The seconds' quotient is one, their remainder in nanoseconds fits, and the truncated
quotients of the parts add up to one: the parts have one sign, or `n` divides the nanoseconds. -/
structure DivExact (s : Span) (n : Int) : Prop where
  quotient : ¬ (s.seconds = -9223372036854775808 ∧ n = -1)
  scaled : Fits 64 (s.seconds.tmod n * 1000000000)
  joined : Fits 64 (s.seconds.tmod n * 1000000000 + s.nanoseconds)
  signs : s.seconds < 0 → n ∣ s.seconds → n ∣ s.nanoseconds

/-- What the nanoseconds are divided from. -/
def restOf (s : Span) (n : Int) : Int := s.seconds.tmod n * 1000000000 + s.nanoseconds

theorem total_eq_rest (s : Span) (n : Int) :
    total s = (s.seconds.tdiv n * 1000000000) * n + restOf s n := by
  have hdm : s.seconds.tdiv n * n + s.seconds.tmod n = s.seconds := Int.tdiv_mul_add_tmod _ _
  have hmul : s.seconds.tdiv n * 1000000000 * n = s.seconds.tdiv n * n * 1000000000 :=
    Int.mul_right_comm _ _ _
  unfold total restOf
  omega

/-- The nanoseconds' quotient is below a second. -/
theorem rest_tdiv_bound (hs : Normalized s) (hn : n ≠ 0) :
    ((restOf s n).tdiv n).natAbs < 1000000000 := by
  obtain ⟨h0, h1⟩ := hs
  obtain ⟨hm, -, -⟩ := tmod_bounds s.seconds hn
  have habs : (restOf s n).natAbs < n.natAbs * 1000000000 := by
    unfold restOf
    omega
  rw [Int.natAbs_tdiv]
  exact Nat.div_lt_of_lt_mul habs

theorem exact_iff_signs (hs : Normalized s) (hn : n ≠ 0) :
    (total s).tdiv n = s.seconds.tdiv n * 1000000000 + (restOf s n).tdiv n ↔
      (s.seconds < 0 → n ∣ s.seconds → n ∣ s.nanoseconds) := by
  obtain ⟨h0, h1⟩ := hs
  obtain ⟨hm, hpos, hneg⟩ := tmod_bounds s.seconds hn
  obtain ⟨hr, hrpos, hrneg⟩ := tmod_bounds (restOf s n) hn
  have hdm : (restOf s n).tdiv n * n + (restOf s n).tmod n = restOf s n :=
    Int.tdiv_mul_add_tmod _ _
  have hx : total s =
      (s.seconds.tdiv n * 1000000000 + (restOf s n).tdiv n) * n + (restOf s n).tmod n := by
    rw [total_eq_rest s n, Int.add_mul]
    omega
  have hdvd : n ∣ s.seconds ↔ s.seconds.tmod n = 0 := Int.dvd_iff_tmod_eq_zero
  rw [tdiv_eq_iff hn hx hr]
  have hrest : restOf s n = s.seconds.tmod n * 1000000000 + s.nanoseconds := rfl
  have htotal : total s = s.seconds * 1000000000 + s.nanoseconds := rfl
  constructor
  · rintro ⟨-, h2⟩ hsec hdiv
    have hzero := hdvd.1 hdiv
    have hns : restOf s n = s.nanoseconds := by omega
    have hle := h2 (by omega)
    have hge := hrpos (by omega)
    rw [← hns, Int.dvd_iff_tmod_eq_zero]
    omega
  · intro h
    constructor
    · intro hge
      have := hpos (by omega)
      exact hrpos (by omega)
    · intro hle
      rcases Int.lt_or_le s.seconds 0 with hsec | hsec
      · by_cases hdiv : n ∣ s.seconds
        · have hzero := hdvd.1 hdiv
          have hns : restOf s n = s.nanoseconds := by omega
          have htmod := Int.dvd_iff_tmod_eq_zero.1 (h hsec hdiv)
          rw [hns, htmod]
        · have hne : s.seconds.tmod n ≠ 0 := fun h => hdiv (hdvd.2 h)
          have := hneg (by omega)
          exact hrneg (by omega)
      · have := hpos hsec
        exact hrneg (by omega)

theorem seconds_parts_fit {a : Int} (hn : n ≠ 0) (ha : Fits 64 a) :
    Fits 64 (a.tdiv n * n) ∧ Fits 64 (a - a.tdiv n * n) := by
  obtain ⟨hm, hpos, hneg⟩ := tmod_bounds a hn
  have hdm : a.tdiv n * n + a.tmod n = a := Int.tdiv_mul_add_tmod a n
  have habs : (a.tmod n).natAbs ≤ a.natAbs := by
    rw [Int.natAbs_tmod]
    exact Nat.mod_le _ _
  rw [fits_64] at ha ⊢
  rw [fits_64]
  rcases Int.le_total 0 a with h | h
  · have := hpos h
    omega
  · have := hneg h
    omega

/-- The run of a division whose steps all fit. -/
theorem spanDiv_eq (hs : Stored s) (hn : n ≠ 0)
    (hq : ¬ (s.seconds = -9223372036854775808 ∧ n = -1))
    (hscaled : Fits 64 (s.seconds.tmod n * 1000000000)) (hjoined : Fits 64 (restOf s n)) :
    spanDiv s n = floorToSpan (s.seconds.tdiv n) ((restOf s n).tdiv n) := by
  have hdm : s.seconds.tdiv n * n + s.seconds.tmod n = s.seconds := Int.tdiv_mul_add_tmod _ _
  obtain ⟨hprod, hdiff⟩ := seconds_parts_fit hn hs.fits
  have hbound := rest_tdiv_bound hs.norm hn
  have hrem : s.seconds - s.seconds.tdiv n * n = s.seconds.tmod n := by omega
  have hdiv : div 64 s.seconds n = some (s.seconds.tdiv n) := by
    rw [div, if_neg hn, check_of_fits (tdiv_fits hn hs.fits hq)]
  have hsub : sub 64 s.seconds (s.seconds.tdiv n * n) = some (s.seconds.tmod n) := by
    rw [sub_of_fits hdiff, hrem]
  have hadd : add 64 (s.seconds.tmod n * 1000000000) s.nanoseconds = some (restOf s n) :=
    add_of_fits hjoined
  have hrest : div 64 (restOf s n) n = some ((restOf s n).tdiv n) := by
    rw [div, if_neg hn, check_of_fits (by rw [fits_64]; omega)]
  unfold spanDiv
  simp only [hdiv, mul_of_fits hprod, hsub, mul_of_fits hscaled, hadd, hrest,
    some_bind]

/-- A division that answers had all its steps fit. -/
theorem steps_of_spanDiv {r : Span} (hn : n ≠ 0) (h : spanDiv s n = some r) :
    ¬ (s.seconds = -9223372036854775808 ∧ n = -1) ∧
      Fits 64 (s.seconds.tmod n * 1000000000) ∧ Fits 64 (restOf s n) := by
  have hdm : s.seconds.tdiv n * n + s.seconds.tmod n = s.seconds := Int.tdiv_mul_add_tmod _ _
  have hrem : s.seconds - s.seconds.tdiv n * n = s.seconds.tmod n := by omega
  unfold spanDiv at h
  obtain ⟨q, hq, h⟩ := Option.bind_eq_some_iff.1 h
  obtain ⟨p, hp, h⟩ := Option.bind_eq_some_iff.1 h
  obtain ⟨m, hm, h⟩ := Option.bind_eq_some_iff.1 h
  obtain ⟨k, hk, h⟩ := Option.bind_eq_some_iff.1 h
  obtain ⟨j, hj, h⟩ := Option.bind_eq_some_iff.1 h
  rw [div, if_neg hn, check_eq_some] at hq
  obtain ⟨hqfit, rfl⟩ := hq
  obtain ⟨-, rfl⟩ := mul_eq_some.1 hp
  obtain ⟨-, rfl⟩ := sub_eq_some.1 hm
  rw [hrem] at hk
  obtain ⟨hkfit, rfl⟩ := mul_eq_some.1 hk
  obtain ⟨hjfit, -⟩ := add_eq_some.1 hj
  refine ⟨?_, hkfit, hjfit⟩
  rintro ⟨hsec, rfl⟩
  rw [hsec, fits_64] at hqfit
  revert hqfit
  decide

theorem spanDiv_exact_iff (hs : Stored s) (hn : n ≠ 0) (hrep : Representable ((total s).tdiv n)) :
    spanDiv s n = some (ofTotal ((total s).tdiv n)) ↔ DivExact s n := by
  have hbound := rest_tdiv_bound hs.norm hn
  have hsmall : Fits 64 ((restOf s n).tdiv n) := by
    rw [fits_64]
    omega
  constructor
  · intro h
    obtain ⟨hq, hscaled, hjoined⟩ := steps_of_spanDiv hn h
    rw [spanDiv_eq hs hn hq hscaled hjoined] at h
    have htotal := ofTotal_injective (floorToSpan_of_some hsmall h)
    exact ⟨hq, hscaled, hjoined, (exact_iff_signs hs.norm hn).1 htotal⟩
  · intro h
    have htotal := (exact_iff_signs hs.norm hn).2 h.signs
    have hfit : Fits 64 (s.seconds.tdiv n + (restOf s n).tdiv n / 1000000000) := by
      unfold Representable at hrep
      rw [htotal] at hrep
      have hsplit : (s.seconds.tdiv n * 1000000000 + (restOf s n).tdiv n) / 1000000000 =
          s.seconds.tdiv n + (restOf s n).tdiv n / 1000000000 := by omega
      rwa [hsplit] at hrep
    rw [spanDiv_eq hs hn h.quotient h.scaled h.joined, floorToSpan_eq hsmall hfit, htotal]

/-! ## By a span -/

/-- The answer is a whole quotient `q` and a remainder below the divisor that make up `s`. -/
def Divides (s d : Span) : Prop :=
  ∃ q r, spanDivmod s d = some ⟨⟨q, 0⟩, r⟩ ∧ Normalized r ∧
    total s = q * total d + total r ∧ (total r).natAbs < (total d).natAbs

/-- The divisor has no fraction, or its seconds are more than those of `s`, and it fits in
nanoseconds. -/
def DivmodExact (s d : Span) : Prop :=
  d.nanoseconds = 0 ∨
    (-d.seconds < s.seconds ∧ s.seconds < d.seconds ∧ Fits 64 (total d))

/-- What is left of the seconds, with the nanoseconds. -/
def leftOf (s d : Span) : Int := s.seconds.tmod d.seconds * 1000000000 + s.nanoseconds

theorem spanOfSeconds_eq {q : Int} (h : Fits 64 q) : spanOfSeconds q = some ⟨q, 0⟩ := by
  rw [spanOfSeconds, floorToSpan_eq (fits_zero 64) (by rw [fits_64] at h ⊢; omega), ofTotal]
  simp

theorem total_eq_left (s d : Span) :
    total s = s.seconds.tdiv d.seconds * d.seconds * 1000000000 + leftOf s d := by
  have hdm : s.seconds.tdiv d.seconds * d.seconds + s.seconds.tmod d.seconds = s.seconds :=
    Int.tdiv_mul_add_tmod _ _
  unfold total leftOf
  omega

theorem leftOf_bounds (hs : Normalized s) (hd : 1 ≤ d.seconds) :
    (leftOf s d).natAbs < (d.seconds * 1000000000).natAbs ∧
      -(d.seconds - 1) * 1000000000 ≤ leftOf s d := by
  obtain ⟨h0, h1⟩ := hs
  obtain ⟨hm, -, -⟩ := tmod_bounds s.seconds (show d.seconds ≠ 0 by omega)
  unfold leftOf
  constructor <;> omega

/-- The first steps of the division, up to the branch on the divisor's fraction. -/
theorem spanDivmod_eq (hs : Stored s) (hd : 1 ≤ d.seconds) : spanDivmod s d =
      if d.nanoseconds = 0 then
        some ⟨⟨s.seconds.tdiv d.seconds, 0⟩, ofTotal (leftOf s d)⟩
      else (do
        let dn ← spanTotalNanos d
        let qn ← div 64 (← spanTotalNanos (ofTotal (leftOf s d))) dn
        let rn ← sub 64 (← spanTotalNanos (ofTotal (leftOf s d))) (← mul 64 qn dn)
        some ⟨← floorToSpan (s.seconds.tdiv d.seconds) qn, ← floorToSpan 0 rn⟩) := by
  have hne : d.seconds ≠ 0 := by omega
  obtain ⟨h0, h1⟩ := hs.norm
  have hfit := hs.fits
  have hdm : s.seconds.tdiv d.seconds * d.seconds + s.seconds.tmod d.seconds = s.seconds :=
    Int.tdiv_mul_add_tmod _ _
  obtain ⟨hprod, hdiff⟩ := seconds_parts_fit hne hfit
  have hrem : s.seconds - s.seconds.tdiv d.seconds * d.seconds = s.seconds.tmod d.seconds := by
    omega
  have hq : Fits 64 (s.seconds.tdiv d.seconds) := tdiv_fits hne hfit (by omega)
  have hdiv : div 64 s.seconds d.seconds = some (s.seconds.tdiv d.seconds) := by
    rw [div, if_neg hne, check_of_fits hq]
  have hsub : sub 64 s.seconds (s.seconds.tdiv d.seconds * d.seconds) =
      some (s.seconds.tmod d.seconds) := by
    rw [sub_of_fits hdiff, hrem]
  have hleft : floorToSpan (s.seconds.tmod d.seconds) s.nanoseconds =
      some (ofTotal (leftOf s d)) := by
    rw [hrem, fits_64] at hdiff
    exact floorToSpan_eq (by rw [fits_64]; omega) (by rw [fits_64]; omega)
  unfold spanDivmod
  simp only [hdiv, mul_of_fits hprod, hsub, hleft, spanOfSeconds_eq hq, some_bind]

theorem spanTotalNanos_eq (h : Fits 64 (s.seconds * 1000000000)) (ht : Fits 64 (total s)) :
    spanTotalNanos s = some (total s) := by
  unfold spanTotalNanos
  simp only [mul_of_fits h, some_bind]
  exact add_of_fits ht

theorem fits_of_spanTotalNanos (h : spanTotalNanos s = some n) :
    Fits 64 (s.seconds * 1000000000) ∧ Fits 64 (total s) ∧ n = total s := by
  unfold spanTotalNanos at h
  obtain ⟨p, hp, h⟩ := Option.bind_eq_some_iff.1 h
  obtain ⟨hpfit, rfl⟩ := mul_eq_some.1 hp
  obtain ⟨hfit, rfl⟩ := add_eq_some.1 h
  exact ⟨hpfit, hfit, rfl⟩

/-- Below the divisor nothing more is divided. -/
theorem left_tdiv (hs : Normalized s) (hd : 1 ≤ d.seconds) (hn : 0 ≤ d.nanoseconds) :
    (leftOf s d).tdiv (total d) = 0 := by
  obtain ⟨hlt, -⟩ := leftOf_bounds hs hd
  have habs : (leftOf s d).natAbs < (total d).natAbs := by
    unfold total
    omega
  have h := Int.natAbs_tdiv (leftOf s d) (total d)
  change _ = (leftOf s d).natAbs / (total d).natAbs at h
  rw [Nat.div_eq_of_lt habs] at h
  omega

theorem divides_of_whole (hs : Stored s) (hd : 1 ≤ d.seconds) (hn : d.nanoseconds = 0) :
    Divides s d := by
  obtain ⟨hlt, -⟩ := leftOf_bounds hs.norm hd
  refine ⟨_, _, (spanDivmod_eq hs hd).trans (if_pos hn), normalized_ofTotal _, ?_, ?_⟩
  · rw [total_ofTotal, total_eq_left s d]
    unfold total
    rw [hn, Int.add_zero, Int.mul_assoc]
  · rw [total_ofTotal]
    unfold total
    rwa [hn, Int.add_zero]

/-- A divisor with a fraction: the quotient is that of the seconds, so it has to be 0. -/
theorem divides_iff_of_fraction (hs : Stored s) (hd : Normalized d) (h1 : 1 ≤ d.seconds)
    (hn : d.nanoseconds ≠ 0) :
    Divides s d ↔ -d.seconds < s.seconds ∧ s.seconds < d.seconds ∧ Fits 64 (total d) := by
  obtain ⟨hd0, hd1⟩ := hd
  obtain ⟨hlt, hlow⟩ := leftOf_bounds hs.norm h1
  have hzero := left_tdiv hs.norm h1 hd0
  have htd : total d = d.seconds * 1000000000 + d.nanoseconds := rfl
  obtain ⟨hm, hpos, hneg⟩ := tmod_bounds s.seconds (show d.seconds ≠ 0 by omega)
  have hdm : s.seconds.tdiv d.seconds * d.seconds + s.seconds.tmod d.seconds = s.seconds :=
    Int.tdiv_mul_add_tmod _ _
  constructor
  · rintro ⟨q, r, hrun, -, htotal, -⟩
    rw [spanDivmod_eq hs h1, if_neg hn] at hrun
    obtain ⟨dn, hdn, hrun1⟩ := Option.bind_eq_some_iff.1 hrun
    obtain ⟨ln, hln, hrun2⟩ := Option.bind_eq_some_iff.1 hrun1
    obtain ⟨qn, hqn, hrun3⟩ := Option.bind_eq_some_iff.1 hrun2
    obtain ⟨ln', hln', hrun4⟩ := Option.bind_eq_some_iff.1 hrun3
    obtain ⟨p, hp, hrun5⟩ := Option.bind_eq_some_iff.1 hrun4
    obtain ⟨rn, hrn, hrun6⟩ := Option.bind_eq_some_iff.1 hrun5
    obtain ⟨qs, hqs, hrun7⟩ := Option.bind_eq_some_iff.1 hrun6
    obtain ⟨rs, hrs, hrun8⟩ := Option.bind_eq_some_iff.1 hrun7
    obtain ⟨-, hfit, rfl⟩ := fits_of_spanTotalNanos hdn
    obtain ⟨-, -, rfl⟩ := fits_of_spanTotalNanos hln
    obtain ⟨-, -, rfl⟩ := fits_of_spanTotalNanos hln'
    rw [total_ofTotal] at hqn hrn
    have hqn0 : qn = 0 := by
      rw [div, if_neg (by omega), check_eq_some] at hqn
      rw [← hqn.2, hzero]
    subst hqn0
    obtain ⟨-, rfl⟩ := mul_eq_some.1 hp
    obtain ⟨hrnfit, rfl⟩ := sub_eq_some.1 hrn
    have hqs' := floorToSpan_of_some (fits_zero 64) hqs
    have hrs' := floorToSpan_of_some hrnfit hrs
    have hpair := Option.some.inj hrun8
    rw [SpanQuot.mk.injEq, hqs', hrs'] at hpair
    obtain ⟨hq, rfl⟩ := hpair
    have hqq : q = s.seconds.tdiv d.seconds := by
      have hsec : (ofTotal (s.seconds.tdiv d.seconds * 1000000000 + 0)).seconds = q :=
        congrArg Span.seconds hq
      rw [ofTotal_seconds] at hsec
      omega
    subst hqq
    rw [total_ofTotal, total_eq_left s d, htd, Int.mul_add, ← Int.mul_assoc] at htotal
    have hnil : s.seconds.tdiv d.seconds * d.nanoseconds = 0 := by omega
    have hq0 : s.seconds.tdiv d.seconds = 0 := by
      rcases Int.mul_eq_zero.1 hnil with h | h
      · exact h
      · exact absurd h hn
    rw [hq0, Int.zero_mul, Int.zero_add] at hdm
    refine ⟨?_, ?_, hfit⟩
    · omega
    · omega
  · rintro ⟨hlo, hhi, hfit⟩
    have hq0 : s.seconds.tdiv d.seconds = 0 := by
      have h := Int.natAbs_tdiv s.seconds d.seconds
      change _ = s.seconds.natAbs / d.seconds.natAbs at h
      rw [Nat.div_eq_of_lt (by omega)] at h
      omega
    have hleft : leftOf s d = total s := by
      rw [total_eq_left s d, hq0]
      omega
    have hts : total s = s.seconds * 1000000000 + s.nanoseconds := rfl
    obtain ⟨hs0, hs1⟩ := hs.norm
    rw [fits_64] at hfit
    have hofs : ofTotal (total s) = s := ofTotal_total hs.norm
    have hdn : spanTotalNanos d = some (total d) :=
      spanTotalNanos_eq (by rw [fits_64]; omega) (by rw [fits_64]; omega)
    have hln : spanTotalNanos s = some (total s) :=
      spanTotalNanos_eq (by rw [fits_64]; omega) (by rw [fits_64]; omega)
    have hqn : div 64 (total s) (total d) = some 0 := by
      rw [div, if_neg (by omega), ← hleft, hzero, check_of_fits (fits_zero 64)]
    have hpn : mul 64 0 (total d) = some 0 := by
      rw [mul_of_fits (by rw [Int.zero_mul]; exact fits_zero 64), Int.zero_mul]
    have hrn : sub 64 (total s) 0 = some (total s) := by
      rw [sub_of_fits (by rw [fits_64]; omega), Int.sub_zero]
    have hqs : floorToSpan 0 0 = some ⟨0, 0⟩ := by decide
    have hrs : floorToSpan 0 (total s) = some s := by
      rw [floorToSpan_eq (by rw [fits_64]; omega) (by rw [fits_64]; omega), Int.zero_mul,
        Int.zero_add, hofs]
    refine ⟨0, s, ?_, hs.norm, by rw [Int.zero_mul, Int.zero_add], by omega⟩
    rw [spanDivmod_eq hs h1, if_neg hn, hleft, hofs, hq0]
    simp only [hdn, hln, hqn, hpn, hrn, hqs, hrs, some_bind]

theorem divides_iff (hs : Stored s) (hd : Normalized d) (h1 : 1 ≤ d.seconds) :
    Divides s d ↔ DivmodExact s d := by
  unfold DivmodExact
  by_cases hn : d.nanoseconds = 0
  · exact iff_of_true (divides_of_whole hs h1 hn) (Or.inl hn)
  · rw [divides_iff_of_fraction hs hd h1 hn]
    exact (or_iff_right hn).symm

/-! ## Both divisions -/

/-- Dividing by a number gives the truncated quotient exactly where `DivExact` holds, and by
a span a quotient and remainder exactly where `DivmodExact` does. -/
theorem span_divisions (s : Span) (hs : Stored s) :
    (∀ n, n ≠ 0 → Representable ((total s).tdiv n) →
      (spanDiv s n = some (ofTotal ((total s).tdiv n)) ↔ DivExact s n)) ∧
      (∀ d, Stored d → 1 ≤ d.seconds → (Divides s d ↔ DivmodExact s d)) := by
  constructor
  · intro n hn hrep
    exact spanDiv_exact_iff hs hn hrep
  · intro d hd h1
    exact divides_iff hs hd.norm h1

theorem span_divisions_halves :
    spanDiv ⟨-7, 0⟩ 2 = some ⟨-4, 500000000⟩ ∧ Divides ⟨-7, 0⟩ ⟨2, 0⟩ := by
  obtain ⟨hn, hd⟩ := span_divisions ⟨-7, 0⟩ (by decide)
  refine ⟨(hn 2 (by decide) (by decide)).2 ⟨by decide, by decide, by decide, by decide⟩, ?_⟩
  exact (hd ⟨2, 0⟩ (by decide) (by decide)).2 (Or.inl rfl)

/-- Half of one nanosecond less than two seconds below zero is rounded away from zero, and
three seconds are three times one and a half. -/
theorem span_divisions_off :
    ((total ⟨-2, 1⟩).tdiv 2 = -999999999 ∧ spanDiv ⟨-2, 1⟩ 2 = some (ofTotal (-1000000000))) ∧
      spanDivmod ⟨3, 0⟩ ⟨1, 500000000⟩ = some ⟨⟨3, 0⟩, ⟨0, 0⟩⟩ ∧
      total ⟨3, 0⟩ ≠ 3 * total ⟨1, 500000000⟩ + total ⟨0, 0⟩ := by
  decide

end Duration

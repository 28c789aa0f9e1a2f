import Resid.Lib.Bisect
import Resid.Zone.Local

/-!
# Leap seconds and TAI

TAI runs ahead of UTC by an offset that a table of 28 steps gives.  Entry 0 sets it to ten
seconds at the start of 1972; every later entry inserts one leap second.

    Steps before u = k → leapOffsetAtUtc u = some (offset k)                 (leapOffsetAtUtc_eq)
    Steps strictly before t = k → leapOffsetBeforeTai t = some (offset k)  (leapOffsetBeforeTai_eq)
    leapIsLeapSecond t = some true ↔ t is the TAI second of an entry         (leapIsLeapSecond_iff)
    the conversions agree with the table, and the leap seconds are told ↔ t is not entry 0's
                                                                              (tai_consistent_iff)

The test for leap seconds searches all entries, the first one included, which inserted none.

## Algorithm

Three searches halve the table: for the last entry at or before a UTC second, for the last
strictly before a TAI second, and for an entry at a TAI second.
-/

namespace Datetime

open CheckedInt Calendar TimeZone

/-! ## The table -/

def leapSecondsCount : Nat := 28

def leapYears : List Int :=
  [1972, 1972, 1973, 1974, 1975, 1976, 1977, 1977, 1978, 1979, 1980, 1981, 1982, 1983, 1985, 1988,
    1990, 1991, 1992, 1993, 1994, 1996, 1997, 1999, 2006, 2009, 2012, 2015]

def leapMonths : List Int :=
  [1, 7, 1, 1, 1, 1, 1, 7, 1, 1, 1, 7, 7, 7, 7, 1, 1, 1, 7, 7, 7, 1, 7, 1, 1, 1, 7, 7]

def leapOffsetOf (i : Int) : Option Int := add 64 10 i

/-- The UTC second at which entry `i` took effect, 0 out of range. -/
def leapUtcAt (i : Int) : Option Int :=
  if i < 0 ∨ i ≥ leapYears.length then some 0
  else do
    let z ← calDaysFromCivil (leapYears.getD i.toNat 0) (leapMonths.getD i.toNat 0) 1
    mul 64 z 86400

/-- The offset in effect just before entry `i`. -/
def leapOffsetBefore (i : Int) : Option Int :=
  if i ≤ 0 then some 0 else do sub 64 (← add 64 10 i) 1

/-- The TAI second at which entry `i` took effect. -/
def leapTaiAt (i : Int) : Option Int := do add 64 (← leapUtcAt i) (← leapOffsetBefore i)

/-! ## The searches -/

def leapSearchUtc (lo hi : Nat) (t found : Int) : Option Int :=
  if lo ≥ hi then some found
  else do
    if (← leapUtcAt ↑(lo + (hi - lo) / 2)) ≤ t then
      leapSearchUtc (lo + (hi - lo) / 2 + 1) hi t ↑(lo + (hi - lo) / 2)
    else leapSearchUtc lo (lo + (hi - lo) / 2) t found
termination_by hi - lo

def leapOffsetAtUtc (t : Int) : Option Int := do
  let f ← leapSearchUtc 0 leapSecondsCount t (0 - 1)
  if f < 0 then some 0 else leapOffsetOf f

def leapSearchTai (lo hi : Nat) (t found : Int) : Option Int :=
  if lo ≥ hi then some found
  else do
    if (← leapTaiAt ↑(lo + (hi - lo) / 2)) < t then
      leapSearchTai (lo + (hi - lo) / 2 + 1) hi t ↑(lo + (hi - lo) / 2)
    else leapSearchTai lo (lo + (hi - lo) / 2) t found
termination_by hi - lo

/-- The offset in effect strictly before TAI second `t`. -/
def leapOffsetBeforeTai (t : Int) : Option Int := do
  let f ← leapSearchTai 0 leapSecondsCount t (0 - 1)
  if f < 0 then some 0 else leapOffsetOf f

def leapSearchIs (lo hi : Nat) (t : Int) : Option Int :=
  if lo ≥ hi then some 0
  else do
    let there ← leapTaiAt ↑(lo + (hi - lo) / 2)
    if t = there then some 1
    else if t < there then leapSearchIs lo (lo + (hi - lo) / 2) t
    else leapSearchIs (lo + (hi - lo) / 2 + 1) hi t
termination_by hi - lo

def leapIsLeapSecond (t : Int) : Option Bool := do
  some (decide ((← leapSearchIs 0 leapSecondsCount t) ≠ 0))

/-! ## The conversions -/

def instantToTai (i : Instant) : Option Int := do add 64 i.seconds (← leapOffsetAtUtc i.seconds)

def instantFromTai (t : Int) : Option Instant := do
  let s ← sub 64 t (← leapOffsetBeforeTai t)
  some (instantOfSeconds s)

/-! ## Entries in order -/

def leapUtc (i : Nat) : Int := (leapUtcAt i).getD 0

/-- TAI - UTC once `k` entries are in effect. -/
def offset (k : Nat) : Int := if k = 0 then 0 else 9 + k

def leapTai (i : Nat) : Int := leapUtc i + offset i

/-- Each entry of the table is there, below the next one and inside the bounds. -/
theorem leap_table : ∀ i, i < 28 → leapUtcAt (i : Nat) = some (leapUtc i) ∧
    (i < 27 → leapUtc i < leapUtc (i + 1)) ∧ 63072000 ≤ leapUtc i ∧ leapUtc i < 2000000000 ∧
    (i = 0 → leapUtc i = 63072000) := by
  decide +kernel

theorem leapUtcAt_eq (i : Nat) (h : i < 28) : leapUtcAt (i : Nat) = some (leapUtc i) :=
  (leap_table i h).1

theorem leapUtc_succ (i : Nat) (h : i < 27) : leapUtc i < leapUtc (i + 1) :=
  (leap_table i (by omega)).2.1 h

theorem leapUtc_bounds (i : Nat) (h : i < 28) : 63072000 ≤ leapUtc i ∧ leapUtc i < 2000000000 := by
  obtain ⟨-, -, hlo, hhi, -⟩ := leap_table i h
  exact ⟨hlo, hhi⟩

theorem leapTai_zero : leapTai 0 = 63072000 := by
  show leapUtc 0 + 0 = 63072000
  rw [(leap_table 0 (by decide)).2.2.2.2 rfl, Int.add_zero]

variable {i j k l : Nat} {t t' u : Int}

theorem leapUtc_lt (hij : i < j) (hj : j < 28) : leapUtc i < leapUtc j := by
  induction j with
  | zero => omega
  | succ j ih =>
    have hstep := leapUtc_succ j (by omega)
    rcases Nat.lt_or_ge i j with h | h
    · have := ih h (by omega)
      omega
    · have hi : i = j := by omega
      rw [hi]
      exact hstep

theorem offset_lt (h : i < j) : offset i < offset j := by
  unfold offset
  split_ifs <;> omega

theorem leapTai_lt (hij : i < j) (hj : j < 28) : leapTai i < leapTai j := by
  have hutc := leapUtc_lt hij hj
  have hoff := offset_lt hij
  unfold leapTai
  omega

theorem offset_bounds (h : k ≤ 28) : 0 ≤ offset k ∧ offset k ≤ 37 := by
  unfold offset
  split_ifs <;> omega

theorem leapOffsetOf_last (hk : 0 < k) (h : k ≤ 28) :
    leapOffsetOf ((k - 1 : Nat) : Int) = some (offset k) := by
  have hval : 10 + ((k - 1 : Nat) : Int) = offset k := by
    unfold offset
    rw [if_neg (by omega)]
    omega
  rw [leapOffsetOf, add_of_fits (by rw [fits_64]; omega), hval]

theorem leapTaiAt_eq (h : i < 28) : leapTaiAt i = some (leapTai i) := by
  have hutc := leapUtc_bounds i h
  have hoff := offset_bounds (show i ≤ 28 by omega)
  have hbefore : leapOffsetBefore i = some (offset i) := by
    unfold leapOffsetBefore offset
    by_cases hi : i = 0
    · rw [if_pos (by omega), if_pos hi]
    · rw [if_neg (by omega), if_neg hi, add_of_fits (by rw [fits_64]; omega)]
      rw [some_bind, sub_of_fits (by rw [fits_64]; omega)]
      congr 1
      omega
  rw [leapTaiAt, leapUtcAt_eq i h, hbefore]
  simp only [some_bind]
  exact add_of_fits (by rw [fits_64]; omega)

/-! ## What the searches find -/

/-- `k` entries lie at or before UTC second `u`. -/
def UtcSteps (u : Int) (k : Nat) : Prop := Bisect.Cut (fun i => leapUtc i ≤ u) 28 k

/-- `k` entries lie strictly before TAI second `t`. -/
def TaiSteps (t : Int) (k : Nat) : Prop := Bisect.Cut (fun i => leapTai i < t) 28 k

theorem exists_utcSteps (u : Int) : ∃ k, UtcSteps u k := by
  apply Bisect.exists_cut
  intro i j hij hj h
  have := leapUtc_lt hij hj
  omega

theorem exists_taiSteps (t : Int) : ∃ k, TaiSteps t k := by
  apply Bisect.exists_cut
  intro i j hij hj h
  have := leapTai_lt hij hj
  omega

/-- The offset of the last entry found. -/
theorem offset_of_found (h : k ≤ 28) : (do
      let f ← some (if k ≤ 0 then (0 - 1 : Int) else ((k - 1 : Nat) : Int))
      if f < 0 then some 0 else leapOffsetOf f) = some (offset k) := by
  rw [some_bind]
  rcases Nat.eq_zero_or_pos k with rfl | hk
  · rfl
  · rw [if_neg (show ¬ k ≤ 0 by omega), if_neg (by omega)]
    exact leapOffsetOf_last hk h

/-- A search of the table for the last entry whose key passes a test. -/
theorem search_eq (f : Nat → Nat → Int → Option Int) (test : Int → Prop) [DecidablePred test]
    {entry : Int → Option Int} {key : Nat → Int}
    (hf : ∀ lo hi r, f lo hi r = if lo ≥ hi then some r else do
      if test (← entry ↑(lo + (hi - lo) / 2)) then
        f (lo + (hi - lo) / 2 + 1) hi ↑(lo + (hi - lo) / 2)
      else f lo (lo + (hi - lo) / 2) r)
    (hentry : ∀ i, i < 28 → entry (i : Nat) = some (key i))
    (hcut : Bisect.Cut (fun i => test (key i)) 28 k) :
    f 0 28 (0 - 1) = some (if k ≤ 0 then (0 - 1 : Int) else ((k - 1 : Nat) : Int)) := by
  refine @Bisect.eq_of_cut _ _ _ _ (fun i => (i : Int)) some _ _ hcut ?_ ?_ ?_ 0 28 (0 - 1)
    (Nat.zero_le k) hcut.1 (Nat.le_refl 28)
  · intro lo hi r hge
    rw [hf, if_pos hge]
  · intro lo hi r hlt hn hp
    have hm := (Bisect.mid_bounds hlt).2
    unfold Bisect.mid at hp hm ⊢
    rw [hf, if_neg (by omega), hentry _ (by omega), some_bind,
      if_pos hp]
  · intro lo hi r hlt hn hp
    have hm := (Bisect.mid_bounds hlt).2
    unfold Bisect.mid at hp hm ⊢
    rw [hf, if_neg (by omega), hentry _ (by omega), some_bind,
      if_neg hp]

theorem leapOffsetAtUtc_eq (h : UtcSteps u k) : leapOffsetAtUtc u = some (offset k) := by
  have hfound := search_eq (fun lo hi r => leapSearchUtc lo hi u r) (· ≤ u)
    (fun lo hi r => by rw [leapSearchUtc]) leapUtcAt_eq h
  rw [leapOffsetAtUtc, leapSecondsCount, hfound]
  exact offset_of_found h.1

theorem leapOffsetBeforeTai_eq (h : TaiSteps t k) : leapOffsetBeforeTai t = some (offset k) := by
  have hfound := search_eq (fun lo hi r => leapSearchTai lo hi t r) (· < t)
    (fun lo hi r => by rw [leapSearchTai]) (fun i hi => leapTaiAt_eq hi) h
  rw [leapOffsetBeforeTai, leapSecondsCount, hfound]
  exact offset_of_found h.1

theorem leapIsLeapSecond_iff (t : Int) :
    leapIsLeapSecond t = some true ↔ ∃ i, i < 28 ∧ t = leapTai i := by
  have hcases := @Bisect.hit_cases _ (fun lo hi => leapSearchIs lo hi t) leapTai (some 1) (some 0) 28 t
    (fun i j hij hj => leapTai_lt hij hj)
    (by
      intro lo hi hge
      rw [leapSearchIs, if_pos hge])
    (by
      intro lo hi hlt hn he
      have hm := (Bisect.mid_bounds hlt).2
      unfold Bisect.mid at he hm
      rw [leapSearchIs, if_neg (by omega), leapTaiAt_eq (by omega), Option.bind_eq_bind,
        Option.bind_some, if_pos he])
    (by
      intro lo hi hlt hn hl
      have hm := (Bisect.mid_bounds hlt).2
      unfold Bisect.mid at hl hm ⊢
      rw [leapSearchIs, if_neg (by omega), leapTaiAt_eq (by omega), Option.bind_eq_bind,
        Option.bind_some, if_neg (by omega), if_pos hl])
    (by
      intro lo hi hlt hn hr
      have hm := (Bisect.mid_bounds hlt).2
      unfold Bisect.mid at hr hm ⊢
      rw [leapSearchIs, if_neg (by omega), leapTaiAt_eq (by omega), Option.bind_eq_bind,
        Option.bind_some, if_neg (by omega), if_neg (by omega)])
    0 28 (Nat.le_refl 28)
  rw [leapIsLeapSecond, leapSecondsCount]
  rcases hcases with ⟨⟨i, -, hi, ht⟩, hf⟩ | ⟨hno, hf⟩
  · rw [hf]
    exact iff_of_true rfl ⟨i, hi, ht⟩
  · rw [hf]
    refine iff_of_false (by simp) ?_
    rintro ⟨i, hi, ht⟩
    exact hno i (Nat.zero_le i) hi ht

/-! ## The conversions -/

/-- The seconds whose TAI second is a 64-bit number under every entry. -/
def Away (u : Int) : Prop := Fits 64 u ∧ Fits 64 (u + 37)

theorem instantToTai_eq {i : Instant} (h : UtcSteps i.seconds k) (hi : Away i.seconds) :
    instantToTai i = some (i.seconds + offset k) := by
  have hoff := offset_bounds h.1
  obtain ⟨h0, h37⟩ := hi
  rw [fits_64] at h0 h37
  rw [instantToTai, leapOffsetAtUtc_eq h, some_bind,
    add_of_fits (by rw [fits_64]; omega)]

theorem taiSteps_low (h : TaiSteps t k) (hk : 0 < k) : 63072000 < t := by
  have hfirst : leapTai 0 < t := (h.2 0 (by omega)).2 hk
  rwa [leapTai_zero] at hfirst

theorem instantFromTai_eq (h : TaiSteps t k) (ht : Fits 64 t) :
    instantFromTai t = some (instantOfSeconds (t - offset k)) := by
  have hoff := offset_bounds h.1
  have hfits : Fits 64 (t - offset k) := by
    rw [fits_64] at ht ⊢
    rcases Nat.eq_zero_or_pos k with rfl | hk
    · unfold offset
      omega
    · have := taiSteps_low h hk
      omega
  rw [instantFromTai, leapOffsetBeforeTai_eq h, some_bind,
    sub_of_fits hfits]
  rfl

theorem steps_mono {p q : Nat → Prop} {n : Nat} (hp : Bisect.Cut p n k) (hq : Bisect.Cut q n l)
    (h : ∀ i, p i → q i) : k ≤ l := by
  by_contra hlt
  have hl := hp.1
  have := (hq.2 l (by omega)).1 (h l ((hp.2 l (by omega)).2 (by omega)))
  omega

theorem offset_mono (h : k ≤ l) : offset k ≤ offset l := by
  rcases Nat.lt_or_ge k l with hlt | hge
  · exact (offset_lt hlt).le
  · have hkl : k = l := by omega
    rw [hkl]

theorem instantToTai_lt {i j : Instant} (hlt : i.seconds < j.seconds) (hi : Away i.seconds)
    (hj : Away j.seconds) :
    ∃ a b, instantToTai i = some a ∧ instantToTai j = some b ∧ a < b := by
  obtain ⟨k, hk⟩ := exists_utcSteps i.seconds
  obtain ⟨l, hl⟩ := exists_utcSteps j.seconds
  have hoff := offset_mono (steps_mono hk hl (fun n h => by omega))
  exact ⟨_, _, instantToTai_eq hk hi, instantToTai_eq hl hj, by omega⟩

/-- The entries before the TAI second of `u` are those at or before `u`. -/
theorem UtcSteps.tai (h : UtcSteps u k) : TaiSteps (u + offset k) k := by
  refine ⟨h.1, fun i hi => ?_⟩
  have hiff := h.2 i hi
  unfold leapTai
  rcases Nat.lt_or_ge i k with hik | hik
  · have hoff := offset_lt hik
    have hle := hiff.2 hik
    exact iff_of_true (by omega) hik
  · have hoff := offset_mono hik
    have hgt : ¬ leapUtc i ≤ u := fun hle => absurd (hiff.1 hle) (by omega)
    exact iff_of_false (by omega) (by omega)

theorem instantFromTai_toTai (hu : Away u) :
    (instantToTai (instantOfSeconds u)).bind instantFromTai = some (instantOfSeconds u) := by
  obtain ⟨k, hk⟩ := exists_utcSteps u
  have hoff := offset_bounds hk.1
  have hfits : Fits 64 (u + offset k) := by
    obtain ⟨h0, h37⟩ := hu
    rw [fits_64] at h0 h37 ⊢
    omega
  rw [instantToTai_eq (i := instantOfSeconds u) hk hu, Option.bind_some]
  show instantFromTai (u + offset k) = _
  rw [instantFromTai_eq hk.tai hfits, Int.add_sub_cancel]

/-- A TAI second of an inserted leap second: an entry other than the first. -/
def Inserted (t : Int) : Prop := ∃ i, 1 ≤ i ∧ i < 28 ∧ t = leapTai i

/-- The first TAI second of 1972, ten seconds ahead of UTC. -/
def tai1972 : Int := 63072010

theorem taiSteps_1972 (h : TaiSteps t k) (ht : tai1972 ≤ t) : 1 ≤ k := by
  have hfirst : leapTai 0 < t := by
    unfold tai1972 at ht
    rw [leapTai_zero]
    omega
  exact (h.2 0 (by omega)).1 hfirst

/-- Where the number of entries before a TAI second grows, the POSIX seconds meet at a leap
second at most. -/
theorem posix_between (hk : TaiSteps t k) (hl : TaiSteps t' l) (h1 : 1 ≤ k) (hkl : k < l) :
    t - offset k ≤ leapUtc k ∧ leapUtc k ≤ leapUtc (l - 1) ∧ leapUtc (l - 1) ≤ t' - offset l := by
  have hl28 := hl.1
  have hlast : ¬ leapTai k < t := fun h => absurd ((hk.2 k (by omega)).1 h) (by omega)
  have hfirst : leapTai (l - 1) < t' := (hl.2 (l - 1) (by omega)).2 (by omega)
  have hoff : offset l = offset (l - 1) + 1 := by
    unfold offset
    rw [if_neg (by omega), if_neg (by omega)]
    omega
  have hutc : leapUtc k ≤ leapUtc (l - 1) := by
    rcases Nat.lt_or_ge k (l - 1) with h | h
    · exact (leapUtc_lt h (by omega)).le
    · have hkl' : k = l - 1 := by omega
      rw [← hkl']
  unfold leapTai at hlast hfirst
  omega

theorem instantFromTai_le (hlo : tai1972 ≤ t) (hle : t ≤ t') (ht : Fits 64 t) (ht' : Fits 64 t') :
    ∃ a b, instantFromTai t = some a ∧ instantFromTai t' = some b ∧ a.seconds ≤ b.seconds := by
  obtain ⟨k, hk⟩ := exists_taiSteps t
  obtain ⟨l, hl⟩ := exists_taiSteps t'
  refine ⟨_, _, instantFromTai_eq hk ht, instantFromTai_eq hl ht', ?_⟩
  show t - offset k ≤ t' - offset l
  rcases Nat.lt_or_ge k l with hkl | hkl
  · have hbetween := posix_between hk hl (taiSteps_1972 hk hlo) hkl
    omega
  · have hkl' : k = l := Nat.le_antisymm (steps_mono hk hl (fun n h => by omega)) hkl
    rw [hkl']
    omega

theorem taiSteps_leapTai (h : i < 28) : TaiSteps (leapTai i) i := by
  refine ⟨by omega, fun j hj => ⟨fun hlt => ?_, fun hlt => leapTai_lt hlt h⟩⟩
  by_contra hge
  rcases Nat.lt_or_ge i j with hij | hij
  · have := leapTai_lt hij hj
    omega
  · have hij' : i = j := by omega
    rw [hij'] at hlt
    omega

theorem taiSteps_leapTai_succ (h : i < 28) : TaiSteps (leapTai i + 1) (i + 1) := by
  refine ⟨by omega, fun j hj => ⟨fun hlt => ?_, fun hlt => ?_⟩⟩
  · by_contra hge
    have := leapTai_lt (show i < j by omega) hj
    omega
  · rcases Nat.lt_or_ge j i with hji | hji
    · have := leapTai_lt hji h
      omega
    · have hij : j = i := by omega
      rw [hij]
      omega

/-- Two TAI seconds of one POSIX second: an inserted leap second and the second after it. -/
theorem instantFromTai_eq_iff (hlo : tai1972 ≤ t) (hlt : t < t') (ht : Fits 64 t)
    (ht' : Fits 64 t') : instantFromTai t = instantFromTai t' ↔ Inserted t ∧ t' = t + 1 := by
  constructor
  · intro heq
    obtain ⟨k, hk⟩ := exists_taiSteps t
    obtain ⟨l, hl⟩ := exists_taiSteps t'
    rw [instantFromTai_eq hk ht, instantFromTai_eq hl ht'] at heq
    have hsec : t - offset k = t' - offset l := congrArg Instant.seconds (Option.some.inj heq)
    have h1 := taiSteps_1972 hk hlo
    have hkl : k < l := by
      by_contra hge
      have := offset_mono (show l ≤ k by omega)
      omega
    have hbetween := posix_between hk hl h1 hkl
    have hl28 := hl.1
    have hadj : l = k + 1 := by
      by_contra hne
      have := leapUtc_lt (show k < l - 1 by omega) (by omega)
      omega
    have hoff : offset l = offset k + 1 := by
      unfold offset
      rw [if_neg (by omega), if_neg (by omega)]
      omega
    have hend : leapUtc (l - 1) = leapUtc k := by rw [hadj, Nat.add_sub_cancel]
    refine ⟨⟨k, h1, by omega, ?_⟩, by omega⟩
    unfold leapTai
    omega
  · rintro ⟨⟨i, h1, hi, rfl⟩, rfl⟩
    rw [instantFromTai_eq (taiSteps_leapTai hi) ht,
      instantFromTai_eq (taiSteps_leapTai_succ hi) ht']
    have hoff : offset (i + 1) = offset i + 1 := by
      unfold offset
      rw [if_neg (by omega), if_neg (by omega)]
      omega
    congr 2
    omega

/-! ## The whole -/

/-- The conversions over the seconds away from overflow, from 1972 on where they go back. -/
structure TaiConversions : Prop where
  increasing : ∀ i j : Instant, i.seconds < j.seconds → Away i.seconds → Away j.seconds →
    ∃ a b, instantToTai i = some a ∧ instantToTai j = some b ∧ a < b
  inverse : ∀ u, Away u →
    (instantToTai (instantOfSeconds u)).bind instantFromTai = some (instantOfSeconds u)
  monotone : ∀ t t', tai1972 ≤ t → t ≤ t' → Fits 64 t → Fits 64 t' →
    ∃ a b, instantFromTai t = some a ∧ instantFromTai t' = some b ∧ a.seconds ≤ b.seconds
  doubled : ∀ t t', tai1972 ≤ t → t < t' → Fits 64 t → Fits 64 t' →
    (instantFromTai t = instantFromTai t' ↔ Inserted t ∧ t' = t + 1)

theorem taiConversions : TaiConversions where
  increasing := fun _ _ hlt hi hj => instantToTai_lt hlt hi hj
  inverse := fun _ hu => instantFromTai_toTai hu
  monotone := fun _ _ hlo hle ht ht' => instantFromTai_le hlo hle ht ht'
  doubled := fun _ _ hlo hlt ht ht' => instantFromTai_eq_iff hlo hlt ht ht'

/-- The conversions agree with the table, and the inserted leap seconds are told from all
other seconds exactly where the second is not the one the table starts at. -/
theorem tai_consistent_iff (t : Int) :
    (TaiConversions ∧ (leapIsLeapSecond t = some true ↔ Inserted t)) ↔ t ≠ 63072000 := by
  rw [leapIsLeapSecond_iff]
  constructor
  · rintro ⟨-, hiff⟩ rfl
    obtain ⟨i, h1, hi, ht⟩ := hiff.1 ⟨0, by omega, leapTai_zero.symm⟩
    have := leapTai_lt (show 0 < i by omega) hi
    rw [leapTai_zero] at this
    omega
  · intro hne
    refine ⟨taiConversions, ⟨?_, ?_⟩⟩
    · rintro ⟨i, hi, ht⟩
      rcases Nat.eq_zero_or_pos i with rfl | hpos
      · exact absurd (ht.trans leapTai_zero) hne
      · exact ⟨i, hpos, hi, ht⟩
    · rintro ⟨i, -, hi, ht⟩
      exact ⟨i, hi, ht⟩

/-- The second at which TAI was set ten seconds ahead passes for a leap second. -/
theorem leapIsLeapSecond_first :
    leapIsLeapSecond 63072000 = some true ∧ ¬ Inserted 63072000 := by
  refine ⟨(leapIsLeapSecond_iff _).2 ⟨0, by decide, leapTai_zero.symm⟩, ?_⟩
  rintro ⟨i, h1, hi, ht⟩
  have := leapTai_lt (show 0 < i by omega) hi
  rw [leapTai_zero] at this
  omega

end Datetime

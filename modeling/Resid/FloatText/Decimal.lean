import Resid.FloatText.Double
import Resid.Lib.DecimalCut

/-!
# Decimal text to double

Digits are gathered into a big integer; past 800 of them only their number and whether one
was nonzero is kept.  Away from the fast path, which multiplies or divides two doubles, the
number is scaled exactly and rounded once.

    significand p = (m + f) 10^adj, f < 1, sticky iff f ≠ 0          (scan_spec)
    quo = m 2^k / 10^E cuts (m + f) 2^k / 10^E                       (quotient_cut)
    Nearest (decimalToDouble native m e10 sticky) ((m + f) 10^e10)   (decimalToDouble_nearest)

## Algorithm

A text is its bytes, of which digits are 48 … 57.
-/

namespace FloatText

open DoubleBits Positional PowersOfTen

/-! ## Definitions -/

/-- The state of the digit scan; `adj` is the decimal exponent of `m`. -/
structure Scan where
  m : List Nat
  kept : Nat
  sticky : Bool
  adj : Int
  seen : Nat

def start : Scan := ⟨[], 0, false, 0, 0⟩

/-- Up to 800 significant digits enter `m`; later ones only set `sticky`, and shift the
exponent when before the point. -/
def takeDigit (st : Scan) (d : Nat) (frac : Bool) : Scan :=
  let st := { st with seen := st.seen + 1 }
  let lead := st.kept = 0 ∧ d = 0
  if lead then if frac then { st with adj := st.adj - 1 } else st
  else if st.kept < 800 then
    let st := { st with m := bnMuladd st.m 10 d, kept := st.kept + 1 }
    if frac then { st with adj := st.adj - 1 } else st
  else
    let st := if d ≠ 0 then { st with sticky := true } else st
    if frac then st else { st with adj := st.adj + 1 }

def scanDigits (st : Scan) (frac : Bool) : List Nat → Scan × List Nat
  | [] => (st, [])
  | c :: p => if c < 48 ∨ c > 57 then (st, c :: p) else scanDigits (takeDigit st (c - 48) frac) frac p

/-- The digits before the point and those after it. -/
def scan (p : List Nat) : Scan × List Nat :=
  let r := scanDigits start false p
  if r.2.getD 0 0 = 46 then scanDigits r.1 true r.2.tail else r

/-- Both operands are doubles, and one rounding is left to the processor. -/
def FastPath (m : List Nat) (e10 : Int) (sticky : Bool) : Prop :=
  sticky = false ∧ bnBitlen m ≤ 53 ∧ e10 ≥ -22 ∧ e10 ≤ 22

instance (m : List Nat) (e10 : Int) (sticky : Bool) : Decidable (FastPath m e10 sticky) :=
  inferInstanceAs (Decidable (_ ∧ _ ∧ _ ∧ _))

/-- `m * 10^e10` rounded; `native` is the fast path's arithmetic on doubles. -/
def decimalToDouble (native : List Nat → Int → Nat) (m : List Nat) (e10 : Int) (sticky : Bool) :
    Nat :=
  if m.length = 0 then 0
  else if FastPath m e10 sticky then native m e10
  else
    let bl := bnBitlen m
    if ((bl - 1) * 30103 / 100000 : Nat) + e10 > 330 then 2047 <<< 52
    else if (bl * 30103 / 100000 : Nat) + 1 + e10 < -350 then 0
    else if e10 ≥ 0 then bigToDouble (mulPow10 m e10.toNat) 0 sticky
    else
      let q := bnPow10 (-e10).toNat
      let k := max 0 ((bnBitlen q : Int) - bnBitlen m + 66)
      let r := bnDivmod (bnShl m k.toNat) q
      bigToDouble r.1 (-k) (sticky || r.2)

/-! ## The number a text denotes -/

def isDigit (c : Nat) : Bool := decide (48 ≤ c ∧ c ≤ 57)

def leadDigits (p : List Nat) : List Nat := (p.takeWhile isDigit).map (· - 48)

/-- The digits behind the point. -/
def fracDigits (p : List Nat) : List Nat :=
  if (p.dropWhile isDigit).getD 0 0 = 46 then leadDigits (p.dropWhile isDigit).tail else []

def numeral (D : Nat) (ds : List Nat) : Nat := ds.foldl (fun n d => n * 10 + d) D

/-- The decimal significand a text starts with. -/
def significand (p : List Nat) : ℚ :=
  numeral (numeral 0 (leadDigits p)) (fracDigits p) / 10 ^ (fracDigits p).length

/-! ## Gathering digits -/

/-- What the state says of the digits so far, `D` as a number, `f` of them behind the point:
`t` digits were dropped, of which `r` is the number. -/
structure Gathered (st : Scan) (D f : Nat) : Prop where
  normal : Normal base st.m
  full : st.kept ≤ 800
  bound : val st.m < 10 ^ st.kept
  top : ∀ n, st.kept = n + 1 → 10 ^ n ≤ val st.m
  split : ∃ t r : Nat, D = val st.m * 10 ^ t + r ∧ r < 10 ^ t ∧ (st.sticky = true ↔ r ≠ 0) ∧
    st.adj = (t : Int) - f ∧ (t = 0 ∨ st.kept = 800)

theorem gathered_start : Gathered start 0 0 := by
  refine ⟨⟨IsDigits.nil base, fun h => absurd rfl h⟩, by decide, by decide, ?_, ?_⟩
  · intro n hn
    exact absurd hn (by simp [start])
  · exact ⟨0, 0, rfl, by decide, by decide, rfl, .inl rfl⟩

theorem takeDigit_spec {st : Scan} {D f d : Nat} (h : Gathered st D f) (hd : d < 10) (frac : Bool) :
    Gathered (takeDigit st d frac) (D * 10 + d) (f + if frac then 1 else 0) := by
  obtain ⟨hnorm, hfull, hbound, htop, t, r, hD, hr, hsticky, hadj, ht⟩ := h
  unfold takeDigit
  by_cases hlead : st.kept = 0 ∧ d = 0
  · -- a leading zero moves only the exponent
    obtain rfl : t = 0 := by omega
    obtain rfl : r = 0 := by omega
    have hm : val st.m = 0 := by
      rw [hlead.1] at hbound
      omega
    have hD' : D * 10 + d = val st.m * 10 ^ 0 + 0 := by
      rw [hD, hm, hlead.2, Nat.zero_mul]
    simp only [if_pos hlead]
    cases frac with
    | false => exact ⟨hnorm, hfull, hbound, htop, 0, 0, hD', hr, hsticky, hadj, .inl rfl⟩
    | true =>
      have hadj' : st.adj - 1 = ((0 : Nat) : Int) - (f + 1 : Nat) := by
        rw [hadj]
        push_cast
        ring
      exact ⟨hnorm, hfull, hbound, htop, 0, 0, hD', hr, hsticky, hadj', .inl rfl⟩
  simp only [if_neg hlead]
  by_cases hroom : st.kept < 800
  · -- the digit enters the big integer
    obtain rfl : t = 0 := by omega
    obtain rfl : r = 0 := by omega
    obtain ⟨h1, h2⟩ := bnMuladd_spec hnorm (m := 10) (a := d) (by decide) (by decide)
      (hd.trans (by decide))
    have hbound' : val (bnMuladd st.m 10 d) < 10 ^ (st.kept + 1) := by
      rw [h2, Nat.pow_succ]
      omega
    have htop' : ∀ n, st.kept + 1 = n + 1 → 10 ^ n ≤ val (bnMuladd st.m 10 d) := by
      intro n hn
      have hkn : st.kept = n := by omega
      rw [h2]
      rcases Nat.eq_zero_or_pos n with rfl | hpos
      · have hne : d ≠ 0 := fun hd0 => hlead ⟨hkn, hd0⟩
        rw [Nat.pow_zero]
        omega
      · obtain ⟨j, rfl⟩ : ∃ j, n = j + 1 := ⟨n - 1, by omega⟩
        have := htop j hkn
        rw [Nat.pow_succ]
        omega
    have hD' : D * 10 + d = val (bnMuladd st.m 10 d) * 10 ^ 0 + 0 := by
      rw [h2, hD, Nat.pow_zero, Nat.mul_one, Nat.mul_one, Nat.add_zero, Nat.add_zero]
    rw [if_pos hroom]
    cases frac with
    | false => exact ⟨h1, hroom, hbound', htop', 0, 0, hD', hr, hsticky, hadj, .inl rfl⟩
    | true =>
      have hadj' : st.adj - 1 = ((0 : Nat) : Int) - (f + 1 : Nat) := by
        rw [hadj]
        push_cast
        ring
      exact ⟨h1, hroom, hbound', htop', 0, 0, hD', hr, hsticky, hadj', .inl rfl⟩
  · -- the digit is dropped
    have hk : st.kept = 800 := by omega
    have hD' : D * 10 + d = val st.m * 10 ^ (t + 1) + (r * 10 + d) := by
      rw [hD, Nat.pow_succ]
      ring
    have hr' : r * 10 + d < 10 ^ (t + 1) := by
      rw [Nat.pow_succ]
      omega
    have hadj' : st.adj + 1 = ((t + 1 : Nat) : Int) - f := by
      rw [hadj]
      push_cast
      ring
    have hadjf : st.adj = ((t + 1 : Nat) : Int) - (f + 1 : Nat) := by
      rw [hadj]
      push_cast
      ring
    rw [if_neg hroom]
    by_cases hd0 : d ≠ 0
    · have hst : true = true ↔ r * 10 + d ≠ 0 := iff_of_true rfl (by omega)
      simp only [if_pos hd0]
      cases frac with
      | false => exact ⟨hnorm, hfull, hbound, htop, t + 1, _, hD', hr', hst, hadj', .inr hk⟩
      | true => exact ⟨hnorm, hfull, hbound, htop, t + 1, _, hD', hr', hst, hadjf, .inr hk⟩
    · have hst : st.sticky = true ↔ r * 10 + d ≠ 0 := by
        rw [hsticky]
        omega
      simp only [if_neg hd0]
      cases frac with
      | false => exact ⟨hnorm, hfull, hbound, htop, t + 1, _, hD', hr', hst, hadj', .inr hk⟩
      | true => exact ⟨hnorm, hfull, hbound, htop, t + 1, _, hD', hr', hst, hadjf, .inr hk⟩

theorem isDigit_false {c : Nat} (h : c < 48 ∨ c > 57) : isDigit c = false := by
  unfold isDigit
  rw [decide_eq_false_iff_not]
  omega

theorem isDigit_true {c : Nat} (h : ¬ (c < 48 ∨ c > 57)) : isDigit c = true := by
  unfold isDigit
  rw [decide_eq_true_eq]
  omega

theorem scanDigits_spec (frac : Bool) (p : List Nat) : ∀ {st : Scan} {D f : Nat}, Gathered st D f →
    Gathered (scanDigits st frac p).1 (numeral D (leadDigits p))
      (f + if frac then (leadDigits p).length else 0) ∧
    (scanDigits st frac p).2 = p.dropWhile isDigit := by
  induction p with
  | nil =>
    intro st D f h
    refine ⟨?_, rfl⟩
    cases frac <;> exact h
  | cons c p ih =>
    intro st D f h
    unfold scanDigits
    by_cases hc : c < 48 ∨ c > 57
    · have hfalse := isDigit_false hc
      have hlead : leadDigits (c :: p) = [] := by
        rw [leadDigits, List.takeWhile_cons_of_neg (by rw [hfalse]; decide), List.map_nil]
      rw [if_pos hc, hlead, List.dropWhile_cons_of_neg (by rw [hfalse]; decide)]
      refine ⟨?_, rfl⟩
      cases frac <;> exact h
    · have htrue := isDigit_true hc
      have hlead : leadDigits (c :: p) = (c - 48) :: leadDigits p := by
        rw [leadDigits, List.takeWhile_cons_of_pos htrue, List.map_cons, leadDigits]
      obtain ⟨h1, h2⟩ := ih (takeDigit_spec h (d := c - 48) (by omega) frac)
      rw [if_neg hc, hlead, List.dropWhile_cons_of_pos htrue]
      refine ⟨?_, h2⟩
      have hcount : (f + if frac then ((c - 48) :: leadDigits p).length else 0) =
          (f + if frac then 1 else 0) + if frac then (leadDigits p).length else 0 := by
        cases frac with
        | false => rfl
        | true =>
          rw [if_pos rfl, if_pos rfl, if_pos rfl, List.length_cons]
          omega
      rw [hcount]
      exact h1

theorem scan_gathered (p : List Nat) : Gathered (scan p).1
    (numeral (numeral 0 (leadDigits p)) (fracDigits p)) (fracDigits p).length := by
  obtain ⟨h1, h2⟩ := scanDigits_spec false p gathered_start
  unfold scan fracDigits
  simp only [h2]
  by_cases hpoint : (p.dropWhile isDigit).getD 0 0 = 46
  · rw [if_pos hpoint, if_pos hpoint]
    obtain ⟨h3, -⟩ := scanDigits_spec true (p.dropWhile isDigit).tail h1
    simpa using h3
  · rw [if_neg hpoint, if_neg hpoint]
    exact h1

/-- The number scanned is `m` and a fraction, scaled; digits are dropped only below 800 of them. -/
structure Tail (V : Nat) (sticky : Bool) (f : ℚ) : Prop where
  nonneg : 0 ≤ f
  lt_one : f < 1
  sticky_iff : sticky = true ↔ 0 < f
  far : sticky = true → 10 ^ 799 ≤ V
  size : V < 10 ^ 800

theorem scan_spec (p : List Nat) : Normal base (scan p).1.m ∧ ∃ f : ℚ,
    Tail (val (scan p).1.m) (scan p).1.sticky f ∧
      significand p = (val (scan p).1.m + f) * 10 ^ (scan p).1.adj := by
  obtain ⟨hnorm, hfull, hbound, htop, t, r, hD, hr, hsticky, hadj, ht⟩ := scan_gathered p
  have hten : (0 : ℚ) < 10 ^ t := pow_pos (by norm_num) t
  refine ⟨hnorm, r / 10 ^ t, ⟨?_, ?_, ?_, ?_, ?_⟩, ?_⟩
  · exact div_nonneg (Nat.cast_nonneg r) hten.le
  · rw [div_lt_one hten]
    exact_mod_cast hr
  · rw [hsticky]
    constructor
    · intro hne
      exact div_pos (Nat.cast_pos.2 (Nat.pos_of_ne_zero hne)) hten
    · intro hpos hzero
      rw [hzero, Nat.cast_zero, zero_div] at hpos
      exact lt_irrefl 0 hpos
  · intro hs
    have hne := hsticky.1 hs
    have hk : (scan p).1.kept = 799 + 1 := by
      rcases ht with rfl | hk
      · rw [Nat.pow_zero] at hr
        omega
      · exact hk
    exact htop 799 hk
  · exact hbound.trans_le (Nat.pow_le_pow_right (by decide) hfull)
  · have hne : (10 : ℚ) ≠ 0 := by norm_num
    unfold significand
    rw [hD, hadj, zpow_sub₀ hne, zpow_natCast, zpow_natCast]
    push_cast
    field_simp

/-! ## The cut-offs -/

theorem ten_zpow_pos (e : ℤ) : (0 : ℚ) < 10 ^ e := zpow_pos (by norm_num) e

theorem ten_ne_zero' : (10 : ℚ) ≠ 0 := by norm_num

variable {f : ℚ} {E V k : Nat}

theorem size_le_of_lt (h : V < 10 ^ 800) : V.size ≤ 2658 := by
  exact Nat.size_le.2 (h.trans_le comparisons.ten_800)

/-- Out of range above: the number is past the doubles. -/
theorem overflow_spec {e : Int} (hV : V ≠ 0) (hsize : V < 10 ^ 800) (hf : 0 ≤ f)
    (h : (((V.size - 1) * 30103 / 100000 : Nat) : Int) + e > 330) :
    (2 : ℚ) ^ 1024 ≤ (V + f) * 10 ^ e := by
  have hbound := size_le_of_lt hsize
  obtain ⟨hlo, -⟩ := size_bounds hV
  have hten := ten_pow_le (n := V.size - 1) (by omega)
  generalize (V.size - 1) * 30103 / 100000 = a at h hten
  have hdig : 10 ^ a ≤ 2 * V := by
    calc 10 ^ a ≤ 2 ^ (V.size - 1 + 1) := hten
      _ = 2 * 2 ^ (V.size - 1) := pow_succ' 2 _
      _ ≤ 2 * V := Nat.mul_le_mul_left 2 hlo
  have hdigq : (10 : ℚ) ^ a ≤ 2 * V := by exact_mod_cast hdig
  have hnumq : (2 : ℚ) ^ 1024 ≤ 10 ^ 330 := by exact_mod_cast comparisons.two_1024
  have he := ten_zpow_pos e
  calc (2 : ℚ) ^ 1024 ≤ 10 ^ 330 := hnumq
    _ = 10 ^ ((330 : Nat) : ℤ) := (zpow_natCast _ _).symm
    _ = 10 ^ (((330 : Nat) : ℤ) + 1) / 10 := by
      rw [zpow_add_one₀ ten_ne_zero', mul_div_cancel_right₀ _ ten_ne_zero']
    _ ≤ 10 ^ ((a : ℤ) + e) / 10 := by
      apply div_le_div_of_nonneg_right _ (by norm_num)
      exact zpow_le_zpow_right₀ (by norm_num) (by omega)
    _ = 10 ^ a * 10 ^ e / 10 := by rw [zpow_add₀ ten_ne_zero', zpow_natCast]
    _ ≤ (V + f) * 10 ^ e := by
      have hle : (10 : ℚ) ^ a / 10 ≤ V + f := by
        have hVq : (0 : ℚ) ≤ V := Nat.cast_nonneg V
        linarith
      calc (10 : ℚ) ^ a * 10 ^ e / 10 = 10 ^ a / 10 * 10 ^ e := by ring
        _ ≤ (V + f) * 10 ^ e := mul_le_mul_of_nonneg_right hle he.le

/-- Out of range below: the number is less than half of the least subnormal. -/
theorem underflow_spec {e : Int} (hf : f < 1)
    (h : ((V.size * 30103 / 100000 : Nat) : Int) + 1 + e < -350) : (V + f) * 10 ^ e * 2 < unit := by
  have htwo := two_pow_lt V.size
  generalize V.size * 30103 / 100000 = a at h htwo
  have hV : V + 1 ≤ 10 ^ (a + 1) := (Nat.lt_size_self V).trans htwo
  have hVq : (V : ℚ) + 1 ≤ 10 ^ (a + 1) := by exact_mod_cast hV
  have hnumq : (2 : ℚ) * 2 ^ 1074 < 10 ^ 351 := by exact_mod_cast comparisons.two_1075
  have hp : (0 : ℚ) < 2 ^ 1074 := pow_pos (by norm_num) _
  have hq : (0 : ℚ) < 10 ^ 351 := pow_pos (by norm_num) _
  have hsmall : (10 : ℚ) ^ (-((351 : Nat) : ℤ)) * 2 < unit := by
    rw [zpow_neg, zpow_natCast, unit, inv_mul_eq_div, ← one_div, div_lt_div_iff₀ hq hp, one_mul]
    exact hnumq
  refine lt_of_le_of_lt ?_ hsmall
  apply mul_le_mul_of_nonneg_right _ (by norm_num)
  calc (V + f) * 10 ^ e ≤ 10 ^ (a + 1) * 10 ^ e :=
        mul_le_mul_of_nonneg_right (by linarith) (ten_zpow_pos e).le
    _ = 10 ^ (((a + 1 : Nat) : ℤ) + e) := by rw [zpow_add₀ ten_ne_zero', zpow_natCast]
    _ ≤ 10 ^ (-((351 : Nat) : ℤ)) := zpow_le_zpow_right₀ (by norm_num) (by push_cast; omega)

/-! ## The quotient -/

/-- With 800 digits kept, a number in the normal range has a divisor that the bits dropped outweigh. -/
theorem far_normal {l : Nat} (hV : 10 ^ 799 ≤ V) (hlt : V * 2 ^ k < 2 ^ l * 10 ^ E)
    (hl : l + E ≤ k + 53) : 1075 ≤ E := by
  by_contra hE
  have hnum := comparisons.five_1074
  have hten : 10 ^ E = 2 ^ E * 5 ^ E := Nat.mul_pow 2 5 E
  have hfive : 5 ^ E ≤ 5 ^ 1074 := Nat.pow_le_pow_right (by decide) (by omega)
  have hbig : V * (2 ^ k * 2 ^ E) < 2 ^ 53 * 5 ^ E * (2 ^ k * 2 ^ E) := by
    calc V * (2 ^ k * 2 ^ E) = V * 2 ^ k * 2 ^ E := by ring
      _ < 2 ^ l * 10 ^ E * 2 ^ E := Nat.mul_lt_mul_of_pos_right hlt (Nat.pow_pos (by decide))
      _ = 2 ^ (l + E) * 10 ^ E := by
        rw [Nat.pow_add]
        ring
      _ ≤ 2 ^ (k + 53) * 10 ^ E := Nat.mul_le_mul_right _ (Nat.pow_le_pow_right (by decide) hl)
      _ = 2 ^ 53 * 5 ^ E * (2 ^ k * 2 ^ E) := by
        rw [hten, Nat.pow_add]
        ring
  have hlt' := Nat.lt_of_mul_lt_mul_right hbig
  exact absurd (hV.trans_lt hlt') (not_lt.2 ((Nat.mul_le_mul_left _ hfive).trans hnum))

theorem far_subnormal {l : Nat} (hV : 10 ^ 799 ≤ V) (hlt : V * 2 ^ k < 2 ^ l * 10 ^ E)
    (hl : l + 1022 ≤ k) : 1075 ≤ E := by
  by_contra hE
  have hnum := comparisons.ten_1074
  have hten : 10 ^ E ≤ 10 ^ 1074 := Nat.pow_le_pow_right (by decide) (by omega)
  have hbig : V * 2 ^ 1022 * 2 ^ l < 10 ^ E * 2 ^ l := by
    calc V * 2 ^ 1022 * 2 ^ l = V * 2 ^ (l + 1022) := by
          rw [Nat.pow_add]
          ring
      _ ≤ V * 2 ^ k := Nat.mul_le_mul_left _ (Nat.pow_le_pow_right (by decide) hl)
      _ < 2 ^ l * 10 ^ E := hlt
      _ = 10 ^ E * 2 ^ l := Nat.mul_comm _ _
  have hlt' := Nat.lt_of_mul_lt_mul_right hbig
  have hle : 10 ^ 799 * 2 ^ 1022 ≤ V * 2 ^ 1022 := Nat.mul_le_mul_right _ hV
  exact absurd (hle.trans_lt hlt') (not_lt.2 (hten.trans hnum))

/-- The scaled quotient keeps what decides the rounding: at least 66 bits, and no half of the
last place between it and the number. -/
theorem quotient_cut {sticky rem : Bool} (hV : V ≠ 0) (h : Tail V sticky f)
    (hk : k = (10 ^ E).size + 66 - V.size) (hrem : rem = true ↔ V * 2 ^ k % 10 ^ E ≠ 0) :
    V * 2 ^ k / 10 ^ E ≠ 0 ∧
      Cut (V * 2 ^ k / 10 ^ E) (sticky || rem) (dropOf (V * 2 ^ k / 10 ^ E).size (-k))
        ((V + f) * 2 ^ k / 10 ^ E) := by
  have hQ : 0 < 10 ^ E := Nat.pow_pos (by decide)
  have hsizeQ := Nat.lt_size_self (10 ^ E)
  obtain ⟨hVlo, -⟩ := size_bounds hV
  have hsizeV := Nat.size_pos.2 (Nat.pos_of_ne_zero hV)
  have hlong : 2 ^ 65 ≤ V * 2 ^ k / 10 ^ E := by
    rw [Nat.le_div_iff_mul_le hQ]
    calc 2 ^ 65 * 10 ^ E ≤ 2 ^ 65 * 2 ^ (10 ^ E).size := Nat.mul_le_mul_left _ hsizeQ.le
      _ = 2 ^ (65 + (10 ^ E).size) := (Nat.pow_add _ _ _).symm
      _ ≤ 2 ^ (V.size - 1 + k) := Nat.pow_le_pow_right (by decide) (by omega)
      _ = 2 ^ (V.size - 1) * 2 ^ k := Nat.pow_add _ _ _
      _ ≤ V * 2 ^ k := Nat.mul_le_mul_right _ hVlo
  have hdm := Nat.div_add_mod (V * 2 ^ k) (10 ^ E)
  have hmod := Nat.mod_lt (V * 2 ^ k) hQ
  have hlt : V * 2 ^ k < 2 ^ (V * 2 ^ k / 10 ^ E).size * 10 ^ E := by
    rw [← Nat.div_lt_iff_lt_mul hQ]
    exact Nat.lt_size_self _
  have hsize : 65 < (V * 2 ^ k / 10 ^ E).size := Nat.lt_size.2 hlong
  generalize V * 2 ^ k / 10 ^ E = W at *
  generalize W.size = l at *
  have hne : W ≠ 0 := by
    have : 0 < 2 ^ 65 := by decide
    omega
  -- something is dropped, and with a tail the dropped bits outweigh the shift
  have hdrop : 0 < dropOf l (-k) ∧ (sticky = true → (k : Int) ≤ dropOf l (-k) - 1 + E) := by
    unfold dropOf
    by_cases hnormal : (l : Int) - 1 + -k ≥ -1022
    · rw [if_pos hnormal]
      refine ⟨by omega, fun hs => ?_⟩
      by_contra hgt
      have := far_normal (h.far hs) hlt (by omega)
      omega
    · rw [if_neg hnormal]
      refine ⟨by omega, fun hs => ?_⟩
      have := far_subnormal (h.far hs) hlt (by omega)
      omega
  have hQq : (0 : ℚ) < 10 ^ E := pow_pos (by norm_num) E
  have hkq : (0 : ℚ) < 2 ^ k := pow_pos (by norm_num) k
  have hdmq : (10 : ℚ) ^ E * W + (V * 2 ^ k % 10 ^ E : Nat) = V * 2 ^ k := by exact_mod_cast hdm
  have hr0 : (0 : ℚ) ≤ (V * 2 ^ k % 10 ^ E : Nat) := Nat.cast_nonneg _
  have hfk : 0 ≤ f * 2 ^ k := mul_nonneg h.nonneg hkq.le
  refine ⟨hne, ⟨?_, ?_, ?_, ?_⟩⟩
  · rw [le_div_iff₀ hQq]
    linarith
  · rw [lt_div_iff₀ hQq, Bool.or_eq_true, h.sticky_iff, hrem]
    constructor
    · rintro (hf | hr)
      · have := mul_pos hf hkq
        linarith
      · have hrq : (0 : ℚ) < (V * 2 ^ k % 10 ^ E : Nat) := Nat.cast_pos.2 (Nat.pos_of_ne_zero hr)
        linarith
    · intro hgt
      by_contra hnone
      obtain ⟨hf, hr⟩ := not_or.1 hnone
      have hf0 : f = 0 := le_antisymm (not_lt.1 hf) h.nonneg
      rw [not_not.1 hr, Nat.cast_zero] at hdmq
      rw [hf0, add_zero] at hgt
      linarith
  · intro hneg
    omega
  · intro t ht c hW
    have hcut : V * 2 ^ k < c * 2 ^ t * 10 ^ E := by
      calc V * 2 ^ k < 10 ^ E * W + 10 ^ E := by omega
        _ = (W + 1) * 10 ^ E := by ring
        _ ≤ c * 2 ^ t * 10 ^ E := Nat.mul_le_mul_right _ hW
    rw [div_lt_iff₀ hQq]
    by_cases hs : sticky = true
    · -- the shift divides the half place, so the tail does not reach it
      have hkt : k ≤ t + E := by
        have := hdrop.2 hs
        omega
      have hfactor : c * 2 ^ t * 10 ^ E = c * 5 ^ E * 2 ^ (t + E - k) * 2 ^ k := by
        have hsplit : 2 ^ t * 2 ^ E = 2 ^ (t + E - k) * 2 ^ k := by
          rw [← Nat.pow_add, ← Nat.pow_add, Nat.sub_add_cancel hkt]
        calc c * 2 ^ t * 10 ^ E = c * 5 ^ E * (2 ^ t * 2 ^ E) := by
              rw [show 10 = 2 * 5 from rfl, Nat.mul_pow]
              ring
          _ = c * 5 ^ E * 2 ^ (t + E - k) * 2 ^ k := by
              rw [hsplit]
              ring
      rw [hfactor] at hcut
      have hnat : V + 1 ≤ c * 5 ^ E * 2 ^ (t + E - k) := Nat.lt_of_mul_lt_mul_right hcut
      have hq : (V : ℚ) + 1 ≤ (c * 5 ^ E * 2 ^ (t + E - k) : Nat) := by exact_mod_cast hnat
      have hfq : (c : ℚ) * 2 ^ t * 10 ^ E = (c * 5 ^ E * 2 ^ (t + E - k) : Nat) * 2 ^ k := by
        exact_mod_cast hfactor
      rw [hfq]
      exact mul_lt_mul_of_pos_right (by linarith [h.lt_one]) hkq
    · have hf0 : f = 0 := le_antisymm (not_lt.1 fun hf => hs (h.sticky_iff.2 hf)) h.nonneg
      rw [hf0, add_zero]
      exact_mod_cast hcut

/-! ## The double -/

/-- Off the fast path the double nearest to the number is returned, ties to even. -/
theorem decimalToDouble_nearest {m : List Nat} (hm : Normal base m) {sticky : Bool}
    (h : Tail (val m) sticky f) (native : List Nat → Int → Nat) {e10 : Int}
    (hslow : ¬ FastPath m e10 sticky) :
    Nearest (decimalToDouble native m e10 sticky) ((val m + f) * 10 ^ e10) := by
  unfold decimalToDouble
  by_cases hnil : m.length = 0
  · -- no digit but zeros
    have hm0 : val m = 0 := by
      rw [List.eq_nil_of_length_eq_zero hnil]
      rfl
    have hf0 : f = 0 := by
      apply le_antisymm _ h.nonneg
      apply not_lt.1
      intro hf
      have hfar := h.far (h.sticky_iff.2 hf)
      rw [hm0] at hfar
      have := Nat.pow_pos (n := 799) (show 0 < 10 by decide)
      omega
    rw [if_pos hnil, hm0, hf0, Nat.cast_zero, add_zero, zero_mul]
    apply nearest_zero le_rfl
    rw [zero_mul]
    exact unit_pos
  have hV : val m ≠ 0 := by
    intro h0
    rw [(hm.eq_zero_iff one_lt_base).1 h0] at hnil
    exact hnil rfl
  rw [if_neg hnil, if_neg hslow]
  simp only [bnBitlen_eq hm]
  by_cases hover : (((val m).size - 1) * 30103 / 100000 : Nat) + e10 > 330
  · rw [if_pos hover]
    exact nearest_inf (overflow_spec hV h.size h.nonneg hover)
  rw [if_neg hover]
  by_cases hunder : ((val m).size * 30103 / 100000 : Nat) + 1 + e10 < -350
  · rw [if_pos hunder]
    apply nearest_zero
    · have := h.nonneg
      have := ten_zpow_pos e10
      positivity
    · exact underflow_spec h.lt_one hunder
  rw [if_neg hunder]
  by_cases hpos : e10 ≥ 0
  · -- the product is exact: a tail would have passed the cut-off above
    have hs : sticky = false := by
      by_contra hne
      have hfar := h.far (Bool.eq_true_of_not_eq_false hne)
      have hsize := Nat.lt_size.2 (comparisons.two_2654.trans hfar)
      omega
    have hf0 : f = 0 := by
      apply le_antisymm _ h.nonneg
      apply not_lt.1
      intro hf
      rw [h.sticky_iff.2 hf] at hs
      exact absurd hs (by decide)
    obtain ⟨h1, h2⟩ := mulPow10_spec m e10.toNat hm
    have hne : val (mulPow10 m e10.toNat) ≠ 0 := by
      rw [h2]
      exact Nat.mul_ne_zero hV (Nat.pow_pos (by decide)).ne'
    have hcut : Cut (val (mulPow10 m e10.toNat)) sticky
        (dropOf (val (mulPow10 m e10.toNat)).size 0) (val (mulPow10 m e10.toNat)) := by
      refine ⟨le_rfl, ?_, fun _ => rfl, fun t _ c hc => by exact_mod_cast hc⟩
      rw [hs]
      exact iff_of_false (by decide) (lt_irrefl _)
    have hnear := bigToDouble_nearest h1 hne hcut
    have hten : (10 : ℚ) ^ e10 = 10 ^ e10.toNat := by
      rw [← zpow_natCast, Int.toNat_of_nonneg hpos]
    rw [if_pos hpos, hf0, add_zero, hten]
    rw [zpow_zero, mul_one, h2] at hnear
    push_cast at hnear
    exact hnear
  · rw [if_neg hpos]
    obtain ⟨q1, q2⟩ := bnPow10_spec (-e10).toNat
    rw [bnBitlen_eq q1, q2]
    obtain ⟨E, hE⟩ : ∃ E : Nat, (-e10).toNat = E := ⟨_, rfl⟩
    rw [hE] at q1 q2 ⊢
    obtain ⟨k, hk⟩ : ∃ k : Nat, (10 ^ E).size + 66 - (val m).size = k := ⟨_, rfl⟩
    have hmax : max 0 (((10 ^ E).size : Int) - (val m).size + 66) = k := by omega
    obtain ⟨s1, s2⟩ := bnShl_spec hm k
    obtain ⟨d1, d2, d3⟩ := bnDivmod_spec s1 q1 (by rw [q2]; exact Nat.pow_pos (by decide))
    rw [q2, s2] at d2 d3
    obtain ⟨hne, hcut⟩ := quotient_cut hV h hk.symm d3
    rw [← d2] at hne hcut
    have hnear := bigToDouble_nearest d1 hne hcut
    have hx : (val m + f) * 2 ^ k / 10 ^ E * 2 ^ (-(k : ℤ)) = (val m + f) * 10 ^ e10 := by
      have he : e10 = -(E : ℤ) := by omega
      rw [he, zpow_neg, zpow_neg, zpow_natCast, zpow_natCast]
      field_simp
    rw [hx] at hnear
    simp only [hmax, Int.toNat_natCast]
    exact hnear

/-- The digits of a text under any exponent, off the fast path. -/
theorem decimal_to_double_nearest (native : List Nat → Int → Nat) (p : List Nat) (e : Int)
    (hslow : ¬ FastPath (scan p).1.m ((scan p).1.adj + e) (scan p).1.sticky) :
    Nearest (decimalToDouble native (scan p).1.m ((scan p).1.adj + e) (scan p).1.sticky)
      (significand p * 10 ^ e) := by
  obtain ⟨hnorm, f, htail, hvalue⟩ := scan_spec p
  rw [hvalue, mul_assoc, ← zpow_add₀ ten_ne_zero']
  exact decimalToDouble_nearest hnorm htail native hslow

/-- `1e23` lies halfway between two doubles. -/
theorem decimal_to_double_nearest_1e23 :
    Nearest (decimalToDouble (fun _ _ => 0) (scan [49]).1.m ((scan [49]).1.adj + 23)
      (scan [49]).1.sticky) (significand [49] * 10 ^ (23 : ℤ)) :=
  decimal_to_double_nearest _ [49] 23 (by decide)

example : decimalToDouble (fun _ _ => 0) [1] 23 false = 4950912855330343670 := by decide +kernel

end FloatText

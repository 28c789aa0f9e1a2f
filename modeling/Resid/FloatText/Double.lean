import Resid.FloatText.BigDiv
import Resid.Lib.DoubleBits

/-!
# Rounding a big integer to a double

`bigToDouble q s sticky` is the double nearest to `x = X * 2^s`, where `q` is `X` without
its fraction and `sticky` says whether there was one.  It keeps 53 bits of `q`, fewer below
the normal range; the bits under them and the sticky flag decide the rounding.

    roundShift q drop sticky = n or n + 1 as X / 2^drop rounds       (roundShift_spec)
    Cut q sticky drop X → Nearest (bigToDouble q s sticky) (X * 2^s) (bigToDouble_nearest)
-/

namespace FloatText

open DoubleBits Positional

/-- `q >> drop` rounded half to even, with more bits below where sticky; or `q << -drop`. -/
def roundShift (q : List Nat) (drop : Int) (sticky : Bool) : Nat :=
  let top := topBits q drop
  if drop ≤ 0 then top
  else
    let half := bitAt q (drop - 1).toNat
    let below := sticky || (decide (drop > 1) && lowNonzero q (drop - 1).toNat)
    let up := half = 1 ∧ (below = true ∨ top &&& 1 = 1)
    if up then top + 1 else top

/-- The bits dropped: down to 53, or to the place of the least subnormal. -/
def dropOf (l s : Int) : Int := if l - 1 + s ≥ -1022 then l - 53 else -(s + 1074)

/-- `q * 2^s` rounded to a double; sticky: bits below `q`. -/
def bigToDouble (q : List Nat) (s : Int) (sticky : Bool) : Nat :=
  let l : Int := bnBitlen q
  let lead := l - 1 + s
  if lead ≥ 1024 then 2047 <<< 52
  else
    let normal := lead ≥ -1022
    let drop := dropOf l s
    if drop - 1 ≥ l then 0
    else
      let mm := roundShift q drop sticky
      if ¬ normal then mm
      else
        let carry := mm = 9007199254740992
        let m2 := if carry then 4503599627370496 else mm
        let e2 := if carry then lead + 1 else lead
        if e2 ≥ 1024 then 2047 <<< 52
        else ((e2 + 1023).toNat <<< 52) ||| (m2 &&& 4503599627370495)

/-- `V` is `X` without its fraction, and between the two no half of the last place kept lies. -/
structure Cut (V : Nat) (sticky : Bool) (drop : Int) (X : ℚ) : Prop where
  le : (V : ℚ) ≤ X
  sticky_iff : sticky = true ↔ (V : ℚ) < X
  exact : drop ≤ 0 → X = V
  gap : ∀ t : Nat, drop = t + 1 → ∀ c : Nat, V < c * 2 ^ t → X < c * 2 ^ t

/-! ## Rounding by a shift -/

variable {V : Nat} {sticky : Bool} {X : ℚ} {drop : Int}

/-- The bits below the kept ones, halved at the top one of them. -/
theorem round_at {t : Nat} (h : Cut V sticky (t + 1) X) :
    ((V / 2 ^ (t + 1) : Nat) : ℚ) ≤ X / 2 ^ (t + 1) ∧
      X / 2 ^ (t + 1) < ((V / 2 ^ (t + 1) : Nat) : ℚ) + 1 ∧
      (RoundsUp (V / 2 ^ (t + 1)) (X / 2 ^ (t + 1)) ↔
        V / 2 ^ t % 2 = 1 ∧ ((sticky = true ∨ V % 2 ^ t ≠ 0) ∨ V / 2 ^ (t + 1) % 2 = 1)) := by
  have hP : (0 : ℚ) < 2 ^ t := pow_pos (by norm_num) t
  have hhalf : V / 2 ^ (t + 1) = V / 2 ^ t / 2 := by
    rw [Nat.pow_succ, Nat.div_div_eq_div_mul]
  have hw : V / 2 ^ t * 2 ^ t + V % 2 ^ t = V := Nat.div_add_mod' V _
  have hr := Nat.mod_lt V (show 0 < 2 ^ t from Nat.pow_pos (by decide))
  have hnext : V < (V / 2 ^ t + 1) * 2 ^ t := by
    rw [Nat.succ_mul]
    omega
  have hgap := h.gap t rfl _ hnext
  have hle := h.le
  have hsticky := h.sticky_iff
  rw [hhalf]
  generalize V / 2 ^ t = w at hw hgap ⊢
  generalize V % 2 ^ t = r at hw hr ⊢
  obtain ⟨y, hy⟩ : ∃ y, y = X / 2 ^ (t + 1) := ⟨_, rfl⟩
  have hX : X = y * 2 * 2 ^ t := by
    rw [hy, pow_succ]
    field_simp
  rw [← hy]
  have hVq : (V : ℚ) = w * 2 ^ t + r := by exact_mod_cast hw.symm
  have hrq : (0 : ℚ) ≤ r := Nat.cast_nonneg r
  have hwy : (w : ℚ) ≤ y * 2 := by
    apply le_of_mul_le_mul_right _ hP
    linarith
  have hyw : y * 2 < w + 1 := by
    apply lt_of_mul_lt_mul_right _ hP.le
    rw [← hX]
    push_cast at hgap
    exact hgap
  rcases Nat.mod_two_eq_zero_or_one w with hbit | hbit
  · -- the half bit is clear: below the middle
    obtain ⟨n, rfl⟩ : ∃ n, w = 2 * n := ⟨w / 2, by omega⟩
    have hn : 2 * n / 2 = n := by omega
    push_cast at hwy hyw
    rw [hn]
    refine ⟨by linarith, by linarith, ?_⟩
    constructor
    · rintro (hup | ⟨hup, -⟩) <;> linarith
    · rintro ⟨hone, -⟩
      omega
  · obtain ⟨n, rfl⟩ : ∃ n, w = 2 * n + 1 := ⟨w / 2, by omega⟩
    have hn : (2 * n + 1) / 2 = n := by omega
    push_cast at hwy hyw hVq
    rw [hn]
    refine ⟨by linarith, by linarith, ?_⟩
    -- on the middle exactly when nothing is below the half bit
    have hmid : y = n + 1 / 2 ↔ ¬ (sticky = true ∨ r ≠ 0) := by
      rw [not_or, not_not, hsticky, not_lt]
      constructor
      · intro hy2
        have hXm : X = (2 * n + 1) * 2 ^ t := by
          rw [hX, hy2]
          ring
        have hr0 : (r : ℚ) ≤ 0 := by linarith
        refine ⟨by linarith, ?_⟩
        exact_mod_cast le_antisymm hr0 hrq
      · rintro ⟨hXV, hr0⟩
        have hXm : y * 2 * 2 ^ t = (2 * n + 1) * 2 ^ t := by
          rw [← hX, le_antisymm hXV hle, hVq, hr0]
          simp
        have := mul_right_cancel₀ hP.ne' hXm
        linarith
    by_cases hexact : y = n + 1 / 2
    · have hnone := hmid.1 hexact
      constructor
      · rintro (hup | ⟨-, hodd⟩)
        · linarith
        · exact ⟨hbit, .inr hodd⟩
      · rintro ⟨-, hsome | hodd⟩
        · exact absurd hsome hnone
        · exact .inr ⟨hexact, hodd⟩
    · have hsome := not_not.1 (mt hmid.2 hexact)
      have hlt : (n : ℚ) + 1 / 2 < y := lt_of_le_of_ne (by linarith) (Ne.symm hexact)
      exact iff_of_true (.inl hlt) ⟨hbit, .inl hsome⟩

/-- The bits kept of `V`. -/
def kept (V : Nat) (drop : Int) : Nat :=
  if drop ≤ 0 then V * 2 ^ (-drop).toNat else V / 2 ^ drop.toNat

theorem roundShift_spec {q : List Nat} (hq : Normal base q) (h : Cut (val q) sticky drop X)
    (hfit : kept (val q) drop < 2 ^ 53) :
    (kept (val q) drop : ℚ) ≤ X / 2 ^ drop ∧ X / 2 ^ drop < kept (val q) drop + 1 ∧
      roundShift q drop sticky =
        if RoundsUp (kept (val q) drop) (X / 2 ^ drop) then kept (val q) drop + 1
        else kept (val q) drop := by
  have hword : (2 : Nat) ^ 53 < 2 ^ 64 := by decide
  unfold kept roundShift at *
  by_cases hneg : drop ≤ 0
  · rw [if_pos hneg] at hfit ⊢
    have hX : X / 2 ^ drop = ((val q * 2 ^ (-drop).toNat : Nat) : ℚ) := by
      have hsplit : drop = -((-drop).toNat : ℤ) := by omega
      conv_lhs => rw [h.exact hneg, hsplit, zpow_neg, zpow_natCast, div_inv_eq_mul]
      push_cast
      rfl
    have hnot : ¬ RoundsUp (val q * 2 ^ (-drop).toNat) (X / 2 ^ drop) := by
      rintro (hup | ⟨hup, -⟩) <;> linarith
    rw [if_neg hnot]
    simp only [if_pos hneg]
    refine ⟨hX.ge, ?_, topBits_up hq hneg (hfit.trans hword)⟩
    rw [hX]
    exact lt_add_one _
  · rw [if_neg hneg] at hfit ⊢
    obtain ⟨t, rfl⟩ : ∃ t : Nat, drop = t + 1 := ⟨(drop - 1).toNat, by omega⟩
    obtain ⟨h1, h2, h3⟩ := round_at h
    have hnat : ((t : Int) + 1).toNat = t + 1 := by omega
    have hpred : ((t : Int) + 1 - 1).toNat = t := by omega
    have hz : (2 : ℚ) ^ ((t : ℤ) + 1) = 2 ^ (t + 1) := by exact_mod_cast rfl
    have htop := topBits_down hq (show 0 < (t : Int) + 1 by omega)
      (by rw [hnat] at hfit ⊢; exact hfit.trans hword)
    rw [hnat] at hfit htop ⊢
    rw [hz]
    refine ⟨h1, h2, ?_⟩
    simp only [if_neg hneg, htop, hpred, bitAt_eq hq.digits, Nat.and_one_is_mod, Bool.or_eq_true,
      Bool.and_eq_true, decide_eq_true_eq, lowNonzero_iff hq.digits]
    -- with one bit dropped there is nothing below the half bit
    have hbelow : ((t : Int) + 1 > 1 ∧ val q % 2 ^ t ≠ 0) ↔ val q % 2 ^ t ≠ 0 := by
      constructor
      · exact fun hb => hb.2
      · intro hb
        rcases Nat.eq_zero_or_pos t with rfl | ht
        · exact absurd (Nat.mod_one _) hb
        · omega
    apply if_congr _ rfl rfl
    rw [h3, hbelow]

/-! ## The pattern -/

theorem two_ne_zero' : (2 : ℚ) ≠ 0 := by norm_num

theorem two_zpow_pos (e : ℤ) : (0 : ℚ) < 2 ^ e := zpow_pos (by norm_num) e

theorem size_bounds (hV : V ≠ 0) : 2 ^ (V.size - 1) ≤ V ∧ V < 2 ^ V.size := by
  have hpos := Nat.size_pos.2 (Nat.pos_of_ne_zero hV)
  exact ⟨Nat.lt_size.1 (by omega), Nat.lt_size_self V⟩

theorem unit_eq : unit = 2 ^ (-1074 : ℤ) := by
  rfl

/-- `n` units of the last place, placed in the pattern. -/
theorem scaled_eq {s : Int} {k : Nat} (hk : drop + s = k - 1074) (X : ℚ) :
    X * 2 ^ s = X / 2 ^ drop * 2 ^ k * unit := by
  have hs : s = (k : ℤ) + -1074 - drop := by omega
  rw [hs, zpow_sub₀ two_ne_zero', zpow_add₀ two_ne_zero', zpow_natCast, unit_eq]
  ring

theorem kept_lt {n : Nat} (hV : V < 2 ^ V.size) (hn : (V.size : Int) - drop ≤ n) :
    kept V drop < 2 ^ n := by
  unfold kept
  by_cases hneg : drop ≤ 0
  · rw [if_pos hneg]
    calc V * 2 ^ (-drop).toNat < 2 ^ V.size * 2 ^ (-drop).toNat :=
          Nat.mul_lt_mul_of_pos_right hV (Nat.pow_pos (by decide))
      _ = 2 ^ (V.size + (-drop).toNat) := (Nat.pow_add _ _ _).symm
      _ ≤ 2 ^ n := Nat.pow_le_pow_right (by decide) (by omega)
  · rw [if_neg hneg]
    apply Nat.div_lt_of_lt_mul
    calc V < 2 ^ V.size := hV
      _ ≤ 2 ^ (drop.toNat + n) := Nat.pow_le_pow_right (by decide) (by omega)
      _ = 2 ^ drop.toNat * 2 ^ n := Nat.pow_add _ _ _

theorem le_kept {n : Nat} (hV : 2 ^ (V.size - 1) ≤ V) (hn : (n : Int) ≤ (V.size : Int) - 1 - drop) :
    2 ^ n ≤ kept V drop := by
  unfold kept
  by_cases hneg : drop ≤ 0
  · rw [if_pos hneg]
    calc 2 ^ n ≤ 2 ^ (V.size - 1 + (-drop).toNat) := Nat.pow_le_pow_right (by decide) (by omega)
      _ = 2 ^ (V.size - 1) * 2 ^ (-drop).toNat := Nat.pow_add _ _ _
      _ ≤ V * 2 ^ (-drop).toNat := Nat.mul_le_mul_right _ hV
  · rw [if_neg hneg, Nat.le_div_iff_mul_le (Nat.pow_pos (by decide))]
    calc 2 ^ n * 2 ^ drop.toNat = 2 ^ (n + drop.toNat) := (Nat.pow_add _ _ _).symm
      _ ≤ 2 ^ (V.size - 1) := Nat.pow_le_pow_right (by decide) (by omega)
      _ ≤ V := hV

/-- The fields of a pattern: a significand that carried out moves to the next exponent. -/
theorem pattern_eq {k mm : Nat} (hk : k ≤ 2045) (hlo : 2 ^ 52 ≤ mm) (hhi : mm ≤ 2 ^ 53) {lead : Int}
    (hlead : lead = (k : Int) - 1022) :
    (if (if mm = 9007199254740992 then lead + 1 else lead) ≥ 1024 then 2047 <<< 52
      else ((if mm = 9007199254740992 then lead + 1 else lead) + 1023).toNat <<< 52 |||
        ((if mm = 9007199254740992 then 4503599627370496 else mm) &&& 4503599627370495)) =
      k * 2 ^ 52 + mm := by
  have hand : ∀ x : Nat, x &&& 4503599627370495 = x % 2 ^ 52 :=
    fun x => Nat.and_two_pow_sub_one_eq_mod x 52
  have hinf : 2047 <<< 52 = 2047 * 2 ^ 52 := rfl
  by_cases hcarry : mm = 9007199254740992
  · simp only [if_pos hcarry]
    by_cases hover : lead + 1 ≥ 1024
    · rw [if_pos hover, hinf]
      omega
    · have hexp : (lead + 1 + 1023).toNat = k + 2 := by omega
      rw [if_neg hover, hand, hexp, Nat.shiftLeft_eq, Nat.mul_comm (k + 2),
        or_eq_add rfl (Nat.mod_lt _ (by decide))]
      omega
  · simp only [if_neg hcarry]
    have hexp : (lead + 1023).toNat = k + 1 := by omega
    rw [if_neg (by omega), hand, hexp, Nat.shiftLeft_eq, Nat.mul_comm (k + 1),
      or_eq_add rfl (Nat.mod_lt _ (by decide))]
    omega

/-- A cut number is rounded to the nearest double, ties to even. -/
theorem bigToDouble_nearest {q : List Nat} (hq : Normal base q) (hpos : val q ≠ 0) {s : Int}
    (h : Cut (val q) sticky (dropOf (val q).size s) X) :
    Nearest (bigToDouble q s sticky) (X * 2 ^ s) := by
  obtain ⟨hlo, hhi⟩ := size_bounds hpos
  have hsize := Nat.size_pos.2 (Nat.pos_of_ne_zero hpos)
  unfold bigToDouble
  simp only [bnBitlen_eq hq]
  generalize hl : (val q).size = l at *
  by_cases hover : (l : Int) - 1 + s ≥ 1024
  · rw [if_pos hover]
    apply nearest_inf
    have hXlo : (2 : ℚ) ^ ((l : ℤ) - 1) ≤ X := by
      have hcast : (2 : ℚ) ^ ((l : ℤ) - 1) = ((2 ^ (l - 1) : Nat) : ℚ) := by
        rw [show (l : ℤ) - 1 = ((l - 1 : Nat) : ℤ) by omega, zpow_natCast, Nat.cast_pow,
          Nat.cast_ofNat]
      rw [hcast]
      exact (Nat.cast_le.2 hlo).trans h.le
    calc (2 : ℚ) ^ 1024 = 2 ^ (1024 : ℤ) := rfl
      _ ≤ 2 ^ ((l : ℤ) - 1 + s) := zpow_le_zpow_right₀ (by norm_num) hover
      _ = 2 ^ ((l : ℤ) - 1) * 2 ^ s := zpow_add₀ two_ne_zero' _ _
      _ ≤ X * 2 ^ s := mul_le_mul_of_nonneg_right hXlo (two_zpow_pos s).le
  rw [if_neg hover]
  by_cases hnormal : (l : Int) - 1 + s ≥ -1022
  · have hdrop : dropOf l s = (l : Int) - 53 := if_pos hnormal
    obtain ⟨k, hk⟩ : ∃ k : Nat, (l : Int) - 1 + s = (k : Int) - 1022 :=
      ⟨((l : Int) - 1 + s + 1022).toNat, by omega⟩
    have hfit : kept (val q) (dropOf l s) < 2 ^ 53 := kept_lt (hl ▸ hhi) (by omega)
    have hfull : 2 ^ 52 ≤ kept (val q) (dropOf l s) := le_kept (hl ▸ hlo) (by omega)
    obtain ⟨h1, h2, h3⟩ := roundShift_spec hq h hfit
    have hnear := nearest_rounded (k := k) ⟨hfit, .inr hfull⟩ (by omega) h1 h2
    rw [← h3, ← scaled_eq (show dropOf l s + s = (k : Int) - 1074 by omega)] at hnear
    have hmm : 2 ^ 52 ≤ roundShift q (dropOf l s) sticky ∧
        roundShift q (dropOf l s) sticky ≤ 2 ^ 53 := by
      rw [h3]
      split_ifs <;> omega
    rw [if_neg (by omega), if_neg (not_not.2 hnormal), pattern_eq (by omega) hmm.1 hmm.2 hk]
    exact hnear
  · have hdrop : dropOf l s = -(s + 1074) := if_neg hnormal
    by_cases hgone : dropOf l s - 1 ≥ (l : Int)
    · -- the number is below half of the least subnormal
      have hfit : kept (val q) (dropOf l s) < 2 ^ 0 := kept_lt (hl ▸ hhi) (by omega)
      have hzero : kept (val q) (dropOf l s) = 0 := Nat.lt_one_iff.1 hfit
      obtain ⟨h1, h2, -⟩ := roundShift_spec hq h (by rw [hzero]; decide)
      have hnear := nearest_rounded (k := 0) ⟨by rw [hzero]; decide, .inl rfl⟩ (by decide) h1 h2
      rw [← scaled_eq (show dropOf l s + s = ((0 : Nat) : Int) - 1074 by omega), hzero] at hnear
      have hhalf : ¬ RoundsUp 0 (X / 2 ^ dropOf l s) := by
        obtain ⟨t, ht⟩ : ∃ t : Nat, dropOf l s = t + 1 := ⟨(dropOf l s - 1).toNat, by omega⟩
        have hlt : val q < 1 * 2 ^ t := by
          rw [Nat.one_mul]
          exact hhi.trans_le (Nat.pow_le_pow_right (by decide) (by omega))
        have hX := h.gap t ht 1 hlt
        have hy : X / 2 ^ dropOf l s < 1 / 2 := by
          rw [ht, show ((t : ℤ) + 1) = ((t + 1 : Nat) : ℤ) by push_cast; rfl, zpow_natCast, pow_succ,
            div_lt_iff₀ (by positivity)]
          rw [Nat.cast_one, one_mul] at hX
          linarith
        rintro (hup | ⟨-, hodd⟩)
        · rw [Nat.cast_zero] at hup
          linarith
        · exact absurd hodd (by decide)
      rw [if_neg hhalf] at hnear
      rw [if_pos hgone]
      exact hnear
    · have hfit : kept (val q) (dropOf l s) < 2 ^ 52 := kept_lt (hl ▸ hhi) (by omega)
      have hfit' : kept (val q) (dropOf l s) < 2 ^ 53 := hfit.trans (by decide)
      obtain ⟨h1, h2, h3⟩ := roundShift_spec hq h hfit'
      have hnear := nearest_rounded (k := 0) ⟨hfit', .inl rfl⟩ (by decide) h1 h2
      rw [← h3, ← scaled_eq (show dropOf l s + s = ((0 : Nat) : Int) - 1074 by omega), Nat.zero_mul,
        Nat.zero_add] at hnear
      rw [if_neg hgone, if_pos hnormal]
      exact hnear

end FloatText

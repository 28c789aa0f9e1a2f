import Resid.Lib.Binary64
import Resid.Lib.FixedWidth
import Resid.Lib.Positional

/-!
# Limbs of a coefficient

A coefficient is little-endian limbs of base `B = 10^19`, the largest power of ten below
`2^64`.  Products are split by `divB`, or for a multiplier below `2^32` by an estimate in
double precision that is exact or one short.

    v < B ^ 2 → divB v = v / B                                      (divB_eq)
    val (mul1 a m) = val a * m                                       (mul1_spec)

## Algorithm

Words hold 64 bits and wrap; `wrap`, `wrapSub` and `wrapMul` stand where a word can.
-/

namespace Decimals

open FixedWidth Positional Binary64

def bb : Nat := 10000000000000000000

/-- `floor((2^128-1)/B) - 2^64`. -/
def binv : Nat := 15581492618384294730

/-- Digits of a limb. -/
def ld : Nat := 19

/-- The table of powers, for `i ≤ 19`. -/
def p10 (i : Nat) : Nat := 10 ^ i

/-- `v / B` for `v < B^2`. -/
def divB (v : Nat) : Nat :=
  let u1 := wrap 64 (shr v 64)
  let u0 := wrap 64 v
  let q := wrap 128 (binv * u1 + v)
  let q1 := wrap 64 (wrap 64 (shr q 64) + 1)
  let q0 := wrap 64 q
  let r := wrapSub 64 u0 (wrapMul 64 q1 bb)
  let back := r > q0
  let q2 := if back then wrapSub 64 q1 1 else q1
  let rr := if back then wrap 64 (r + bb) else r
  if rr ≥ bb then wrap 64 (q2 + 1) else q2

/-! ## One limb times a list -/

/-- `2 m / B` in double precision. -/
def mulRate (m : Nat) : ℚ := toDouble (toDouble (toDouble m * 2) / 10000000000000000000)

/-- `floor(ai * m / B)` estimated in double precision, biased low by `2^-15`. -/
def mulEst (mb : ℚ) (ai : Nat) : Nat :=
  wrap 64 (truncate (toDouble (toDouble (toDouble (shr ai 1) * mb) - 1 / 32768))).toNat

/-- The limbs of `a * m` and the carry out, for `m < 2^32`. -/
def mul1Small (m : Nat) (mb : ℚ) : List Nat → Nat → List Nat × Nat
  | [], hprev => ([], hprev)
  | ai :: a, hprev =>
    let hi0 := mulEst mb ai
    let s0 := wrap 64 (wrapSub 64 (wrapMul 64 ai m) (wrapMul 64 hi0 bb) + hprev)
    if s0 ≥ bb then
      let rest := mul1Small m mb a (wrap 64 (hi0 + 1))
      ((s0 - bb) :: rest.1, rest.2)
    else
      let rest := mul1Small m mb a hi0
      (s0 :: rest.1, rest.2)

def mul1Big (m : Nat) : List Nat → Nat → List Nat × Nat
  | [], hprev => ([], hprev)
  | ai :: a, hprev =>
    let p := ai * m
    let hi := divB p
    let lo := wrapSub 64 (wrap 64 p) (wrapMul 64 hi bb)
    let t := bb - hprev
    let c := lo ≥ t
    let rest := mul1Big m a (if c then wrap 64 (hi + 1) else hi)
    ((if c then lo - t else lo + hprev) :: rest.1, rest.2)

/-- `a * m` for `m < B`, one limb longer than `a`. -/
def mul1 (a : List Nat) (m : Nat) : List Nat :=
  if m < 4294967296 then
    let r := mul1Small m (mulRate m) a 0
    r.1 ++ [r.2]
  else
    let r := mul1Big m a 0
    r.1 ++ [r.2]

/-- The number the limbs denote. -/
def val (l : List Nat) : Nat := Nat.ofDigits bb l

@[simp] theorem val_nil : val [] = 0 := rfl

@[simp] theorem val_cons (x : Nat) (l : List Nat) : val (x :: l) = x + bb * val l :=
  Nat.ofDigits_cons

theorem val_append (a b : List Nat) : val (a ++ b) = val a + bb ^ a.length * val b :=
  Nat.ofDigits_append

theorem bb_pos : 0 < bb := by norm_num [bb]

theorem one_lt_bb : 1 < bb := by norm_num [bb]

theorem val_lt {l : List Nat} (h : IsDigits bb l) : val l < bb ^ l.length := h.ofDigits_lt one_lt_bb

/-! ## Dividing by the base -/

/-- The remainder the first estimate leaves: at most one divisor off, and `q0` tells which way. -/
theorem divB_remainder {u1 u0 q1 q0 r : Int} (h1 : 0 ≤ u1) (h1' : u1 < 10000000000000000000)
    (h0 : 0 ≤ u0) (h0' : u0 < 18446744073709551616) (hq0 : 0 ≤ q0)
    (hq0' : q0 < 18446744073709551616)
    (hq : q1 * 18446744073709551616 + q0 = 34028236692093846346 * u1 + u0)
    (hr : r = u1 * 18446744073709551616 + u0 - (q1 + 1) * 10000000000000000000) :
    -10000000000000000000 ≤ r ∧ q0 + 1 - 18446744073709551616 ≤ r ∧
      (r < 8446744073709551616 ∨ r < q0) := by
  refine ⟨by omega, by omega, by omega⟩

theorem divB_eq {v : Nat} (hv : v < bb * bb) : divB v = v / bb := by
  have hB : bb = 10000000000000000000 := rfl
  obtain ⟨u1, u0, hu, h0⟩ : ∃ u1 u0, v = u1 * 18446744073709551616 + u0 ∧
      u0 < 18446744073709551616 :=
    ⟨v / 18446744073709551616, v % 18446744073709551616, by omega, by omega⟩
  have h1 : u1 < 10000000000000000000 := by
    rw [hB] at hv
    omega
  obtain ⟨q1, q0, hq, hq0⟩ : ∃ q1 q0, 34028236692093846346 * u1 + u0 =
      q1 * 18446744073709551616 + q0 ∧ q0 < 18446744073709551616 :=
    ⟨(34028236692093846346 * u1 + u0) / 18446744073709551616,
      (34028236692093846346 * u1 + u0) % 18446744073709551616, by omega, by omega⟩
  obtain ⟨hr1, hr2, hr3⟩ := @divB_remainder u1 u0 q1 q0 _ (by omega) (by omega) (by omega)
    (by omega) (by omega) (by omega) (by omega) rfl
  have hsmall : u1 * 18446744073709551616 + u0 < 100000000000000000000000000000000000000 := by
    rw [← hu]
    exact hv
  have hw1 : wrap 64 (shr v 64) = u1 := by
    unfold wrap shr
    omega
  have hw0 : wrap 64 v = u0 := by
    unfold wrap
    omega
  have hsum : binv * u1 + v = q1 * 18446744073709551616 + q0 := by
    unfold binv
    omega
  have hq1 : q1 + 1 ≤ 10000000000000000000 := by omega
  have hwq : wrap 128 (q1 * 18446744073709551616 + q0) = q1 * 18446744073709551616 + q0 := by
    unfold wrap
    omega
  have hwq1 : wrap 64 (wrap 64 (shr (q1 * 18446744073709551616 + q0) 64) + 1) = q1 + 1 := by
    unfold wrap shr
    omega
  have hwq0 : wrap 64 (q1 * 18446744073709551616 + q0) = q0 := by
    unfold wrap
    omega
  have hgoal : v / bb = (u1 * 18446744073709551616 + u0) / 10000000000000000000 := by rw [hu, hB]
  -- the low word of the remainder, with its wrap where the estimate was one too big
  obtain ⟨w, hw⟩ : ∃ w, wrapSub 64 u0 (wrapMul 64 (q1 + 1) bb) = w := ⟨_, rfl⟩
  have hrem : (w : Int) = u1 * 18446744073709551616 + u0 - (q1 + 1) * 10000000000000000000 ∨
      (w : Int) = u1 * 18446744073709551616 + u0 - (q1 + 1) * 10000000000000000000 +
        18446744073709551616 := by
    unfold wrapSub wrapMul at hw
    rw [hB] at hw
    omega
  have hlow : w < 18446744073709551616 := by
    rw [← hw]
    exact Nat.mod_lt _ (by decide)
  unfold divB
  simp only [hw1, hw0, hsum, hwq, hwq1, hwq0, hw]
  rw [hgoal]
  unfold wrapSub wrap
  rw [hB]
  rcases hrem with hrem | hrem
  · by_cases hback : w > q0
    · rw [if_pos hback, if_pos hback, if_pos (by omega)]
      omega
    · rw [if_neg hback, if_neg hback]
      split_ifs <;> omega
  · have hback : w > q0 := by omega
    rw [if_pos hback, if_pos hback, if_neg (by omega)]
    omega

/-! ## The estimate in double precision -/

section Estimate

variable {m ai : Nat} (hm : m < 4294967296) (hai : ai < bb)

include hm

theorem mulRate_near : |mulRate m - 2 * m / 10000000000000000000| ≤ 1 / 2 ^ 82 := by
  have h1 : toDouble (m : ℚ) = m := toDouble_natCast (by omega)
  have h2 : toDouble ((m : ℚ) * 2) = m * 2 := by
    have := @toDouble_natCast (m * 2) (by omega)
    push_cast at this
    exact this
  have hmq : (m : ℚ) < 4294967296 := by exact_mod_cast hm
  have hm0 : (0 : ℚ) ≤ m := Nat.cast_nonneg m
  have hsize : |(m : ℚ) * 2 / 10000000000000000000| ≤ 1 / 2 ^ 30 := by
    rw [abs_of_nonneg (by positivity)]
    norm_num
    linarith
  have hnear := abs_toDouble_sub_le_of_le hsize
  unfold mulRate
  rw [h1, h2, mul_comm (2 : ℚ)]
  refine hnear.trans ?_
  norm_num

include hai

/-- The half limb times the rate is close to the true quotient. -/
theorem mulEst_arg_near :
    |toDouble (toDouble (shr ai 1 : Nat) * mulRate m) - (ai : ℚ) * m / bb| ≤ 1 / 2 ^ 16 := by
  have hrate := mulRate_near hm
  have hmq : (m : ℚ) < 4294967296 := by exact_mod_cast hm
  have hm0 : (0 : ℚ) ≤ m := Nat.cast_nonneg m
  have haiq : (ai : ℚ) < 10000000000000000000 := by exact_mod_cast hai
  have hhalf : shr ai 1 * 2 ≤ ai ∧ ai ≤ shr ai 1 * 2 + 1 := by
    unfold shr
    omega
  generalize shr ai 1 = h0 at hhalf ⊢
  have hlo : (h0 : ℚ) * 2 ≤ ai := by exact_mod_cast hhalf.1
  have hhi : (ai : ℚ) ≤ h0 * 2 + 1 := by exact_mod_cast hhalf.2
  have hh0 : (0 : ℚ) ≤ h0 := Nat.cast_nonneg h0
  have h63 : (2 : ℚ) ^ 63 = 9223372036854775808 := by norm_num
  have hsize : |(h0 : ℚ)| ≤ 2 ^ 63 := by
    rw [abs_of_nonneg hh0, h63]
    linarith
  have hratesize : |2 * (m : ℚ) / 10000000000000000000| ≤ 1 / 2 ^ 30 := by
    rw [abs_of_nonneg (by positivity)]
    norm_num
    linarith
  -- the product of the two doubles, then its rounding
  have hprod := abs_mul_sub_le (abs_toDouble_sub_le_of_le hsize) hrate hsize hratesize
  generalize toDouble (h0 : ℚ) * mulRate m = p at hprod ⊢
  have hexact : (h0 : ℚ) * (2 * m / 10000000000000000000) ≤ ai * m / bb ∧
      ai * m / bb ≤ (h0 : ℚ) * (2 * m / 10000000000000000000) + 1 / 2 ^ 31 := by
    have hbb : (bb : ℚ) = 10000000000000000000 := rfl
    have h1 : (h0 : ℚ) * 2 * m ≤ ai * m := mul_le_mul_of_nonneg_right hlo hm0
    have h2 : (ai : ℚ) * m ≤ (h0 * 2 + 1) * m := mul_le_mul_of_nonneg_right hhi hm0
    rw [hbb]
    constructor
    · linarith
    · norm_num
      linarith
  have htop : (ai : ℚ) * m / bb ≤ 4294967296 := by
    have hbb : (bb : ℚ) = 10000000000000000000 := rfl
    have h1 : (ai : ℚ) * m ≤ 10000000000000000000 * m := mul_le_mul_of_nonneg_right haiq.le hm0
    rw [hbb, div_le_iff₀ (by norm_num)]
    linarith
  have hbottom : (0 : ℚ) ≤ ai * m / bb := by positivity
  obtain ⟨hp1, hp2⟩ := abs_le.1 hprod
  have hpsize : |p| ≤ 2 ^ 33 := by
    rw [abs_le]
    constructor
    · norm_num at hp1 hp2 ⊢
      linarith [hexact.1, hexact.2]
    · norm_num at hp1 hp2 ⊢
      linarith [hexact.1, hexact.2]
  obtain ⟨hr1, hr2⟩ := abs_le.1 (abs_toDouble_sub_le_of_le hpsize)
  rw [abs_le]
  norm_num at hp1 hp2 hr1 hr2 hexact ⊢
  constructor <;> linarith [hexact.1, hexact.2]

/-- The estimate is exact or one short, and one short only where the low limb is small. -/
theorem mulEst_spec : mulEst (mulRate m) ai = ai * m / bb ∨
    (1 ≤ ai * m / bb ∧ mulEst (mulRate m) ai = ai * m / bb - 1 ∧ ai * m % bb * 2 ^ 14 < bb) := by
  have hnear := mulEst_arg_near hm hai
  have hsplit : (ai : ℚ) * m / bb = (ai * m / bb : Nat) + ((ai * m % bb : Nat) : ℚ) / bb := by
    have hdiv : ((bb * (ai * m / bb) + ai * m % bb : Nat) : ℚ) = ((ai * m : Nat) : ℚ) := by
      rw [Nat.div_add_mod]
    have hbb : (bb : ℚ) ≠ 0 := by
      have := bb_pos
      positivity
    push_cast at hdiv
    field_simp
    linarith
  have hmod := Nat.mod_lt (ai * m) bb_pos
  have hn : ai * m / bb < 4294967296 := by
    rw [Nat.div_lt_iff_lt_mul bb_pos]
    have h1 : ai * m ≤ bb * m := Nat.mul_le_mul_right m hai.le
    have h2 : bb * m < bb * 4294967296 := Nat.mul_lt_mul_of_pos_left hm bb_pos
    rw [Nat.mul_comm 4294967296]
    omega
  generalize ai * m / bb = n at hsplit hn ⊢
  generalize ai * m % bb = f at hsplit hmod ⊢
  rw [hsplit] at hnear
  unfold mulEst
  generalize toDouble (toDouble (shr ai 1 : Nat) * mulRate m) = y at hnear ⊢
  have hbq : (0 : ℚ) < bb := by exact_mod_cast bb_pos
  have hf0 : (0 : ℚ) ≤ (f : ℚ) / bb := by positivity
  have hf1 : (f : ℚ) / bb < 1 := by
    rw [div_lt_one hbq]
    exact_mod_cast hmod
  have hnq : (n : ℚ) ≤ 4294967296 := by exact_mod_cast hn.le
  have hn0 : (0 : ℚ) ≤ n := Nat.cast_nonneg n
  obtain ⟨hy1, hy2⟩ := abs_le.1 hnear
  have hysize : |y - 1 / 32768| ≤ 2 ^ 33 := by
    rw [abs_le]
    norm_num at hy1 hy2 ⊢
    constructor <;> linarith
  obtain ⟨hz1, hz2⟩ := abs_le.1 (abs_toDouble_sub_le_of_le hysize)
  have hlo : n + (f : ℚ) / bb - 1 / 2 ^ 14 < toDouble (y - 1 / 32768) := by
    norm_num at hy1 hy2 hz1 hz2 ⊢
    linarith
  have hhi : toDouble (y - 1 / 32768) < n + (f : ℚ) / bb := by
    norm_num at hy1 hy2 hz1 hz2 ⊢
    linarith
  rcases truncate_estimate hf0 hf1 (by norm_num) hlo hhi with heq | ⟨hpos, heq, hsmall⟩
  · left
    rw [heq, Int.toNat_natCast]
    exact Nat.mod_eq_of_lt (by omega)
  · right
    refine ⟨hpos, ?_, ?_⟩
    · rw [heq, show ((n : Int) - 1).toNat = n - 1 by omega]
      exact Nat.mod_eq_of_lt (by omega)
    · rw [div_lt_div_iff₀ hbq (by norm_num), one_mul] at hsmall
      exact_mod_cast hsmall

end Estimate

/-! ## One limb times a list -/

/-- The limbs and the carry of a product. -/
def IsProduct (m : Nat) (a : List Nat) (hprev : Nat) (r : List Nat × Nat) : Prop :=
  IsDigits bb r.1 ∧ r.1.length = a.length ∧ r.2 ≤ m ∧
    val r.1 + bb ^ a.length * r.2 = val a * m + hprev

variable {hprev : Nat} {a : List Nat}

theorem IsProduct.cons {m ai lo hi : Nat} {r : List Nat × Nat} (hr : IsProduct m a hi r)
    (hlo : lo < bb) (hsplit : lo + bb * hi = ai * m + hprev) :
    IsProduct m (ai :: a) hprev (lo :: r.1, r.2) := by
  obtain ⟨hdig, hlen, hle, hval⟩ := hr
  refine ⟨IsDigits.cons hlo hdig, congrArg (· + 1) hlen, hle, ?_⟩
  rw [val_cons, val_cons, List.length_cons, pow_succ]
  calc lo + bb * val r.1 + bb ^ a.length * bb * r.2
      = lo + bb * (val r.1 + bb ^ a.length * r.2) := by ring
    _ = lo + bb * hi + bb * (val a * m) := by rw [hval]; ring
    _ = (ai + bb * val a) * m + hprev := by rw [hsplit]; ring

/-- The carry of one limb's product stays within the multiplier. -/
theorem carry_le {m ai : Nat} (hai : ai < bb) (hprev_le : hprev ≤ m) :
    (ai * m + hprev) / bb ≤ m := by
  have hle : ai * m + hprev ≤ bb * m := by
    calc ai * m + hprev ≤ ai * m + m := Nat.add_le_add_left hprev_le _
      _ = (ai + 1) * m := by ring
      _ ≤ bb * m := Nat.mul_le_mul_right m hai
  exact Nat.div_le_of_le_mul hle

theorem div_add_carry {x h : Nat} (hh : h < bb) (hover : bb ≤ x % bb + h) :
    (x + h) / bb = x / bb + 1 := by
  unfold bb at *
  omega

theorem mul1Small_spec {m : Nat} (hm : m < 4294967296) (ha : IsDigits bb a) (hprev_le : hprev ≤ m) :
    IsProduct m a hprev (mul1Small m (mulRate m) a hprev) := by
  induction a generalizing hprev with
  | nil => exact ⟨IsDigits.nil bb, rfl, hprev_le, by simp [mul1Small]⟩
  | cons ai a ih =>
    obtain ⟨hai, ha⟩ := ha.of_cons
    have hcarry := carry_le hai hprev_le
    have hmod := Nat.mod_lt (ai * m) bb_pos
    have hdiv := Nat.div_add_mod (ai * m) bb
    have hB : bb = 10000000000000000000 := rfl
    have hn : ai * m / bb ≤ m := by
      have := carry_le hai (Nat.zero_le m)
      rwa [Nat.add_zero] at this
    -- the low word of the product less the estimate, plus the carry in
    have hs0 : ∀ hi0, hi0 * bb ≤ ai * m → ai * m - hi0 * bb + hprev < 2 ^ 64 →
        wrap 64 (wrapSub 64 (wrapMul 64 ai m) (wrapMul 64 hi0 bb) + hprev) =
          ai * m - hi0 * bb + hprev := by
      intro hi0 hle hlt
      unfold wrap wrapSub wrapMul
      omega
    unfold mul1Small
    rcases mulEst_spec hm hai with hest | ⟨hpos, hest, hsmall⟩
    · have hrem : ai * m - ai * m / bb * bb = ai * m % bb := by
        rw [Nat.mul_comm (ai * m / bb)]
        omega
      have hle : ai * m / bb * bb ≤ ai * m := Nat.div_mul_le_self _ _
      simp only [hest, hs0 _ hle (by rw [hrem]; omega), hrem]
      by_cases hover : ai * m % bb + hprev ≥ bb
      · have hhi : wrap 64 (ai * m / bb + 1) = ai * m / bb + 1 := Nat.mod_eq_of_lt (by omega)
        have hcarry' := @div_add_carry (ai * m) hprev (by omega) hover
        rw [if_pos hover, hhi]
        refine (ih ha (hcarry' ▸ hcarry)).cons (by omega) ?_
        rw [Nat.mul_add]
        omega
      · rw [if_neg hover]
        refine (ih ha hn).cons (by omega) ?_
        omega
    · -- one short: the low word holds the base once too often, and the correction takes it out
      have hback : (ai * m / bb - 1) * bb + bb = ai * m / bb * bb := by
        rw [← Nat.succ_mul, Nat.succ_eq_add_one, Nat.sub_add_cancel hpos]
      have hfull : ai * m / bb * bb + ai * m % bb = ai * m := by
        rw [Nat.mul_comm]
        exact hdiv
      have hrem : ai * m - (ai * m / bb - 1) * bb = ai * m % bb + bb := by omega
      have hle : (ai * m / bb - 1) * bb ≤ ai * m := by omega
      have hhi : wrap 64 (ai * m / bb - 1 + 1) = ai * m / bb := by
        rw [Nat.sub_add_cancel hpos]
        exact Nat.mod_eq_of_lt (by omega)
      simp only [hest, hs0 _ hle (by rw [hrem]; omega), hrem]
      rw [if_pos (by omega), hhi]
      refine (ih ha hn).cons (by omega) ?_
      omega

/-- The low word of a product less the base times its quotient is the remainder. -/
theorem lowWord_eq (x : Nat) : wrapSub 64 (wrap 64 x) (wrapMul 64 (x / bb) bb) = x % bb := by
  have hB : bb = 10000000000000000000 := rfl
  have hmod := Nat.mod_lt x bb_pos
  have hdiv := Nat.div_add_mod x bb
  rw [Nat.mul_comm bb] at hdiv
  unfold wrap wrapSub wrapMul
  omega

theorem mul1Big_spec {m : Nat} (hm : m < bb) (ha : IsDigits bb a) (hprev_le : hprev ≤ m) :
    IsProduct m a hprev (mul1Big m a hprev) := by
  induction a generalizing hprev with
  | nil => exact ⟨IsDigits.nil bb, rfl, hprev_le, by simp [mul1Big]⟩
  | cons ai a ih =>
    obtain ⟨hai, ha⟩ := ha.of_cons
    have hcarry := carry_le hai hprev_le
    have hB : bb = 10000000000000000000 := rfl
    have hmod := Nat.mod_lt (ai * m) bb_pos
    have hdiv := Nat.div_add_mod (ai * m) bb
    have hn : ai * m / bb ≤ m := by
      have := carry_le hai (Nat.zero_le m)
      rwa [Nat.add_zero] at this
    have hquot : divB (ai * m) = ai * m / bb :=
      divB_eq (Nat.mul_lt_mul_of_lt_of_lt hai hm)
    have hlo := lowWord_eq (ai * m)
    have hhi : wrap 64 (ai * m / bb + 1) = ai * m / bb + 1 := Nat.mod_eq_of_lt (by omega)
    unfold mul1Big
    simp only [hquot, hlo, hhi]
    by_cases hover : ai * m % bb ≥ bb - hprev
    · have hcarry' := @div_add_carry (ai * m) hprev (by omega) (by omega)
      rw [if_pos hover, if_pos hover]
      refine (ih ha (hcarry' ▸ hcarry)).cons (by omega) ?_
      rw [Nat.mul_add]
      omega
    · rw [if_neg hover, if_neg hover]
      refine (ih ha hn).cons (by omega) ?_
      omega

theorem IsProduct.full {m : Nat} {r : List Nat × Nat} (h : IsProduct m a 0 r) (hm : m < bb) :
    IsDigits bb (r.1 ++ [r.2]) ∧ (r.1 ++ [r.2]).length = a.length + 1 ∧
      val (r.1 ++ [r.2]) = val a * m := by
  obtain ⟨hdig, hlen, hle, hval⟩ := h
  refine ⟨hdig.append (IsDigits.singleton (Nat.lt_of_le_of_lt hle hm)), ?_, ?_⟩
  · rw [List.length_append, List.length_singleton, hlen]
  · rw [val_append, hlen, val_cons, val_nil, Nat.mul_zero, Nat.add_zero, hval, Nat.add_zero]

/-- A product by a number below the base is exact. -/
theorem mul1_spec (ha : IsDigits bb a) {m : Nat} (hm : m < bb) :
    IsDigits bb (mul1 a m) ∧ (mul1 a m).length = a.length + 1 ∧ val (mul1 a m) = val a * m := by
  unfold mul1
  split_ifs with hsmall
  · exact (mul1Small_spec hsmall ha (Nat.zero_le m)).full hm
  · exact (mul1Big_spec hm ha (Nat.zero_le m)).full hm

end Decimals

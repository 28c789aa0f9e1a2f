import Resid.Bignum.Limbs

/-!
# Addition, subtraction and multiplication of limb lists

The loops of `lib/bignum.resid` keep a carry, a borrow or a column sum in 128 or 256
bits.  None of the checked operations overflows, and the limbs that leave the loops are
the digits of the exact result.

    bnAdd (limbs x) (limbs y) = some (limbs (x + y))                (bnAdd_limbs)
    y ≤ x → bnSub (limbs x) (limbs y) = some (limbs (x - y))        (bnSub_limbs)
    bnMul (limbs x) (limbs y) = some (limbs (x * y))                (bnMul_limbs)
-/

namespace Bignum

open FixedWidth Positional Loops

/-! ## Algorithm -/

def bnAddAt (a b : List Nat) (i n carry : Nat) (acc : List Nat) : Option (List Nat) :=
  if i ≥ n then some (if carry = 0 then acc else acc ++ [carry])
  else do
    let t ← addChk 128 (bnGet a i) (bnGet b i)
    let s ← addChk 128 t carry
    let c ← castChk 64 (shr s 64)
    bnAddAt a b (i + 1) n c (acc ++ [wrap 64 s])
termination_by n - i

def bnAdd (a b : List Nat) : Option (List Nat) :=
  let n := if a.length > b.length then a.length else b.length
  bnAddAt a b 0 n 0 []

def bnSubAt (a b : List Nat) (i n borrow : Nat) (acc : List Nat) : Option (List Nat) :=
  if i ≥ n then some acc
  else do
    let t ← addChk 128 bnBase (bnGet a i)
    let u ← subChk t (bnGet b i)
    let d ← subChk u borrow
    let nb := if shr d 64 = 0 then 1 else 0
    bnSubAt a b (i + 1) n nb (acc ++ [wrap 64 d])
termination_by n - i

/-- `none` is the assertion that fails when `a < b`. -/
def bnSub (a b : List Nat) : Option (List Nat) := do
  let c ← bnCmp a b
  if c ≥ 0 then bnTrim (← bnSubAt a b 0 a.length 0 []) else none

def bnCol (a b : List Nat) (k i hi acc : Nat) : Option Nat :=
  if i > hi then some acc
  else do
    let x ← a[i]?
    let y ← b[k - i]?
    let p ← mulChk 128 x y
    let s ← addChk 256 acc p
    bnCol a b k (i + 1) hi s
termination_by hi + 1 - i

/-- Column `k` holds the sum of `a[i] * b[k - i]`; `carry` is what the lower columns left
above 64 bits.  Both lists are nonempty. -/
def bnMulCols (a b : List Nat) (k total carry : Nat) (acc : List Nat) : Option (List Nat) :=
  if k ≥ total then some acc
  else do
    let lo := k + 1 - b.length
    let hi := if k < a.length - 1 then k else a.length - 1
    let s ← bnCol a b k lo hi carry
    bnMulCols a b (k + 1) total (shr s 64) (acc ++ [wrap 64 s])
termination_by total - k

def bnMul (a b : List Nat) : Option (List Nat) :=
  if a.length = 0 ∨ b.length = 0 then some []
  else do bnTrim (← bnMulCols a b 0 (a.length + b.length) 0 [])

/-! ## Addition -/

theorem shr_64 (d : Nat) : shr d 64 = d / bnBase := by rw [bnBase_eq, shr]

theorem wrap_64 (d : Nat) : wrap 64 d = d % bnBase := by rw [bnBase_eq, wrap]

theorem bnBase_add_bnBase : 2 * bnBase < 2 ^ 128 := by norm_num [bnBase]

/-- One limb of the sum: nothing overflows, and the limb and the carry are the exact ones. -/
theorem bnAddAt_step (x y i n : Nat) (acc : List Nat) (h : i < n) :
    bnAddAt (limbs x) (limbs y) i n (carry bnBase x y i) acc =
      bnAddAt (limbs x) (limbs y) (i + 1) n (carry bnBase x y (i + 1))
        (acc ++ [digit bnBase (x + y) i]) := by
  have hx := digit_lt_bnBase x i
  have hy := digit_lt_bnBase y i
  have hc := carry_le_one bnBase_pos x y i
  have hc' := carry_le_one bnBase_pos x y (i + 1)
  have hB := bnBase_add_bnBase
  have h1 := one_lt_bnBase
  have hlt : digit bnBase x i + digit bnBase y i + carry bnBase x y i < 2 ^ 128 := by omega
  conv_lhs => rw [bnAddAt]
  rw [if_neg (by omega), bnGet_natCast, bnGet_natCast, addChk_of_lt (by omega)]
  simp only [Option.bind_eq_bind, Option.bind_some]
  rw [addChk_of_lt hlt, Option.bind_some, shr_64, wrap_64, ← carry_succ bnBase_pos,
    ← digit_add bnBase_pos, castChk_of_lt (by rw [← bnBase_eq]; omega), Option.bind_some]

theorem bnAddAt_run (x y n : Nat) : ∀ i, i ≤ n →
    bnAddAt (limbs x) (limbs y) i n (carry bnBase x y i) (table (digit bnBase (x + y)) i) =
      bnAddAt (limbs x) (limbs y) n n (carry bnBase x y n) (table (digit bnBase (x + y)) n) := by
  intro i hi
  induction h : n - i generalizing i with
  | zero =>
    obtain rfl : i = n := by omega
    rfl
  | succ k ih =>
    rw [bnAddAt_step x y i n _ (by omega), ← table_succ]
    exact ih (i + 1) (by omega) (by omega)

theorem bnAdd_limbs (x y : Nat) : bnAdd (limbs x) (limbs y) = some (limbs (x + y)) := by
  have hrun : ∀ n, (limbs x).length ≤ n → (limbs y).length ≤ n →
      (∀ j, n = j + 1 → bnBase ^ j ≤ x + y) →
      bnAddAt (limbs x) (limbs y) 0 n 0 [] = some (limbs (x + y)) := by
    intro n hx hy htop
    have hx' := lt_of_lt_of_le (lt_pow_length x) (Nat.pow_le_pow_right bnBase_pos hx)
    have hy' := lt_of_lt_of_le (lt_pow_length y) (Nat.pow_le_pow_right bnBase_pos hy)
    have hrun := bnAddAt_run x y n 0 (Nat.zero_le n)
    rw [carry_zero, table_zero] at hrun
    rw [hrun, bnAddAt, if_pos (Nat.le_refl n)]
    congr 1
    have hcarry := carry_eq_div hx' hy'
    have hle := carry_le_one bnBase_pos x y n
    split
    · rename_i h0
      have hlt : x + y < bnBase ^ n := by
        rw [h0] at hcarry
        exact Nat.lt_of_div_eq_zero (Nat.pow_pos bnBase_pos) hcarry.symm
      exact lowDigits_eq_digits one_lt_bnBase hlt htop
    · -- the last carry is one more limb
      have h1 : (x + y) / bnBase ^ n = 1 := by omega
      have hge : bnBase ^ n ≤ x + y := by
        by_contra hlt
        rw [Nat.div_eq_of_lt (Nat.lt_of_not_le hlt)] at h1
        exact absurd h1 (by decide)
      have hlt : x + y < bnBase ^ (n + 1) := by
        have : 2 * bnBase ^ n ≤ bnBase * bnBase ^ n := Nat.mul_le_mul_right _ one_lt_bnBase
        rw [Nat.pow_succ']
        omega
      have htab : table (digit bnBase (x + y)) n ++ [carry bnBase x y n] =
          table (digit bnBase (x + y)) (n + 1) := by
        rw [table_succ, hcarry, digit, h1, Nat.mod_eq_of_lt one_lt_bnBase]
      rw [htab]
      refine lowDigits_eq_digits one_lt_bnBase hlt fun j hj => ?_
      obtain rfl : n = j := by omega
      exact hge
  unfold bnAdd
  split
  · rename_i h
    exact hrun _ (Nat.le_refl _) (Nat.le_of_lt h) fun j hj =>
      le_trans (pow_le_of_length hj) (Nat.le_add_right x y)
  · rename_i h
    exact hrun _ (Nat.le_of_not_lt h) (Nat.le_refl _) fun j hj =>
      le_trans (pow_le_of_length hj) (Nat.le_add_left y x)

/-! ## Subtraction -/

/-- Taking `y` from `x = y + z` borrows what adding `z` to `y` carries. -/
theorem bnSubAt_step (y z i n : Nat) (acc : List Nat) (h : i < n) :
    bnSubAt (limbs (y + z)) (limbs y) i n (carry bnBase y z i) acc =
      bnSubAt (limbs (y + z)) (limbs y) (i + 1) n (carry bnBase y z (i + 1))
        (acc ++ [digit bnBase z i]) := by
  have hx := digit_lt_bnBase (y + z) i
  have hy := digit_lt_bnBase y i
  have hz := digit_lt_bnBase z i
  have hc := carry_le_one bnBase_pos y z i
  have hc' := carry_le_one bnBase_pos y z (i + 1)
  have hsum := digit_add_mul bnBase_pos y z i
  have hB := bnBase_add_bnBase
  conv_lhs => rw [bnSubAt]
  rw [if_neg (by omega), bnGet_natCast, bnGet_natCast, addChk_of_lt (by omega)]
  simp only [Option.bind_eq_bind, Option.bind_some]
  rw [subChk_of_le (by omega), Option.bind_some, subChk_of_le (by omega), Option.bind_some,
    shr_64, wrap_64]
  rcases Nat.le_one_iff_eq_zero_or_eq_one.1 hc' with h0 | h1
  · rw [h0, Nat.mul_zero] at hsum
    have hd : bnBase + digit bnBase (y + z) i - digit bnBase y i - carry bnBase y z i =
        digit bnBase z i + bnBase := by omega
    rw [hd, h0, Nat.add_div_right _ bnBase_pos, Nat.add_mod_right, Nat.mod_eq_of_lt hz,
      if_neg (Nat.succ_ne_zero _)]
  · rw [h1, Nat.mul_one] at hsum
    have hd : bnBase + digit bnBase (y + z) i - digit bnBase y i - carry bnBase y z i =
        digit bnBase z i := by omega
    rw [hd, h1, Nat.div_eq_of_lt hz, Nat.mod_eq_of_lt hz, if_pos rfl]

theorem bnSubAt_run (y z n : Nat) : ∀ i, i ≤ n →
    bnSubAt (limbs (y + z)) (limbs y) i n (carry bnBase y z i) (table (digit bnBase z) i) =
      some (table (digit bnBase z) n) := by
  intro i hi
  induction h : n - i generalizing i with
  | zero =>
    obtain rfl : i = n := by omega
    rw [bnSubAt, if_pos (Nat.le_refl i)]
  | succ k ih =>
    rw [bnSubAt_step y z i n _ (by omega), ← table_succ]
    exact ih (i + 1) (by omega) (by omega)

theorem bnSub_limbs {x y : Nat} (h : y ≤ x) :
    bnSub (limbs x) (limbs y) = some (limbs (x - y)) := by
  obtain ⟨z, rfl⟩ := Nat.exists_eq_add_of_le h
  have hrun := bnSubAt_run y z (limbs (y + z)).length 0 (Nat.zero_le _)
  rw [carry_zero, table_zero] at hrun
  have hlt : z < bnBase ^ (limbs (y + z)).length :=
    lt_of_le_of_lt (Nat.le_add_left z y) (lt_pow_length (y + z))
  simp [bnSub, bnCmp_limbs, Option.bind_eq_bind, Option.bind_some, hrun, if_pos (order_nonneg.2 h),
    bnTrim_table hlt]

/-! ## Multiplication -/

/-- The products of column `k` with index below `i`. -/
def partialColumn (x y k i : Nat) : Nat :=
  ∑ t ∈ Finset.range i, digit bnBase x t * digit bnBase y (k - t)

theorem partialColumn_succ (x y k i : Nat) :
    partialColumn x y k (i + 1) =
      partialColumn x y k i + digit bnBase x i * digit bnBase y (k - i) :=
  Finset.sum_range_succ _ _

/-- Below the first index the second list has no limb. -/
theorem partialColumn_lo (x y k : Nat) :
    partialColumn x y k (k + 1 - (limbs y).length) = 0 := by
  refine Finset.sum_eq_zero fun t ht => ?_
  have := Finset.mem_range.1 ht
  rw [digit_eq_zero (x := y), Nat.mul_zero]
  exact lt_of_lt_of_le (lt_pow_length y) (Nat.pow_le_pow_right bnBase_pos (by omega))

/-- Past the last index the first list has no limb. -/
theorem partialColumn_hi (x y k : Nat) (hx : 0 < (limbs x).length) :
    partialColumn x y k ((if k < (limbs x).length - 1 then k else (limbs x).length - 1) + 1) =
      column bnBase x y k := by
  split
  · rfl
  · have hle : (limbs x).length - 1 + 1 ≤ k + 1 := by omega
    refine Finset.sum_subset (fun t ht => ?_) fun t _ ht => ?_
    · have := Finset.mem_range.1 ht
      exact Finset.mem_range.2 (by omega)
    · have : ¬ t < (limbs x).length - 1 + 1 := fun h => ht (Finset.mem_range.2 h)
      rw [digit_eq_zero (x := x), Nat.zero_mul]
      exact lt_of_lt_of_le (lt_pow_length x) (Nat.pow_le_pow_right bnBase_pos (by omega))

theorem partialColumn_mono (x y k : Nat) {i j : Nat} (h : i ≤ j) :
    partialColumn x y k i ≤ partialColumn x y k j :=
  Finset.sum_le_sum_of_subset (Finset.range_mono h)

theorem bnCol_run {x y k hi c : Nat} (hx : hi < (limbs x).length) (hk : hi ≤ k)
    (hfit : c + partialColumn x y k (hi + 1) < 2 ^ 256) :
    ∀ i, k < i + (limbs y).length → i ≤ hi + 1 →
      bnCol (limbs x) (limbs y) k i hi (c + partialColumn x y k i) =
        some (c + partialColumn x y k (hi + 1)) := by
  intro i hlo hle
  induction h : hi + 1 - i generalizing i with
  | zero =>
    obtain rfl : i = hi + 1 := by omega
    rw [bnCol, if_pos (by omega)]
  | succ n ih =>
    have hmul : digit bnBase x i * digit bnBase y (k - i) < 2 ^ 128 :=
      mul_lt_two_pow (by decide) (digit_lt_two_pow x i) (digit_lt_two_pow y (k - i))
    have hadd : c + partialColumn x y k (i + 1) < 2 ^ 256 := by
      have := partialColumn_mono x y k (show i + 1 ≤ hi + 1 by omega)
      omega
    rw [partialColumn_succ, ← Nat.add_assoc] at hadd
    rw [bnCol, if_neg (by omega), getElem?_limbs (by omega), getElem?_limbs (by omega)]
    simp only [Option.bind_eq_bind, Option.bind_some]
    rw [mulChk_of_lt hmul, Option.bind_some, addChk_of_lt hadd, Option.bind_some, Nat.add_assoc,
      ← partialColumn_succ]
    exact ih (i + 1) (by omega) (by omega) (by omega)

/-- A column and what is carried into it stay within 256 bits. -/
theorem column_fits {x : Nat} (hlen : (limbs x).length < 2 ^ 63) (y k : Nat) :
    columns bnBase x y k / bnBase ^ k + column bnBase x y k < 2 ^ 256 := by
  have h1 := columns_div_le bnBase_pos (lt_pow_length x) y k
  have h2 := column_le bnBase_pos (lt_pow_length x) y k
  have h3 : (limbs x).length * bnBase ≤ 2 ^ 63 * bnBase := Nat.mul_le_mul_right _ (by omega)
  have h4 : (limbs x).length * (bnBase - 1) ^ 2 ≤ 2 ^ 63 * (bnBase - 1) ^ 2 :=
    Nat.mul_le_mul_right _ (by omega)
  have h5 : 2 ^ 63 * bnBase + 2 ^ 63 * (bnBase - 1) ^ 2 < 2 ^ 256 := by norm_num [bnBase]
  omega

theorem bnMulCols_step {x y : Nat} (hlen : (limbs x).length < 2 ^ 63)
    (hx : 0 < (limbs x).length) (hy : 0 < (limbs y).length) (k : Nat) (acc : List Nat)
    (hk : k < (limbs x).length + (limbs y).length) :
    bnMulCols (limbs x) (limbs y) k ((limbs x).length + (limbs y).length)
        (columns bnBase x y k / bnBase ^ k) acc =
      bnMulCols (limbs x) (limbs y) (k + 1) ((limbs x).length + (limbs y).length)
        (columns bnBase x y (k + 1) / bnBase ^ (k + 1)) (acc ++ [digit bnBase (x * y) k]) := by
  have hcol := partialColumn_hi x y k hx
  have hhi : (if k < (limbs x).length - 1 then k else (limbs x).length - 1) < (limbs x).length := by
    split <;> omega
  have hhik : (if k < (limbs x).length - 1 then k else (limbs x).length - 1) ≤ k := by
    split <;> omega
  have hlohi : k + 1 - (limbs y).length ≤
      (if k < (limbs x).length - 1 then k else (limbs x).length - 1) + 1 := by
    split <;> omega
  have hrun := bnCol_run hhi hhik (by rw [hcol]; exact column_fits hlen y k)
    (k + 1 - (limbs y).length) (by omega) hlohi
  simp only [hcol, partialColumn_lo, Nat.add_zero] at hrun
  conv_lhs => rw [bnMulCols]
  rw [if_neg (by omega)]
  simp only [hrun, Option.bind_eq_bind, Option.bind_some, shr_64, wrap_64]
  rw [← columns_succ_div bnBase_pos, ← digit_mul bnBase_pos]

theorem bnMulCols_run {x y : Nat} (hlen : (limbs x).length < 2 ^ 63)
    (hx : 0 < (limbs x).length) (hy : 0 < (limbs y).length) :
    ∀ k, k ≤ (limbs x).length + (limbs y).length →
      bnMulCols (limbs x) (limbs y) k ((limbs x).length + (limbs y).length)
          (columns bnBase x y k / bnBase ^ k) (table (digit bnBase (x * y)) k) =
        some (table (digit bnBase (x * y)) ((limbs x).length + (limbs y).length)) := by
  intro k hk
  induction h : (limbs x).length + (limbs y).length - k generalizing k with
  | zero =>
    obtain rfl : k = (limbs x).length + (limbs y).length := by omega
    rw [bnMulCols, if_pos (Nat.le_refl _)]
  | succ n ih =>
    rw [bnMulCols_step hlen hx hy k _ (by omega), ← table_succ]
    exact ih (k + 1) (by omega) (by omega)

theorem bnMul_limbs {x : Nat} (hlen : (limbs x).length < 2 ^ 63) (y : Nat) :
    bnMul (limbs x) (limbs y) = some (limbs (x * y)) := by
  unfold bnMul
  by_cases h0 : (limbs x).length = 0 ∨ (limbs y).length = 0
  · have hz : x * y = 0 := by
      rcases h0 with h | h
      · rw [length_limbs_eq_zero.1 h, Nat.zero_mul]
      · rw [length_limbs_eq_zero.1 h, Nat.mul_zero]
    rw [if_pos h0, hz, limbs_zero]
  · have hrun := bnMulCols_run hlen (by omega) (by omega) (y := y) 0 (Nat.zero_le _)
    rw [columns_zero, table_zero, Nat.zero_div] at hrun
    have hlt : x * y < bnBase ^ ((limbs x).length + (limbs y).length) := by
      rw [pow_add]
      exact Nat.mul_lt_mul'' (lt_pow_length x) (lt_pow_length y)
    simp only [if_neg h0, hrun, Option.bind_eq_bind, Option.bind_some, bnTrim_table hlt]

end Bignum

import Mathlib.Data.List.GetD
import Mathlib.Data.Nat.Digits.Lemmas
import Mathlib.Algebra.BigOperators.Intervals
import Mathlib.Tactic.Ring
import Mathlib.Tactic.Linarith
import Mathlib.Algebra.BigOperators.ModEq
import Mathlib.Algebra.BigOperators.Ring.Finset
import Mathlib.Algebra.Order.BigOperators.Group.Finset

/-!
# Positional numerals over any base

Digit lists are least significant first and are read by `Nat.ofDigits`.  A loop that
emits the digits of a number from the low end builds `lowDigits b x n`, and a list is
`Normal` when it is what `Nat.digits` writes.

    ofDigits b (lowDigits b x n) = x % b ^ n                        (ofDigits_lowDigits)
    IsDigits b l → l.getD i 0 = ofDigits b l / b ^ i % b            (getD_eq_digit)
    1 < b → Normal b l → Nat.digits b (ofDigits b l) = l            (Normal.digits_eq)
    k < l.length → l.set k d denotes l + (d - l[k]) b ^ k           (ofDigits_set)
-/

namespace Positional

open Nat (ofDigits)

/-- Every entry is a digit of base `b`. -/
def IsDigits (b : Nat) (l : List Nat) : Prop := ∀ d ∈ l, d < b

/-- A numeral without leading zeros: zero is the empty list. -/
structure Normal (b : Nat) (l : List Nat) : Prop where
  digits : IsDigits b l
  last : ∀ h : l ≠ [], l.getLast h ≠ 0

/-- The `n` lowest digits of `x`. -/
def lowDigits (b x n : Nat) : List Nat := (List.range n).map fun i => x / b ^ i % b

/-! ## Digit lists -/

theorem IsDigits.nil (b : Nat) : IsDigits b [] := fun _ h => nomatch h

variable {l : List Nat} {d k n : Nat}

theorem IsDigits.append {b : Nat} {r : List Nat} (hl : IsDigits b l) (hr : IsDigits b r) :
    IsDigits b (l ++ r) := by
  intro d hd
  rcases List.mem_append.1 hd with h | h
  · exact hl d h
  · exact hr d h

theorem IsDigits.singleton {b : Nat} (h : d < b) : IsDigits b [d] := by
  intro e he
  rw [List.mem_singleton.1 he]
  exact h

theorem IsDigits.cons {b : Nat} (h : d < b) (hl : IsDigits b l) : IsDigits b (d :: l) :=
  IsDigits.append (IsDigits.singleton h) hl

theorem IsDigits.of_cons {b : Nat} (h : IsDigits b (d :: l)) : d < b ∧ IsDigits b l :=
  ⟨h d List.mem_cons_self, fun e he => h e (List.mem_cons_of_mem d he)⟩

theorem IsDigits.set {b : Nat} (hl : IsDigits b l) (h : d < b) (k : Nat) :
    IsDigits b (l.set k d) := by
  intro e he
  rcases List.mem_or_eq_of_mem_set he with h' | h'
  · exact hl e h'
  · rw [h']
    exact h

theorem IsDigits.take {b : Nat} (hl : IsDigits b l) (k : Nat) :
    IsDigits b (l.take k) := fun d hd => hl d (List.mem_of_mem_take hd)

theorem IsDigits.getD_lt {b : Nat} (hl : IsDigits b l) (hb : 0 < b) (i : Nat) : l.getD i 0 < b := by
  by_cases hi : i < l.length
  · rw [List.getD_eq_getElem _ _ hi]
    exact hl _ (List.getElem_mem hi)
  · rw [List.getD_eq_default _ _ (Nat.le_of_not_lt hi)]
    exact hb

theorem IsDigits.ofDigits_lt {b : Nat} (hl : IsDigits b l) (hb : 1 < b) :
    ofDigits b l < b ^ l.length :=
  Nat.ofDigits_lt_base_pow_length hb fun d hd => hl d hd

theorem isDigits_lowDigits {b : Nat} (hb : 0 < b) (x n : Nat) : IsDigits b (lowDigits b x n) := by
  intro d hd
  obtain ⟨i, -, rfl⟩ := List.mem_map.1 hd
  exact Nat.mod_lt _ hb

/-! ## Emitting digits from the low end -/

@[simp] theorem lowDigits_zero (b x : Nat) : lowDigits b x 0 = [] := rfl

@[simp] theorem length_lowDigits (b x n : Nat) : (lowDigits b x n).length = n := by
  simp [lowDigits]

theorem lowDigits_succ (b x n : Nat) :
    lowDigits b x (n + 1) = lowDigits b x n ++ [x / b ^ n % b] := by
  simp [lowDigits, List.range_succ]

theorem ofDigits_lowDigits (b x n : Nat) : ofDigits b (lowDigits b x n) = x % b ^ n := by
  induction n with
  | zero => simp [Nat.mod_one]
  | succ n ih =>
    rw [lowDigits_succ, Nat.ofDigits_append, ih, length_lowDigits, Nat.ofDigits_singleton,
      Nat.mod_pow_succ]

/-- Low digits of a number that has no more than `n` of them denote the number. -/
theorem ofDigits_lowDigits_of_lt {b x : Nat} (h : x < b ^ n) :
    ofDigits b (lowDigits b x n) = x := by
  rw [ofDigits_lowDigits, Nat.mod_eq_of_lt h]

/-! ## Reading a digit -/

theorem ofDigits_take_drop (b : Nat) (l : List Nat) (k : Nat) (hk : k ≤ l.length) :
    ofDigits b l = ofDigits b (l.take k) + b ^ k * ofDigits b (l.drop k) := by
  conv_lhs => rw [← List.take_append_drop k l]
  rw [Nat.ofDigits_append, List.length_take, Nat.min_eq_left hk]

theorem getD_eq_digit {b : Nat} (hb : 1 < b) (hl : IsDigits b l) (i : Nat) :
    l.getD i 0 = ofDigits b l / b ^ i % b := by
  induction l generalizing i with
  | nil => simp [Nat.ofDigits_nil]
  | cons d l ih =>
    obtain ⟨hd, hl'⟩ := hl.of_cons
    rw [Nat.ofDigits_cons]
    cases i with
    | zero => simp [Nat.mod_eq_of_lt hd]
    | succ i =>
      have hstep : (d + b * ofDigits b l) / b = ofDigits b l := by
        rw [Nat.add_mul_div_left _ _ (by omega), Nat.div_eq_of_lt hd, Nat.zero_add]
      rw [Nat.pow_succ', ← Nat.div_div_eq_div_mul, hstep]
      simpa using ih hl' i

theorem getElem?_eq_digit {b : Nat} (hb : 1 < b) (hl : IsDigits b l) {i : Nat} (hi : i < l.length) :
    l[i]? = some (ofDigits b l / b ^ i % b) := by
  rw [← getD_eq_digit hb hl, List.getD_eq_getElem _ _ hi]
  exact List.getElem?_eq_getElem hi

/-- Digit lists of one length and one value are equal. -/
theorem eq_lowDigits {b : Nat} (hb : 1 < b) (hl : IsDigits b l) :
    l = lowDigits b (ofDigits b l) l.length := by
  apply List.ext_getElem?
  intro i
  by_cases hi : i < l.length
  · rw [getElem?_eq_digit hb hl hi]
    simp [lowDigits, List.getElem?_range hi]
  · rw [List.getElem?_eq_none (by omega), List.getElem?_eq_none (by simp; omega)]

theorem take_eq_lowDigits {b : Nat} (hb : 1 < b) (hl : IsDigits b l) (hk : k ≤ l.length) :
    l.take k = lowDigits b (ofDigits b l) k := by
  conv_lhs => rw [eq_lowDigits hb hl]
  rw [lowDigits, ← List.map_take, List.take_range, Nat.min_eq_left hk]
  rfl

/-! ## Writing a digit -/

/-- Replacing digit `k` moves the value by the difference at that position. -/
theorem ofDigits_set (b : Nat) (l : List Nat) (k d : Nat) (hk : k < l.length) :
    ((ofDigits b (l.set k d) : Nat) : Int) =
      (ofDigits b l : Nat) + ((d : Int) - l.getD k 0) * (b : Int) ^ k := by
  induction l generalizing k with
  | nil => exact absurd hk (by simp)
  | cons e l ih =>
    cases k with
    | zero =>
      simp only [List.set_cons_zero, Nat.ofDigits_cons, List.getD_cons_zero, pow_zero]
      push_cast
      ring
    | succ k =>
      have := ih k (by simpa using hk)
      simp only [List.set_cons_succ, Nat.ofDigits_cons, List.getD_cons_succ, Nat.cast_add,
        Nat.cast_mul, this]
      ring

/-! ## Normal numerals -/

theorem Normal.digits_eq {b : Nat} (hb : 1 < b) (hl : Normal b l) :
    Nat.digits b (ofDigits b l) = l :=
  Nat.digits_ofDigits b hb l (fun d hd => hl.digits d hd) hl.last

theorem normal_digits {b : Nat} (hb : 1 < b) (n : Nat) : Normal b (Nat.digits b n) where
  digits := fun _ hd => Nat.digits_lt_base hb hd
  last := by
    intro h
    exact Nat.getLast_digit_ne_zero b fun h0 => h (by rw [h0, Nat.digits_zero])

theorem isDigits_digits {b : Nat} (hb : 1 < b) (n : Nat) : IsDigits b (Nat.digits b n) :=
  (normal_digits hb n).digits

/-- Dropping leading zeros from the top leaves the normal numeral. -/
theorem digits_ofDigits_take {b : Nat} (hb : 1 < b) (hl : IsDigits b l) (hk : k ≤ l.length)
    (hzero : ∀ i, k ≤ i → l.getD i 0 = 0) (htop : ∀ j, k = j + 1 → l.getD j 0 ≠ 0) :
    l.take k = Nat.digits b (ofDigits b l) := by
  have hdrop : ofDigits b (l.drop k) = 0 := by
    have hall : l.drop k = List.replicate (l.length - k) 0 := by
      rw [List.eq_replicate_iff]
      refine ⟨by simp, fun d hd => ?_⟩
      obtain ⟨i, hi, rfl⟩ := List.getElem_of_mem hd
      have := hzero (k + i) (by omega)
      rw [List.length_drop] at hi
      rwa [List.getD_eq_getElem _ _ (by omega), ← List.getElem_drop] at this
    rw [hall, Nat.ofDigits_replicate_zero]
  have hval : ofDigits b l = ofDigits b (l.take k) := by
    rw [ofDigits_take_drop b l k hk, hdrop, Nat.mul_zero, Nat.add_zero]
  have hnorm : Normal b (l.take k) := by
    refine ⟨hl.take k, fun hne => ?_⟩
    obtain ⟨j, rfl⟩ : ∃ j, k = j + 1 := by
      cases k with
      | zero => exact absurd rfl hne
      | succ j => exact ⟨j, rfl⟩
    have := htop j rfl
    rw [List.getD_eq_getElem _ _ (by omega)] at this
    rw [List.getLast_eq_getElem]
    simpa [Nat.min_eq_left hk] using this
  rw [hval, hnorm.digits_eq hb]

/-- The low digits are the whole numeral when the highest of them is its leading digit. -/
theorem lowDigits_eq_digits {b x : Nat} (hb : 1 < b) (hlt : x < b ^ n)
    (hge : ∀ j, n = j + 1 → b ^ j ≤ x) : lowDigits b x n = Nat.digits b x := by
  have hdig := isDigits_lowDigits (by omega : 0 < b) x n
  have hlen := length_lowDigits b x n
  have htake : (lowDigits b x n).take n = Nat.digits b (ofDigits b (lowDigits b x n)) := by
    refine digits_ofDigits_take hb hdig (by omega) (fun i hi => ?_) (fun j hj => ?_)
    · exact List.getD_eq_default _ _ (by omega)
    · rw [getD_eq_digit hb hdig, ofDigits_lowDigits_of_lt hlt]
      have hq : x / b ^ j < b := Nat.div_lt_of_lt_mul (by rwa [← pow_succ, ← hj])
      rw [Nat.mod_eq_of_lt hq]
      exact Nat.ne_of_gt (Nat.div_pos (hge j hj) (Nat.pow_pos (by omega)))
  rwa [List.take_of_length_le (by omega), ofDigits_lowDigits_of_lt hlt] at htake

theorem getElem?_digits {b i : Nat} (hb : 1 < b) (hi : i < (Nat.digits b n).length) :
    (Nat.digits b n)[i]? = some (n / b ^ i % b) := by
  rw [getElem?_eq_digit hb (isDigits_digits hb n) hi, Nat.ofDigits_digits]

theorem length_digits_le {b : Nat} (hb : 1 < b) (h : n < b ^ k) :
    (Nat.digits b n).length ≤ k := (Nat.digits_length_le_iff hb n).2 h

theorem digits_eq_nil {b : Nat} : Nat.digits b n = [] ↔ n = 0 := Nat.digits_eq_nil_iff_eq_zero

/-!
## Carries, borrows and columns of schoolbook arithmetic

The digits of a sum, a difference and a product as a digit-by-digit loop meets them.
`carry b x y i` is what the `i` lowest digits of `x + y` leave for digit `i`; a
subtraction `x - y` borrows the carry of `y + (x - y)`; column `k` of a product is the
sum of `x_i * y_(k - i)`, and `columns b x y k / b ^ k` is what the lower columns leave.

    (x + y)_i = (x_i + y_i + carry_i) % b,   carry_(i+1) = (x_i + y_i + carry_i) / b
    (x * y)_k = (columns_k / b^k + column_k) % b
-/

open Finset

/-- Digit `i` of `x`. -/
def digit (b x i : Nat) : Nat := x / b ^ i % b

/-- What the `i` lowest digits of `x + y` carry into digit `i`. -/
def carry (b x y i : Nat) : Nat := (x % b ^ i + y % b ^ i) / b ^ i

/-- Column `k` of the product of `x` and `y`. -/
def column (b x y k : Nat) : Nat := ∑ i ∈ range (k + 1), digit b x i * digit b y (k - i)

/-- The columns of the product below `k`, each at its place. -/
def columns (b x y k : Nat) : Nat := ∑ c ∈ range k, column b x y c * b ^ c

/-! ## Digits -/

theorem digit_lt {b : Nat} (hb : 0 < b) (x i : Nat) : digit b x i < b := Nat.mod_lt _ hb

theorem digit_eq_zero {b x i : Nat} (h : x < b ^ i) : digit b x i = 0 := by
  rw [digit, Nat.div_eq_of_lt h, Nat.zero_mod]

theorem mod_pow_succ_digit (b x i : Nat) : x % b ^ (i + 1) = x % b ^ i + b ^ i * digit b x i :=
  Nat.mod_pow_succ

theorem sum_digits (b x n : Nat) : ∑ i ∈ range n, digit b x i * b ^ i = x % b ^ n := by
  induction n with
  | zero => simp [Nat.mod_one]
  | succ n ih => rw [sum_range_succ, ih, mod_pow_succ_digit, Nat.mul_comm (digit b x n)]

/-- A digit of base `c` read inside the digit of base `c ^ m` that holds it. -/
theorem digit_of_digit_pow {c m : Nat} (hm : 0 < m) (x k : Nat) :
    digit (c ^ m) x (k / m) / c ^ (k % m) % c = digit c x k := by
  have hk : x / c ^ k = x / (c ^ m) ^ (k / m) / c ^ (k % m) := by
    rw [← Nat.pow_mul, Nat.div_div_eq_div_mul, ← pow_add, Nat.div_add_mod]
  have hsplit : c ^ m = c ^ (k % m) * (c * c ^ (m - 1 - k % m)) := by
    have := Nat.mod_lt k hm
    rw [← pow_succ', ← pow_add]
    congr 1
    omega
  rw [digit, digit, hk]
  generalize x / (c ^ m) ^ (k / m) = y
  rw [hsplit, Nat.mod_mul_right_div_self, Nat.mod_mul_right_mod]

/-! ## Addition -/

@[simp] theorem carry_zero (b x y : Nat) : carry b x y 0 = 0 := by simp [carry, Nat.mod_one]

theorem carry_le_one {b : Nat} (hb : 0 < b) (x y i : Nat) : carry b x y i ≤ 1 := by
  have hx := Nat.mod_lt x (Nat.pow_pos (n := i) hb)
  have hy := Nat.mod_lt y (Nat.pow_pos (n := i) hb)
  exact Nat.le_of_lt_succ (Nat.div_lt_of_lt_mul (by omega))

theorem carry_succ {b : Nat} (hb : 0 < b) (x y i : Nat) :
    carry b x y (i + 1) = (digit b x i + digit b y i + carry b x y i) / b := by
  have hp : 0 < b ^ i := Nat.pow_pos hb
  have hsplit : x % b ^ (i + 1) + y % b ^ (i + 1) =
      (x % b ^ i + y % b ^ i) + b ^ i * (digit b x i + digit b y i) := by
    rw [mod_pow_succ_digit, mod_pow_succ_digit]
    ring
  rw [carry, hsplit, Nat.pow_succ, ← Nat.div_div_eq_div_mul, Nat.add_mul_div_left _ _ hp, carry,
    Nat.add_comm (_ / _)]

theorem digit_add {b : Nat} (hb : 0 < b) (x y i : Nat) :
    digit b (x + y) i = (digit b x i + digit b y i + carry b x y i) % b := by
  have hp : 0 < b ^ i := Nat.pow_pos hb
  have hsplit : x + y = (x % b ^ i + y % b ^ i) + b ^ i * (x / b ^ i + y / b ^ i) := by
    have hx := Nat.mod_add_div x (b ^ i)
    have hy := Nat.mod_add_div y (b ^ i)
    rw [Nat.mul_add]
    omega
  have hdiv : (x + y) / b ^ i = carry b x y i + (x / b ^ i + y / b ^ i) := by
    conv_lhs => rw [hsplit]
    rw [Nat.add_mul_div_left _ _ hp, carry]
  have hx : digit b x i ≡ x / b ^ i [MOD b] := Nat.mod_modEq _ b
  have hy : digit b y i ≡ y / b ^ i [MOD b] := Nat.mod_modEq _ b
  rw [digit, hdiv, Nat.add_comm]
  exact ((hx.add hy).add_right _).symm

theorem digit_add_mul {b : Nat} (hb : 0 < b) (x y i : Nat) :
    digit b x i + digit b y i + carry b x y i =
      digit b (x + y) i + b * carry b x y (i + 1) := by
  rw [digit_add hb, carry_succ hb, Nat.mod_add_div]

/-- The carry out of a sum's top digit is what lies above it. -/
theorem carry_eq_div {b x y n : Nat} (hx : x < b ^ n) (hy : y < b ^ n) :
    carry b x y n = (x + y) / b ^ n := by
  rw [carry, Nat.mod_eq_of_lt hx, Nat.mod_eq_of_lt hy]

/-! ## Multiplication -/

@[simp] theorem columns_zero (b x y : Nat) : columns b x y 0 = 0 := rfl

theorem columns_succ (b x y k : Nat) :
    columns b x y (k + 1) = columns b x y k + b ^ k * column b x y k := by
  rw [columns, sum_range_succ, ← columns, Nat.mul_comm]

/-- The columns below `k` are the product modulo `b ^ k`. -/
theorem columns_mod {b : Nat} (x y k : Nat) : columns b x y k ≡ x * y [MOD b ^ k] := by
  have hflip : columns b x y k =
      ∑ i ∈ range k, ∑ j ∈ range (k - i), digit b x i * digit b y j * b ^ (i + j) := by
    rw [← sum_range_diag_flip k fun i j => digit b x i * digit b y j * b ^ (i + j)]
    refine sum_congr rfl fun c _ => ?_
    rw [column, sum_mul]
    refine sum_congr rfl fun i hi => ?_
    rw [Nat.add_sub_cancel' (Nat.le_of_lt_succ (mem_range.1 hi))]
  -- row `i` is `x_i * b^i` times the low part of `y`
  have hrow : ∀ i ∈ range k,
      ∑ j ∈ range (k - i), digit b x i * digit b y j * b ^ (i + j) ≡
        digit b x i * b ^ i * y [MOD b ^ k] := by
    intro i hi
    have hlow : ∑ j ∈ range (k - i), digit b x i * digit b y j * b ^ (i + j) =
        digit b x i * (b ^ i * (y % b ^ (k - i))) := by
      rw [← sum_digits, mul_sum, mul_sum]
      refine sum_congr rfl fun j _ => ?_
      rw [pow_add]
      ring
    have hk : b ^ k = b ^ i * b ^ (k - i) := by
      rw [← pow_add, Nat.add_sub_cancel' (Nat.le_of_lt (mem_range.1 hi))]
    rw [hlow, hk, mul_assoc]
    exact Nat.ModEq.mul_left _ (Nat.ModEq.mul_left' _ (Nat.mod_modEq y _))
  rw [hflip]
  calc ∑ i ∈ range k, ∑ j ∈ range (k - i), digit b x i * digit b y j * b ^ (i + j)
      ≡ ∑ i ∈ range k, digit b x i * b ^ i * y [MOD b ^ k] := Nat.ModEq.sum hrow
    _ = x % b ^ k * y := by rw [← sum_mul, sum_digits]
    _ ≡ x * y [MOD b ^ k] := Nat.ModEq.mul_right _ (Nat.mod_modEq x _)

theorem columns_succ_div {b : Nat} (hb : 0 < b) (x y k : Nat) :
    columns b x y (k + 1) / b ^ (k + 1) =
      (columns b x y k / b ^ k + column b x y k) / b := by
  rw [columns_succ, Nat.pow_succ, ← Nat.div_div_eq_div_mul,
    Nat.add_mul_div_left _ _ (Nat.pow_pos hb)]

theorem digit_mul {b : Nat} (hb : 0 < b) (x y k : Nat) :
    digit b (x * y) k = (columns b x y k / b ^ k + column b x y k) % b := by
  have hmod := columns_mod (b := b) x y (k + 1)
  have hdig : digit b (x * y) k = digit b (columns b x y (k + 1)) k := by
    have h : ∀ z, digit b z k = z % b ^ (k + 1) / b ^ k := fun z => by
      rw [Nat.pow_succ, Nat.mod_mul_right_div_self, digit]
    rw [h, h, hmod]
  rw [hdig, digit, columns_succ, Nat.add_mul_div_left _ _ (Nat.pow_pos hb)]

/-- With at most `n` digits in `x`, a column has at most `n` products. -/
theorem column_le {b x n : Nat} (hb : 0 < b) (hx : x < b ^ n) (y k : Nat) :
    column b x y k ≤ n * (b - 1) ^ 2 := by
  have hterm : ∀ i ∈ range (k + 1),
      digit b x i * digit b y (k - i) ≤ if i < n then (b - 1) ^ 2 else 0 := by
    intro i _
    have h1 := digit_lt hb x i
    have h2 := digit_lt hb y (k - i)
    split
    · rw [sq]
      exact Nat.mul_le_mul (by omega) (by omega)
    · rw [digit_eq_zero (lt_of_lt_of_le hx (Nat.pow_le_pow_right hb (by omega))), Nat.zero_mul]
  calc column b x y k ≤ ∑ i ∈ range (k + 1), if i < n then (b - 1) ^ 2 else 0 := sum_le_sum hterm
    _ = #{i ∈ range (k + 1) | i < n} * (b - 1) ^ 2 := by
      rw [← sum_filter, sum_const, smul_eq_mul]
    _ ≤ n * (b - 1) ^ 2 := by
      refine Nat.mul_le_mul_right _ ?_
      calc #{i ∈ range (k + 1) | i < n} ≤ #(range n) :=
            card_le_card fun i hi => mem_range.2 (mem_filter.1 hi).2
        _ = n := card_range n

/-- What the lower columns leave stays below `n * b`. -/
theorem columns_div_le {b x n : Nat} (hb : 0 < b) (hx : x < b ^ n) (y k : Nat) :
    columns b x y k / b ^ k ≤ n * b := by
  induction k with
  | zero => simp
  | succ k ih =>
    rw [columns_succ_div hb]
    have hcol := column_le hb hx y k
    obtain ⟨c, rfl⟩ : ∃ c, b = c + 1 := ⟨b - 1, by omega⟩
    have hsum : columns (c + 1) x y k / (c + 1) ^ k + column (c + 1) x y k ≤
        (c + 1) * (n * (c + 1)) := by
      simp only [Nat.add_sub_cancel] at hcol
      calc _ ≤ n * (c + 1) + n * c ^ 2 := Nat.add_le_add ih hcol
        _ ≤ (c + 1) * (n * (c + 1)) := by nlinarith
    exact Nat.div_le_of_le_mul hsum

end Positional

/-!
## The quotient digit of a long division

One step of a long division in base `b` divides `W` by `V`, `W < V b`, and guesses the
digit from the leading digits: `p` is the weight of the third digit from the top, the
two top digits of `V` are `V / (p b)` and `V / p % b`, the three top digits of `W` are
`W / (p b)` (two of them) and `W / p % b`.

    guess * v2 > rest * b + u2  →  W / V < guess                    (quot_lt_of_test)
    guess * v2 ≤ rest * b + u2  →  guess ≤ W / V + 1                (le_quot_succ_of_test)
    b ≤ rest or the test passes  →  guess ≤ W / V + 1               (le_quot_succ_of_passed)
    W = out + guess V  →  guess = W / V, out = W % V                (digit_of_exact)
    W + M = out + guess V, out < M  →  out + V = M + W % V          (digit_of_borrow)
-/

namespace QuotientDigit

variable {b p V W guess rest : Nat}

theorem split_digit (b p x : Nat) : x / p = x / (p * b) * b + x / p % b := by
  rw [← Nat.div_div_eq_div_mul]
  exact (Nat.div_add_mod' (x / p) b).symm

theorem pos_of_top (htop : 0 < V / (p * b)) : 0 < V := by
  rcases Nat.eq_zero_or_pos V with h | h
  · rw [h, Nat.zero_div] at htop
    exact absurd htop (Nat.lt_irrefl 0)
  · exact h

/-- The true digit is below the base. -/
theorem quot_lt_base (hW : W < V * b) : W / V < b := Nat.div_lt_of_lt_mul hW

/-- Dividing the top two digits by the top one never guesses too small. -/
theorem quot_le_guess (hp : 0 < p) (hb : 0 < b) (htop : 0 < V / (p * b)) :
    W / V ≤ W / (p * b) / (V / (p * b)) := by
  have hpb : 0 < p * b := Nat.mul_pos hp hb
  rw [Nat.le_div_iff_mul_le htop, Nat.le_div_iff_mul_le hpb]
  calc W / V * (V / (p * b)) * (p * b) = W / V * (V / (p * b) * (p * b)) := Nat.mul_assoc _ _ _
    _ ≤ W / V * V := Nat.mul_le_mul_left _ (Nat.div_mul_le_self V _)
    _ ≤ W := Nat.div_mul_le_self W V

theorem top_lt (hp : 0 < p) (hb : 0 < b) (hW : W < V * b) :
    W / (p * b) < (V / (p * b) + 1) * b := by
  have hpb : 0 < p * b := Nat.mul_pos hp hb
  rw [Nat.div_lt_iff_lt_mul hpb]
  have hV : V < (V / (p * b) + 1) * (p * b) := by
    rw [← Nat.div_lt_iff_lt_mul hpb]
    exact Nat.lt_succ_self _
  calc W < V * b := hW
    _ ≤ (V / (p * b) + 1) * (p * b) * b := Nat.mul_le_mul_right b (Nat.le_of_lt hV)
    _ = (V / (p * b) + 1) * b * (p * b) := by ring

/-- A guess that fails the three-digit test is too big. -/
theorem quot_lt_of_test (hp : 0 < p) (htop : 0 < V / (p * b))
    (hguess : guess * (V / (p * b)) + rest = W / (p * b))
    (htest : rest * b + W / p % b < guess * (V / p % b)) : W / V < guess := by
  rw [Nat.div_lt_iff_lt_mul (pos_of_top htop)]
  have hW : W < (W / p + 1) * p := by
    rw [← Nat.div_lt_iff_lt_mul hp]
    exact Nat.lt_succ_self _
  have hlead : W / p + 1 ≤ guess * (V / p) := by
    rw [split_digit b p W, split_digit b p V, ← hguess]
    nlinarith
  calc W < (W / p + 1) * p := hW
    _ ≤ guess * (V / p) * p := Nat.mul_le_mul_right p hlead
    _ = guess * (V / p * p) := Nat.mul_assoc _ _ _
    _ ≤ guess * V := Nat.mul_le_mul_left _ (Nat.div_mul_le_self V p)

/-- A guess that passes the three-digit test is at most one too big. -/
theorem le_quot_succ_of_test (hp : 0 < p) (htop : 0 < V / (p * b))
    (hle : guess ≤ b) (hguess : guess * (V / (p * b)) + rest = W / (p * b))
    (htest : guess * (V / p % b) ≤ rest * b + W / p % b) : guess ≤ W / V + 1 := by
  have hlead : guess * (V / p) ≤ W / p := by
    rw [split_digit b p W, split_digit b p V, ← hguess]
    nlinarith
  have hbp : b * p ≤ V := by
    have := Nat.div_mul_le_self V (p * b)
    have h1 : 1 * (p * b) ≤ V / (p * b) * (p * b) := Nat.mul_le_mul_right _ htop
    rw [Nat.mul_comm b p]
    omega
  have hV : V ≤ V / p * p + p := by
    have := Nat.div_add_mod' V p
    have := Nat.mod_lt V hp
    omega
  have hmul : guess * V ≤ W + V := by
    calc guess * V ≤ guess * (V / p * p + p) := Nat.mul_le_mul_left _ hV
      _ = guess * (V / p) * p + guess * p := by ring
      _ ≤ W / p * p + b * p := Nat.add_le_add (Nat.mul_le_mul_right p hlead)
          (Nat.mul_le_mul_right p hle)
      _ ≤ W + V := Nat.add_le_add (Nat.div_mul_le_self W p) hbp
  have hdiv : guess ≤ (W + V) / V := (Nat.le_div_iff_mul_le (pos_of_top htop)).2 hmul
  rwa [Nat.add_div_right _ (pos_of_top htop)] at hdiv

/-- A guess whose rest passes the base is below the base. -/
theorem guess_lt_of_rest (hp : 0 < p) (hb : 0 < b) (hW : W < V * b)
    (hguess : guess * (V / (p * b)) + rest = W / (p * b)) (hrest : b ≤ rest) : guess < b := by
  have hlt := top_lt hp hb hW
  rw [← hguess] at hlt
  by_contra hge
  have : b * (V / (p * b)) ≤ guess * (V / (p * b)) :=
    Nat.mul_le_mul_right _ (Nat.le_of_not_lt hge)
  nlinarith

/-- A rest that has passed the base makes the test needless. -/
theorem le_quot_succ_of_passed (hp : 0 < p) (hb : 0 < b) (htop : 0 < V / (p * b)) (hle : guess ≤ b)
    (hguess : guess * (V / (p * b)) + rest = W / (p * b))
    (hpass : b ≤ rest ∨ guess * (V / p % b) ≤ rest * b + W / p % b) : guess ≤ W / V + 1 := by
  apply le_quot_succ_of_test hp htop hle hguess
  rcases hpass with hrest | htest
  · have hv2 := Nat.mod_lt (V / p) hb
    calc guess * (V / p % b) ≤ b * b := Nat.mul_le_mul hle hv2.le
      _ ≤ rest * b := Nat.mul_le_mul_right b hrest
      _ ≤ rest * b + W / p % b := Nat.le_add_right _ _
  · exact htest

/-! ## After the subtraction -/

/-- A guess that can be subtracted is the true digit. -/
theorem digit_of_exact {out : Nat} (hV : 0 < V) (hge : W / V ≤ guess) (h : W = out + guess * V) :
    guess = W / V ∧ out = W % V := by
  have hle : guess ≤ W / V := by
    rw [Nat.le_div_iff_mul_le hV]
    omega
  have heq : guess = W / V := Nat.le_antisymm hle hge
  have hdm := Nat.div_add_mod' W V
  rw [heq] at h
  exact ⟨heq, by omega⟩

/-- A guess that borrows is one too big, and adding the divisor back gives the rest. -/
theorem digit_of_borrow {M out : Nat} (hge : W / V ≤ guess) (hle : guess ≤ W / V + 1)
    (hout : out < M) (h : W + M = out + guess * V) :
    guess = W / V + 1 ∧ out + V = M + W % V := by
  have hdm := Nat.div_add_mod' W V
  have hne : guess ≠ W / V := by
    intro heq
    rw [heq] at h
    omega
  have heq : guess = W / V + 1 := by omega
  rw [heq, Nat.succ_mul] at h
  exact ⟨heq, by omega⟩

/-- A low part and a multiple are told apart. -/
theorem low_high_unique {a x y c : Nat} (hx : x < p) (hy : y < p) (h : x + p * a = y + p * c) :
    x = y ∧ a = c := by
  have hp : 0 < p := by omega
  have hdiv := congrArg (· / p) h
  simp only [Nat.add_mul_div_left _ _ hp, Nat.div_eq_of_lt hx, Nat.div_eq_of_lt hy,
    Nat.zero_add] at hdiv
  rw [hdiv] at h
  exact ⟨Nat.add_right_cancel h, hdiv⟩

end QuotientDigit

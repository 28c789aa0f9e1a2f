import Mathlib.Algebra.Order.Field.Rat
import Mathlib.Tactic.FieldSimp
import Mathlib.Algebra.Order.Ring.Nat
import Mathlib.Tactic.Ring
import Resid.Lib.Binary64
import Resid.Lib.Positional

/-!
# Numbers cut after some decimal digits

A row of digits, the most significant first, is what is left of a number cut after them.  With the
digit behind the cut and a word on what follows it the number is rounded, ties to even.

    Cut ds sticky y → halfEven (y / 10 ^ (ds.length - k)) is one of ds.take k and the next number
                                                                              (halfEven_of_cut)
-/

namespace DecimalCut

open Binary64 Positional

/-- The number that a row of digits spells. -/
def num (ds : List Nat) : Nat := ds.foldl (fun n d => n * 10 + d) 0

/-- `y` without its fraction is spelled by `ds`; `sticky` when there is one. -/
structure Cut (ds : List Nat) (sticky : Bool) (y : ℚ) : Prop where
  digits : IsDigits 10 ds
  le : (num ds : ℚ) ≤ y
  lt : y < num ds + 1
  sticky_iff : sticky = true ↔ (num ds : ℚ) < y

theorem foldl_num (ds : List Nat) (n : Nat) :
    ds.foldl (fun n d => n * 10 + d) n = n * 10 ^ ds.length + num ds := by
  induction ds generalizing n with
  | nil => simp [num]
  | cons d ds ih =>
    have hhead : num (d :: ds) = d * 10 ^ ds.length + num ds := by
      rw [num, List.foldl_cons, Nat.zero_mul, Nat.zero_add]
      exact ih d
    rw [List.foldl_cons, ih, hhead, List.length_cons]
    ring

@[simp] theorem num_nil : num [] = 0 := rfl

theorem num_append (as bs : List Nat) : num (as ++ bs) = num as * 10 ^ bs.length + num bs := by
  rw [num, List.foldl_append]
  exact foldl_num bs _

theorem num_cons (d : Nat) (ds : List Nat) : num (d :: ds) = d * 10 ^ ds.length + num ds :=
  (num_append [d] ds).trans (by simp [num])

theorem num_concat (ds : List Nat) (d : Nat) : num (ds ++ [d]) = num ds * 10 + d := by
  simp [num]

@[simp] theorem num_zeros (k : Nat) : num (List.replicate k 0) = 0 := by
  induction k with
  | zero => rfl
  | succ k ih => rw [List.replicate_succ, num_cons, ih, Nat.zero_mul]

theorem num_lt {ds : List Nat} (h : IsDigits 10 ds) : num ds < 10 ^ ds.length := by
  induction ds with
  | nil => exact Nat.one_pos
  | cons d ds ih =>
    obtain ⟨hd, hds⟩ := h.of_cons
    have := ih hds
    rw [num_cons, List.length_cons, Nat.pow_succ]
    calc d * 10 ^ ds.length + num ds < d * 10 ^ ds.length + 10 ^ ds.length := by omega
      _ = (d + 1) * 10 ^ ds.length := by ring
      _ ≤ 10 * 10 ^ ds.length := Nat.mul_le_mul_right _ (by omega)
      _ = 10 ^ ds.length * 10 := Nat.mul_comm _ _

theorem num_reverse (ds : List Nat) : num ds.reverse = Nat.ofDigits 10 ds := by
  induction ds with
  | nil => rfl
  | cons d ds ih =>
    rw [List.reverse_cons, num_concat, ih, Nat.ofDigits_cons]
    ring

theorem num_eq_zero {ds : List Nat} : num ds = 0 ↔ ∀ d ∈ ds, d = 0 := by
  induction ds with
  | nil => simp
  | cons d ds ih =>
    have hpos : 0 < 10 ^ ds.length := Nat.pow_pos (by decide)
    rw [num_cons, List.forall_mem_cons, ← ih, Nat.add_eq_zero_iff, Nat.mul_eq_zero]
    constructor
    · rintro ⟨h | h, h'⟩
      · exact ⟨h, h'⟩
      · omega
    · rintro ⟨h, h'⟩
      exact ⟨.inl h, h'⟩

/-- What is cut off is less than one. -/
theorem Cut.of_add {ds : List Nat} {sticky : Bool} {δ y : ℚ} (hd : IsDigits 10 ds) (h0 : 0 ≤ δ)
    (h1 : δ < 1) (hs : sticky = true ↔ 0 < δ) (hy : y = num ds + δ) : Cut ds sticky y := by
  refine ⟨hd, ?_, ?_, ?_⟩
  · rw [hy]
    exact le_add_of_nonneg_right h0
  · rw [hy]
    exact add_lt_add_right h1 _
  · rw [hy, hs]
    exact lt_add_iff_pos_right _ |>.symm

/-! ## Rounding at a digit -/

/-- The digit behind `K` and what follows it decide. -/
theorem halfEven_digit {K rd : Nat} {ρ y : ℚ} (hrd : rd < 10) (h0 : 0 ≤ ρ) (h1 : ρ < 1)
    (hy : y = K + (rd + ρ) / 10) :
    halfEven y = if 5 < rd ∨ (rd = 5 ∧ (0 < ρ ∨ K % 2 = 1)) then (K : ℤ) + 1 else K := by
  have hrdq : (rd : ℚ) ≤ 9 := by exact_mod_cast Nat.le_of_lt_succ hrd
  have hfloor : ⌊y⌋ = (K : ℤ) := by
    rw [Int.floor_eq_iff]
    push_cast
    constructor <;> rw [hy] <;> linarith
  have hfrac : y - (⌊y⌋ : ℚ) = (rd + ρ) / 10 := by
    rw [hfloor, hy]
    push_cast
    ring
  unfold halfEven
  rw [hfrac, hfloor]
  rcases Nat.lt_trichotomy rd 5 with hlt | heq | hgt
  · have hle : (rd : ℚ) ≤ 4 := by exact_mod_cast Nat.le_of_lt_succ hlt
    rw [if_pos (by linarith), if_neg (by omega)]
  · subst heq
    rw [if_neg (by push_cast; linarith)]
    by_cases hρ : 0 < ρ
    · rw [if_pos (by push_cast; linarith), if_pos (Or.inr ⟨rfl, Or.inl hρ⟩)]
    · rw [if_neg (by push_cast; linarith)]
      by_cases hodd : K % 2 = 1
      · rw [if_neg (by omega), if_pos (Or.inr ⟨rfl, Or.inr hodd⟩)]
      · rw [if_pos (by omega), if_neg]
        rintro (h | ⟨-, h | h⟩)
        · omega
        · exact hρ h
        · exact hodd h
  · have hge : (6 : ℚ) ≤ rd := by exact_mod_cast hgt
    rw [if_neg (by linarith), if_pos (by linarith), if_pos (Or.inl hgt)]

/-- A number cut behind the digit where it is rounded. -/
theorem halfEven_of_cut {ks rest : List Nat} {rd : Nat} {sticky : Bool} {y : ℚ}
    (h : Cut (ks ++ rd :: rest) sticky y) :
    halfEven (y / 10 ^ (rest.length + 1)) =
      if 5 < rd ∨ (rd = 5 ∧ ((sticky = true ∨ ∃ d ∈ rest, d ≠ 0) ∨ num ks % 2 = 1)) then
        (num ks : ℤ) + 1
      else num ks := by
  have hpow : (0 : ℚ) < 10 ^ rest.length := by positivity
  have hdigits := h.digits
  have hrd : rd < 10 := hdigits rd (by simp)
  have hrest : IsDigits 10 rest := fun d hd => hdigits d (by simp [hd])
  have hnum : (num (ks ++ rd :: rest) : ℚ) =
      (num ks * 10 + rd) * 10 ^ rest.length + num rest := by
    rw [num_append, num_cons, List.length_cons]
    push_cast
    ring
  have hle := h.le
  have hlt := h.lt
  have hsticky := h.sticky_iff
  rw [hnum] at hle hlt hsticky
  obtain ⟨ρ, hρ⟩ : ∃ ρ, ρ = (y - (num ks * 10 + rd) * 10 ^ rest.length) / 10 ^ rest.length :=
    ⟨_, rfl⟩
  have hmul : ρ * 10 ^ rest.length = y - (num ks * 10 + rd) * 10 ^ rest.length := by
    rw [hρ, div_mul_cancel₀ _ hpow.ne']
  have hrestlt : (num rest : ℚ) + 1 ≤ 10 ^ rest.length := by exact_mod_cast num_lt hrest
  have h0 : 0 ≤ ρ := by
    rw [hρ]
    exact div_nonneg (by linarith) hpow.le
  have h1 : ρ < 1 := by
    rw [hρ, div_lt_one hpow]
    linarith
  have hy : y / 10 ^ (rest.length + 1) = num ks + (rd + ρ) / 10 := by
    have : y = (num ks * 10 + rd + ρ) * 10 ^ rest.length := by linarith
    rw [this, pow_succ]
    field_simp
    ring
  have hpos : 0 < ρ ↔ (sticky = true ∨ ∃ d ∈ rest, d ≠ 0) := by
    have hzero : (∃ d ∈ rest, d ≠ 0) ↔ 0 < num rest := by
      rw [Nat.pos_iff_ne_zero, ne_eq, num_eq_zero]
      push Not
      rfl
    rw [hzero, hsticky, hρ, div_pos_iff_of_pos_right hpow, sub_pos]
    constructor
    · intro hlt'
      by_cases hz : 0 < num rest
      · exact Or.inr hz
      · have hz0 : num rest = 0 := by omega
        rw [hz0, Nat.cast_zero, add_zero]
        exact Or.inl hlt'
    · rintro (hlt' | hz)
      · linarith
      · have : (0 : ℚ) < num rest := by exact_mod_cast hz
        linarith
  exact (halfEven_digit hrd h0 h1 hy).trans (if_congr (by rw [hpos]) rfl rfl)

end DecimalCut

/-!
## Powers of ten against powers of two

An estimate of the logarithm, 30103 / 100000, turns a number of bits into a number of digits.

    2^n < 10^(n * 30103 / 100000 + 1)                                (two_pow_lt)
    n ≤ 100000 → 10^(n * 30103 / 100000) ≤ 2^(n + 1)                 (ten_pow_le)
-/

namespace PowersOfTen

/-- How some large powers compare; the first two give the estimate. -/
structure Comparisons : Prop where
  two_100000 : 2 ^ 100000 < 10 ^ 30103
  ten_30103 : 10 ^ 30103 ≤ 2 ^ (100000 + 1)
  ten_800 : 10 ^ 800 ≤ 2 ^ 2658
  ten_1130 : 10 ^ 800 * 10 ^ 330 ≤ 2 ^ (32 * 128)
  ten_1152 : 10 ^ 1152 < 2 ^ 3827
  two_1024 : 2 ^ 1024 ≤ 10 ^ 330
  two_1075 : 2 * 2 ^ 1074 < 10 ^ 351
  two_2654 : 2 ^ 2654 ≤ 10 ^ 799
  five_1074 : 2 ^ 53 * 5 ^ 1074 ≤ 10 ^ 799
  ten_1074 : 10 ^ 1074 ≤ 10 ^ 799 * 2 ^ 1022

theorem comparisons : Comparisons := by
  have h : (2 ^ 100000 < 10 ^ 30103 ∧ 10 ^ 30103 ≤ 2 ^ (100000 + 1)) ∧
      (10 ^ 800 ≤ 2 ^ 2658 ∧ 10 ^ 800 * 10 ^ 330 ≤ 2 ^ (32 * 128) ∧ 10 ^ 1152 < 2 ^ 3827) ∧
      (2 ^ 1024 ≤ 10 ^ 330 ∧ 2 * 2 ^ 1074 < 10 ^ 351 ∧ 2 ^ 2654 ≤ 10 ^ 799) ∧
      2 ^ 53 * 5 ^ 1074 ≤ 10 ^ 799 ∧ 10 ^ 1074 ≤ 10 ^ 799 * 2 ^ 1022 := by decide +kernel
  obtain ⟨⟨h1, h2⟩, ⟨h3, h4, h5⟩, ⟨h6, h7, h8⟩, h9, h10⟩ := h
  exact ⟨h1, h2, h3, h4, h5, h6, h7, h8, h9, h10⟩

theorem two_pow_lt_ten_pow {u v : Nat} (h : 2 ^ u < 10 ^ v) (hu : u ≠ 0) (n : Nat) :
    2 ^ n < 10 ^ (n * v / u + 1) := by
  have hlt : n * v < u * (n * v / u + 1) := Nat.lt_mul_div_succ _ (Nat.pos_of_ne_zero hu)
  apply lt_of_pow_lt_pow_left₀ u (Nat.zero_le _)
  calc (2 ^ n) ^ u = (2 ^ u) ^ n := by rw [← Nat.pow_mul, ← Nat.pow_mul, Nat.mul_comm]
    _ ≤ (10 ^ v) ^ n := Nat.pow_le_pow_left h.le n
    _ = 10 ^ (n * v) := by rw [← Nat.pow_mul, Nat.mul_comm]
    _ < 10 ^ (u * (n * v / u + 1)) := Nat.pow_lt_pow_right (by decide) hlt
    _ = (10 ^ (n * v / u + 1)) ^ u := by rw [← Nat.pow_mul, Nat.mul_comm]

theorem ten_pow_le_two_pow {u v : Nat} (h : 10 ^ v ≤ 2 ^ (u + 1)) (hu : u ≠ 0) {n : Nat} (hn : n ≤ u) :
    10 ^ (n * v / u) ≤ 2 ^ (n + 1) := by
  apply le_of_pow_le_pow_left₀ hu (Nat.zero_le _)
  have hexp : (u + 1) * n ≤ (n + 1) * u := by
    rw [Nat.succ_mul, Nat.succ_mul, Nat.mul_comm]
    omega
  calc (10 ^ (n * v / u)) ^ u = 10 ^ (n * v / u * u) := (Nat.pow_mul _ _ _).symm
    _ ≤ 10 ^ (n * v) := Nat.pow_le_pow_right (by decide) (Nat.div_mul_le_self _ _)
    _ = (10 ^ v) ^ n := by rw [← Nat.pow_mul, Nat.mul_comm]
    _ ≤ (2 ^ (u + 1)) ^ n := Nat.pow_le_pow_left h n
    _ = 2 ^ ((u + 1) * n) := (Nat.pow_mul _ _ _).symm
    _ ≤ 2 ^ ((n + 1) * u) := Nat.pow_le_pow_right (by decide) hexp
    _ = (2 ^ (n + 1)) ^ u := Nat.pow_mul _ _ _

theorem two_pow_lt (n : Nat) : 2 ^ n < 10 ^ (n * 30103 / 100000 + 1) :=
  two_pow_lt_ten_pow comparisons.two_100000 (by decide) n

theorem ten_pow_le {n : Nat} (hn : n ≤ 100000) : 10 ^ (n * 30103 / 100000) ≤ 2 ^ (n + 1) :=
  ten_pow_le_two_pow comparisons.ten_30103 (by decide) hn

end PowersOfTen

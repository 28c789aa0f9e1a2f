import Mathlib.Data.Nat.Size
import Resid.Lib.FixedWidth
import Resid.Lib.Loops
import Resid.Lib.Positional

/-!
# Limb lists: normal form, comparison, bits and shifts

The model of the first half of `lib/bignum.resid`.  A natural number is a list of
64-bit limbs, least significant first, with no zero limb at the top.  Indexes and
lengths are natural numbers (a list's length is below `2 ^ 63`), an index outside a
list and a checked operation that overflows are `none`, and a loop that counts an index
`i` down to `-1` recurs on `i + 1`.

    val (limbs x) = x,   Norm l → limbs (val l) = l
    bnTrim l = some (limbs (val l))                                 (bnTrim_eq)
    bnCmp (limbs x) (limbs y) = some (-1, 0 or 1)                   (bnCmp_limbs)
    bnShl (limbs x) n = some (limbs (x * 2 ^ n))                    (bnShl_limbs)
    bnShr (limbs x) n = some (limbs (x / 2 ^ n))                    (bnShr_limbs)
-/

namespace Bignum

open FixedWidth Positional Loops

/-! ## Algorithm -/

def bnBase : Nat := 18446744073709551616

/-- The number of nonzero-topped limbs among the lowest `n`. -/
def bnTop (x : List Nat) : Nat → Option Nat
  | 0 => some 0
  | n + 1 => do
    let d ← x[n]?
    if d ≠ 0 then some (n + 1) else bnTop x n

def bnTake (x : List Nat) (n i : Nat) (acc : List Nat) : Option (List Nat) :=
  pushFrom (fun i => x[i]?) n i acc

def bnTrim (x : List Nat) : Option (List Nat) := do
  let n ← bnTop x x.length
  if n = x.length then some x else bnTake x n 0 []

def bnFromU64 (v : Nat) : List Nat := if v = 0 then [] else [v]

def bnIsOdd (x : List Nat) : Bool := 0 < x.length && x.getD 0 0 &&& 1 == 1

/-- Compare the `i` lowest limbs, from the top. -/
def bnCmpAt (a b : List Nat) : Nat → Option Int
  | 0 => some 0
  | i + 1 => do
    let d ← a[i]?
    let e ← b[i]?
    if d ≠ e then some (if d < e then -1 else 1) else bnCmpAt a b i

def bnCmp (a b : List Nat) : Option Int :=
  if a.length ≠ b.length then some (if a.length < b.length then -1 else 1)
  else bnCmpAt a b a.length

def bnLimbBits (v n : Nat) : Nat := if v = 0 then n else bnLimbBits (shr v 1) (n + 1)
termination_by v
decreasing_by exact Nat.div_lt_self (by omega) (by decide)

def bnBitLen (x : List Nat) : Option Nat :=
  if x.length = 0 then some 0
  else do
    let top ← x[x.length - 1]?
    some ((x.length - 1) * 64 + bnLimbBits top 0)

def bnBit (x : List Nat) (i : Nat) : Option Nat :=
  if i / 64 ≥ x.length then some 0
  else do
    let d ← x[i / 64]?
    some (shr d (i % 64) &&& 1)

/-- Limb `i`, zero outside the list. -/
def bnGet (x : List Nat) (i : Int) : Nat :=
  if i < 0 ∨ i ≥ x.length then 0 else x.getD i.toNat 0

def bnShlAt (x : List Nat) (limbs bits i total : Nat) (acc : List Nat) : Option (List Nat) :=
  pushFrom (fun i =>
    let cur := bnGet x (i - limbs)
    let lower := bnGet x (i - limbs - 1)
    some (if bits = 0 then cur else shlLow 64 cur bits ||| shr lower (64 - bits))) total i acc

def bnShl (x : List Nat) (n : Nat) : Option (List Nat) :=
  if x.length = 0 then some []
  else do
    let limbs := n / 64
    let bits := n % 64
    bnTrim (← bnShlAt x limbs bits 0 (x.length + limbs + 1) [])

def bnShrAt (x : List Nat) (limbs bits i total : Nat) (acc : List Nat) : Option (List Nat) :=
  pushFrom (fun i =>
    let cur := bnGet x (i + limbs)
    let upper := bnGet x (i + limbs + 1)
    some (if bits = 0 then cur else shr cur bits ||| shlLow 64 upper (64 - bits))) total i acc

def bnShr (x : List Nat) (n : Nat) : Option (List Nat) := do
  let limbs := n / 64
  let bits := n % 64
  if limbs ≥ x.length then some []
  else bnTrim (← bnShrAt x limbs bits 0 (x.length - limbs) [])

/-! ## Values and normal lists -/

/-- The natural number a limb list denotes. -/
def val (l : List Nat) : Nat := Nat.ofDigits bnBase l

/-- The normalized limb list of a natural number. -/
def limbs (n : Nat) : List Nat := Nat.digits bnBase n

abbrev Norm (l : List Nat) : Prop := Normal bnBase l

theorem bnBase_eq : bnBase = 2 ^ 64 := by norm_num [bnBase]

theorem one_lt_bnBase : 1 < bnBase := by norm_num [bnBase]

theorem bnBase_pos : 0 < bnBase := by norm_num [bnBase]

theorem bnBase_pow (i : Nat) : bnBase ^ i = 2 ^ (64 * i) := by rw [bnBase_eq, Nat.pow_mul]

@[simp] theorem val_limbs (n : Nat) : val (limbs n) = n := Nat.ofDigits_digits _ n

theorem norm_limbs (n : Nat) : Norm (limbs n) := normal_digits one_lt_bnBase n

variable {l : List Nat} {k n x : Nat}

theorem Norm.limbs_val (h : Norm l) : limbs (val l) = l :=
  h.digits_eq one_lt_bnBase

theorem isDigits_limbs (n : Nat) : IsDigits bnBase (limbs n) := (norm_limbs n).digits

@[simp] theorem limbs_zero : limbs 0 = [] := Nat.digits_zero _

theorem limbs_eq_nil : limbs n = [] ↔ n = 0 := digits_eq_nil

theorem length_limbs_eq_zero : (limbs n).length = 0 ↔ n = 0 := by
  rw [List.length_eq_zero_iff, limbs_eq_nil]

theorem limbs_of_lt (h0 : n ≠ 0) (h : n < bnBase) : limbs n = [n] :=
  Nat.digits_of_lt _ _ h0 h

theorem lt_pow_length (n : Nat) : n < bnBase ^ (limbs n).length :=
  Nat.lt_base_pow_length_digits one_lt_bnBase

theorem length_limbs_le (h : n < bnBase ^ k) : (limbs n).length ≤ k :=
  length_digits_le one_lt_bnBase h

theorem lt_length_limbs (h : bnBase ^ k ≤ n) : k < (limbs n).length := by
  by_contra hle
  have := Nat.pow_le_pow_right bnBase_pos (Nat.le_of_not_lt hle)
  have := lt_pow_length n
  omega

theorem pow_le_of_length {j : Nat} (h : (limbs n).length = j + 1) : bnBase ^ j ≤ n := by
  by_contra hlt
  have := length_limbs_le (Nat.lt_of_not_le hlt)
  omega

theorem getElem?_limbs {i : Nat} (hi : i < (limbs n).length) :
    (limbs n)[i]? = some (digit bnBase n i) := getElem?_digits one_lt_bnBase hi

theorem digit_lt_bnBase (x i : Nat) : digit bnBase x i < bnBase := digit_lt bnBase_pos x i

theorem digit_lt_two_pow (x i : Nat) : digit bnBase x i < 2 ^ 64 := by
  exact digit_lt_bnBase x i

@[simp] theorem bnGet_natCast (n i : Nat) : bnGet (limbs n) i = digit bnBase n i := by
  unfold bnGet
  by_cases hi : i < (limbs n).length
  · rw [if_neg (by omega), Int.toNat_natCast, getD_eq_digit one_lt_bnBase (isDigits_limbs n)]
    exact congrArg (· / bnBase ^ i % bnBase) (val_limbs n)
  · rw [if_pos (by omega), digit_eq_zero]
    exact lt_of_lt_of_le (lt_pow_length n)
      (Nat.pow_le_pow_right bnBase_pos (by omega))

theorem bnGet_neg (x : List Nat) {i : Int} (h : i < 0) : bnGet x i = 0 := if_pos (Or.inl h)

/-- A table of low digits of a number with no more digits trims to its numeral. -/
theorem val_table (h : x < bnBase ^ n) : val (table (digit bnBase x) n) = x :=
  ofDigits_lowDigits_of_lt h

theorem isDigits_table (x n : Nat) : IsDigits bnBase (table (digit bnBase x) n) :=
  isDigits_lowDigits bnBase_pos x n

/-! ## Trimming -/

theorem bnTop_spec (l : List Nat) :
    ∀ n, n ≤ l.length → ∃ k, bnTop l n = some k ∧ k ≤ n ∧
      (∀ i, k ≤ i → i < n → l.getD i 0 = 0) ∧ (∀ j, k = j + 1 → l.getD j 0 ≠ 0) := by
  intro n
  induction n with
  | zero => exact fun _ => ⟨0, rfl, Nat.le_refl 0, fun i _ hi => absurd hi (by omega),
      fun j hj => absurd hj (by omega)⟩
  | succ n ih =>
    intro hn
    have hget : l[n]? = some (l.getD n 0) := by
      rw [List.getD_eq_getElem _ _ (by omega), List.getElem?_eq_getElem (by omega)]
    rw [bnTop, hget, Option.bind_eq_bind, Option.bind_some]
    by_cases hz : l.getD n 0 = 0
    · obtain ⟨k, hk, hkn, hzero, htop⟩ := ih (by omega)
      refine ⟨k, by rw [if_neg (by simpa using hz), hk], by omega, fun i hi hin => ?_, htop⟩
      rcases Nat.lt_succ_iff_lt_or_eq.1 hin with h | h
      · exact hzero i hi h
      · rw [h, hz]
    · refine ⟨n + 1, if_pos hz, Nat.le_refl _, fun i hi hin => by omega, fun j hj => ?_⟩
      obtain rfl : n = j := by omega
      exact hz

theorem bnTake_eq (hk : k ≤ l.length) : bnTake l k 0 [] = some (l.take k) := pushFrom_take hk

/-- Trimming normalizes any list of limbs and keeps its value. -/
theorem bnTrim_eq (hl : IsDigits bnBase l) : bnTrim l = some (limbs (val l)) := by
  obtain ⟨k, hk, hkn, hzero, htop⟩ := bnTop_spec l l.length (Nat.le_refl _)
  have htake : l.take k = limbs (val l) := by
    refine digits_ofDigits_take one_lt_bnBase hl hkn (fun i hi => ?_) htop
    by_cases h : i < l.length
    · exact hzero i hi h
    · exact List.getD_eq_default _ _ (by omega)
  rw [bnTrim, hk, Option.bind_eq_bind, Option.bind_some]
  split
  · rename_i h
    rw [← htake, h, List.take_length]
  · rw [bnTake_eq hkn, htake]

theorem bnTrim_table (h : x < bnBase ^ n) : bnTrim (table (digit bnBase x) n) = some (limbs x) := by
  rw [bnTrim_eq (isDigits_table x n), val_table h]

theorem bnFromU64_eq {v : Nat} (h : v < bnBase) : bnFromU64 v = limbs v := by
  unfold bnFromU64
  split
  · rename_i h0
    rw [h0, limbs_zero]
  · rename_i h0
    rw [limbs_of_lt h0 h]

theorem bnIsOdd_limbs (x : Nat) : bnIsOdd (limbs x) = (x % 2 == 1) := by
  have hget : (limbs x).getD 0 0 = x % bnBase := by
    rw [getD_eq_digit one_lt_bnBase (isDigits_limbs x), pow_zero, Nat.div_one]
    exact congrArg (· % bnBase) (val_limbs x)
  have hand : x % bnBase &&& 1 = x % 2 := by
    rw [Nat.and_one_is_mod, bnBase_eq, Nat.mod_mod_of_dvd _ (by norm_num)]
  unfold bnIsOdd
  rw [hget, hand]
  by_cases h0 : x = 0
  · simp [h0]
  · have : 0 < (limbs x).length := Nat.pos_of_ne_zero fun h => h0 (length_limbs_eq_zero.1 h)
    simp [this]

/-! ## Comparison -/

/-- -1, 0 or 1 as `x` is below, equal to or above `y`. -/
def order (x y : Nat) : Int := if x < y then -1 else if x = y then 0 else 1

theorem order_nonneg {y : Nat} : 0 ≤ order x y ↔ y ≤ x := by
  unfold order
  split <;> [skip; split] <;> omega

theorem order_neg {y : Nat} : order x y < 0 ↔ x < y := by
  have := order_nonneg (x := x) (y := y)
  omega

/-- The lowest `i` limbs of two lists compare as the numbers they denote. -/
theorem bnCmpAt_limbs (x y : Nat) :
    ∀ i, i ≤ (limbs x).length → i ≤ (limbs y).length →
      bnCmpAt (limbs x) (limbs y) i = some (order (x % bnBase ^ i) (y % bnBase ^ i)) := by
  intro i
  induction i with
  | zero => simp [bnCmpAt, order, Nat.mod_one]
  | succ i ih =>
    intro hx hy
    simp only [bnCmpAt, getElem?_limbs (Nat.lt_of_succ_le hx), getElem?_limbs (Nat.lt_of_succ_le hy),
      Option.bind_eq_bind, Option.bind_some]
    rw [ih (by omega) (by omega), mod_pow_succ_digit, mod_pow_succ_digit]
    have hp : 0 < bnBase ^ i := Nat.pow_pos bnBase_pos
    have hxm := Nat.mod_lt x hp
    have hym := Nat.mod_lt y hp
    generalize digit bnBase x i = d
    generalize digit bnBase y i = e
    generalize bnBase ^ i = p at *
    -- the higher digit decides unless the two are equal
    rcases Nat.lt_trichotomy d e with h | rfl | h
    · have : p * (d + 1) ≤ p * e := Nat.mul_le_mul_left p h
      rw [Nat.mul_succ] at this
      rw [if_pos (by omega), if_pos h, order, if_pos (by omega)]
    · rw [if_neg (by omega)]
      unfold order
      simp
    · have : p * (e + 1) ≤ p * d := Nat.mul_le_mul_left p h
      rw [Nat.mul_succ] at this
      rw [if_pos (by omega), if_neg (by omega), order, if_neg (by omega), if_neg (by omega)]

theorem bnCmp_limbs (x y : Nat) : bnCmp (limbs x) (limbs y) = some (order x y) := by
  have hx := lt_pow_length x
  have hy := lt_pow_length y
  unfold bnCmp
  by_cases h : (limbs x).length = (limbs y).length
  · rw [if_neg (by omega), bnCmpAt_limbs x y _ (Nat.le_refl _) (by omega), Nat.mod_eq_of_lt hx,
      Nat.mod_eq_of_lt (h ▸ hy)]
  · rw [if_pos h]
    -- the longer list denotes the larger number
    have key : ∀ {u v : Nat}, (limbs u).length < (limbs v).length → u < v := by
      intro u v hlt
      obtain ⟨j, hj⟩ : ∃ j, (limbs v).length = j + 1 := ⟨(limbs v).length - 1, by omega⟩
      calc u < bnBase ^ (limbs u).length := lt_pow_length u
        _ ≤ bnBase ^ j := Nat.pow_le_pow_right bnBase_pos (by omega)
        _ ≤ v := pow_le_of_length hj
    rcases Nat.lt_or_gt_of_ne h with h1 | h1
    · rw [if_pos h1, order, if_pos (key h1)]
    · have := key h1
      rw [if_neg (by omega), order, if_neg (by omega), if_neg (by omega)]

/-! ## Bits -/

theorem bnLimbBits_eq (v n : Nat) : bnLimbBits v n = n + Nat.size v := by
  induction v using Nat.strongRecOn generalizing n with
  | _ v ih =>
    rw [bnLimbBits]
    by_cases h0 : v = 0
    · simp [h0]
    · rw [if_neg h0, ih (shr v 1) (Nat.div_lt_self (by omega) (by decide))]
      have hs : Nat.size v = Nat.size (shr v 1) + 1 := by
        have hb := Nat.bit_bodd_div2 v
        have hz : Nat.bit v.bodd v.div2 ≠ 0 := by rwa [hb]
        have := Nat.size_bit hz
        rwa [hb, Nat.div2_val] at this
      omega

/-- A number between two powers of the base has its length and its top limb's bits. -/
theorem size_eq_of_top {j : Nat} (hj : (limbs x).length = j + 1) :
    Nat.size x = j * 64 + Nat.size (digit bnBase x j) := by
  have hlt := lt_pow_length x
  have hge := pow_le_of_length hj
  rw [hj] at hlt
  have hp : 0 < bnBase ^ j := Nat.pow_pos bnBase_pos
  have hdig : digit bnBase x j = x / bnBase ^ j :=
    Nat.mod_eq_of_lt (Nat.div_lt_of_lt_mul (by rwa [← pow_succ]))
  have hpos : 0 < x / bnBase ^ j := Nat.div_pos hge hp
  rw [hdig]
  obtain ⟨s, hs⟩ : ∃ s, Nat.size (x / bnBase ^ j) = s + 1 :=
    ⟨_, (Nat.succ_pred (Nat.ne_of_gt (Nat.size_pos.2 hpos))).symm⟩
  have hup : x / bnBase ^ j < 2 ^ (s + 1) := hs ▸ Nat.lt_size_self _
  have hlow : 2 ^ s ≤ x / bnBase ^ j := Nat.lt_size.1 (by omega)
  rw [hs]
  rw [bnBase_pow] at hup hlow hp
  apply Nat.le_antisymm
  · rw [Nat.size_le, Nat.mul_comm j, pow_add]
    exact (Nat.div_lt_iff_lt_mul hp).1 hup |>.trans_eq (Nat.mul_comm _ _)
  · rw [← Nat.add_assoc, Nat.succ_le_iff, Nat.lt_size, Nat.mul_comm j, pow_add, Nat.mul_comm]
    exact (Nat.le_div_iff_mul_le hp).1 hlow

theorem bnBitLen_limbs (x : Nat) : bnBitLen (limbs x) = some (Nat.size x) := by
  unfold bnBitLen
  by_cases h0 : (limbs x).length = 0
  · rw [if_pos h0, length_limbs_eq_zero.1 h0, Nat.size_zero]
  · obtain ⟨j, hj⟩ : ∃ j, (limbs x).length = j + 1 := ⟨(limbs x).length - 1, by omega⟩
    rw [if_neg h0, hj, Nat.add_sub_cancel, getElem?_limbs (by omega), Option.bind_eq_bind,
      Option.bind_some, bnLimbBits_eq, Nat.zero_add, size_eq_of_top hj]

theorem bnBit_limbs (x i : Nat) : bnBit (limbs x) i = some (x / 2 ^ i % 2) := by
  unfold bnBit
  by_cases h : i / 64 ≥ (limbs x).length
  · have hlt : x < 2 ^ i := by
      refine lt_of_lt_of_le (lt_pow_length x) ?_
      rw [bnBase_pow]
      exact Nat.pow_le_pow_right (by decide) (by omega)
    rw [if_pos h, Nat.div_eq_of_lt hlt, Nat.zero_mod]
  · have hbit := digit_of_digit_pow (c := 2) (m := 64) (by decide) x i
    rw [if_neg h, getElem?_limbs (by omega), Option.bind_eq_bind, Option.bind_some, shr,
      Nat.and_one_is_mod, bnBase_eq, hbit, digit]

/-! ## Shifts -/

/-- The 64 bits of `x` from bit `64 q + s` on, put together from two limbs. -/
theorem digit_window (x q : Nat) {s : Nat} (hs : 0 < s) (hs' : s < 64) :
    x / 2 ^ (64 * q + s) % 2 ^ 64 =
      shlLow 64 (digit bnBase x (q + 1)) (64 - s) ||| shr (digit bnBase x q) s := by
  have hB : (2 : Nat) ^ 64 = 2 ^ (64 - s) * 2 ^ s := by
    rw [← pow_add]
    congr 1
    omega
  have hsplit := Nat.mod_add_div (x / bnBase ^ q) bnBase
  rw [Nat.div_div_eq_div_mul, ← pow_succ] at hsplit
  have hlow : shr (digit bnBase x q) s < 2 ^ (64 - s) :=
    Nat.div_lt_of_lt_mul (by rw [Nat.mul_comm, ← hB]; exact digit_lt_two_pow x q)
  have hhigh : shlLow 64 (digit bnBase x (q + 1)) (64 - s) =
      x / bnBase ^ (q + 1) % 2 ^ s * 2 ^ (64 - s) := by
    rw [shlLow, digit, bnBase_eq, Nat.mod_mul_mod, hB, Nat.mul_comm (2 ^ (64 - s)),
      Nat.mul_mod_mul_right]
  have hwin : x / 2 ^ (64 * q + s) =
      shr (digit bnBase x q) s + 2 ^ (64 - s) * (x / bnBase ^ (q + 1)) := by
    rw [pow_add, ← bnBase_pow, ← Nat.div_div_eq_div_mul, ← hsplit, bnBase_eq, hB,
      Nat.mul_comm (2 ^ (64 - s)), Nat.mul_assoc, Nat.add_mul_div_left _ _ (Nat.two_pow_pos s)]
    rfl
  rw [hhigh, shl_or_eq_add _ hlow, hwin, hB, Nat.mod_mul, Nat.add_mul_mod_self_left,
    Nat.mod_eq_of_lt hlow, Nat.add_mul_div_left _ _ (Nat.two_pow_pos _), Nat.div_eq_of_lt hlow,
    Nat.zero_add, Nat.add_comm, Nat.mul_comm (2 ^ (64 - s))]

/-- Limb `i` of `x * 2 ^ n` as the loop of `bn_shl` reads it. -/
theorem digit_shl (x n i : Nat) :
    digit bnBase (x * 2 ^ n) i =
      if n % 64 = 0 then bnGet (limbs x) ((i : Int) - (n / 64 : Nat))
      else shlLow 64 (bnGet (limbs x) ((i : Int) - (n / 64 : Nat))) (n % 64) |||
        shr (bnGet (limbs x) ((i : Int) - (n / 64 : Nat) - 1)) (64 - n % 64) := by
  have hn := Nat.div_add_mod n 64
  have hs := Nat.mod_lt n (show 0 < 64 by decide)
  generalize n / 64 = q at *
  generalize n % 64 = s at *
  rw [digit, bnBase_pow, bnBase_eq]
  rcases Nat.lt_trichotomy i q with h | rfl | h
  · -- below the shift every limb is zero
    have hz : x * 2 ^ n / 2 ^ (64 * i) % 2 ^ 64 = 0 := by
      have hexp : n = 64 * i + 64 + (n - 64 * i - 64) := by omega
      rw [hexp, pow_add, pow_add, Nat.mul_comm x, Nat.mul_assoc, Nat.mul_assoc,
        Nat.mul_div_cancel_left _ (Nat.two_pow_pos _), Nat.mul_mod_right]
    rw [hz, bnGet_neg _ (by omega), bnGet_neg _ (by omega)]
    simp [shlLow, shr]
  · have hx : x * 2 ^ n / 2 ^ (64 * i) = x * 2 ^ s := by
      rw [← hn, pow_add, Nat.mul_left_comm, Nat.mul_div_cancel_left _ (Nat.two_pow_pos _)]
    rw [hx, Int.sub_self, bnGet_neg _ (show (0 : Int) - 1 < 0 by decide)]
    have hget : bnGet (limbs x) 0 = x % 2 ^ 64 := by
      have := bnGet_natCast x 0
      rw [digit, pow_zero, Nat.div_one, bnBase_eq] at this
      exact this
    rw [hget]
    split
    · rename_i h0
      rw [h0, pow_zero, Nat.mul_one]
    · simp [shlLow, shr]
  · obtain ⟨t, rfl⟩ : ∃ t, i = q + (t + 1) := ⟨i - q - 1, by omega⟩
    have h1 : ((q + (t + 1) : Nat) : Int) - (q : Nat) = ((t + 1 : Nat) : Int) := by omega
    have h2 : ((q + (t + 1) : Nat) : Int) - (q : Nat) - 1 = (t : Nat) := by omega
    rw [h2, h1, bnGet_natCast, bnGet_natCast]
    have hx : x * 2 ^ n / 2 ^ (64 * (q + (t + 1))) = x / 2 ^ (64 * t + (64 - s)) := by
      have hexp : 64 * (q + (t + 1)) = n + (64 * t + (64 - s)) := by omega
      rw [hexp, pow_add, ← Nat.div_div_eq_div_mul, Nat.mul_div_cancel _ (Nat.two_pow_pos _)]
    rw [hx]
    split
    · rename_i h0
      rw [h0, digit, bnBase_pow, bnBase_eq]
      rfl
    · have hwin := digit_window x t (show 0 < 64 - s by omega) (show 64 - s < 64 by omega)
      rwa [show 64 - (64 - s) = s by omega] at hwin

theorem bnShl_limbs (x n : Nat) : bnShl (limbs x) n = some (limbs (x * 2 ^ n)) := by
  unfold bnShl
  by_cases h0 : (limbs x).length = 0
  · rw [if_pos h0, length_limbs_eq_zero.1 h0, Nat.zero_mul, limbs_zero]
  · have hlt : x * 2 ^ n < bnBase ^ ((limbs x).length + n / 64 + 1) := by
      have hn : 2 ^ n ≤ bnBase ^ (n / 64 + 1) := by
        rw [bnBase_pow]
        exact Nat.pow_le_pow_right (by decide) (by omega)
      calc x * 2 ^ n < bnBase ^ (limbs x).length * 2 ^ n :=
            Nat.mul_lt_mul_of_pos_right (lt_pow_length x) (Nat.two_pow_pos n)
        _ ≤ bnBase ^ (limbs x).length * bnBase ^ (n / 64 + 1) := Nat.mul_le_mul_left _ hn
        _ = _ := by rw [← pow_add, Nat.add_assoc]
    have hloop : bnShlAt (limbs x) (n / 64) (n % 64) 0 ((limbs x).length + n / 64 + 1) [] =
        some (table (digit bnBase (x * 2 ^ n)) ((limbs x).length + n / 64 + 1)) :=
      pushFrom_all fun t _ => congrArg some (digit_shl x n t).symm
    rw [if_neg h0]
    simp [hloop, Option.bind_eq_bind, Option.bind_some, bnTrim_table hlt]

/-- Limb `i` of `x / 2 ^ n` as the loop of `bn_shr` reads it. -/
theorem digit_shr (x n i : Nat) :
    digit bnBase (x / 2 ^ n) i =
      if n % 64 = 0 then bnGet (limbs x) ((i : Int) + (n / 64 : Nat))
      else shr (bnGet (limbs x) ((i : Int) + (n / 64 : Nat))) (n % 64) |||
        shlLow 64 (bnGet (limbs x) ((i : Int) + (n / 64 : Nat) + 1)) (64 - n % 64) := by
  have hn := Nat.div_add_mod n 64
  have hs := Nat.mod_lt n (show 0 < 64 by decide)
  generalize n / 64 = q at *
  generalize n % 64 = s at *
  have h1 : (i : Int) + (q : Nat) = ((i + q : Nat) : Int) := by omega
  have h2 : ((i + q : Nat) : Int) + 1 = ((i + q + 1 : Nat) : Int) := by omega
  have hx : x / 2 ^ n / 2 ^ (64 * i) = x / 2 ^ (64 * (i + q) + s) := by
    rw [Nat.div_div_eq_div_mul, ← pow_add]
    congr 2
    omega
  rw [h1, h2, bnGet_natCast, bnGet_natCast, digit, bnBase_pow, hx]
  split
  · rename_i h0
    rw [h0, digit, bnBase_pow, Nat.add_zero]
  · have hwin := digit_window x (i + q) (show 0 < s by omega) hs
    rw [← bnBase_eq] at hwin
    rw [hwin, Nat.or_comm]

theorem bnShr_limbs (x n : Nat) : bnShr (limbs x) n = some (limbs (x / 2 ^ n)) := by
  unfold bnShr
  have hx := lt_pow_length x
  rw [bnBase_pow] at hx
  by_cases h0 : n / 64 ≥ (limbs x).length
  · have hz : x / 2 ^ n = 0 := Nat.div_eq_of_lt
      (lt_of_lt_of_le hx (Nat.pow_le_pow_right (by decide) (by omega)))
    simp [if_pos h0, hz, limbs_zero]
  · have hlt : x / 2 ^ n < bnBase ^ ((limbs x).length - n / 64) := by
      rw [bnBase_pow]
      refine Nat.div_lt_of_lt_mul (lt_of_lt_of_le hx ?_)
      rw [← pow_add]
      exact Nat.pow_le_pow_right (by decide) (by omega)
    have hloop : bnShrAt (limbs x) (n / 64) (n % 64) 0 ((limbs x).length - n / 64) [] =
        some (table (digit bnBase (x / 2 ^ n)) ((limbs x).length - n / 64)) :=
      pushFrom_all fun t _ => congrArg some (digit_shr x n t).symm
    simp [if_neg h0, hloop, Option.bind_eq_bind, Option.bind_some, bnTrim_table hlt]

/-!
## Limb lists: bitwise operations and big-endian bytes

    bnAnd (limbs x) (limbs y) = some (limbs (x &&& y))              (bnAnd_limbs)
    bnOr  (limbs x) (limbs y) = some (limbs (x ||| y))              (bnOr_limbs)
    bnFromBe b = some (limbs (the number whose bytes are b))        (bnFromBe_eq)
    bnToBe (limbs x) n = some b → bnFromBe b = some (limbs x)       (bnFromBe_bnToBe)
-/

/-! ## Algorithm -/

def bnAndAt (a b : List Nat) (i n : Nat) (acc : List Nat) : Option (List Nat) :=
  pushFrom (fun i => do
    let d ← a[i]?
    let e ← b[i]?
    some (d &&& e)) n i acc

def bnAnd (a b : List Nat) : Option (List Nat) := do
  let n := if a.length < b.length then a.length else b.length
  bnTrim (← bnAndAt a b 0 n [])

def bnOrAt (a b : List Nat) (i n : Nat) (acc : List Nat) : Option (List Nat) :=
  pushFrom (fun i => some (bnGet a i ||| bnGet b i)) n i acc

def bnOr (a b : List Nat) : Option (List Nat) :=
  let n := if a.length > b.length then a.length else b.length
  bnOrAt a b 0 n []

def bnBeAt (x : List Nat) (n i : Nat) (acc : List Int) : Option (List Int) :=
  pushFrom (fun i =>
    let k := n - 1 - i
    let limb := k / 8
    if limb ≥ x.length then some 0
    else do
      let d ← x[limb]?
      some ((shr d (k % 8 * 8) &&& 255 : Nat) : Int)) n i acc

def bnToBe (x : List Nat) (bytes : Int) : Option (List Int) := do
  let need := ((← bnBitLen x) + 7) / 8
  let n := if bytes > need then bytes.toNat else need
  bnBeAt x n 0 []

/-- `b[k] & 255`, the low eight bits of the two's complement, and 0 before the list. -/
def byteAt (b : List Int) (k : Int) : Option Nat :=
  if k < 0 then some 0 else (b[k.toNat]?).map fun v => (v % 256).toNat

/-- Limb `i` of a byte string, counted from its least significant end. -/
def bnLimbBe (b : List Int) (i j acc : Nat) : Option Nat :=
  if j ≥ 8 then some acc
  else do
    let byte ← byteAt b (b.length - 1 - (i * 8 + j : Nat))
    bnLimbBe b i (j + 1) (acc ||| shlLow 64 byte (j * 8))
termination_by 8 - j

def bnFromBeAt (b : List Int) (limbs i : Nat) (acc : List Nat) : Option (List Nat) :=
  pushFrom (fun i => bnLimbBe b i 0 0) limbs i acc

def bnFromBe (b : List Int) : Option (List Nat) := do
  let limbs := (b.length + 7) / 8
  bnTrim (← bnFromBeAt b limbs 0 [])

/-! ## Bitwise operations -/

theorem digit_and (x y i : Nat) :
    digit bnBase (x &&& y) i = digit bnBase x i &&& digit bnBase y i := by
  simp only [digit, bnBase_pow]
  rw [bnBase_eq, Nat.and_div_two_pow, Nat.and_mod_two_pow]

theorem digit_or (x y i : Nat) :
    digit bnBase (x ||| y) i = digit bnBase x i ||| digit bnBase y i := by
  simp only [digit, bnBase_pow]
  rw [bnBase_eq, Nat.or_div_two_pow, Nat.or_mod_two_pow]

theorem bnAnd_limbs (x y : Nat) : bnAnd (limbs x) (limbs y) = some (limbs (x &&& y)) := by
  have hx : x &&& y < bnBase ^ (limbs x).length :=
    lt_of_le_of_lt Nat.and_le_left (lt_pow_length x)
  have hy : x &&& y < bnBase ^ (limbs y).length :=
    lt_of_le_of_lt Nat.and_le_right (lt_pow_length y)
  have hloop : ∀ n, n ≤ (limbs x).length → n ≤ (limbs y).length →
      bnAndAt (limbs x) (limbs y) 0 n [] = some (table (digit bnBase (x &&& y)) n) := by
    intro n hnx hny
    refine pushFrom_all fun t ht => ?_
    simp [getElem?_limbs (Nat.lt_of_lt_of_le ht hnx), getElem?_limbs (Nat.lt_of_lt_of_le ht hny),
      Option.bind_eq_bind, Option.bind_some, digit_and]
  unfold bnAnd
  by_cases h : (limbs x).length < (limbs y).length
  · simp only [if_pos h, hloop _ (Nat.le_refl _) (Nat.le_of_lt h), Option.bind_eq_bind,
      Option.bind_some, bnTrim_table hx]
  · simp only [if_neg h, hloop _ (Nat.le_of_not_lt h) (Nat.le_refl _), Option.bind_eq_bind,
      Option.bind_some, bnTrim_table hy]

/-- The union needs no trimming: its top limb holds the longer operand's. -/
theorem bnOr_limbs (x y : Nat) : bnOr (limbs x) (limbs y) = some (limbs (x ||| y)) := by
  have hloop : ∀ n, bnOrAt (limbs x) (limbs y) 0 n [] =
      some (table (digit bnBase (x ||| y)) n) := by
    intro n
    refine pushFrom_all fun t _ => ?_
    rw [bnGet_natCast, bnGet_natCast, digit_or]
  have hlt : ∀ n, (limbs x).length ≤ n → (limbs y).length ≤ n → x ||| y < bnBase ^ n := by
    intro n hx hy
    rw [bnBase_pow]
    refine Nat.or_lt_two_pow ?_ ?_ <;> rw [← bnBase_pow]
    · exact lt_of_lt_of_le (lt_pow_length x) (Nat.pow_le_pow_right bnBase_pos hx)
    · exact lt_of_lt_of_le (lt_pow_length y) (Nat.pow_le_pow_right bnBase_pos hy)
  unfold bnOr
  rw [hloop]
  congr 1
  split
  · rename_i h
    exact lowDigits_eq_digits one_lt_bnBase (hlt _ (Nat.le_refl _) (Nat.le_of_lt h))
      fun j hj => le_trans (pow_le_of_length hj) Nat.left_le_or
  · rename_i h
    exact lowDigits_eq_digits one_lt_bnBase (hlt _ (Nat.le_of_not_lt h) (Nat.le_refl _))
      fun j hj => le_trans (pow_le_of_length hj) Nat.right_le_or

/-! ## Bytes -/

/-- The low eight bits of each entry, least significant entry first. -/
def lowBytes (b : List Int) : List Nat := b.reverse.map fun v => (v % 256).toNat

/-- The number whose big-endian bytes are `b`. -/
def beVal (b : List Int) : Nat := Nat.ofDigits 256 (lowBytes b)

/-- The big-endian bytes of `x` in a field of `n` bytes. -/
def beBytes (x n : Nat) : List Int := table (fun i => ((digit 256 x (n - 1 - i) : Nat) : Int)) n

theorem isDigits_lowBytes (b : List Int) : IsDigits 256 (lowBytes b) := by
  intro d hd
  obtain ⟨v, -, rfl⟩ := List.mem_map.1 hd
  omega

theorem length_lowBytes (b : List Int) : (lowBytes b).length = b.length := by simp [lowBytes]

theorem bnBase_eq_pow_byte : bnBase = 256 ^ 8 := by norm_num [bnBase]

/-- Byte `k` from the least significant end, zero past the other end. -/
theorem byteAt_eq_digit (b : List Int) (k : Nat) :
    byteAt b (b.length - 1 - (k : Nat)) = some (digit 256 (beVal b) k) := by
  unfold byteAt
  by_cases h : k < b.length
  · have hidx : ((b.length : Int) - 1 - (k : Nat)).toNat = b.length - 1 - k := by omega
    have hlen := length_lowBytes b
    have hget := getElem?_eq_digit (by decide) (isDigits_lowBytes b) (i := k) (by omega)
    rw [if_neg (by omega), hidx, digit, beVal, ← hget, lowBytes, List.getElem?_map,
      List.getElem?_reverse h]
  · rw [if_pos (by omega), digit_eq_zero]
    refine lt_of_lt_of_le ((isDigits_lowBytes b).ofDigits_lt (by decide)) ?_
    rw [length_lowBytes]
    exact Nat.pow_le_pow_right (by decide) (by omega)

/-- The limb's bytes are or-ed in from the low end. -/
theorem bnLimbBe_eq (b : List Int) (i : Nat) : ∀ j, j ≤ 8 →
    bnLimbBe b i j (beVal b / bnBase ^ i % 256 ^ j) = some (digit bnBase (beVal b) i) := by
  intro j hj
  induction h : 8 - j generalizing j with
  | zero =>
    obtain rfl : j = 8 := by omega
    rw [bnLimbBe, if_pos (Nat.le_refl 8), digit, ← bnBase_eq_pow_byte]
  | succ k ih =>
    rw [bnLimbBe, if_neg (by omega)]
    simp only [byteAt_eq_digit, Option.bind_eq_bind, Option.bind_some]
    have hdig : digit 256 (beVal b) (i * 8 + j) = digit 256 (beVal b / bnBase ^ i) j := by
      rw [digit, digit, bnBase_eq_pow_byte, ← Nat.pow_mul, Nat.div_div_eq_div_mul, ← pow_add,
        Nat.mul_comm 8]
    have hlow : beVal b / bnBase ^ i % 256 ^ j < 2 ^ (j * 8) := by
      have : (256 : Nat) ^ j = 2 ^ (j * 8) := by rw [Nat.mul_comm, Nat.pow_mul]
      rw [← this]
      exact Nat.mod_lt _ (Nat.pow_pos (by decide))
    have hshl : shlLow 64 (digit 256 (beVal b / bnBase ^ i) j) (j * 8) =
        digit 256 (beVal b / bnBase ^ i) j * 2 ^ (j * 8) := by
      refine shlLow_of_lt ?_
      have h256 := digit_lt (show 0 < 256 by decide) (beVal b / bnBase ^ i) j
      calc _ < 256 * 2 ^ (j * 8) := Nat.mul_lt_mul_of_pos_right h256 (Nat.two_pow_pos _)
        _ = 2 ^ (8 + j * 8) := by rw [pow_add, show (2 : Nat) ^ 8 = 256 by rfl]
        _ ≤ 2 ^ 64 := Nat.pow_le_pow_right (by decide) (by omega)
    have hstep : beVal b / bnBase ^ i % 256 ^ j |||
          shlLow 64 (digit 256 (beVal b) (i * 8 + j)) (j * 8) =
        beVal b / bnBase ^ i % 256 ^ (j + 1) := by
      rw [hdig, hshl, Nat.or_comm, shl_or_eq_add _ hlow, mod_pow_succ_digit, Nat.add_comm,
        Nat.mul_comm _ (2 ^ (j * 8)), Nat.mul_comm j 8, Nat.pow_mul]
    rw [hstep]
    exact ih (j + 1) (by omega) (by omega)

theorem bnFromBe_eq (b : List Int) : bnFromBe b = some (limbs (beVal b)) := by
  have hloop : bnFromBeAt b ((b.length + 7) / 8) 0 [] =
      some (table (digit bnBase (beVal b)) ((b.length + 7) / 8)) := by
    refine pushFrom_all fun t _ => ?_
    have := bnLimbBe_eq b t 0 (by omega)
    rwa [pow_zero, Nat.mod_one] at this
  have hlt : beVal b < bnBase ^ ((b.length + 7) / 8) := by
    refine lt_of_lt_of_le ((isDigits_lowBytes b).ofDigits_lt (by decide)) ?_
    rw [length_lowBytes, bnBase_eq_pow_byte, ← Nat.pow_mul]
    exact Nat.pow_le_pow_right (by decide) (by omega)
  simp [bnFromBe, hloop, Option.bind_eq_bind, Option.bind_some, bnTrim_table hlt]

/-- Bytes written are the bytes read back. -/
theorem beVal_beBytes (h : x < 256 ^ n) : beVal (beBytes x n) = x := by
  have hrev : lowBytes (beBytes x n) = table (digit 256 x) n := by
    have hmap : (beBytes x n).reverse.map (fun v => (v % 256).toNat) =
        ((beBytes x n).map fun v => (v % 256).toNat).reverse := List.map_reverse
    have hbytes : (beBytes x n).map (fun v => (v % 256).toNat) =
        table (fun i => digit 256 x (n - 1 - i)) n := by
      rw [beBytes, table, List.map_map]
      refine List.map_congr_left fun t _ => ?_
      have := digit_lt (show 0 < 256 by decide) x (n - 1 - t)
      simp only [Function.comp_apply]
      omega
    rw [lowBytes, hmap, hbytes, reverse_table]
    refine table_congr fun t ht => ?_
    congr 1
    omega
  rw [beVal, hrev]
  exact ofDigits_lowDigits_of_lt h

/-- Byte `k` of a number read limb by limb. -/
theorem bnBeAt_eq : bnBeAt (limbs x) n 0 [] = some (beBytes x n) := by
  refine pushFrom_all fun t _ => ?_
  have hbyte := digit_of_digit_pow (c := 256) (m := 8) (by decide) x (n - 1 - t)
  generalize n - 1 - t = k at *
  have hand : ∀ v, v &&& 255 = v % 256 := fun v => Nat.and_two_pow_sub_one_eq_mod v 8
  have hsh : ∀ d, shr d (k % 8 * 8) = d / 256 ^ (k % 8) := fun d => by
    rw [shr, Nat.mul_comm, Nat.pow_mul]
  by_cases h : k / 8 ≥ (limbs x).length
  · have hlt : x < 256 ^ k := by
      refine lt_of_lt_of_le (lt_pow_length x) ?_
      rw [bnBase_eq_pow_byte, ← Nat.pow_mul]
      exact Nat.pow_le_pow_right (by decide) (by omega)
    rw [if_pos h, digit_eq_zero hlt]
    rfl
  · rw [if_neg h, getElem?_limbs (by omega), Option.bind_eq_bind, Option.bind_some, hand, hsh,
      bnBase_eq_pow_byte, hbyte]

theorem bnToBe_limbs (x : Nat) (bytes : Int) :
    ∃ n, bnToBe (limbs x) bytes = some (beBytes x n) ∧ x < 256 ^ n := by
  have hneed : x < 256 ^ ((Nat.size x + 7) / 8) := by
    refine lt_of_lt_of_le (Nat.lt_size_self x) ?_
    rw [show 256 = 2 ^ 8 by rfl, ← Nat.pow_mul]
    exact Nat.pow_le_pow_right (by decide) (by omega)
  simp only [bnToBe, bnBitLen_limbs, Option.bind_eq_bind, Option.bind_some, bnBeAt_eq]
  refine ⟨_, rfl, ?_⟩
  split
  · rename_i h
    exact lt_of_lt_of_le hneed (Nat.pow_le_pow_right (by decide) (by omega))
  · exact hneed

/-- Writing a number in `bytes` bytes or more and reading it back changes nothing. -/
theorem bnFromBe_bnToBe (x : Nat) (bytes : Int) :
    (bnToBe (limbs x) bytes).bind bnFromBe = some (limbs x) := by
  obtain ⟨n, hn, hlt⟩ := bnToBe_limbs x bytes
  rw [hn, Option.bind_some, bnFromBe_eq, beVal_beBytes hlt]

end Bignum

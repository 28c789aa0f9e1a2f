import Resid.Lib.FixedWidth
import Resid.Lib.Limbs
import Resid.NumText.Radix

/-!
# Decimal text of wide integers

A wide integer is a list of 64-bit limbs, low limb first.  The text is written from its last
digit down: the limbs are divided by ten in place until all are zero, each remainder one byte
below the one before, in a scratch buffer that has 204 bytes for it.

    value w + value (limbsNegate w 1) = 2 ^ (64 * count)             (limbsNegate_one)
    limbsDiv10 w = value w / 10, value w % 10                        (limbsDiv10_spec)
    limbsDigits w = text (value w), if it has the room               (limbsDigits_eq)
    limbsToStr w = text of w ↔ the text has at most 204 characters   (limbs_print_iff)
-/

namespace NumText

open Nat (ofDigits)
open Positional Runtime

/-! ## The code -/

abbrev Limb := BitVec 64

/-- `limbs_negate`: two's complement negation, limb by limb. -/
def limbsNegate : List Limb → Limb → List Limb
  | [], _ => []
  | x :: w, carry =>
    let inv := ~~~x
    (inv + carry) :: limbsNegate w (if carry = 1 ∧ inv = 0 - 1 then 1 else 0)

def limbsZero (w : List Limb) : Bool := w.all (· == 0)

/-- `limbs_div10` on the limbs below `k`: the quotient limbs and the remainder. -/
def limbsDiv10 (w : List Limb) : Nat → Nat → List Limb × Nat
  | 0, r => ([], r)
  | k + 1, r =>
    let cur := (r * 2 ^ 64 ||| (w.getD k 0).toNat) % 2 ^ 128
    let q := cur / 10
    let rest := limbsDiv10 w k (cur - q * 10)
    (rest.1 ++ [BitVec.ofNat 64 q], rest.2)

/-- `limbs_digits`, with `room` bytes below the text `out`: the room left and the text, none
when a digit is written below the buffer. -/
def limbsDigits (w : List Limb) (out : Str) : Nat → Option (Nat × Str)
  | 0 => none
  | room + 1 =>
    let d := limbsDiv10 w w.length 0
    let out := Char.ofNat (48 + d.2) :: out
    if limbsZero d.1 then some (room, out) else limbsDigits d.1 out room

def limbsToStr (w : List Limb) (neg : Bool) : Option Str :=
  let w := if neg then limbsNegate w 1 else w
  match limbsDigits w [] 204 with
  | none => none
  | some (room, out) =>
    if neg then if room = 0 then none else some ('-' :: out) else some out

/-! ## The number of a limb list -/

def value (w : List Limb) : Nat := ofDigits (2 ^ 64) (w.map BitVec.toNat)

/-- The sign bit of the top limb. -/
def topNegative (w : List Limb) : Bool := (w.getLastD 0).msb

/-- The number of the limbs, in two's complement when the type is signed. -/
def wideValue (signed : Bool) (w : List Limb) : Int :=
  if signed && topNegative w then (value w : Int) - 2 ^ (64 * w.length) else value w

theorem value_cons (x : Limb) (w : List Limb) : value (x :: w) = x.toNat + 2 ^ 64 * value w := by
  unfold value
  rw [List.map_cons, Nat.ofDigits_cons]

theorem isDigits_limbs (w : List Limb) : IsDigits (2 ^ 64) (w.map BitVec.toNat) := by
  intro d hd
  obtain ⟨x, -, rfl⟩ := List.mem_map.1 hd
  exact x.isLt

theorem value_lt (w : List Limb) : value w < 2 ^ (64 * w.length) := by
  have h := (isDigits_limbs w).ofDigits_lt (by decide)
  rwa [List.length_map, ← pow_mul] at h

theorem limbsZero_iff (w : List Limb) : limbsZero w = true ↔ value w = 0 := by
  induction w with
  | nil => exact ⟨fun _ => rfl, fun _ => rfl⟩
  | cons x w ih =>
    have hx : x = 0 ↔ x.toNat = 0 := ⟨fun h => by rw [h]; rfl, fun h => BitVec.eq_of_toNat_eq h⟩
    rw [value_cons, show limbsZero (x :: w) = (x == 0 && limbsZero w) from rfl, Bool.and_eq_true,
      ih, beq_iff_eq, hx]
    omega

/-! ## Negation -/

theorem toNat_not (x : Limb) : (~~~x).toNat + x.toNat = 2 ^ 64 - 1 := by
  rw [BitVec.toNat_not]
  omega

theorem limbsNegate_zero (w : List Limb) :
    value w + value (limbsNegate w 0) + 1 = 2 ^ (64 * w.length) := by
  induction w with
  | nil => rfl
  | cons x w ih =>
    have hx := toNat_not x
    have hpow : 2 ^ (64 * (w.length + 1)) = 2 ^ 64 * 2 ^ (64 * w.length) := by ring
    have hcons : limbsNegate (x :: w) 0 = ~~~x :: limbsNegate w 0 := by
      simp [limbsNegate]
    rw [hcons, value_cons, value_cons, List.length_cons, hpow]
    omega

/-- A carry goes through the zero limbs at the bottom and ends in the first other one. -/
theorem limbsNegate_one (w : List Limb) (h : value w ≠ 0) :
    value w + value (limbsNegate w 1) = 2 ^ (64 * w.length) := by
  induction w with
  | nil => exact absurd rfl h
  | cons x w ih =>
    have hx := toNat_not x
    have hpow : 2 ^ (64 * (w.length + 1)) = 2 ^ 64 * 2 ^ (64 * w.length) := by ring
    rw [value_cons] at h
    by_cases h0 : x = 0
    · subst h0
      have hcons : limbsNegate (0 :: w) 1 = 0 :: limbsNegate w 1 := by
        simp [limbsNegate]
      have hw := ih (by
        intro hw
        rw [hw] at h
        exact h rfl)
      rw [hcons, value_cons, value_cons, List.length_cons, hpow]
      show 0 + _ + (0 + _) = _
      omega
    · have hlt := x.isLt
      have hne : x.toNat ≠ 0 := fun hz => h0 (BitVec.eq_of_toNat_eq hz)
      have hinv : ¬ ~~~x = 0 - 1 := by
        intro hi
        have hn := congrArg BitVec.toNat hi
        rw [show ((0 : Limb) - 1).toNat = 2 ^ 64 - 1 from rfl] at hn
        omega
      have hsum : (~~~x + 1).toNat + x.toNat = 2 ^ 64 := by
        rw [BitVec.toNat_add, show (1 : Limb).toNat = 1 from rfl, Nat.mod_eq_of_lt (by omega)]
        omega
      have hcons : limbsNegate (x :: w) 1 = (~~~x + 1) :: limbsNegate w 0 := by
        simp only [limbsNegate, if_neg (fun hc => hinv (And.right hc))]
      have hw := limbsNegate_zero w
      rw [hcons, value_cons, value_cons, List.length_cons, hpow]
      omega

/-! ## Division by ten -/

theorem limbsDiv10_eq (w : List Limb) (k : Nat) : ∀ r < 10,
    (limbsDiv10 w k r).1.map BitVec.toNat = (shortDiv (2 ^ 64) (w.map BitVec.toNat) 10 k r).1 ∧
      (limbsDiv10 w k r).2 = (shortDiv (2 ^ 64) (w.map BitVec.toNat) 10 k r).2 := by
  induction k with
  | zero =>
    intro r _
    exact ⟨rfl, rfl⟩
  | succ k ih =>
    intro r hr
    have hlimb := (w.getD k 0).isLt
    have hget : (w.map BitVec.toNat).getD k 0 = (w.getD k 0).toNat := by
      rw [List.getD_eq_getElem?_getD, List.getD_eq_getElem?_getD, List.getElem?_map]
      cases w[k]? <;> rfl
    have hor : r * 2 ^ 64 ||| (w.getD k 0).toNat = r * 2 ^ 64 + (w.getD k 0).toNat :=
      FixedWidth.shl_or_eq_add r hlimb
    have hcur : (r * 2 ^ 64 + (w.getD k 0).toNat) % 2 ^ 128 = r * 2 ^ 64 + (w.getD k 0).toNat :=
      Nat.mod_eq_of_lt (by omega)
    obtain ⟨h1, h2⟩ := ih (r * 2 ^ 64 + (w.getD k 0).toNat -
      (r * 2 ^ 64 + (w.getD k 0).toNat) / 10 * 10) (by omega)
    unfold limbsDiv10 shortDiv
    simp only [hor, hcur, hget]
    refine ⟨?_, h2⟩
    rw [List.map_append, h1, List.map_singleton, BitVec.toNat_ofNat, Nat.mod_eq_of_lt (by omega)]

theorem limbsDiv10_spec (w : List Limb) :
    value (limbsDiv10 w w.length 0).1 = value w / 10 ∧
      (limbsDiv10 w w.length 0).2 = value w % 10 := by
  obtain ⟨h1, h2⟩ := limbsDiv10_eq w w.length 0 (by decide)
  obtain ⟨-, -, hdiv, hrem⟩ := shortDiv_spec (by decide) (isDigits_limbs w)
    (by decide : 0 < 10) w.length (by rw [List.length_map]) 0 (by decide)
  have htake : (w.map BitVec.toNat).take w.length = w.map BitVec.toNat :=
    List.take_of_length_le (by rw [List.length_map])
  rw [htake, ← h1, ← h2, Nat.zero_mul, Nat.zero_add] at hdiv
  constructor
  · show ofDigits (2 ^ 64) _ = ofDigits (2 ^ 64) _ / 10
    omega
  · show _ = ofDigits (2 ^ 64) _ % 10
    omega

/-! ## The text -/

theorem text_step (n : Nat) :
    Decimal.text n = (if n / 10 = 0 then [] else Decimal.text (n / 10)) ++
      [Char.ofNat (48 + n % 10)] := by
  have hdigit : Nat.digitChar (n % 10) = Char.ofNat (48 + n % 10) := by
    have h : n % 10 < 10 := Nat.mod_lt _ (by decide)
    interval_cases n % 10 <;> rfl
  rw [← hdigit]
  exact toDigits_step (by decide) n

theorem limbsDigits_eq (room : Nat) : ∀ (w : List Limb) (out : Str),
    limbsDigits w out room = if (Decimal.text (value w)).length ≤ room then
      some (room - (Decimal.text (value w)).length, Decimal.text (value w) ++ out) else none := by
  induction room with
  | zero =>
    intro w out
    rw [if_neg (Nat.not_le.2 (Decimal.length_text_pos _))]
    rfl
  | succ room ih =>
    intro w out
    obtain ⟨hquot, hrem⟩ := limbsDiv10_spec w
    unfold limbsDigits
    simp only [hrem]
    rw [text_step]
    by_cases hz : value w / 10 = 0
    · rw [if_pos ((limbsZero_iff _).2 (hquot.trans hz)), if_pos hz]
      simp
    · rw [if_neg (fun h => hz (hquot.symm.trans ((limbsZero_iff _).1 h))), if_neg hz, ih, hquot]
      simp

theorem topNegative_pos {w : List Limb} (h : topNegative w = true) : value w ≠ 0 := by
  intro h0
  have hall := List.all_eq_true.1 ((limbsZero_iff w).2 h0)
  unfold topNegative at h
  rcases List.eq_nil_or_concat w with rfl | ⟨l, x, rfl⟩
  · exact absurd h (by decide)
  · have hx : x = 0 := beq_iff_eq.1 (hall x (by simp))
    rw [hx] at h
    simp at h

theorem intText_negative (n : Nat) {m : Nat} (hm : 0 < m) (h : n + m = 2 ^ k) :
    intText ((n : Int) - 2 ^ k) = '-' :: Decimal.text m := by
  have hcast : (n : Int) + m = 2 ^ k := by exact_mod_cast h
  unfold intText
  rw [if_pos (by omega), show ((n : Int) - 2 ^ k).natAbs = m by omega]

end NumText

import Resid.Lib.CheckedInt
import Resid.Runtime.Text

/-!
# The integer types

`IntN w` is the signed integer of `w` bits and `UIntN w` the unsigned one; each value
carries the proof that it is in range.  A conversion is defined where the value fits.

    IntN.ofInt? w x.val = some x                                    (IntN.ofInt?_val)
    w ≤ w' → (x.widen h).val = x.val                                (IntN.widen_val)
-/

namespace Runtime

open CheckedInt

@[ext] structure IntN (w : Nat) where
  val : Int
  fits : Fits w val
  deriving DecidableEq

@[ext] structure UIntN (w : Nat) where
  val : Nat
  fits : val < 2 ^ w
  deriving DecidableEq

/-- The same number in a wider type. -/
def IntN.widen {w w' : Nat} (hw : w ≤ w') (x : IntN w) : IntN w' := ⟨x.val, x.fits.mono hw⟩

def UIntN.widen {w w' : Nat} (hw : w ≤ w') (x : UIntN w) : UIntN w' :=
  ⟨x.val, lt_of_lt_of_le x.fits (Nat.pow_le_pow_right (by decide) hw)⟩

/-- An unsigned number in a wider signed type. -/
def UIntN.signed {w w' : Nat} (hw : w < w') (x : UIntN w) : IntN w' :=
  ⟨x.val, by
    have hpow : 2 ^ w ≤ 2 ^ (w' - 1) := Nat.pow_le_pow_right (by decide) (by omega)
    have hlt : (x.val : Int) < 2 ^ (w' - 1) := by
      exact_mod_cast lt_of_lt_of_le x.fits hpow
    have hneg : -(2 : Int) ^ (w' - 1) ≤ 0 := Int.neg_nonpos_of_nonneg (Int.pow_nonneg (by decide))
    exact ⟨hneg.trans (Int.natCast_nonneg _), hlt⟩⟩

variable {w w' : Nat} {c : Char}

@[simp] theorem IntN.widen_val (hw : w ≤ w') (x : IntN w) : (x.widen hw).val = x.val := rfl

@[simp] theorem UIntN.widen_val (hw : w ≤ w') (x : UIntN w) : (x.widen hw).val = x.val := rfl

/-- An integer as a value of `w` bits, where it is one. -/
def IntN.ofInt? (w : Nat) (n : Int) : Option (IntN w) :=
  if h : Fits w n then some ⟨n, h⟩ else none

def UIntN.ofInt? (w : Nat) (n : Int) : Option (UIntN w) :=
  if h : 0 ≤ n ∧ n.toNat < 2 ^ w then some ⟨n.toNat, h.2⟩ else none

theorem IntN.ofInt?_val (x : IntN w) : IntN.ofInt? w x.val = some x := dif_pos x.fits

theorem UIntN.ofInt?_val (x : UIntN w) : UIntN.ofInt? w x.val = some x := by
  have h : 0 ≤ (x.val : Int) ∧ (x.val : Int).toNat < 2 ^ w := ⟨by omega, by simpa using x.fits⟩
  rw [UIntN.ofInt?, dif_pos h]
  congr 1

/-!
## The text of an integer

    strIsInt (intText v) = true                                      (strIsInt_intText)
    strParseInt (intText v) = v       for v of 64 bits            (strParseInt_intText)
    strParseInt s < 2 ^ 63                                             (strParseInt_lt)
-/

theorem isAsciiDigit_eq (c : Char) : isAsciiDigit c = c.isDigit := by
  rw [Bool.eq_iff_iff, Decimal.isDigit_iff]
  unfold isAsciiDigit
  simp

theorem foldl_digits {ds : Str} (h : ds.all isAsciiDigit = true) (n : Nat) :
    ds.foldl (fun acc c => acc * 10 + ((c.toNat : Int) - 48)) (n : Int) =
      (Nat.ofDigitChars 10 ds n : Nat) := by
  induction ds generalizing n with
  | nil => rw [List.foldl_nil, Nat.ofDigitChars_nil]
  | cons c ds ih =>
    rw [List.all_cons, Bool.and_eq_true] at h
    have hdigit : 48 ≤ c.toNat := by
      have := h.1
      rw [isAsciiDigit_eq, Decimal.isDigit_iff] at this
      exact this.1
    have hzero : '0'.toNat = 48 := rfl
    have hstep : (n : Int) * 10 + ((c.toNat : Int) - 48) =
        ((10 * n + (c.toNat - '0'.toNat) : Nat) : Int) := by
      omega
    rw [List.foldl_cons, Nat.ofDigitChars_cons, hstep, ih h.2]

theorem text_digits (n : Nat) :
    Decimal.text n ≠ [] ∧ (Decimal.text n).all isAsciiDigit = true := by
  refine ⟨Decimal.text_ne_nil n, ?_⟩
  rw [List.all_eq_true]
  intro c hc
  exact Decimal.allDigits_text n c hc

/-- A numeral does not start with a sign. -/
theorem text_head {n : Nat} {r : Str} (h : Decimal.text n = c :: r) : ¬ (c = '-' ∨ c = '+') := by
  have hd : c.isDigit = true := by
    apply Decimal.allDigits_text n
    rw [h]
    exact List.mem_cons_self
  rintro (rfl | rfl) <;> exact absurd hd (by decide)

theorem strIsInt_intText (v : Int) : strIsInt (intText v) = true := by
  obtain ⟨hne, hall⟩ := text_digits v.natAbs
  unfold intText strIsInt
  split_ifs with hneg
  · simp [hne, hall]
  · obtain ⟨c, r, hc⟩ := List.exists_cons_of_ne_nil hne
    have hsign := text_head hc
    rw [hc] at hall ⊢
    simp only [hsign, if_false]
    rw [hall]
    rfl

theorem strParseInt_intText {v : Int} (h : CheckedInt.Fits 64 v) :
    strParseInt (intText v) = v := by
  obtain ⟨hne, hall⟩ := text_digits v.natAbs
  have hfits := CheckedInt.fits_64.1 h
  have hvalue : (Decimal.text v.natAbs).foldl
      (fun acc c => acc * 10 + ((c.toNat : Int) - 48)) 0 = v.natAbs := by
    have hfold := foldl_digits hall 0
    have htext := Decimal.value_text v.natAbs
    unfold Decimal.value at htext
    rw [htext] at hfold
    exact hfold
  unfold intText
  split_ifs with hneg
  · have hparse : strParseInt ('-' :: Decimal.text v.natAbs) =
        max (-9223372036854775808) (-(v.natAbs : Int)) := by
      rw [← hvalue]
      simp [strParseInt, hne, hall]
    omega
  · obtain ⟨c, r, hc⟩ := List.exists_cons_of_ne_nil hne
    have hhead := text_head hc
    have hnodash : ¬ (c :: r).head? = some '-' :=
      fun h0 => hhead (Or.inl (Option.some.inj h0))
    have hparse : strParseInt (Decimal.text v.natAbs) =
        min 9223372036854775807 (v.natAbs : Int) := by
      rw [← hvalue, hc]
      rw [hc] at hall
      unfold strParseInt
      simp only [hhead, if_false, hall, hnodash, List.isEmpty_cons, Bool.not_true,
        Bool.or_self, Bool.false_eq_true]
    omega

theorem isSpace_of_isAsciiDigit (h : isAsciiDigit c = true) : isSpace c = false := by
  have hdigit : 48 ≤ c.toNat ∧ c.toNat ≤ 57 := by
    unfold isAsciiDigit at h
    simpa using h
  have hne : ∀ d : Char, d.toNat < 48 → (c == d) = false := by
    intro d hd
    rw [beq_eq_false_iff_ne]
    rintro rfl
    omega
  unfold isSpace
  rw [hne ' ' (by decide), hne '\t' (by decide), hne '\n' (by decide), hne '\x0d' (by decide),
    hne '\x0b' (by decide), hne '\x0c' (by decide)]
  rfl

theorem mem_intText {v : Int} (h : c ∈ intText v) : c = '-' ∨ isAsciiDigit c = true := by
  have hdigits : ∀ c ∈ Decimal.text v.natAbs, isAsciiDigit c = true :=
    List.all_eq_true.1 (text_digits v.natAbs).2
  unfold intText at h
  split_ifs at h with hneg
  · rcases List.mem_cons.1 h with rfl | h
    · exact Or.inl rfl
    · exact Or.inr (hdigits c h)
  · exact Or.inr (hdigits c h)

theorem intText_free (v : Int) : ∀ c ∈ intText v, isSpace c = false := by
  intro c hc
  rcases mem_intText hc with rfl | hdigit
  · decide
  · exact isSpace_of_isAsciiDigit hdigit

theorem intText_ne (v : Int) : intText v ≠ [] := by
  unfold intText
  split_ifs
  · exact List.cons_ne_nil _ _
  · exact (text_digits v.natAbs).1

/-! ## Any text -/

theorem digits_nonneg (ds : Str) (hds : ds.all isAsciiDigit = true) {acc : Int} (hacc : 0 ≤ acc) :
    0 ≤ ds.foldl (fun acc c => acc * 10 + ((c.toNat : Int) - 48)) acc := by
  induction ds generalizing acc with
  | nil => exact hacc
  | cons c ds ih =>
    rw [List.all_cons, Bool.and_eq_true] at hds
    have hc : 48 ≤ c.toNat := by
      have := hds.1
      unfold isAsciiDigit at this
      simp only [Bool.and_eq_true, decide_eq_true_eq] at this
      exact this.1
    exact ih hds.2 (show 0 ≤ acc * 10 + ((c.toNat : Int) - 48) by omega)

/-- Reading an integer saturates. -/
theorem strParseInt_lt (s : Str) : strParseInt s < 2 ^ 63 := by
  simp only [strParseInt]
  split_ifs with hdigits hneg
  · omega
  · rw [Bool.or_eq_true, not_or, Bool.not_eq_true, Bool.not_eq_true', Bool.not_eq_false] at hdigits
    have := digits_nonneg _ hdigits.2 le_rfl
    omega
  · omega

end Runtime

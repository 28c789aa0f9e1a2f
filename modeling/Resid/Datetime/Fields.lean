import Resid.Calendar.Helpers

/-!
# Numeric fields of a formatted date

A field of `strftime` is a number with a fill and a width: the flags drop the padding (`-`),
choose the fill (`_`, `0`) and a number in the conversion sets the width.

    0 ≤ v → datetimeNum f v natural c = padding ++ text v                 (datetimeNum_of_nonneg)
    v < 0 → the sign is the last character, unless the flags drop the padding
                                                                              (datetimeNum_of_neg)
    the field denotes v ↔ 0 ≤ v, or no padding and v is not the least          (datetimeNum_iff)

The least number is its own negation, so its digits carry a sign of their own.

## Algorithm

The digits are padded to one less than the width, and the sign takes the place that is left.
-/

namespace Datetime

open CheckedInt Calendar Runtime

/-- The flags and width of one field: `-`, `_`, `0`, `^` and `#`. -/
structure FmtFlags where
  nopad : Bool
  space : Bool
  zero : Bool
  upper : Bool
  swap : Bool
  width : Int
deriving DecidableEq

def fmtNew : FmtFlags := ⟨false, false, false, false, false, 0⟩

/-- The unary minus of an integer of 64 bits, which wraps. -/
def negInt (v : Int) : Int := IntRange.IntTy.wrap ⟨true, 64, IntRange.word_pos⟩ (0 - v)

def datetimeNum (f : FmtFlags) (v natural : Int) (deffill : Str) : Option Str := do
  let digits := if v < 0 then intText (negInt v) else intText v
  let sign : Str := if v < 0 then ['-'] else []
  if f.nopad then some (sign ++ digits)
  else
    let w := if f.width > 0 then f.width else natural
    let fill := if f.space then [' '] else if f.zero then ['0'] else deffill
    if sign ≠ [] then some (calPadLeft digits (← sub 64 w 1) fill ++ sign)
    else some (calPadLeft digits w fill)

/-! ## What a field denotes -/

/-- The width the padding fills. -/
def FmtFlags.fieldWidth (f : FmtFlags) (natural : Int) : Int :=
  if f.width > 0 then f.width else natural

def FmtFlags.fieldFill (f : FmtFlags) (deffill : Char) : Char :=
  if f.space then ' ' else if f.zero then '0' else deffill

def signText (v : Int) : Str := if v < 0 then ['-'] else []

/-- The numeral of `v` with fill before it or behind its sign, zeros behind it only. -/
def Padded (fill : Char) (v : Int) (r : Str) : Prop :=
  ∃ a b, (fill = '0' → a = 0) ∧
    r = List.replicate a fill ++ (signText v ++ (List.replicate b fill ++ Decimal.text v.natAbs))

/-- The text of a numeric field of value `v`. -/
def NumField (f : FmtFlags) (v natural : Int) (deffill : Char) (r : Str) : Prop :=
  if f.nopad then r = signText v ++ Decimal.text v.natAbs
  else f.fieldWidth natural ≤ r.length ∧ Padded (f.fieldFill deffill) v r

theorem fill_singleton (f : FmtFlags) (c : Char) :
    (if f.space then [' '] else if f.zero then ['0'] else [c] : Str) = [f.fieldFill c] := by
  unfold FmtFlags.fieldFill
  split
  · rfl
  · split <;> rfl

theorem intText_of_nonneg {v : Int} (h : 0 ≤ v) : intText v = Decimal.text v.natAbs := by
  rw [intText, if_neg (by omega)]

theorem negInt_eq {v : Int} (h : Fits 64 (0 - v)) : negInt v = 0 - v := by
  rw [fits_64] at h
  refine IntRange.wrap_of_inRange ?_
  show -(2 : Int) ^ (64 - 1) ≤ 0 - v ∧ 0 - v ≤ (2 : Int) ^ (64 - 1) - 1
  omega

/-! ## Positive and negative values -/

theorem datetimeNum_of_nonneg (f : FmtFlags) {v : Int} (natural : Int) (c : Char) (h : 0 ≤ v) :
    datetimeNum f v natural [c] = some
      (if f.nopad then Decimal.text v.natAbs
        else calPadLeft (Decimal.text v.natAbs) (f.fieldWidth natural) [f.fieldFill c]) := by
  have hneg : ¬ v < 0 := by omega
  unfold datetimeNum
  simp only [if_neg hneg, fill_singleton, intText_of_nonneg h, List.nil_append]
  split
  · rfl
  · rw [if_neg (fun hne => hne rfl)]
    rfl

theorem datetimeNum_nopad {f : FmtFlags} {v : Int} (natural : Int) (c : Char)
    (hpad : f.nopad = true) (hv : v < 0) (hfit : Fits 64 (0 - v)) :
    datetimeNum f v natural [c] = some ('-' :: Decimal.text v.natAbs) := by
  have habs : (0 - v).natAbs = v.natAbs := by omega
  unfold datetimeNum
  rw [if_pos hv, if_pos hv, negInt_eq hfit, intText_of_nonneg (by omega), habs, if_pos hpad]
  rfl

/-- A negative value that is padded ends in its sign. -/
theorem datetimeNum_of_neg {f : FmtFlags} {v natural : Int} {c : Char} {r : Str}
    (hpad : f.nopad = false) (hv : v < 0) (h : datetimeNum f v natural [c] = some r) :
    ∃ s, r = s ++ ['-'] := by
  unfold datetimeNum at h
  rw [if_pos hv, if_pos hv] at h
  have hpad' : ¬ f.nopad = true := by simp [hpad]
  rw [if_neg hpad', if_pos (List.cons_ne_nil _ _)] at h
  obtain ⟨w, -, hr⟩ := Option.bind_eq_some_iff.1 h
  exact ⟨_, (Option.some.inj hr).symm⟩

/-- The numeral of a number ends in a digit, whatever stands before it. -/
theorem Padded.getLast_ne {fill : Char} {v : Int} {s : Str} : ¬ Padded fill v (s ++ ['-']) := by
  rintro ⟨a, b, -, hr⟩
  have hne := Decimal.text_ne_nil v.natAbs
  have hlast : some '-' = (Decimal.text v.natAbs).getLast? := by
    have h := congrArg List.getLast? hr
    rw [List.getLast?_concat] at h
    rw [h, List.getLast?_append_of_ne_nil, List.getLast?_append_of_ne_nil,
      List.getLast?_append_of_ne_nil _ hne]
    · simp [hne]
    · simp [hne]
  have hmem : '-' ∈ Decimal.text v.natAbs := List.mem_of_getLast? hlast.symm
  exact absurd (Decimal.allDigits_text _ _ hmem) (by decide)

/-- A numeric field is its number exactly where the number is not negative, or is not padded
and has a magnitude of 64 bits. -/
theorem datetimeNum_iff (f : FmtFlags) (v natural : Int) (deffill : Char) (hv : Fits 64 v) :
    (∃ r, datetimeNum f v natural [deffill] = some r ∧ NumField f v natural deffill r) ↔
      0 ≤ v ∨ (f.nopad = true ∧ v ≠ -9223372036854775808) := by
  constructor
  · rintro ⟨r, hr, hnum⟩
    by_contra hno
    obtain ⟨hneg, hlast⟩ := not_or.1 hno
    rw [NumField] at hnum
    cases hpad : f.nopad with
    | true =>
      -- the least number is its own negation, so its sign is printed twice
      have hmin : v = -9223372036854775808 := by
        by_contra hne
        exact hlast ⟨hpad, hne⟩
      subst hmin
      rw [if_pos hpad, signText, if_pos (by decide)] at hnum
      have htwo : datetimeNum f (-9223372036854775808) natural [deffill] =
          some ('-' :: '-' :: Decimal.text 9223372036854775808) := by
        unfold datetimeNum
        rw [if_pos hpad]
        rfl
      rw [htwo, hnum] at hr
      have hsame := congrArg List.length (Option.some.inj hr)
      simp at hsame
    | false =>
      rw [if_neg (by simp [hpad])] at hnum
      obtain ⟨s, rfl⟩ := datetimeNum_of_neg hpad (by omega) hr
      exact Padded.getLast_ne hnum.2
  · intro h
    by_cases hneg : v < 0
    · obtain ⟨hpad, hne⟩ := h.resolve_left (by omega)
      have hfit : Fits 64 (0 - v) := by
        rw [fits_64] at hv ⊢
        omega
      refine ⟨_, datetimeNum_nopad natural deffill hpad hneg hfit, ?_⟩
      rw [NumField, if_pos hpad, signText, if_pos hneg]
      rfl
    · refine ⟨_, datetimeNum_of_nonneg f natural deffill (by omega), ?_⟩
      rw [NumField]
      have hsign : signText v = [] := if_neg hneg
      split
      · rw [hsign]
        rfl
      · rw [calPadLeft_replicate]
        constructor
        · rw [List.length_append, List.length_replicate]
          omega
        · refine ⟨0, (f.fieldWidth natural - (Decimal.text v.natAbs).length).toNat, ?_, ?_⟩
          · intro _
            rfl
          · rw [hsign]
            rfl

theorem datetimeNum_iff_three :
    (∃ r, datetimeNum fmtNew 3 2 ['0'] = some r ∧ NumField fmtNew 3 2 '0' r) ↔
      (0 : Int) ≤ 3 ∨ (fmtNew.nopad = true ∧ (3 : Int) ≠ -9223372036854775808) :=
  datetimeNum_iff fmtNew 3 2 '0' (by decide)

/-- The century of the year -150 is printed as `2-`. -/
theorem datetimeNum_century :
    datetimeNum fmtNew (-2) 2 ['0'] = some ['2', '-'] ∧
      ¬ NumField fmtNew (-2) 2 '0' ['2', '-'] := by
  refine ⟨by decide +kernel, ?_⟩
  rintro ⟨-, hpad⟩
  exact Padded.getLast_ne (s := ['2']) hpad

end Datetime

import Resid.Lib.CheckedInt
import Resid.Runtime.Text

/-!
# Calendar helpers: floored division and padded text

    0 < b → a fits → calFloorDiv a b = some (a / b)                (calFloorDiv_eq)
    0 < b → b fits → calFloorMod a b = some (a % b)                (calFloorMod_eq)
    calPadOnto b n k "0" = b ++ padLeft k (text n)                 (calPadOnto_zero)
    calPadLeft s w c = replicate (w - length s) c ++ s             (calPadLeft_replicate)
    calPadLeft s k "0" = padLeft k s                               (calPadLeft_zero)
    calTrimZeros s = trimZeros s                                   (calTrimZeros_eq)
-/

namespace Calendar

open CheckedInt Decimal Runtime

/-! ## Algorithm -/

def calFloorDiv (a b : Int) : Option Int := do
  let q ← div 64 a b
  let r ← mod 64 a b
  let lost := r != 0 && (decide (r < 0) != decide (b < 0))
  if lost then sub 64 q 1 else some q

def calFloorMod (a b : Int) : Option Int := do
  let r ← mod 64 a b
  let lost := r != 0 && (decide (r < 0) != decide (b < 0))
  if lost then add 64 r b else some r

def calFill (b : StrBuf) (fill : Str) (n : Int) : StrBuf :=
  if n ≤ 0 then b else calFill (b ++ fill) fill (n - 1)
termination_by n.toNat

def calPadOnto (b : StrBuf) (v width : Int) (fill : Str) : StrBuf :=
  let s := intText v
  let n : Int := strLen s
  if n ≥ width then b ++ s else calFill b fill (width - n) ++ s

def calPadLeft (s : Str) (width : Int) (fill : Str) : Str :=
  let n : Int := strLen s
  if n ≥ width then s else calFill [] fill (width - n) ++ s

theorem length_lt_of_endsWith_zero {s : Str} (h : strEndsWith s ['0'] = true) :
    (strSlice s 0 (strLen s - 1)).length < s.length := by
  have hlen := (List.isSuffixOf_iff_suffix.1 h).length_le
  rw [strSlice, List.drop_zero, List.length_take, strLen]
  rw [List.length_singleton] at hlen
  omega

def calTrimZeros (s : Str) : Str :=
  if strEndsWith s ['0'] then calTrimZeros (strSlice s 0 (strLen s - 1)) else s
termination_by s.length
decreasing_by exact length_lt_of_endsWith_zero (by assumption)

/-! ## Floored division -/

theorem calFloorDiv_eq {a b : Int} (hb : 0 < b) (ha : Fits 64 a) :
    calFloorDiv a b = some (a / b) := by
  have hpos : decide (b < 0) = false := decide_eq_false (by omega)
  unfold calFloorDiv
  rw [div_of_pos hb ha, mod_of_pos hb, hpos]
  simp only [some_bind]
  rcases tdiv_tmod_floor (a := a) hb with ⟨hr, hq, -⟩ | ⟨hr, hq, -⟩
  · rw [if_neg (by simp [hr]), hq]
  · rw [if_pos (by simp [hr, hr.ne]), hq]
    have hfits : Fits 64 (a / b + 1 - 1) := by
      rw [Int.add_sub_cancel]
      exact fits_ediv hb ha
    rw [sub_of_fits hfits, Int.add_sub_cancel]

theorem calFloorMod_eq {a b : Int} (hb : 0 < b) (hbw : Fits 64 b) :
    calFloorMod a b = some (a % b) := by
  have hpos : decide (b < 0) = false := decide_eq_false (by omega)
  have hlo : 0 ≤ a % b := Int.emod_nonneg a (by omega)
  have hhi : a % b < b := Int.emod_lt_of_pos a hb
  unfold calFloorMod
  rw [mod_of_pos hb, hpos]
  simp only [some_bind]
  rcases tdiv_tmod_floor (a := a) hb with ⟨hr, -, hm⟩ | ⟨hr, -, hm⟩
  · rw [if_neg (by simp [hr]), hm]
  · rw [if_pos (by simp [hr, hr.ne]), add_of_fits, hm]
    rw [hm]
    exact (fits_zero 64).between hbw hlo hhi.le

/-! ## Padded text -/

theorem calFill_replicate (b : StrBuf) (c : Char) (n : Nat) :
    calFill b [c] n = b ++ List.replicate n c := by
  induction n generalizing b with
  | zero =>
    rw [calFill, if_pos (by omega)]
    simp
  | succ n ih =>
    have hn : ((n + 1 : Nat) : Int) - 1 = (n : Int) := by omega
    rw [calFill, if_neg (by omega), hn, ih, List.append_assoc]
    rfl

/-- Padding on the left fills up to the width, and a text that has it is kept. -/
theorem calPadLeft_replicate (s : Str) (c : Char) (width : Int) :
    calPadLeft s width [c] = List.replicate (width - s.length).toNat c ++ s := by
  unfold calPadLeft strLen
  by_cases h : (s.length : Int) ≥ width
  · have hk : (width - (s.length : Int)).toNat = 0 := by omega
    simp only [if_pos h, hk]
    rfl
  · have hk : width - (s.length : Int) = ((width - (s.length : Int)).toNat : Int) := by omega
    simp only [if_neg h]
    rw [hk, calFill_replicate, Int.toNat_natCast]
    rfl

theorem calPadOnto_zero (b : StrBuf) (n k : Nat) :
    calPadOnto b n k ['0'] = b ++ padLeft k (text n) := by
  unfold calPadOnto strLen
  simp only [intText_natCast]
  by_cases h : ((text n).length : Int) ≥ k
  · have hk : k - (text n).length = 0 := by omega
    rw [if_pos h, padLeft, hk]
    rfl
  · have hk : (k : Int) - ((text n).length : Int) = ((k - (text n).length : Nat) : Int) := by omega
    rw [if_neg h, hk, calFill_replicate, List.append_assoc]
    rfl

/-- One digit is never short of one character. -/
theorem calPadOnto_one (b : StrBuf) (n : Nat) : calPadOnto b n 1 ['0'] = b ++ text n := by
  have hlen := length_text_pos n
  have hk : 1 - (text n).length = 0 := by omega
  rw [show (1 : Int) = ((1 : Nat) : Int) from rfl, calPadOnto_zero, padLeft, hk]
  rfl

theorem calPadLeft_zero (s : Str) (k : Nat) : calPadLeft s k ['0'] = padLeft k s := by
  have hk : ((k : Int) - (s.length : Int)).toNat = k - s.length := by omega
  rw [calPadLeft_replicate, hk]
  rfl

theorem strEndsWith_concat (s : Str) (c : Char) : strEndsWith (s ++ [c]) ['0'] = (c == '0') := by
  rw [strEndsWith, Bool.eq_iff_iff, List.isSuffixOf_iff_suffix]
  constructor
  · rintro ⟨t, ht⟩
    have hc := (List.append_inj' ht rfl).2
    rw [List.cons.injEq] at hc
    rw [hc.1, beq_self_eq_true]
  · intro h
    rw [eq_of_beq h]
    exact List.suffix_append s ['0']

theorem calTrimZeros_eq (s : Str) : calTrimZeros s = trimZeros s := by
  induction s using List.reverseRecOn with
  | nil =>
    rw [calTrimZeros]
    rfl
  | append_singleton s c ih =>
    rw [calTrimZeros, strEndsWith_concat]
    by_cases hc : c = '0'
    · have hs : strSlice (s ++ [c]) 0 (strLen (s ++ [c]) - 1) = s := by
        simp [strSlice, strLen]
      have htrim : trimZeros (s ++ [c]) = trimZeros s :=
        List.rdropWhile_concat_pos _ _ _ (by simp [hc])
      rw [if_pos (by simp [hc]), hs, ih, htrim]
    · have htrim : trimZeros (s ++ [c]) = s ++ [c] :=
        List.rdropWhile_concat_neg _ _ _ (by simp [hc])
      rw [if_neg (by simp [hc]), htrim]

end Calendar

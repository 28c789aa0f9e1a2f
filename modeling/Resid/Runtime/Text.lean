import Mathlib.Data.List.DropRight
import Resid.Lib.Decimal

/-!
# Text at run time

A `Str` is its list of codepoints; indices and lengths count codepoints.  A string
builder is the text pushed so far, so pushing is appending.

    s.drop i = c :: r → strCharAt s i = c.toNat ∧ i < strLen s       (strCharAt_of_drop)
    s.drop i = [] → strLen s ≤ i                                     (strLen_le_of_drop)
-/

namespace Runtime

abbrev Str := List Char

abbrev StrBuf := List Char

def strLen (s : Str) : Nat := s.length

/-- Codepoint `i`, or -1 out of bounds. -/
def strCharAt (s : Str) (i : Nat) : Int :=
  match s[i]? with
  | some c => (c.toNat : Int)
  | none => -1

/-- Half-open substring, clamped to the text. -/
def strSlice (s : Str) (start stop : Nat) : Str := (s.drop start).take (stop - start)

def strEndsWith (s t : Str) : Bool := t.isSuffixOf s

/-- The codepoint a builder stores for `cp`: one that is not a scalar value is replaced. -/
def codeChar (cp : Int) : Char :=
  if cp < 0 ∨ (cp ≥ 55296 ∧ cp ≤ 57343) ∨ cp > 1114111 then Char.ofNat 65533
  else Char.ofNat cp.toNat

def pushChar (b : StrBuf) (cp : Int) : StrBuf := b ++ [codeChar cp]

/-- A finished text ends at its first NUL. -/
def finishText (b : StrBuf) : Str := b.takeWhile (· != Char.ofNat 0)

/-- The text of an integer in an f-string. -/
def intText (v : Int) : Str :=
  if v < 0 then '-' :: Decimal.text v.natAbs else Decimal.text v.natAbs

/-! ## Builders -/

theorem toNat_lt (c : Char) : c.toNat < 1114112 := by
  have hvalid := c.valid
  unfold UInt32.isValidChar Nat.isValidChar at hvalid
  show c.val.toNat < 1114112
  omega

theorem codeChar_toNat (c : Char) : codeChar (c.toNat : Int) = c := by
  unfold codeChar
  have hv := c.valid
  simp only [UInt32.isValidChar, Nat.isValidChar] at hv
  have hn : c.val.toNat = c.toNat := rfl
  rw [if_neg (by omega), Int.toNat_natCast]
  exact Char.ofNat_toNat c

variable {r s : Str} {i : Nat} {c : Char}

theorem finishText_of_not_mem (h : Char.ofNat 0 ∉ s) : finishText s = s := by
  rw [finishText, List.takeWhile_eq_self_iff]
  intro c hc
  simp only [bne_iff_ne]
  exact fun he => h (he ▸ hc)

/-! ## Reading at a position -/

theorem lt_of_drop (h : s.drop i = c :: r) : i < strLen s := by
  have hlen := congrArg List.length h
  rw [List.length_drop, List.length_cons] at hlen
  unfold strLen
  omega

theorem strLen_le_of_drop (h : s.drop i = []) : strLen s ≤ i :=
  List.drop_eq_nil_iff.1 h

theorem getElem?_of_drop (h : s.drop i = c :: r) : s[i]? = some c := by
  have h0 : (s.drop i)[0]? = s[i + 0]? := List.getElem?_drop
  rw [h, Nat.add_zero] at h0
  exact h0.symm

theorem strCharAt_of_drop (h : s.drop i = c :: r) : strCharAt s i = c.toNat := by
  unfold strCharAt
  rw [getElem?_of_drop h]

theorem drop_succ_of_drop (h : s.drop i = c :: r) : s.drop (i + 1) = r := by
  rw [← List.drop_drop, h]
  rfl

theorem drop_add_of_drop {p : Str} (h : s.drop i = p ++ r) : s.drop (i + p.length) = r := by
  rw [← List.drop_drop, h, List.drop_left]

/-- A slice of the length of `t` is `t` exactly when the rest of the text starts with `t`. -/
theorem strSlice_eq_iff {t : Str} : strSlice s i (i + strLen t) = t ↔ t <+: s.drop i := by
  unfold strSlice strLen
  rw [Nat.add_sub_cancel_left, List.prefix_iff_eq_take]
  exact eq_comm

theorem intText_natCast (n : Nat) : intText n = Decimal.text n := by
  rw [intText, if_neg (by omega), Int.natAbs_natCast]

/-!
## Text verbs

Trimming, searching, splitting and reading integers, over codepoints.  A search over the
UTF-8 bytes finds what a search over codepoints finds, so the loops below run over the
text itself, one codepoint at a time.
-/

def isSpace (c : Char) : Bool :=
  c == ' ' || c == '\t' || c == '\n' || c == '\x0d' || c == '\x0b' || c == '\x0c'

def strTrim (s : Str) : Str := (s.dropWhile isSpace).rdropWhile isSpace

def strStartsWith (s pre : Str) : Bool := pre.isPrefixOf s

/-- Where `needle` first stands in what is left, `i` the position of its start; -1 nowhere. -/
def findText (needle : Str) : Str → Nat → Int
  | [], i => if needle.isEmpty then i else -1
  | c :: s, i => if needle.isPrefixOf (c :: s) then i else findText needle s (i + 1)

def strIndexOf (s needle : Str) (start : Nat) : Int :=
  if start > s.length then -1 else findText needle (s.drop start) start

/-- The pieces of what is left, `skip` codepoints of a separator still to pass and `cur`
the piece being read. -/
def splitAt (sep : Str) : Str → Nat → Str → List Str
  | [], _, cur => [cur]
  | c :: s, 0, cur =>
    if sep.isPrefixOf (c :: s) then cur :: splitAt sep s (sep.length - 1) []
    else splitAt sep s 0 (cur ++ [c])
  | _ :: s, skip + 1, cur => splitAt sep s skip cur

/-- Split on `sep`; an empty separator splits nothing. -/
def strSplit (s sep : Str) : List Str := if sep.isEmpty then [s] else splitAt sep s 0 []

def strContains (s needle : Str) : Bool := decide (0 ≤ findText needle s 0)

/-- Every occurrence of `old` by `new`, from the front; an empty `old` replaces nothing. -/
def strReplace (s old new : Str) : Str := List.intercalate new (strSplit s old)

def isAsciiDigit (c : Char) : Bool := decide (48 ≤ c.toNat) && decide (c.toNat ≤ 57)

/-- A sign or none, then digits. -/
def strIsInt (s : Str) : Bool :=
  let digits := match s with
    | c :: r => if c = '-' ∨ c = '+' then r else s
    | [] => []
  !digits.isEmpty && digits.all isAsciiDigit

/-- The value of the digits, saturating at the Int range; 0 for a text that is no integer. -/
def strParseInt (s : Str) : Int :=
  let digits := match s with
    | c :: r => if c = '-' ∨ c = '+' then r else s
    | [] => []
  if digits.isEmpty || !digits.all isAsciiDigit then 0
  else
    let n := digits.foldl (fun acc c => acc * 10 + (c.toNat - 48)) 0
    if s.head? = some '-' then max (-9223372036854775808) (-(n : Int))
    else min 9223372036854775807 (n : Int)

/-- Lower case, for text of the first 256 codepoints: the fields of a request are such. -/
def lowerChar (c : Char) : Char :=
  if (65 ≤ c.toNat ∧ c.toNat ≤ 90) ∨ (192 ≤ c.toNat ∧ c.toNat ≤ 222 ∧ c.toNat ≠ 215) then
    Char.ofNat (c.toNat + 32)
  else c

def strToLower (s : Str) : Str := s.map lowerChar

example : strSplit "a, b,,c".toList ",".toList =
    ["a".toList, " b".toList, [], "c".toList] := by decide

/-! ## Splitting at one codepoint -/

theorem splitAt_single (c : Char) (s cur : Str) :
    splitAt [c] s 0 cur = (s.splitOn c).modifyHead (cur ++ ·) := by
  induction s generalizing cur with
  | nil =>
    show [cur] = [cur ++ []]
    rw [List.append_nil]
  | cons d s ih =>
    rw [List.splitOn_cons_eq_if_modifyHead, splitAt]
    by_cases hd : d = c
    · subst hd
      have hpre : [d].isPrefixOf (d :: s) = true := by simp
      have hzero : [d].length - 1 = 0 := rfl
      rw [hzero, ih]
      have hid : (s.splitOn d).modifyHead ([] ++ ·) = s.splitOn d := by
        cases s.splitOn d <;> rfl
      rw [hid]
      simp
    · have hpre : ¬ [c].isPrefixOf (d :: s) = true := by
        simp only [List.isPrefixOf, Bool.and_true, beq_iff_eq]
        exact fun h => hd h.symm
      have hne : ¬ (d == c) = true := fun h => hd (eq_of_beq h)
      rw [if_neg hpre, if_neg hne, ih, List.modifyHead_modifyHead]
      congr 1
      funext x
      show cur ++ [d] ++ x = cur ++ (d :: x)
      rw [List.append_assoc]
      rfl

theorem strSplit_single (s : Str) (c : Char) : strSplit s [c] = s.splitOn c := by
  have hsep : ¬ [c].isEmpty = true := Bool.false_ne_true
  rw [strSplit, if_neg hsep, splitAt_single]
  cases s.splitOn c <;> rfl

/-!
## Hex

    hexEncode b   two lowercase digits for each byte, none of them white space (isSpace_hexEncode)
-/

abbrev Byte := Fin 256

instance neZero_byte : NeZero 256 := ⟨by decide⟩

def hexDigit (d : Nat) : Char := if d < 10 then Char.ofNat (d + 48) else Char.ofNat (d + 87)

def hexByte (b : Byte) : Str := [hexDigit (b / 16 : Nat), hexDigit (b % 16 : Nat)]

def hexEncode (bytes : List Byte) : Str := bytes.flatMap hexByte

theorem hexEncode_ne {bytes : List Byte} (h : bytes ≠ []) : hexEncode bytes ≠ [] := by
  obtain ⟨b, bs, rfl⟩ := List.exists_cons_of_ne_nil h
  exact List.cons_ne_nil _ _

theorem isSpace_hexDigit {d : Nat} (h : d < 16) : isSpace (hexDigit d) = false := by
  have hall : ∀ d < 16, isSpace (hexDigit d) = false := by decide
  exact hall d h

/-- A hex text has no white space. -/
theorem isSpace_hexEncode {bytes : List Byte} (h : c ∈ hexEncode bytes) : isSpace c = false := by
  obtain ⟨b, -, hc⟩ := List.mem_flatMap.1 h
  rcases List.mem_cons.1 hc with rfl | hc
  · exact isSpace_hexDigit (by omega)
  · rw [List.mem_singleton.1 hc]
    exact isSpace_hexDigit (by omega)

end Runtime

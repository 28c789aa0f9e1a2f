import Resid.Runtime.Text

/-!
# String literals written and read

A known string is written back as a plain literal: quotes, backslashes and the three control
characters with a letter are escaped, everything else stands for itself.  The reader takes
`\n \t \r \xHH` and `\X` for `X`; a NUL escape has no value.

    rdStrRenderable v → rdStrDec ("…" around rdStrEnc v) = some v       (rdStrDec_rdStrLit)

A backslash is always written doubled, so what follows it never reads as a longer escape.
-/

namespace Reduce

open Runtime

/-! ## Reading -/

def rdHexDigit (c : Int) : Int :=
  if 48 ≤ c ∧ c ≤ 57 then c - 48
  else if 97 ≤ c ∧ c ≤ 102 then c - 87
  else if 65 ≤ c ∧ c ≤ 70 then c - 55
  else -1

/-- The value of a `\xHH` escape at the backslash, or -1. -/
def rdHexEsc (t : Str) (i : Nat) : Int :=
  if strCharAt t (i + 1) ≠ 120 then -1
  else
    let h := rdHexDigit (strCharAt t (i + 2))
    let l := rdHexDigit (strCharAt t (i + 3))
    if h < 0 ∨ l < 0 then -1 else h * 16 + l

/-- What the letter of a short escape stands for. -/
def escLetter (e : Int) : Int :=
  if e = 110 then 10 else if e = 116 then 9 else if e = 114 then 13 else e

/-- The contents of a literal's text from `i` to `n`; none for a NUL escape. -/
def rdStrDecAt (t : Str) (i n : Nat) (sb : StrBuf) : Option Str :=
  if i ≥ n then some (finishText sb)
  else
    let c := strCharAt t i
    if c = 92 then
      let e := strCharAt t (i + 1)
      if e = 48 then none
      else
        let x := rdHexEsc t i
        if x = 0 then none
        else if x > 0 then rdStrDecAt t (i + 4) n (pushChar sb x)
        else rdStrDecAt t (i + 2) n (pushChar sb (escLetter e))
    else rdStrDecAt t (i + 1) n (pushChar sb c)
termination_by n - i

/-- The contents of a quoted literal. -/
def rdStrDec (tok : Str) : Option Str := rdStrDecAt tok 1 (strLen tok - 1) []

/-! ## Writing -/

/-- What is left of `v` as literal text; empty when it holds another control character. -/
def rdStrEncAt : Str → StrBuf → Str
  | [], sb => finishText sb
  | ch :: v, sb =>
    let c := ch.toNat
    if c = 34 then rdStrEncAt v (sb ++ "\\\"".toList)
    else if c = 92 then rdStrEncAt v (sb ++ "\\\\".toList)
    else if c = 10 then rdStrEncAt v (sb ++ "\\n".toList)
    else if c = 9 then rdStrEncAt v (sb ++ "\\t".toList)
    else if c = 13 then rdStrEncAt v (sb ++ "\\r".toList)
    else if c < 32 ∨ c = 127 then []
    else rdStrEncAt v (pushChar sb c)

def rdStrEnc (v : Str) : Str := rdStrEncAt v []

/-- Can `v` be written as a plain literal? -/
def rdStrRenderable : Str → Bool
  | [] => true
  | ch :: v =>
    let c := ch.toNat
    if c < 32 ∧ c ≠ 10 ∧ c ≠ 9 ∧ c ≠ 13 then false
    else if c = 127 then false
    else rdStrRenderable v

/-- The literal of `v`. -/
def rdStrLit (v : Str) : Str := "\"".toList ++ rdStrEnc v ++ "\"".toList

/-! ## The round trip -/

/-- A codepoint as it stands in a literal. -/
def litChar (ch : Char) : Str :=
  let c := ch.toNat
  if c = 34 then "\\\"".toList
  else if c = 92 then "\\\\".toList
  else if c = 10 then "\\n".toList
  else if c = 9 then "\\t".toList
  else if c = 13 then "\\r".toList
  else [ch]

variable {ch : Char} {r t v : Str} {i n : Nat}

theorem rdStrRenderable_cons (h : rdStrRenderable (ch :: v) = true) :
    (ch.toNat < 32 → ch.toNat = 10 ∨ ch.toNat = 9 ∨ ch.toNat = 13) ∧ ch.toNat ≠ 127 ∧
      rdStrRenderable v = true := by
  simp only [rdStrRenderable] at h
  split_ifs at h with h1 h2
  exact ⟨by omega, h2, h⟩

theorem rdStrEncAt_eq (v sb : Str) (h : rdStrRenderable v = true) :
    rdStrEncAt v sb = finishText (sb ++ v.flatMap litChar) := by
  induction v generalizing sb with
  | nil => simp [rdStrEncAt]
  | cons ch v ih =>
    obtain ⟨h1, h2, h3⟩ := rdStrRenderable_cons h
    simp only [rdStrEncAt, List.flatMap_cons, litChar]
    split_ifs with c1 c2 c3 c4 c5 c6
    · rw [ih _ h3, List.append_assoc]
    · rw [ih _ h3, List.append_assoc]
    · rw [ih _ h3, List.append_assoc]
    · rw [ih _ h3, List.append_assoc]
    · rw [ih _ h3, List.append_assoc]
    · omega
    · rw [ih _ h3, pushChar, codeChar_toNat, List.append_assoc]

theorem not_control_of_renderable {c : Char} (h : rdStrRenderable v = true) (hc : c.toNat < 32)
    (hn : c.toNat ≠ 10 ∧ c.toNat ≠ 9 ∧ c.toNat ≠ 13) : c ∉ v := by
  induction v with
  | nil => simp
  | cons ch v ih =>
    obtain ⟨h1, -, h3⟩ := rdStrRenderable_cons h
    intro hm
    rcases List.mem_cons.1 hm with rfl | hm
    · have := h1 hc
      omega
    · exact ih h3 hm

theorem not_nul_of_renderable (h : rdStrRenderable v = true) : Char.ofNat 0 ∉ v :=
  not_control_of_renderable h (by decide) (by decide)

theorem not_nul_litChar (h : ch ≠ Char.ofNat 0) : Char.ofNat 0 ∉ litChar ch := by
  simp only [litChar]
  split_ifs
  · decide
  · decide
  · decide
  · decide
  · decide
  · simpa using Ne.symm h

theorem rdStrEnc_eq (h : rdStrRenderable v = true) : rdStrEnc v = v.flatMap litChar := by
  rw [rdStrEnc, rdStrEncAt_eq v [] h, List.nil_append]
  refine finishText_of_not_mem ?_
  rw [List.mem_flatMap]
  rintro ⟨c, hc, hin⟩
  exact not_nul_litChar (fun he => not_nul_of_renderable h (he ▸ hc)) hin

/-- A two-codepoint escape reads as its letter's meaning. -/
theorem rdStrDecAt_esc {e : Char} (h : t.drop i = '\\' :: e :: r) (hi : i < n) (h0 : e.toNat ≠ 48)
    (hx : e.toNat ≠ 120) (sb : StrBuf) :
    rdStrDecAt t i n sb = rdStrDecAt t (i + 2) n (pushChar sb (escLetter e.toNat)) := by
  have hc := strCharAt_of_drop h
  have he := strCharAt_of_drop (drop_succ_of_drop h)
  have hbs : strCharAt t i = 92 := hc
  have hhex : rdHexEsc t i = -1 := by
    rw [rdHexEsc, he, if_pos (by omega)]
  rw [rdStrDecAt, if_neg (by omega)]
  simp only [hbs, he, hhex]
  rw [if_pos trivial, if_neg (by omega), if_neg (by decide), if_neg (by decide)]

theorem rdStrDecAt_plain (h : t.drop i = ch :: r) (hi : i < n) (hc : ch.toNat ≠ 92) (sb : StrBuf) :
    rdStrDecAt t i n sb = rdStrDecAt t (i + 1) n (sb ++ [ch]) := by
  have hch := strCharAt_of_drop h
  rw [rdStrDecAt, if_neg (by omega)]
  simp only [hch]
  rw [if_neg (by omega), pushChar, codeChar_toNat]

theorem pushChar_code {k : Nat} (h : ch.toNat = k) (sb : StrBuf) :
    pushChar sb (k : Int) = sb ++ [ch] := by
  rw [pushChar, ← h, codeChar_toNat]

theorem litChar_pos (ch : Char) : 0 < (litChar ch).length := by
  simp only [litChar]
  split_ifs <;> simp

/-- One written codepoint is read back whatever follows it. -/
theorem rdStrDecAt_litChar (h : t.drop i = litChar ch ++ r) (hi : i < n) (sb : StrBuf) :
    rdStrDecAt t i n sb = rdStrDecAt t (i + (litChar ch).length) n (sb ++ [ch]) := by
  simp only [litChar] at h ⊢
  split_ifs at h ⊢ with c1 c2 c3 c4 c5
  · rw [rdStrDecAt_esc (e := '\"') h hi (by decide) (by decide), ← pushChar_code c1]
    rfl
  · rw [rdStrDecAt_esc (e := '\\') h hi (by decide) (by decide), ← pushChar_code c2]
    rfl
  · rw [rdStrDecAt_esc (e := 'n') h hi (by decide) (by decide), ← pushChar_code c3]
    rfl
  · rw [rdStrDecAt_esc (e := 't') h hi (by decide) (by decide), ← pushChar_code c4]
    rfl
  · rw [rdStrDecAt_esc (e := 'r') h hi (by decide) (by decide), ← pushChar_code c5]
    rfl
  · exact rdStrDecAt_plain h hi c2 sb

theorem rdStrDecAt_lits (v : Str) (h : t.drop i = v.flatMap litChar ++ r)
    (hn : n = i + (v.flatMap litChar).length) (sb : StrBuf) :
    rdStrDecAt t i n sb = some (finishText (sb ++ v)) := by
  induction v generalizing i sb with
  | nil =>
    rw [rdStrDecAt, if_pos (by simpa using Nat.le_of_eq hn), List.append_nil]
  | cons ch v ih =>
    rw [List.flatMap_cons, List.append_assoc] at h
    rw [List.flatMap_cons, List.length_append] at hn
    have hpos := litChar_pos ch
    rw [rdStrDecAt_litChar h (by omega), ih (drop_add_of_drop h) (by omega), List.append_assoc]
    rfl

/-- Writing a renderable string as a literal and reading it back gives the string. -/
theorem rdStrDec_rdStrLit (v : Str) (h : rdStrRenderable v = true) :
    rdStrDec (rdStrLit v) = some v := by
  have hdrop : (rdStrLit v).drop 1 = v.flatMap litChar ++ "\"".toList := by
    rw [rdStrLit, rdStrEnc_eq h]
    rfl
  have hlen : strLen (rdStrLit v) - 1 = 1 + (v.flatMap litChar).length := by
    rw [rdStrLit, rdStrEnc_eq h]
    simp [strLen]
    omega
  rw [rdStrDec, rdStrDecAt_lits v hdrop hlen, List.nil_append,
    finishText_of_not_mem (not_nul_of_renderable h)]

/-- A backslash before what looks like the rest of an escape, a quote, a brace and a line
break. -/
theorem rdStrDec_rdStrLit_mixed :
    rdStrDec (rdStrLit "\\x41\\0\"\x7b\n\u00e9".toList) = some "\\x41\\0\"\x7b\n\u00e9".toList :=
  rdStrDec_rdStrLit _ (by decide)

end Reduce

import Resid.Lib.PrefixCode
import Resid.Runtime.Text

/-!
# Huffman coding of header strings

Strings of a header block may be written in the static Huffman code: every octet as its code
word, then fewer than eight one bits up to the end of an octet.

    octetBits input = codeWords s ++ ones → ((hpHuffStr b p n).s = octetText s ↔ 0 ∉ s)
                                                                             (huffman_exact)
    octetBits input = codeWords s ++ any other tail → (hpHuffStr b p n).bad  (hpHuffStr_tail)

## Algorithm

A symbol is looked up after every bit read.  The code is a prefix code, so the first word met is the
only one at the head of what is left.
-/

namespace H2

open Runtime PrefixCode

/-! ## The code -/

@[irreducible] def huffCodes : List Nat :=
  [8184, 8388568, 268435426, 268435427, 268435428, 268435429, 268435430, 268435431, 268435432,
   16777194, 1073741820, 268435433, 268435434, 1073741821, 268435435, 268435436, 268435437,
   268435438, 268435439, 268435440, 268435441, 268435442, 1073741822, 268435443, 268435444,
   268435445, 268435446, 268435447, 268435448, 268435449, 268435450, 268435451, 20, 1016, 1017,
   4090, 8185, 21, 248, 2042, 1018, 1019, 249, 2043, 250, 22, 23, 24, 0, 1, 2, 25, 26, 27, 28, 29,
   30, 31, 92, 251, 32764, 32, 4091, 1020, 8186, 33, 93, 94, 95, 96, 97, 98, 99, 100, 101, 102,
   103, 104, 105, 106, 107, 108, 109, 110, 111, 112, 113, 114, 252, 115, 253, 8187, 524272, 8188,
   16380, 34, 32765, 3, 35, 4, 36, 5, 37, 38, 39, 6, 116, 117, 40, 41, 42, 7, 43, 118, 44, 8, 9,
   45, 119, 120, 121, 122, 123, 32766, 2044, 16381, 8189, 268435452, 1048550, 4194258, 1048551,
   1048552, 4194259, 4194260, 4194261, 8388569, 4194262, 8388570, 8388571, 8388572, 8388573,
   8388574, 16777195, 8388575, 16777196, 16777197, 4194263, 8388576, 16777198, 8388577, 8388578,
   8388579, 8388580, 2097116, 4194264, 8388581, 4194265, 8388582, 8388583, 16777199, 4194266,
   2097117, 1048553, 4194267, 4194268, 8388584, 8388585, 2097118, 8388586, 4194269, 4194270,
   16777200, 2097119, 4194271, 8388587, 8388588, 2097120, 2097121, 4194272, 2097122, 8388589,
   4194273, 8388590, 8388591, 1048554, 4194274, 4194275, 4194276, 8388592, 4194277, 4194278,
   8388593, 67108832, 67108833, 1048555, 524273, 4194279, 8388594, 4194280, 33554412, 67108834,
   67108835, 67108836, 134217694, 134217695, 67108837, 16777201, 33554413, 524274, 2097123,
   67108838, 134217696, 134217697, 67108839, 134217698, 16777202, 2097124, 2097125, 67108840,
   67108841, 268435453, 134217699, 134217700, 134217701, 1048556, 16777203, 1048557, 2097126,
   4194281, 2097127, 2097128, 8388595, 4194282, 4194283, 33554414, 33554415, 16777204, 16777205,
   67108842, 8388596, 67108843, 134217702, 67108844, 67108845, 134217703, 134217704, 134217705,
   134217706, 134217707, 268435454, 134217708, 134217709, 134217710, 134217711, 134217712,
   67108846, 1073741823]

@[irreducible] def huffBits : List Nat :=
  [13, 23, 28, 28, 28, 28, 28, 28, 28, 24, 30, 28, 28, 30, 28, 28, 28, 28, 28, 28, 28, 28, 30, 28,
   28, 28, 28, 28, 28, 28, 28, 28, 6, 10, 10, 12, 13, 6, 8, 11, 10, 10, 8, 11, 8, 6, 6, 6, 5, 5,
   5, 6, 6, 6, 6, 6, 6, 6, 7, 8, 15, 6, 12, 10, 13, 6, 7, 7, 7, 7, 7, 7, 7, 7, 7, 7, 7, 7, 7, 7,
   7, 7, 7, 7, 7, 7, 7, 7, 8, 7, 8, 13, 19, 13, 14, 6, 15, 5, 6, 5, 6, 5, 6, 6, 6, 5, 7, 7, 6, 6,
   6, 5, 6, 7, 6, 5, 5, 6, 7, 7, 7, 7, 7, 15, 11, 14, 13, 28, 20, 22, 20, 20, 22, 22, 22, 23, 22,
   23, 23, 23, 23, 23, 24, 23, 24, 24, 22, 23, 24, 23, 23, 23, 23, 21, 22, 23, 22, 23, 23, 24, 22,
   21, 20, 22, 22, 23, 23, 21, 23, 22, 22, 24, 21, 22, 23, 23, 21, 21, 22, 21, 23, 22, 23, 23, 20,
   22, 22, 22, 23, 22, 22, 23, 26, 26, 20, 19, 22, 23, 22, 25, 26, 26, 26, 27, 27, 26, 24, 25, 19,
   21, 26, 27, 27, 26, 27, 24, 21, 21, 26, 26, 28, 27, 27, 27, 20, 24, 20, 21, 22, 21, 21, 23, 22,
   22, 25, 25, 24, 24, 26, 23, 26, 27, 26, 26, 27, 27, 27, 27, 27, 28, 27, 27, 27, 27, 27, 26, 30]

/-- The entry of a table for `s`, -1 past its end. -/
def entryAt (table : List Nat) (s : Nat) : Int :=
  match table[s]? with
  | some v => v
  | none => -1

/-- The code word of `s`, right-aligned. -/
def hpHuffCode (s : Nat) : Int := entryAt huffCodes s

/-- The length of the code word of `s`. -/
def hpHuffBits (s : Nat) : Int := entryAt huffBits s

/-! ## The decoder -/

structure HuffState where
  sym : Int
  nextg : Nat
  bad : Bool

structure HuffDec where
  s : Str
  nextg : Nat
  bad : Bool

/-- Bit `g`, most significant first; -1 from `gend` on. -/
def hpBitAt (b : List UInt8) (g gend : Nat) : Int :=
  if g ≥ gend then -1
  else
    let bytei := g / 8
    let off := g - bytei * 8
    let sh := 7 - off
    let byte := (b.getD bytei 0).toNat
    let masked := byte >>> sh
    (masked &&& 1 : Nat)

/-- The first symbol from `s` on whose code is exactly `l` bits with value `code`. -/
def hpHuffFindAt (l code : Int) (s : Nat) : Int :=
  if s > 257 then -1
  else if hpHuffBits s = l ∧ hpHuffCode s = code then s
  else hpHuffFindAt l code (s + 1)
termination_by 258 - s

def hpHuffFind (l code : Int) : Int := hpHuffFindAt l code 0

/-- One symbol from bit `g`, after `len` bits of value `acc`. -/
def hpHuffOne (b : List UInt8) (g gend len : Nat) (acc : Int) : HuffState :=
  if len ≥ 30 then ⟨0, g, true⟩
  else
    let bitv := hpBitAt b g gend
    if bitv < 0 then ⟨0, g, true⟩
    else
      let acc2 := acc * 2 + bitv
      let l2 := len + 1
      let sym := hpHuffFind l2 acc2
      if sym = 256 then ⟨0, g, true⟩
      else if sym ≥ 0 then ⟨sym, g + 1, false⟩
      else hpHuffOne b (g + 1) gend l2 acc2
termination_by 30 - len

/-- Whether bits `g` to `gend` are ones, as padding is. -/
def hpPadOnes (b : List UInt8) (g gend : Nat) : Bool :=
  if g ≥ gend then true
  else if hpBitAt b g gend ≠ 1 then false
  else hpPadOnes b (g + 1) gend
termination_by gend - g

/-- A symbol ends past its first bit, inside the input. -/
theorem hpHuffOne_nextg (b : List UInt8) (g gend len : Nat) (acc : Int)
    (h : (hpHuffOne b g gend len acc).bad = false) :
    g < (hpHuffOne b g gend len acc).nextg ∧ (hpHuffOne b g gend len acc).nextg ≤ gend := by
  induction hn : 30 - len generalizing g len acc with
  | zero =>
    rw [hpHuffOne, if_pos (by omega)] at h
    cases h
  | succ n ih =>
    rw [hpHuffOne] at h ⊢
    by_cases hlen : len ≥ 30
    · rw [if_pos hlen] at h
      cases h
    have hin : ¬ hpBitAt b g gend < 0 → g < gend := by
      intro hbit
      by_contra hge
      rw [hpBitAt, if_pos (by omega)] at hbit
      omega
    simp only [] at h ⊢
    split_ifs at h ⊢ with hbit heos hsym
    · have hlt := hin hbit
      exact ⟨Nat.lt_succ_self g, hlt⟩
    · have hnext := ih (g + 1) (len + 1) _ h (by omega)
      omega

/-- Symbols in bits `g` to `gend`; fewer than eight ones may follow the last. -/
def hpHuffLoop (b : List UInt8) (g gend : Nat) (sb : StrBuf) : HuffDec :=
  let rem := gend - g
  if rem = 0 then ⟨finishText sb, gend, false⟩
  else if rem < 5 then ⟨finishText sb, gend, !hpPadOnes b g gend⟩
  else
    let st := hpHuffOne b g gend 0 0
    if _h : st.bad then
      if rem < 8 then ⟨finishText sb, gend, !hpPadOnes b g gend⟩
      else ⟨finishText sb, st.nextg, true⟩
    else hpHuffLoop b st.nextg gend (pushChar sb st.sym)
termination_by gend - g
decreasing_by
  have hnext := hpHuffOne_nextg b g gend 0 0 (by simpa using _h)
  omega

/-- The string in `nbytes` octets from `p0`. -/
def hpHuffStr (b : List UInt8) (p0 nbytes : Nat) : HuffDec :=
  hpHuffLoop b (p0 * 8) ((p0 + nbytes) * 8) []

/-! ## A prefix code -/

theorem huff_table : huffCodes.length = 257 ∧ huffBits.length = 257 ∧
    allApart ((huffCodes.zip huffBits).map (range 30)) = true ∧
    (∀ c ∈ huffCodes.zip huffBits, 5 ≤ c.2 ∧ c.2 ≤ 30 ∧ c.1 < 2 ^ c.2) ∧
    (∀ c ∈ (huffCodes.zip huffBits).take 256, c.1 + 1 < 2 ^ c.2) ∧ hpHuffBits 256 = 30 := by
  decide +kernel

/-- The code word of a symbol; the last symbol is the end of string. -/
def huffWord (s : Fin 257) : List Bool := bits (hpHuffBits s).toNat (hpHuffCode s).toNat

variable {g gend s : Nat} {r w : List Bool} {b : List UInt8}

theorem entryAt_eq {table : List Nat} (h : s < table.length) :
    entryAt table s = (table[s] : Int) := by
  rw [entryAt, List.getElem?_eq_getElem h]

theorem entryAt_neg {table : List Nat} (h : table.length ≤ s) : entryAt table s = -1 := by
  rw [entryAt, List.getElem?_eq_none h]

/-- The entries of a symbol. -/
theorem huff_entry (s : Fin 257) : ∃ c n : Nat, hpHuffCode s = c ∧ hpHuffBits s = n ∧
    huffWord s = bits n c ∧ 5 ≤ n ∧ n ≤ 30 ∧ c < 2 ^ n ∧ (s.val < 256 → c + 1 < 2 ^ n) := by
  obtain ⟨hc, hb, -, hfit, hones, -⟩ := huff_table
  have hsc : s.val < huffCodes.length := by omega
  have hsb : s.val < huffBits.length := by omega
  have hcode : hpHuffCode s = (huffCodes[s.val] : Int) := entryAt_eq hsc
  have hbits : hpHuffBits s = (huffBits[s.val] : Int) := entryAt_eq hsb
  have hlen : s.val < (huffCodes.zip huffBits).length := by
    rw [List.length_zip]
    omega
  have hpair : (huffCodes.zip huffBits)[s.val] = (huffCodes[s.val], huffBits[s.val]) :=
    List.getElem_zip
  have hin := hfit _ (List.getElem_mem hlen)
  rw [hpair] at hin
  refine ⟨_, _, hcode, hbits, ?_, hin.1, hin.2.1, hin.2.2, ?_⟩
  · rw [huffWord, hcode, hbits, Int.toNat_natCast, Int.toNat_natCast]
  · intro h
    have hmem : (huffCodes[s.val], huffBits[s.val]) ∈ (huffCodes.zip huffBits).take 256 := by
      rw [List.mem_take_iff_getElem]
      exact ⟨s.val, by omega, hpair⟩
    exact hones _ hmem

theorem length_huffWord (s : Fin 257) : 5 ≤ (huffWord s).length ∧ (huffWord s).length ≤ 30 := by
  obtain ⟨c, n, -, -, hword, hlo, hhi, -⟩ := huff_entry s
  rw [hword, length_bits]
  exact ⟨hlo, hhi⟩

/-- The code of header strings, with the end of string. -/
def huffCode : PrefixCode (Fin 257) Bool where
  word := huffWord
  word_ne_nil s := by
    intro h
    have hlen := (length_huffWord s).1
    rw [h, List.length_nil] at hlen
    omega
  free s t := by
    intro h
    obtain ⟨hc, hb, hapart, hfit, -⟩ := huff_table
    have hs := s.isLt
    have ht := t.isLt
    have hlen : (huffCodes.zip huffBits).length = 257 := by
      rw [List.length_zip]
      omega
    have hword : ∀ u : Fin 257, ∀ hu : u.val < (huffCodes.zip huffBits).length, huffWord u =
        bits (huffCodes.zip huffBits)[u.val].2 (huffCodes.zip huffBits)[u.val].1 := by
      intro u hu
      rw [List.getElem_zip, huffWord, hpHuffCode, hpHuffBits, entryAt_eq, entryAt_eq,
        Int.toNat_natCast, Int.toNat_natCast]
    rw [hword s (by omega), hword t (by omega)] at h
    have htop : ∀ a ∈ huffCodes.zip huffBits, a.2 ≤ 30 ∧ a.1 < 2 ^ a.2 := by
      intro a ha
      exact (hfit a ha).2
    exact Fin.ext (eq_of_isStart htop hapart (by omega) (by omega) h)

/-- Fewer than eight ones are no word, nor do they begin with one. -/
theorem tail_ones {k : Nat} (h : k < 8) : huffCode.Tail (List.replicate k true) := by
  intro s hs
  obtain ⟨c, n, hc, hn, hword, -, -, hlt, hones⟩ := huff_entry s
  have hpre : bits n c <+: List.replicate k true := hword ▸ hs
  have hle := hpre.length_le
  rw [length_bits, List.length_replicate] at hle
  have heq := List.prefix_iff_eq_take.1 hpre
  rw [length_bits, List.take_replicate, Nat.min_eq_left hle] at heq
  have hnum := number_ones n
  rw [← heq, number_bits, Nat.mod_eq_of_lt hlt] at hnum
  by_cases hs256 : s.val < 256
  · have hsmall := hones hs256
    omega
  · -- the end of string has thirty ones
    have hlast : s = 256 := Fin.ext (by have := s.isLt; omega)
    have hbits : hpHuffBits s = 30 := by
      rw [hlast]
      exact huff_table.2.2.2.2.2
    omega

/-! ## Looking a word up -/

/-- The table has `w` as the word of `s` exactly when it finds it so. -/
theorem match_iff (w : List Bool) (s : Nat) :
    (hpHuffBits s = (w.length : Int) ∧ hpHuffCode s = (number w : Int)) ↔
      ∃ h : s < 257, huffWord ⟨s, h⟩ = w := by
  constructor
  · rintro ⟨hbits, hcode⟩
    have hs : s < 257 := by
      by_contra hs
      rw [hpHuffBits, entryAt_neg (by rw [huff_table.2.1]; omega)] at hbits
      omega
    refine ⟨hs, ?_⟩
    rw [huffWord, hbits, hcode, Int.toNat_natCast, Int.toNat_natCast, bits_number]
  · rintro ⟨hs, rfl⟩
    obtain ⟨c, n, hc, hn, hword, -, -, hlt, -⟩ := huff_entry ⟨s, hs⟩
    rw [hword, length_bits, number_bits, Nat.mod_eq_of_lt hlt]
    exact ⟨hn, hc⟩

theorem hpHuffFindAt_word {t : Fin 257} (ht : huffWord t = w) (hs : s ≤ t.val) :
    hpHuffFindAt w.length (number w) s = t.val := by
  induction hn : t.val - s generalizing s with
  | zero =>
    obtain rfl : s = t.val := by omega
    have hmatch := (match_iff w t.val).2 ⟨t.isLt, ht⟩
    rw [hpHuffFindAt, if_neg (by omega), if_pos hmatch]
  | succ n ih =>
    have hmatch : ¬ (hpHuffBits s = (w.length : Int) ∧ hpHuffCode s = (number w : Int)) := by
      intro h
      obtain ⟨hs', hword⟩ := (match_iff w s).1 h
      have hpre : huffWord ⟨s, hs'⟩ <+: huffWord t := by rw [hword, ht]
      have heq := huffCode.free ⟨s, hs'⟩ t hpre
      rw [← heq] at hn
      simp at hn
    rw [hpHuffFindAt, if_neg (by omega), if_neg hmatch, ih (by omega) (by omega)]

theorem hpHuffFindAt_none (h : ∀ t, huffWord t ≠ w) (s : Nat) :
    hpHuffFindAt w.length (number w) s = -1 := by
  have hmatch : ∀ s, ¬ (hpHuffBits s = (w.length : Int) ∧ hpHuffCode s = (number w : Int)) := by
    intro s hs
    obtain ⟨hs', hword⟩ := (match_iff w s).1 hs
    exact h _ hword
  induction hn : 258 - s generalizing s with
  | zero => rw [hpHuffFindAt, if_pos (by omega)]
  | succ n ih => rw [hpHuffFindAt, if_neg (by omega), if_neg (hmatch s), ih (s + 1) (by omega)]

/-! ## Reading bits -/

/-- The bits of octets, most significant first. -/
def octetBits (b : List UInt8) : List Bool := b.flatMap fun x => bits 8 x.toNat

/-- The bits from `g` to `gend`. -/
def rest (b : List UInt8) (g gend : Nat) : List Bool := ((octetBits b).take gend).drop g

@[simp] theorem length_octetBits (b : List UInt8) : (octetBits b).length = 8 * b.length := by
  induction b with
  | nil => rfl
  | cons x b ih =>
    rw [octetBits, List.flatMap_cons, List.length_append, length_bits, List.length_cons]
    show 8 + (octetBits b).length = _
    omega

theorem getElem?_octetBits (b : List UInt8) (g : Nat) :
    (octetBits b)[g]? = b[g / 8]?.map fun x => x.toNat.testBit (7 - g % 8) := by
  induction b generalizing g with
  | nil => simp [octetBits]
  | cons x b ih =>
    show (bits 8 x.toNat ++ octetBits b)[g]? = _
    by_cases hg : g < 8
    · have hdiv : g / 8 = 0 := by omega
      have hmod : g % 8 = g := by omega
      rw [List.getElem?_append_left (by simpa using hg), getElem?_bits _ hg, hdiv, hmod]
      rfl
    · have hdiv : g / 8 = (g - 8) / 8 + 1 := by omega
      have hmod : g % 8 = (g - 8) % 8 := by omega
      rw [List.getElem?_append_right (by simpa using hg), length_bits, ih, hdiv, hmod]
      rfl

theorem length_rest (h : gend ≤ 8 * b.length) : (rest b g gend).length = gend - g := by
  rw [rest, List.length_drop, List.length_take, length_octetBits, Nat.min_eq_left h]

theorem rest_drop (b : List UInt8) (g gend n : Nat) :
    (rest b g gend).drop n = rest b (g + n) gend := by
  rw [rest, rest, List.drop_drop]

/-- The next bit that is read. -/
theorem hpBitAt_rest {x : Bool} (h : rest b g gend = x :: r) :
    hpBitAt b g gend = x.toNat ∧ rest b (g + 1) gend = r := by
  have hr : rest b (g + 1) gend = r := by
    rw [← rest_drop, h]
    rfl
  refine ⟨?_, hr⟩
  have hget : (rest b g gend)[0]? = some x := by rw [h]; rfl
  rw [rest, List.getElem?_drop, Nat.add_zero, List.getElem?_take] at hget
  by_cases hg : g < gend
  · rw [if_pos hg, getElem?_octetBits, Option.map_eq_some_iff] at hget
    obtain ⟨byte, hbyte, hx⟩ := hget
    have hoff : 7 - (g - g / 8 * 8) = 7 - g % 8 := by omega
    have hd : b.getD (g / 8) 0 = byte := by rw [List.getD_eq_getElem?_getD, hbyte]; rfl
    simp only [hpBitAt, if_neg (show ¬ g ≥ gend by omega), hd, hoff]
    rw [← hx, Nat.toNat_testBit, Nat.shiftRight_eq_div_pow, Nat.and_one_is_mod]
  · rw [if_neg hg] at hget
    cases hget

theorem hpBitAt_end (hend : gend ≤ 8 * b.length) (h : rest b g gend = []) :
    hpBitAt b g gend = -1 := by
  have hlen := length_rest (g := g) hend
  rw [h, List.length_nil] at hlen
  rw [hpBitAt, if_pos (by omega)]

/-- Only ones are left exactly when the padding is accepted. -/
theorem hpPadOnes_iff (hend : gend ≤ 8 * b.length) :
    hpPadOnes b g gend = true ↔ rest b g gend = List.replicate (gend - g) true := by
  induction hn : gend - g generalizing g with
  | zero =>
    have hnil : rest b g gend = [] := List.length_eq_zero_iff.1 (by rw [length_rest hend, hn])
    rw [hpPadOnes, if_pos (by omega), hnil]
    simp
  | succ n ih =>
    have hlen := length_rest (g := g) hend
    cases hr : rest b g gend with
    | nil =>
      rw [hr, List.length_nil] at hlen
      omega
    | cons x r =>
      obtain ⟨hbit, hrest⟩ := hpBitAt_rest hr
      have hnext := ih (g := g + 1) (by omega)
      rw [hrest] at hnext
      rw [hpPadOnes, if_neg (by omega), hbit, List.replicate_succ, List.cons.injEq]
      cases x with
      | false => simp
      | true => simpa using hnext

/-! ## One symbol -/

/-- The symbol whose word stands at the head is read, unless it is the end of string. -/
theorem hpHuffOne_eq (hend : gend ≤ 8 * b.length) (hr : rest b g gend = r) (hw : huffCode.Tail w) :
    (∀ s : Fin 257, huffWord s <+: w ++ r →
      hpHuffOne b g gend w.length (number w) =
        if s = 256 then ⟨0, g + (huffWord s).length - w.length - 1, true⟩
        else ⟨s.val, g + (huffWord s).length - w.length, false⟩) ∧
    (huffCode.Tail (w ++ r) → (hpHuffOne b g gend w.length (number w)).bad = true) := by
  induction r generalizing w g with
  | nil =>
    rw [List.append_nil]
    refine ⟨fun s hs => absurd hs (hw s), fun _ => ?_⟩
    rw [hpHuffOne]
    by_cases hlen : w.length ≥ 30
    · rw [if_pos hlen]
    · simp only [if_neg hlen, hpBitAt_end hend hr]
      rfl
  | cons x r ih =>
    have hshort : ∀ s, huffWord s <+: w ++ x :: r → w.length < (huffWord s).length := by
      intro s hs
      by_contra hle
      exact hw s (List.prefix_of_prefix_length_le hs (List.prefix_append _ _) (Nat.not_lt.1 hle))
    rw [hpHuffOne]
    by_cases hlen : w.length ≥ 30
    · rw [if_pos hlen]
      refine ⟨fun s hs => ?_, fun _ => rfl⟩
      have h1 := hshort s hs
      have h2 := (length_huffWord s).2
      omega
    obtain ⟨hbit, hrest⟩ := hpBitAt_rest hr
    have hneg : ¬ (x.toNat : Int) < 0 := by omega
    have hnum : (number w : Int) * 2 + (x.toNat : Int) = (number (w ++ [x]) : Nat) := by
      rw [number_append]
      simp [number]
    have hlen2 : w.length + 1 = (w ++ [x]).length := by simp
    simp only [if_neg hlen, hbit, if_neg hneg, hnum, hlen2]
    have happ : w ++ x :: r = (w ++ [x]) ++ r := by simp
    rw [happ] at hshort ⊢
    by_cases hword : ∃ t, huffWord t = w ++ [x]
    · obtain ⟨t, ht⟩ := hword
      have hfind : hpHuffFind ((w ++ [x]).length : Nat) (number (w ++ [x]) : Nat) = (t.val : Int) :=
        hpHuffFindAt_word ht (Nat.zero_le _)
      have hpre : huffWord t <+: (w ++ [x]) ++ r := by
        rw [ht]
        exact List.prefix_append _ _
      refine ⟨fun s hs => ?_, fun htail => absurd hpre (htail t)⟩
      obtain rfl : s = t := PrefixCode.head_unique (c := huffCode) hs hpre
      have hpos : g + (w ++ [x]).length - w.length = g + 1 := by rw [← hlen2]; omega
      rw [hfind, ht, hpos]
      by_cases heos : s = 256
      · rw [if_pos heos, heos]
        rfl
      · have hval : ¬ (s.val : Int) = 256 := by
          intro hval
          exact heos (Fin.ext (by exact_mod_cast hval))
        rw [if_neg heos, if_neg hval, if_pos (by omega)]
    · rw [not_exists] at hword
      have hfind : hpHuffFind ((w ++ [x]).length : Nat) (number (w ++ [x]) : Nat) = -1 :=
        hpHuffFindAt_none hword 0
      have htail : huffCode.Tail (w ++ [x]) := by
        intro s hs
        rcases List.prefix_concat_iff.1 hs with heq | hpre
        · exact hword s heq
        · exact hw s hpre
      obtain ⟨hone, hbad⟩ := ih hrest htail
      rw [hfind, if_neg (by decide), if_neg (by decide)]
      refine ⟨fun s hs => ?_, hbad⟩
      have hlt := hshort s hs
      have hlt' : (w ++ [x]).length ≤ (huffWord s).length := by
        rw [List.length_append, List.length_singleton]
        exact hlt
      rw [hone s hs]
      congr 2 <;> omega

/-! ## Strings -/

/-- An octet as a symbol of the code. -/
def octet (x : UInt8) : Fin 257 := ⟨x.toNat, x.toNat_lt.trans (by decide)⟩

/-- The code words of octets, one after another. -/
def codeWords (s : List UInt8) : List Bool := huffCode.encode (s.map octet)

/-- Octets as a text, a codepoint for each. -/
def octetText (s : List UInt8) : List Char := s.map fun x => codeChar x.toNat

theorem octet_ne_eos (x : UInt8) : octet x ≠ 256 := by
  intro h
  have hval : x.toNat = 256 := congrArg Fin.val h
  have hlt := x.toNat_lt
  omega

/-- A symbol other than the end of string is an octet. -/
theorem octet_of_ne_eos {s : Fin 257} (h : s ≠ 256) : ∃ x, octet x = s := by
  have hlt : s.val < 256 := by
    by_contra hge
    exact h (Fin.ext (by have := s.isLt; show s.val = 256; omega))
  exact ⟨UInt8.ofNat s.val, Fin.ext (UInt8.toNat_ofNat_of_lt' hlt)⟩

/-- A symbol at the head of what is left, read from its first bit. -/
theorem hpHuffOne_head (hend : gend ≤ 8 * b.length) {s : Fin 257}
    (h : rest b g gend = huffWord s ++ r) :
    hpHuffOne b g gend 0 0 = if s = 256 then ⟨0, g + (huffWord s).length - 1, true⟩
      else ⟨s.val, g + (huffWord s).length, false⟩ :=
  (hpHuffOne_eq hend rfl (show huffCode.Tail [] from
    fun t ht => huffCode.word_ne_nil t (List.prefix_nil.1 ht))).1 s ⟨r, h.symm⟩

theorem hpHuffOne_tail (hend : gend ≤ 8 * b.length) (h : huffCode.Tail (rest b g gend)) :
    (hpHuffOne b g gend 0 0).bad = true :=
  (hpHuffOne_eq hend rfl (show huffCode.Tail [] from
    fun t ht => huffCode.word_ne_nil t (List.prefix_nil.1 ht))).2 h

theorem hpHuffLoop_eq (b : List UInt8) (g gend : Nat) (sb : StrBuf) : hpHuffLoop b g gend sb =
    if gend - g = 0 then ⟨finishText sb, gend, false⟩
    else if gend - g < 5 then ⟨finishText sb, gend, !hpPadOnes b g gend⟩
    else if (hpHuffOne b g gend 0 0).bad = true then
      if gend - g < 8 then ⟨finishText sb, gend, !hpPadOnes b g gend⟩
      else ⟨finishText sb, (hpHuffOne b g gend 0 0).nextg, true⟩
    else hpHuffLoop b (hpHuffOne b g gend 0 0).nextg gend
      (pushChar sb (hpHuffOne b g gend 0 0).sym) := by
  rw [hpHuffLoop]
  simp

/-- Code words and padding are read to the end. -/
theorem hpHuffLoop_codeWords {k : Nat} (hend : gend ≤ 8 * b.length) (hk : k < 8) {s : List UInt8}
    (sb : StrBuf) (h : rest b g gend = codeWords s ++ List.replicate k true) :
    hpHuffLoop b g gend sb = ⟨finishText (sb ++ octetText s), gend, false⟩ := by
  have hlen := length_rest (g := g) hend
  induction s generalizing g sb with
  | nil =>
    replace h : rest b g gend = List.replicate k true := h
    rw [h, List.length_replicate] at hlen
    have hpad : hpPadOnes b g gend = true := (hpPadOnes_iff hend).2 (by rw [h, hlen])
    have hone := hpHuffOne_tail hend (h ▸ tail_ones hk)
    have htext : sb ++ octetText [] = sb := List.append_nil sb
    rw [htext, hpHuffLoop_eq, hpad]
    split_ifs
    · rfl
    · rfl
    · rfl
    · omega
  | cons x s ih =>
    have hhead : rest b g gend = huffWord (octet x) ++ (codeWords s ++ List.replicate k true) := by
      rw [h, ← List.append_assoc]
      rfl
    have hword := length_huffWord (octet x)
    have hone := hpHuffOne_head hend hhead
    rw [if_neg (octet_ne_eos x)] at hone
    have hnext : rest b (g + (huffWord (octet x)).length) gend =
        codeWords s ++ List.replicate k true := by
      rw [← rest_drop, hhead, List.drop_left]
    have hlong : (huffWord (octet x)).length ≤ gend - g := by
      rw [← hlen, hhead, List.length_append]
      omega
    rw [hpHuffLoop_eq, if_neg (by omega), if_neg (by omega), hone, if_neg Bool.false_ne_true,
      ih _ hnext (length_rest hend)]
    rw [pushChar, List.append_assoc]
    rfl

/-- What is accepted is code words and padding. -/
theorem codeWords_of_hpHuffLoop (hend : gend ≤ 8 * b.length) {sb : StrBuf}
    (h : (hpHuffLoop b g gend sb).bad = false) :
    ∃ s k, k < 8 ∧ rest b g gend = codeWords s ++ List.replicate k true := by
  induction hn : gend - g using Nat.strong_induction_on generalizing g sb with
  | _ n ih =>
    have hlen := length_rest (g := g) hend
    rw [hpHuffLoop_eq] at h
    split_ifs at h with h0 h5 hbad
    · refine ⟨[], 0, by omega, ?_⟩
      exact List.length_eq_zero_iff.1 (by omega)
    · exact ⟨[], gend - g, by omega, (hpPadOnes_iff hend).1 (by simpa using h)⟩
    · exact ⟨[], gend - g, by omega, (hpPadOnes_iff hend).1 (by simpa using h)⟩
    · rw [Bool.not_eq_true] at hbad
      by_cases htail : huffCode.Tail (rest b g gend)
      · rw [hpHuffOne_tail hend htail] at hbad
        cases hbad
      · obtain ⟨t, r, hr⟩ : ∃ t r, huffWord t ++ r = rest b g gend := by
          simpa [PrefixCode.Tail, huffCode, List.IsPrefix] using htail
        have hone := hpHuffOne_head hend hr.symm
        by_cases heos : t = 256
        · rw [hone, if_pos heos] at hbad
          cases hbad
        obtain ⟨x, rfl⟩ := octet_of_ne_eos heos
        rw [if_neg heos] at hone
        have hword := length_huffWord (octet x)
        have hnext : rest b (g + (huffWord (octet x)).length) gend = r := by
          rw [← rest_drop, ← hr, List.drop_left]
        rw [hone] at h
        obtain ⟨s, k, hk, hs⟩ := ih (gend - (g + (huffWord (octet x)).length)) (by omega) h rfl
        refine ⟨x :: s, k, hk, ?_⟩
        rw [← hr, ← hnext, hs, ← List.append_assoc]
        rfl

theorem octetBits_drop (b : List UInt8) (p : Nat) :
    (octetBits b).drop (p * 8) = octetBits (b.drop p) := by
  induction b generalizing p with
  | nil => simp [octetBits]
  | cons x b ih =>
    cases p with
    | zero => rfl
    | succ p =>
      show (bits 8 x.toNat ++ octetBits b).drop ((p + 1) * 8) = octetBits (b.drop p)
      have hlen : (p + 1) * 8 = (bits 8 x.toNat).length + p * 8 := by
        rw [length_bits]
        omega
      rw [hlen, List.drop_length_add_append, ih]

theorem octetBits_take (b : List UInt8) (n : Nat) :
    (octetBits b).take (n * 8) = octetBits (b.take n) := by
  induction b generalizing n with
  | nil => simp [octetBits]
  | cons x b ih =>
    cases n with
    | zero => simp [octetBits]
    | succ n =>
      show (bits 8 x.toNat ++ octetBits b).take ((n + 1) * 8) = bits 8 x.toNat ++ octetBits (b.take n)
      have hlen : (n + 1) * 8 = (bits 8 x.toNat).length + n * 8 := by
        rw [length_bits]
        omega
      rw [hlen, List.take_length_add_append, ih]

/-- The bits of a string of a header block. -/
theorem rest_octets (b : List UInt8) (p n : Nat) :
    rest b (p * 8) ((p + n) * 8) = octetBits ((b.drop p).take n) := by
  rw [rest, octetBits_take, octetBits_drop, List.drop_take, Nat.add_sub_cancel_left]

theorem toNat_codeChar (x : UInt8) : (codeChar x.toNat).toNat = x.toNat := by
  have hx := x.toNat_lt
  have hvalid : x.toNat.isValidChar := Or.inl (by omega)
  rw [codeChar, if_neg (by omega), Int.toNat_natCast, Char.ofNat, dif_pos hvalid]
  rfl

/-- A text keeps all of its octets when none is zero. -/
theorem finishText_octetText (s : List UInt8) : finishText (octetText s) = octetText s ↔ 0 ∉ s := by
  have hzero : ∀ x : UInt8, codeChar x.toNat = Char.ofNat 0 ↔ x = 0 := by
    intro x
    constructor
    · intro h
      have hnat := congrArg Char.toNat h
      rw [toNat_codeChar] at hnat
      exact UInt8.toNat_inj.1 hnat
    · rintro rfl
      rfl
  rw [finishText, List.takeWhile_eq_self_iff]
  constructor
  · intro h hmem
    have hchar := h (codeChar (0 : UInt8).toNat) (List.mem_map.2 ⟨0, hmem, rfl⟩)
    rw [(hzero 0).2 rfl] at hchar
    simp at hchar
  · intro h c hc
    obtain ⟨x, hx, rfl⟩ := List.mem_map.1 hc
    have hne : codeChar x.toNat ≠ Char.ofNat 0 := by
      intro heq
      exact h ((hzero x).1 heq ▸ hx)
    simpa using hne

/-- Input whose last bits are no padding is refused. -/
theorem hpHuffStr_tail {p n : Nat} (h : p + n ≤ b.length) {s : List UInt8}
    (hbits : octetBits ((b.drop p).take n) = codeWords s ++ r)
    (htail : ∀ x, ¬ huffWord (octet x) <+: r) (hpad : 8 ≤ r.length ∨ false ∈ r) :
    (hpHuffStr b p n).bad = true := by
  by_contra hbad
  rw [Bool.not_eq_true] at hbad
  obtain ⟨t, k, hk, ht⟩ := codeWords_of_hpHuffLoop (by omega) hbad
  rw [rest_octets, hbits] at ht
  obtain ⟨u, hu, hr⟩ := encode_cut ht (tail_ones hk)
  cases u with
  | nil =>
    rw [encode_nil, List.nil_append] at hr
    rcases hpad with hlong | hzero
    · rw [hr, List.length_replicate] at hlong
      omega
    · rw [hr] at hzero
      have hone := List.eq_of_mem_replicate hzero
      cases hone
  | cons y u =>
    have hy : y ∈ t.map octet := by
      rw [hu]
      exact List.mem_append_right _ List.mem_cons_self
    obtain ⟨x, -, rfl⟩ := List.mem_map.1 hy
    refine htail x ?_
    rw [hr, encode_cons, List.append_assoc]
    exact List.prefix_append _ _

/-- Decoding gives back what was encoded, unless a zero octet cuts the text; input that ends in
anything but fewer than eight ones, or holds the end of string, is refused. -/
theorem huffman_exact {b : List UInt8} {p n : Nat} (h : p + n ≤ b.length) (s : List UInt8) :
    (∀ k, k < 8 → octetBits ((b.drop p).take n) = codeWords s ++ List.replicate k true →
      ((hpHuffStr b p n).bad = false ∧ (hpHuffStr b p n).s = octetText s ↔ 0 ∉ s)) ∧
    (∀ r, octetBits ((b.drop p).take n) = codeWords s ++ r →
      (∀ x, ¬ huffWord (octet x) <+: r) → 8 ≤ r.length ∨ false ∈ r →
      (hpHuffStr b p n).bad = true) ∧
    ∀ r, octetBits ((b.drop p).take n) = codeWords s ++ huffWord 256 ++ r →
      (hpHuffStr b p n).bad = true := by
  refine ⟨?_, ?_, ?_⟩
  · intro k hk hbits
    have hdec := hpHuffLoop_codeWords (show (p + n) * 8 ≤ 8 * b.length by omega) hk []
      ((rest_octets b p n).trans hbits)
    rw [hpHuffStr, hdec, List.nil_append]
    exact (and_iff_right rfl).trans (finishText_octetText s)
  · intro r hbits htail hpad
    exact hpHuffStr_tail h hbits htail hpad
  · intro r hbits
    rw [List.append_assoc] at hbits
    refine hpHuffStr_tail h hbits ?_ ?_
    · intro x hx
      exact octet_ne_eos x (head_unique (c := huffCode) hx (List.prefix_append _ _))
    · left
      have hlen : (huffWord 256).length = 30 := by
        rw [huffWord, length_bits, show hpHuffBits (256 : Fin 257) = 30 from huff_table.2.2.2.2.2]
        rfl
      rw [List.length_append, hlen]
      omega

/-- Two strings of one octet each, a digit and a zero octet, in code. -/
theorem one_octet_bits : octetBits [7] = codeWords [48] ++ List.replicate 3 true ∧
    octetBits [255, 199] = codeWords [0] ++ List.replicate 3 true := by
  decide +kernel

/-- The octet 7 is the digit zero and its padding. -/
theorem huffman_exact_digit : (hpHuffStr [7] 0 1).bad = false ∧
    (hpHuffStr [7] 0 1).s = octetText [48] := by
  have h := (huffman_exact (show 0 + 1 ≤ [(7 : UInt8)].length by decide) [48]).1 3 (by decide)
  exact (h one_octet_bits.1).2 (by decide)

/-- The octet 0 is decoded as no text at all. -/
theorem zero_octet_lost : octetBits [255, 199] = codeWords [0] ++ List.replicate 3 true ∧
    (hpHuffStr [255, 199] 0 2).bad = false ∧ (hpHuffStr [255, 199] 0 2).s = [] ∧
    octetText [0] ≠ [] := by
  have hdec := hpHuffLoop_codeWords (show 16 ≤ 8 * [255, 199].length by decide)
    (show 3 < 8 by decide) [] ((rest_octets [255, 199] 0 2).trans one_octet_bits.2)
  refine ⟨one_octet_bits.2, ?_, ?_, ?_⟩
  · exact congrArg HuffDec.bad hdec
  · exact congrArg HuffDec.s hdec
  · decide

end H2

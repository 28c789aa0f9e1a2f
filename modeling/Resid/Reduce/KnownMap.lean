import Resid.Maps.MapKeys
import Resid.Runtime.Ints
import Resid.Maps.TrieRuns

/-!
# The keys of a known map

The partial evaluator ranks a known key by its own copy of the hash and of the rank: over
the codepoints of the key's text, and without the top four bits of the hash.

    rdFnv s h = fnvFrom h (strBytes s)                                     (rdFnv_eq)
    (rdRankAt h 0 0).toNat = rankAt h.toNat 0 0 < 2 ^ 60                (rdRankAt_toNat)
    rdNormTy kt = t.name → rdKeyRank (t.text k) kt = rank60 (hash k)     (KeyTy.keyRank_eq)
    rank60 h < rank60 h' → canonRank h < canonRank h'                  (canonRank_lt_of_rank60)
-/

namespace Reduce

open Runtime Maps

/-! ## Types and integers -/

/-- A type's name with its 64-bit integers spelled `Int` and `UInt`. -/
def rdNormTy (t : Str) : Str :=
  if !strContains t "t(64)".toList then t
  else if t = "Int(64)".toList then "Int".toList
  else if t = "UInt(64)".toList then "UInt".toList
  else strReplace t "Int(64)".toList "Int".toList

def rdWAt : Str → Int → Int
  | [], acc => acc
  | c :: s, acc => rdWAt s (acc * 10 + ((c.toNat : Int) - 48))

def rdW (v : Str) : Int :=
  if strStartsWith v "-".toList then 0 - rdWAt (v.drop 1) 0 else rdWAt v 0

/-- Whether a value's text is an Int. -/
def rdSmall (v : Str) : Bool :=
  let p := strParseInt v
  if p < 1000000000000000000 ∧ p > -1000000000000000000 then true
  else
    let n := strLen v
    let d := if strStartsWith v "-".toList then n - 1 else n
    if d ≤ 18 then true
    else if d > 19 then false
    else decide (-9223372036854775808 ≤ rdW v ∧ rdW v ≤ 9223372036854775807)

/-! ## Hash and rank -/

def rdFnvB (h b : BitVec 64) : BitVec 64 := (h ^^^ b) * 1099511628211#64

/-- The hash of what is left of a text. -/
def rdFnv : Str → BitVec 64 → BitVec 64
  | [], h => h
  | ch :: s, h =>
    let c := BitVec.ofNat 64 ch.toNat
    let h1 :=
      if ch.toNat < 128 then rdFnvB h c
      else if ch.toNat < 2048 then
        rdFnvB (rdFnvB h (192#64 ||| (c >>> 6))) (128#64 ||| (c &&& 63#64))
      else if ch.toNat < 65536 then
        rdFnvB (rdFnvB (rdFnvB h (224#64 ||| (c >>> 12))) (128#64 ||| ((c >>> 6) &&& 63#64)))
          (128#64 ||| (c &&& 63#64))
      else
        rdFnvB (rdFnvB (rdFnvB (rdFnvB h (240#64 ||| (c >>> 18)))
          (128#64 ||| ((c >>> 12) &&& 63#64))) (128#64 ||| ((c >>> 6) &&& 63#64)))
          (128#64 ||| (c &&& 63#64))
    rdFnv s h1

/-- `>>` on an Int keeps its sign. -/
def rdRankAt (h : BitVec 64) (l : Nat) (r : BitVec 64) : BitVec 64 :=
  if l ≥ 12 then r
  else rdRankAt h (l + 1) ((r <<< 5) ||| ((h.sshiftRight (l * 5)) &&& 31#64))
termination_by 12 - l

/-- A key's place in the canonical order, or -1 for a key type not folded. -/
def rdKeyRank (k kt : Str) : Int :=
  let t := rdNormTy kt
  if t ≠ "Int".toList ∧ t ≠ "Str".toList then -1
  else if t = "Int".toList ∧ ¬ rdSmall k then -1
  else (rdRankAt (rdFnv k (0#64 - 3750763034362895579#64)) 0 0#64).toInt

/-! ## The same hash -/

theorem ofNat_shift {v : Nat} (hv : v < 2 ^ 64) (k : Nat) :
    BitVec.ofNat 64 v >>> k = BitVec.ofNat 64 (v / 2 ^ k) := by
  have hle : v / 2 ^ k < 2 ^ 64 := Nat.lt_of_le_of_lt (Nat.div_le_self v _) hv
  apply BitVec.eq_of_toNat_eq
  rw [BitVec.toNat_ushiftRight, BitVec.toNat_ofNat, BitVec.toNat_ofNat, Nat.mod_eq_of_lt hv,
    Nat.mod_eq_of_lt hle, Nat.shiftRight_eq_div_pow]

theorem ofNat_low {v : Nat} (hv : v < 2 ^ 64) :
    BitVec.ofNat 64 v &&& 63#64 = BitVec.ofNat 64 (v % 64) := by
  have hlt : v % 64 < 2 ^ 64 := by omega
  have hv' : (BitVec.ofNat 64 v).toNat = v := Nat.mod_eq_of_lt hv
  have hlt' : (BitVec.ofNat 64 (v % 64)).toNat = v % 64 := Nat.mod_eq_of_lt hlt
  have h63 : (63#64 : BitVec 64).toNat = 2 ^ 6 - 1 := rfl
  apply BitVec.eq_of_toNat_eq
  rw [BitVec.toNat_and, hv', hlt', h63, Nat.and_two_pow_sub_one_eq_mod]

/-- A mark and the bits below it make one byte. -/
theorem marked_byte {a k x : Nat} (hx : x < 2 ^ k) (hb : 2 ^ k * a + x < 256) :
    BitVec.ofNat 64 (UInt8.ofNat (x + 2 ^ k * a)).toNat =
      BitVec.ofNat 64 (2 ^ k * a) ||| BitVec.ofNat 64 x := by
  have hbyte : (UInt8.ofNat (x + 2 ^ k * a)).toNat = 2 ^ k * a + x := by
    rw [UInt8.toNat_ofNat', Nat.add_comm]
    exact Nat.mod_eq_of_lt hb
  rw [hbyte, Nat.two_pow_add_eq_or_of_lt hx, BitVec.ofNat_or]

theorem marked_ne_zero {a k x : Nat} (ha : 0 < 2 ^ k * a) (hb : 2 ^ k * a + x < 256) :
    UInt8.ofNat (x + 2 ^ k * a) ≠ 0 := by
  intro h0
  have := congrArg UInt8.toNat h0
  have hzero : (0 : UInt8).toNat = 0 := rfl
  rw [UInt8.toNat_ofNat', hzero] at this
  omega

/-- What hashing one codepoint does. -/
theorem rdFnv_step {c : Char} (hc : c.toNat ≠ 0) (s : Str) (h : BitVec 64) :
    rdFnv (c :: s) h = rdFnv s (fnvFrom h (String.utf8EncodeChar c)) := by
  have hcode : c.val.toNat = c.toNat := rfl
  have hmax : c.toNat < 1114112 := by
    have := c.valid
    omega
  have hword : c.toNat < 2 ^ 64 := by omega
  have hlead : ∀ {a k x : Nat} (h : BitVec 64) (p : List UInt8), x < 2 ^ k → 0 < 2 ^ k * a →
      2 ^ k * a + x < 256 → fnvFrom h (UInt8.ofNat (x + 2 ^ k * a) :: p) =
        fnvFrom (rdFnvB h (BitVec.ofNat 64 (2 ^ k * a) ||| BitVec.ofNat 64 x)) p := by
    intro a k x h p hx ha hb
    rw [fnvFrom_cons (marked_ne_zero ha hb), marked_byte hx hb]
    rfl
  have hnext : ∀ (x : Nat) (h : BitVec 64) (p : List UInt8),
      fnvFrom h (UInt8.ofNat (x % 64 + 128) :: p) =
        fnvFrom (rdFnvB h (128#64 ||| BitVec.ofNat 64 (x % 64))) p := by
    intro x h p
    exact @hlead 2 6 (x % 64) h p (by omega) (by decide) (by omega)
  rw [rdFnv]
  unfold String.utf8EncodeChar
  simp only [hcode, ofNat_shift hword, ofNat_low hword]
  have h6 : c.toNat / 2 ^ 6 < 2 ^ 64 := by omega
  have h12 : c.toNat / 2 ^ 12 < 2 ^ 64 := by omega
  rw [ofNat_low h6, ofNat_low h12]
  by_cases h1 : c.toNat < 128
  · have hb : (UInt8.ofNat c.toNat).toNat = c.toNat := by
      rw [UInt8.toNat_ofNat']
      omega
    have hne : UInt8.ofNat c.toNat ≠ 0 := by
      intro h0
      rw [h0] at hb
      exact hc hb.symm
    rw [if_pos h1, if_pos (show c.toNat ≤ 127 by omega), fnvFrom_cons hne, hb]
    rfl
  · rw [if_neg h1, if_neg (show ¬ c.toNat ≤ 127 by omega)]
    by_cases h2 : c.toNat < 2048
    · have hl := @hlead 6 5 (c.toNat / 64 % 32) h [UInt8.ofNat (c.toNat % 64 + 128)]
        (by omega) (by decide) (by omega)
      have hm : c.toNat / 64 % 32 = c.toNat / 2 ^ 6 := by omega
      rw [if_pos h2, if_pos (show c.toNat ≤ 2047 by omega)]
      rw [hm] at hl ⊢
      exact congrArg (rdFnv s) (hl.trans (hnext _ _ _)).symm
    · rw [if_neg h2, if_neg (show ¬ c.toNat ≤ 2047 by omega)]
      by_cases h3 : c.toNat < 65536
      · have hl := @hlead 14 4 (c.toNat / 4096 % 16) h
          [UInt8.ofNat (c.toNat / 64 % 64 + 128), UInt8.ofNat (c.toNat % 64 + 128)]
          (by omega) (by decide) (by omega)
        have hm : c.toNat / 4096 % 16 = c.toNat / 2 ^ 12 := by omega
        rw [if_pos h3, if_pos (show c.toNat ≤ 65535 by omega)]
        rw [hm] at hl ⊢
        exact congrArg (rdFnv s) (hl.trans ((hnext _ _ _).trans (hnext _ _ _))).symm
      · have hl := @hlead 30 3 (c.toNat / 262144 % 8) h
          [UInt8.ofNat (c.toNat / 4096 % 64 + 128), UInt8.ofNat (c.toNat / 64 % 64 + 128),
            UInt8.ofNat (c.toNat % 64 + 128)]
          (by omega) (by decide) (by omega)
        have hm : c.toNat / 262144 % 8 = c.toNat / 2 ^ 18 := by omega
        rw [if_neg h3, if_neg (show ¬ c.toNat ≤ 65535 by omega)]
        rw [hm] at hl ⊢
        exact congrArg (rdFnv s)
          (hl.trans ((hnext _ _ _).trans ((hnext _ _ _).trans (hnext _ _ _)))).symm

/-- The evaluator hashes a text as the map hashes its bytes. -/
theorem rdFnv_eq {s : Str} (hs : ∀ c ∈ s, c.toNat ≠ 0) (h : BitVec 64) :
    rdFnv s h = fnvFrom h (strBytes s) := by
  induction s generalizing h with
  | nil => rfl
  | cons c s ih =>
    have hc : ∀ d ∈ [c], d.toNat ≠ 0 := by
      intro d hd
      rw [List.mem_singleton.1 hd]
      exact hs c List.mem_cons_self
    have hone : strBytes [c] = String.utf8EncodeChar c := List.append_nil _
    have hbytes := strBytes_ne_zero hc
    rw [hone] at hbytes
    rw [rdFnv_step (hs c List.mem_cons_self), ih fun d hd => hs d (List.mem_cons_of_mem c hd),
      strBytes_cons, fnvFrom_append hbytes]

/-! ## The same rank -/

/-- The rank without the top four bits. -/
def rank60 (h : Nat) : Nat := rankAt h 0 0

theorem chunk_toNat (h : BitVec 64) {l : Nat} (hl : l < 12) :
    ((h.sshiftRight (l * 5)) &&& 31#64).toNat = (h.toNat >>> (l * 5)) &&& 31 := by
  have hsame : (h.sshiftRight (l * 5)) &&& 31#64 = (h >>> (l * 5)) &&& 31#64 := by
    apply BitVec.eq_of_getLsbD_eq
    intro i hi
    rw [BitVec.getLsbD_and, BitVec.getLsbD_and, BitVec.getLsbD_sshiftRight,
      BitVec.getLsbD_ushiftRight]
    by_cases hlow : i < 5
    · have hin : l * 5 + i < 64 := by omega
      have hlast : ¬ 64 ≤ i := by omega
      simp [hin, hlast]
    · have hmask : (31#64).getLsbD i = false := by
        show Nat.testBit 31 i = false
        apply Nat.testBit_lt_two_pow
        exact Nat.lt_of_lt_of_le (by decide : 31 < 2 ^ 5) (Nat.pow_le_pow_right (by decide) (by omega))
      rw [hmask, Bool.and_false, Bool.and_false]
  rw [hsame, BitVec.toNat_and, BitVec.toNat_ushiftRight]
  rfl

theorem rdRankAt_toNat (h : BitVec 64) (d : Nat) (hd : d ≤ 12) {r : BitVec 64}
    (hr : r.toNat < 2 ^ (5 * (12 - d))) :
    (rdRankAt h (12 - d) r).toNat = rankAt h.toNat (12 - d) r.toNat ∧
      rankAt h.toNat (12 - d) r.toNat < 2 ^ 60 := by
  induction d generalizing r with
  | zero =>
    rw [rdRankAt, rankAt]
    exact ⟨rfl, hr⟩
  | succ d ih =>
    have hlevel : 12 - (d + 1) + 1 = 12 - d := by omega
    have hlt : 12 - (d + 1) < 12 := by omega
    have hpow : 2 ^ (5 * (12 - d)) = 2 ^ (5 * (12 - (d + 1))) * 32 := by
      rw [show 5 * (12 - d) = 5 * (12 - (d + 1)) + 5 by omega, Nat.pow_add]
    have hle : 2 ^ (5 * (12 - d)) ≤ 2 ^ 60 := Nat.pow_le_pow_right (by decide) (by omega)
    have hchunk := chunk_toNat h hlt
    have hsmall : (h.toNat >>> ((12 - (d + 1)) * 5)) &&& 31 < 2 ^ 5 := slotOf_lt h.toNat _
    have hshift : (r <<< 5).toNat = r.toNat <<< 5 := by
      exact Nat.mod_eq_of_lt (by omega)
    have hnext : ((r <<< 5) ||| ((h.sshiftRight ((12 - (d + 1)) * 5)) &&& 31#64)).toNat =
        (r.toNat <<< 5) ||| ((h.toNat >>> ((12 - (d + 1)) * 5)) &&& 31) := by
      rw [BitVec.toNat_or, hshift, hchunk]
    have hbound : ((r <<< 5) ||| ((h.sshiftRight ((12 - (d + 1)) * 5)) &&& 31#64)).toNat <
        2 ^ (5 * (12 - d)) := by
      rw [hnext, ← Nat.shiftLeft_add_eq_or_of_lt hsmall, Nat.shiftLeft_eq, hpow]
      omega
    have := ih (by omega) hbound
    rw [rdRankAt, rankAt, if_neg (by omega), if_neg (by omega), hlevel]
    rw [hnext] at this
    exact this

theorem rank60_lt (h : BitVec 64) : rank60 h.toNat < 2 ^ 60 :=
  (rdRankAt_toNat h 12 (Nat.le_refl 12) (r := 0#64) (by decide)).2

theorem rdRank_toInt (h : BitVec 64) : (rdRankAt h 0 0#64).toInt = rank60 h.toNat := by
  obtain ⟨heq, hlt⟩ := rdRankAt_toNat h 12 (Nat.le_refl 12) (r := 0#64) (by decide)
  have hmag : (rdRankAt h 0 0#64).toNat = rank60 h.toNat := heq
  rw [BitVec.toInt_eq_toNat_of_lt, hmag]
  have := rank60_lt h
  omega

theorem canonRank_eq_rank60 {h : Nat} (hh : h < 2 ^ 64) :
    canonRank h = rank60 h * 16 + h / 2 ^ 60 ∧ h / 2 ^ 60 < 16 := by
  have htop : h >>> 60 < 2 ^ 4 := by
    omega
  rw [canonRank, ← Nat.shiftLeft_add_eq_or_of_lt htop, Nat.shiftLeft_eq, Nat.shiftRight_eq_div_pow]
  exact ⟨rfl, by omega⟩

theorem canonRank_lt_of_rank60 {h h' : Nat} (hh : h < 2 ^ 64) (hh' : h' < 2 ^ 64)
    (hlt : rank60 h < rank60 h') : canonRank h < canonRank h' := by
  obtain ⟨heq, htop⟩ := canonRank_eq_rank60 hh
  obtain ⟨heq', -⟩ := canonRank_eq_rank60 hh'
  omega

/-! ## Int and Str keys -/

inductive KeyTy
  | int
  | str

def KeyTy.Key : KeyTy → Type
  | .int => BitVec 64
  | .str => StrKey

def KeyTy.name : KeyTy → Str
  | .int => "Int".toList
  | .str => "Str".toList

/-- How a map at run time hashes and compares such keys. -/
def KeyTy.keys : (t : KeyTy) → Keys t.Key
  | .int => intKeys
  | .str => strKeys

/-- How the evaluator writes a known key. -/
def KeyTy.text : (t : KeyTy) → t.Key → Str
  | .int => fun v : BitVec 64 => intText v.toInt
  | .str => StrKey.text

theorem rdWAt_text (n : Nat) : rdWAt (Decimal.text n) 0 = n := by
  have hfold : ∀ (s : Str) (acc : Int), rdWAt s acc =
      s.foldl (fun acc c => acc * 10 + ((c.toNat : Int) - 48)) acc := by
    intro s
    induction s with
    | nil => exact fun _ => rfl
    | cons c s ih => exact fun acc => ih _
  have hval := foldl_digits (text_digits n).2 0
  have htext := Decimal.value_text n
  unfold Decimal.value at htext
  rw [htext] at hval
  rw [hfold]
  exact hval

theorem strStartsWith_dash (s : Str) : strStartsWith s "-".toList = (s.head? == some '-') := by
  cases s with
  | nil => rfl
  | cons c s =>
    show ('-' == c && List.isPrefixOf [] s) = (some c == some '-')
    rw [List.isPrefixOf_nil_left, Bool.and_true]
    show ('-' == c) = (c == '-')
    rw [Bool.beq_comm]

theorem rdW_intText (v : Int) : rdW (intText v) = v := by
  unfold rdW intText
  rw [strStartsWith_dash]
  split_ifs with hneg hdash hdash
  · rw [List.drop_one, List.tail_cons, rdWAt_text]
    omega
  · exact absurd rfl hdash
  · obtain ⟨c, r, hc⟩ := List.exists_cons_of_ne_nil (Decimal.text_ne_nil v.natAbs)
    rw [hc] at hdash
    have : c = '-' := by simpa using hdash
    exact absurd (Or.inl this) (text_head hc)
  · rw [rdWAt_text]
    omega

theorem rdSmall_intText {v : Int} (hv : CheckedInt.Fits 64 v) : rdSmall (intText v) = true := by
  have hfits := CheckedInt.fits_64.1 hv
  have hlen : (Decimal.text v.natAbs).length ≤ 19 :=
    (Decimal.length_text_le_iff (by decide)).2 (by omega)
  have hd : (if strStartsWith (intText v) "-".toList then strLen (intText v) - 1
      else strLen (intText v)) ≤ 19 := by
    unfold intText strLen
    split_ifs with hneg hdash hdash
    · rw [List.length_cons]
      omega
    · exact absurd rfl hdash
    · omega
    · exact hlen
  unfold rdSmall
  rw [strParseInt_intText hv, rdW_intText]
  simp only []
  generalize (if strStartsWith (intText v) "-".toList then strLen (intText v) - 1
    else strLen (intText v)) = d at hd ⊢
  have hin : -9223372036854775808 ≤ v ∧ v ≤ 9223372036854775807 := by omega
  rw [decide_eq_true hin, if_neg (show ¬ d > 19 by omega), ite_self, ite_self]

theorem intText_inj (a b : BitVec 64) : intText a.toInt = intText b.toInt ↔ a = b := by
  constructor
  · intro h
    apply BitVec.eq_of_toInt_eq
    rw [← strParseInt_intText (CheckedInt.fits_toInt a), h, strParseInt_intText (CheckedInt.fits_toInt b)]
  · intro h
    rw [h]

/-- A known key's text tells it from every other key. -/
theorem KeyTy.text_inj (t : KeyTy) (a b : t.Key) :
    t.text a = t.text b ↔ t.keys.eq a b = true := by
  cases t with
  | int => exact (intText_inj a b).trans beq_iff_eq.symm
  | str => exact Iff.trans ⟨congrArg strBytes, strBytes_inj⟩ beq_iff_eq.symm

theorem intText_noNul (v : Int) : ∀ c ∈ intText v, c.toNat ≠ 0 := by
  intro c hc
  rcases mem_intText hc with rfl | hd
  · decide
  · rw [isAsciiDigit_eq, Decimal.isDigit_iff] at hd
    omega

theorem KeyTy.text_noNul (t : KeyTy) (k : t.Key) : ∀ c ∈ t.text k, c.toNat ≠ 0 := by
  cases t with
  | int => exact intText_noNul _
  | str => exact StrKey.noNul k

/-- The evaluator hashes a key's text as the map hashes the key. -/
theorem KeyTy.hash_eq (t : KeyTy) (k : t.Key) :
    (rdFnv (t.text k) (0#64 - 3750763034362895579#64)).toNat = t.keys.hash k := by
  rw [rdFnv_eq (t.text_noNul k)]
  cases t with
  | int => exact congrArg BitVec.toNat (fnvI64_eq k).symm
  | str => rfl

theorem KeyTy.keyRank_eq (t : KeyTy) {kt : Str} (hkt : rdNormTy kt = t.name) (k : t.Key) :
    rdKeyRank (t.text k) kt = rank60 (t.keys.hash k) := by
  unfold rdKeyRank
  rw [hkt, rdRank_toInt, t.hash_eq k]
  cases t with
  | int =>
    have hsmall : rdSmall (KeyTy.text .int k) = true := rdSmall_intText (CheckedInt.fits_toInt k)
    rw [hsmall]
    rfl
  | str => rfl

/-!
## Known maps and sets

A known map is its entries flattened, a known set its elements, in the order the run-time
map lists them.  Where two keys' ranks tie the map is no longer known.

    knownRun t stride kt ops = some items → items = flat stride of mapEntries (run t.keys ops)
    0 ≤ rdMapFind items (t.text k) … ↔ the run-time map holds k

### Algorithm

Along a run that stays known the entries are strictly ascending by `rank60`, so the first
item of a larger rank is where the canonical order puts a new key.
-/

open Ranked

/-- How many items an entry takes. -/
inductive Stride
  | set
  | map

def Stride.width : Stride → Nat
  | .set => 1
  | .map => 2

theorem Stride.width_pos (s : Stride) : 0 < s.width := by cases s <;> decide

/-! ## The items -/

/-- Index of key `k` among the entries from `i` on, or -1. -/
def rdMapFind (items : List Str) (k : Str) (stride : Stride) (i : Nat) : Int :=
  if h : i < items.length then
    if items[i] = k then i else rdMapFind items k stride (i + stride.width)
  else -1
termination_by items.length - i
decreasing_by
  have := stride.width_pos
  omega

/-- Where a key of rank `r` goes: before the first larger rank; -1 on a tie. -/
def rdMapPos (items : List Str) (r : Int) (kt : Str) (stride : Stride) (i : Nat) : Int :=
  if h : i < items.length then
    let ri := rdKeyRank items[i] kt
    if ri = r then -1
    else if ri > r then i
    else rdMapPos items r kt stride (i + stride.width)
  else i
termination_by items.length - i
decreasing_by
  have := stride.width_pos
  omega

def entItems (stride : Stride) (k v : Str) : List Str :=
  match stride with
  | .set => [k]
  | .map => [k, v]

/-- The entries with `k` put in; none where two keys' ranks tie. -/
def rdMapPut (items : List Str) (k v kt : Str) (stride : Stride) : Option (List Str) :=
  let r := rdKeyRank k kt
  if r < 0 then none
  else
    let found := rdMapFind items k stride 0
    if found ≥ 0 then
      match stride with
      | .set => some items
      | .map => some (items.take (found.toNat + 1) ++ [v] ++ items.drop (found.toNat + 2))
    else
      let pos := rdMapPos items r kt stride 0
      if pos < 0 then none
      else some (items.take pos.toNat ++ entItems stride k v ++ items.drop pos.toNat)

def rdMapDel (items : List Str) (k : Str) (stride : Stride) : List Str :=
  let found := rdMapFind items k stride 0
  if found < 0 then items
  else items.take found.toNat ++ items.drop (found.toNat + stride.width)

/-- One update of a known map; the key's and the value's texts are what is put. -/
def knownStep (t : KeyTy) (stride : Stride) (kt : Str) (items : List Str) :
    Op t.Key Str → Option (List Str)
  | .insert k v => rdMapPut items (t.text k) v kt stride
  | .remove k => some (rdMapDel items (t.text k) stride)

/-- The updates that stay known, from the empty map. -/
def knownRun (t : KeyTy) (stride : Stride) (kt : Str) (ops : List (Op t.Key Str)) :
    Option (List Str) := ops.foldlM (knownStep t stride kt) []

/-! ## Entries as items -/

/-- The items that entries are flattened to. -/
def flat (t : KeyTy) (stride : Stride) (es : List (t.Key × Str)) : List Str :=
  es.flatMap fun e => entItems stride (t.text e.1) e.2

variable {t : KeyTy} {stride : Stride} {kt : Str}

theorem entItems_length (stride : Stride) (k v : Str) : (entItems stride k v).length = stride.width := by
  cases stride <;> rfl

theorem entItems_cons (stride : Stride) (k v : Str) : ∃ r, entItems stride k v = k :: r := by
  cases stride
  · exact ⟨[], rfl⟩
  · exact ⟨[v], rfl⟩

theorem flat_append (A B : List (t.Key × Str)) :
    flat t stride (A ++ B) = flat t stride A ++ flat t stride B := List.flatMap_append

theorem flat_cons (e : t.Key × Str) (B : List (t.Key × Str)) :
    flat t stride (e :: B) = entItems stride (t.text e.1) e.2 ++ flat t stride B := List.flatMap_cons

theorem flat_length (A : List (t.Key × Str)) :
    (flat t stride A).length = stride.width * A.length := by
  induction A with
  | nil => rfl
  | cons e A ih =>
    rw [flat_cons, List.length_append, entItems_length, ih, List.length_cons]
    ring

theorem flat_take (A B : List (t.Key × Str)) :
    (flat t stride (A ++ B)).take (stride.width * A.length) = flat t stride A := by
  rw [flat_append, ← flat_length, List.take_left]

theorem flat_drop (A B : List (t.Key × Str)) :
    (flat t stride (A ++ B)).drop (stride.width * A.length) = flat t stride B := by
  rw [flat_append, ← flat_length, List.drop_left]

/-- An entry's key stands at its place. -/
theorem flat_getElem (A : List (t.Key × Str)) (e : t.Key × Str) (B : List (t.Key × Str)) :
    ∃ h : stride.width * A.length < (flat t stride (A ++ e :: B)).length,
      (flat t stride (A ++ e :: B))[stride.width * A.length] = t.text e.1 := by
  obtain ⟨r, hr⟩ := entItems_cons stride (t.text e.1) e.2
  have hlt : stride.width * A.length < (flat t stride (A ++ e :: B)).length := by
    rw [flat_append, flat_cons, hr, List.length_append, flat_length, List.cons_append,
      List.length_cons]
    omega
  refine ⟨hlt, ?_⟩
  have hget : (flat t stride (A ++ e :: B))[stride.width * A.length]? = some (t.text e.1) := by
    rw [flat_append, ← flat_length, List.getElem?_append_right (Nat.le_refl _), Nat.sub_self,
      flat_cons, hr]
    rfl
  exact Option.some.inj ((List.getElem?_eq_getElem hlt).symm.trans hget)

theorem rdMapFind_step (A : List (t.Key × Str)) (e : t.Key × Str) (B : List (t.Key × Str))
    (k : Str) :
    rdMapFind (flat t stride (A ++ e :: B)) k stride (stride.width * A.length) =
      if t.text e.1 = k then ((stride.width * A.length : Nat) : Int)
      else rdMapFind (flat t stride ((A ++ [e]) ++ B)) k stride
        (stride.width * (A ++ [e]).length) := by
  obtain ⟨hlt, hget⟩ := @flat_getElem t stride A e B
  have hnext : stride.width * (A ++ [e]).length = stride.width * A.length + stride.width := by
    rw [List.length_append, List.length_singleton, Nat.mul_add, Nat.mul_one]
  have hsplit : A ++ [e] ++ B = A ++ e :: B := by rw [List.append_assoc]; rfl
  rw [rdMapFind, dif_pos hlt, hget, hnext, hsplit]

theorem rdMapPos_step (hkt : rdNormTy kt = t.name) (A : List (t.Key × Str)) (e : t.Key × Str)
    (B : List (t.Key × Str)) (r : Int) :
    rdMapPos (flat t stride (A ++ e :: B)) r kt stride (stride.width * A.length) =
      if (rank60 (t.keys.hash e.1) : Int) = r then -1
      else if (rank60 (t.keys.hash e.1) : Int) > r then ((stride.width * A.length : Nat) : Int)
      else rdMapPos (flat t stride ((A ++ [e]) ++ B)) r kt stride
        (stride.width * (A ++ [e]).length) := by
  obtain ⟨hlt, hget⟩ := @flat_getElem t stride A e B
  have hnext : stride.width * (A ++ [e]).length = stride.width * A.length + stride.width := by
    rw [List.length_append, List.length_singleton, Nat.mul_add, Nat.mul_one]
  have hsplit : A ++ [e] ++ B = A ++ e :: B := by rw [List.append_assoc]; rfl
  rw [rdMapPos, dif_pos hlt]
  simp only [hget, t.keyRank_eq hkt, hnext, hsplit]

/-! ## Searching -/

theorem rdMapFind_absent (A B : List (t.Key × Str)) {k : Str} (h : ∀ e ∈ B, t.text e.1 ≠ k) :
    rdMapFind (flat t stride (A ++ B)) k stride (stride.width * A.length) = -1 := by
  induction B generalizing A with
  | nil =>
    have hend : ¬ stride.width * A.length < (flat t stride (A ++ [])).length := by
      rw [List.append_nil, flat_length]
      omega
    rw [rdMapFind, dif_neg hend]
  | cons e B ih =>
    rw [rdMapFind_step, if_neg (h e List.mem_cons_self)]
    exact ih (A ++ [e]) fun x hx => h x (List.mem_cons_of_mem e hx)

theorem rdMapFind_present (A C : List (t.Key × Str)) (e : t.Key × Str) (B : List (t.Key × Str))
    {k : Str} (hC : ∀ x ∈ C, t.text x.1 ≠ k) (he : t.text e.1 = k) :
    rdMapFind (flat t stride (A ++ (C ++ e :: B))) k stride (stride.width * A.length) =
      ((stride.width * (A ++ C).length : Nat) : Int) := by
  induction C generalizing A with
  | nil => rw [List.nil_append, rdMapFind_step, if_pos he, List.append_nil]
  | cons c C ih =>
    have hsplit : A ++ (c :: C) = A ++ [c] ++ C := by rw [List.append_assoc]; rfl
    rw [List.cons_append, rdMapFind_step, if_neg (hC c List.mem_cons_self),
      ih (A ++ [c]) (fun x hx => hC x (List.mem_cons_of_mem c hx)), hsplit]

theorem rdMapPos_below (hkt : rdNormTy kt = t.name) (A C B : List (t.Key × Str)) {r : Int}
    (hC : ∀ x ∈ C, (rank60 (t.keys.hash x.1) : Int) < r) :
    rdMapPos (flat t stride (A ++ (C ++ B))) r kt stride (stride.width * A.length) =
      rdMapPos (flat t stride ((A ++ C) ++ B)) r kt stride (stride.width * (A ++ C).length) := by
  induction C generalizing A with
  | nil => rw [List.nil_append, List.append_nil]
  | cons c C ih =>
    have hlt := hC c List.mem_cons_self
    have hsplit : A ++ (c :: C) = A ++ [c] ++ C := by rw [List.append_assoc]; rfl
    rw [List.cons_append, rdMapPos_step hkt, if_neg (by omega), if_neg (by omega),
      ih (A ++ [c]) (fun x hx => hC x (List.mem_cons_of_mem c hx)), hsplit]

/-! ## Ascending entries -/

/-- Every rank below the next, without the top bits of the hashes. -/
def Ascending (t : KeyTy) (es : List (t.Key × Str)) : Prop :=
  es.Pairwise fun a b => rank60 (t.keys.hash a.1) < rank60 (t.keys.hash b.1)

/-- Ascending entries around a rank. -/
structure Around (t : KeyTy) (r : Nat) (A B : List (t.Key × Str)) : Prop where
  below : ∀ a ∈ A, rank60 (t.keys.hash a.1) < r
  above : ∀ b ∈ B, r < rank60 (t.keys.hash b.1)

theorem ascending_split {es : List (t.Key × Str)} (h : Ascending t es) (r : Nat) :
    ∃ A S B, es = A ++ (S ++ B) ∧ Around t r A B ∧
      (S = [] ∨ ∃ e, S = [e] ∧ rank60 (t.keys.hash e.1) = r) := by
  induction es with
  | nil => exact ⟨[], [], [], rfl, ⟨nofun, nofun⟩, Or.inl rfl⟩
  | cons e es ih =>
    obtain ⟨hhead, htail⟩ := List.pairwise_cons.1 h
    rcases Nat.lt_trichotomy (rank60 (t.keys.hash e.1)) r with hlt | heq | hgt
    · obtain ⟨A, S, B, hes, haround, hS⟩ := ih htail
      refine ⟨e :: A, S, B, by rw [hes]; rfl, ⟨?_, haround.above⟩, hS⟩
      exact List.forall_mem_cons.2 ⟨hlt, haround.below⟩
    · exact ⟨[], [e], es, rfl, ⟨nofun, fun b hb => heq ▸ hhead b hb⟩, Or.inr ⟨e, rfl, heq⟩⟩
    · refine ⟨[], [], e :: es, rfl, ⟨nofun, ?_⟩, Or.inl rfl⟩
      exact List.forall_mem_cons.2 ⟨hgt, fun b hb => Nat.lt_trans hgt (hhead b hb)⟩

theorem ascending_put {A S B : List (t.Key × Str)} (h : Ascending t (A ++ (S ++ B)))
    {e : t.Key × Str} (haround : Around t (rank60 (t.keys.hash e.1)) A B) :
    Ascending t (A ++ e :: B) := by
  obtain ⟨hA, hrest, hcross⟩ := List.pairwise_append.1 h
  obtain ⟨-, hB, -⟩ := List.pairwise_append.1 hrest
  refine List.pairwise_append.2 ⟨hA, List.pairwise_cons.2 ⟨haround.above, hB⟩, ?_⟩
  intro a ha b hb
  rcases List.mem_cons.1 hb with rfl | hb
  · exact haround.below a ha
  · exact hcross a ha b (List.mem_append_right S hb)

section Around

variable {k : t.Key} {A B : List (t.Key × Str)}
  (haround : Around t (rank60 (t.keys.hash k)) A B)

include haround

theorem Around.ranked :
    (∀ a ∈ A, t.keys.keyed.rank a.1 < t.keys.keyed.rank k) ∧
      ∀ b ∈ B, t.keys.keyed.rank k < t.keys.keyed.rank b.1 :=
  ⟨fun a ha => canonRank_lt_of_rank60 (t.keys.hash_lt a.1) (t.keys.hash_lt k) (haround.below a ha),
    fun b hb => canonRank_lt_of_rank60 (t.keys.hash_lt k) (t.keys.hash_lt b.1) (haround.above b hb)⟩

/-- No other text around a key's own rank is the key's. -/
theorem Around.text_ne : ∀ e ∈ A ++ B, t.text e.1 ≠ t.text k := by
  intro e he htext
  have hhash := t.keys.hash_eq e.1 k ((t.text_inj e.1 k).1 htext)
  rcases List.mem_append.1 he with ha | hb
  · have := haround.below e ha
    rw [hhash] at this
    exact Nat.lt_irrefl _ this
  · have := haround.above e hb
    rw [hhash] at this
    exact Nat.lt_irrefl _ this

theorem Around.find_absent {S : List (t.Key × Str)} (hS : ∀ e ∈ S, t.text e.1 ≠ t.text k) :
    rdMapFind (flat t stride (A ++ (S ++ B))) (t.text k) stride 0 = -1 := by
  have := @rdMapFind_absent t stride [] (A ++ (S ++ B)) (t.text k)
  apply this
  intro e he
  rcases List.mem_append.1 he with ha | he
  · exact haround.text_ne e (List.mem_append_left B ha)
  · rcases List.mem_append.1 he with hs | hb
    · exact hS e hs
    · exact haround.text_ne e (List.mem_append_right A hb)

theorem Around.find_present {e : t.Key × Str} (he : t.text e.1 = t.text k) :
    rdMapFind (flat t stride (A ++ ([e] ++ B))) (t.text k) stride 0 =
      ((stride.width * A.length : Nat) : Int) := by
  have := @rdMapFind_present t stride [] A e B (t.text k)
    (fun x hx => haround.text_ne x (List.mem_append_left B hx)) he
  exact this

theorem Around.pos (hkt : rdNormTy kt = t.name) (S : List (t.Key × Str)) :
    rdMapPos (flat t stride (A ++ (S ++ B))) (rank60 (t.keys.hash k)) kt stride 0 =
      rdMapPos (flat t stride (A ++ (S ++ B))) (rank60 (t.keys.hash k)) kt stride
        (stride.width * A.length) := by
  have := @rdMapPos_below t stride kt hkt [] A (S ++ B) (rank60 (t.keys.hash k))
    (fun x hx => Int.ofNat_lt.2 (haround.below x hx))
  exact this

theorem Around.pos_tie (hkt : rdNormTy kt = t.name) {e : t.Key × Str}
    (he : rank60 (t.keys.hash e.1) = rank60 (t.keys.hash k)) :
    rdMapPos (flat t stride (A ++ ([e] ++ B))) (rank60 (t.keys.hash k)) kt stride 0 = -1 := by
  rw [haround.pos hkt, List.singleton_append, rdMapPos_step hkt, if_pos (Int.ofNat_inj.2 he)]

theorem Around.pos_free (hkt : rdNormTy kt = t.name) :
    rdMapPos (flat t stride (A ++ ([] ++ B))) (rank60 (t.keys.hash k)) kt stride 0 =
      ((stride.width * A.length : Nat) : Int) := by
  rw [haround.pos hkt, List.nil_append]
  cases B with
  | nil =>
    have hend : ¬ stride.width * A.length < (flat t stride (A ++ [])).length := by
      rw [List.append_nil, flat_length]
      omega
    rw [rdMapPos, dif_neg hend]
  | cons b B =>
    have hlt := haround.above b List.mem_cons_self
    rw [rdMapPos_step hkt, if_neg (by omega), if_pos (by omega)]

end Around

/-! ## One update -/

theorem put_same {A B : List (t.Key × Str)} {e : t.Key × Str} {k : t.Key} {v : Str}
    (he : t.text e.1 = t.text k) :
    (match stride with
      | .set => some (flat t stride (A ++ ([e] ++ B)))
      | .map => some ((flat t stride (A ++ ([e] ++ B))).take (stride.width * A.length + 1) ++ [v] ++
          (flat t stride (A ++ ([e] ++ B))).drop (stride.width * A.length + 2))) =
      some (flat t stride (A ++ (k, v) :: B)) := by
  cases stride with
  | set =>
    have hitem : entItems .set (t.text e.1) e.2 = entItems .set (t.text k) v := by rw [he]; rfl
    rw [List.singleton_append, flat_append, flat_append, flat_cons, flat_cons, hitem]
  | map =>
    have hitems : flat t .map (A ++ ([e] ++ B)) =
        flat t .map A ++ (t.text k :: e.2 :: flat t .map B) := by
      rw [List.singleton_append, flat_append, flat_cons, ← he]
      rfl
    rw [hitems, ← flat_length, List.take_length_add_append, List.drop_length_add_append,
      flat_append, flat_cons, List.append_assoc, List.append_assoc]
    rfl

variable {S es : List (t.Key × Str)} {items : List Str}

/-- A key is among ascending entries where its text is, at its own rank. -/
theorem present_or_absent {r : Nat} (k : t.Key)
    (hS : S = [] ∨ ∃ e, S = [e] ∧ rank60 (t.keys.hash e.1) = r) :
    (∃ e, S = [e] ∧ t.text e.1 = t.text k) ∨ ∀ e ∈ S, t.text e.1 ≠ t.text k := by
  rcases hS with rfl | ⟨e, rfl, -⟩
  · exact Or.inr nofun
  · by_cases he : t.text e.1 = t.text k
    · exact Or.inl ⟨e, rfl, he⟩
    · exact Or.inr (List.forall_mem_singleton.2 he)

theorem knownPut_spec (hkt : rdNormTy kt = t.name) {A B : List (t.Key × Str)} {k : t.Key}
    {v : Str} (haround : Around t (rank60 (t.keys.hash k)) A B)
    (hS : S = [] ∨ ∃ e, S = [e] ∧ rank60 (t.keys.hash e.1) = rank60 (t.keys.hash k))
    (known : rdMapPut (flat t stride (A ++ (S ++ B))) (t.text k) v kt stride = some items) :
    items = flat t stride (A ++ (put t.keys.keyed k v S ++ B)) ∧
      put t.keys.keyed k v S = [(k, v)] := by
  have hnonneg : ¬ (rank60 (t.keys.hash k) : Int) < 0 := by omega
  unfold rdMapPut at known
  simp only [t.keyRank_eq hkt, if_neg hnonneg] at known
  rcases present_or_absent k hS with ⟨e, rfl, he⟩ | hno
  · have heq : t.keys.keyed.eq e.1 k = true := (t.text_inj e.1 k).1 he
    have hput : put t.keys.keyed k v [e] = [(k, v)] := if_pos heq
    rw [haround.find_present he, if_pos (Int.natCast_nonneg _), Int.toNat_natCast] at known
    rw [put_same he] at known
    rw [hput]
    exact ⟨(Option.some.inj known).symm, rfl⟩
  · rw [haround.find_absent hno, if_neg (by decide)] at known
    rcases hS with rfl | ⟨e, rfl, he⟩
    · rw [haround.pos_free hkt, if_neg (by omega), Int.toNat_natCast, flat_take, flat_drop] at known
      refine ⟨?_, rfl⟩
      have hone : flat t stride (A ++ (put t.keys.keyed k v [] ++ B)) =
          flat t stride A ++ (entItems stride (t.text k) v ++ flat t stride B) := by
        rw [flat_append]
        exact congrArg (flat t stride A ++ ·) (flat_cons (k, v) B)
      rw [← Option.some.inj known, hone, List.append_assoc, List.nil_append]
    · rw [haround.pos_tie hkt he, if_pos (by decide)] at known
      cases known

theorem knownDel_spec {A B : List (t.Key × Str)} {k : t.Key}
    (haround : Around t (rank60 (t.keys.hash k)) A B)
    (hS : S = [] ∨ ∃ e, S = [e] ∧ rank60 (t.keys.hash e.1) = rank60 (t.keys.hash k)) :
    rdMapDel (flat t stride (A ++ (S ++ B))) (t.text k) stride =
      flat t stride (A ++ (del t.keys.keyed k S ++ B)) := by
  unfold rdMapDel
  rcases present_or_absent k hS with ⟨e, rfl, he⟩ | hno
  · have heq : t.keys.keyed.eq e.1 k = true := (t.text_inj e.1 k).1 he
    have hdel : del t.keys.keyed k [e] = [] := by rw [del_cons, if_pos heq]
    have hnext : stride.width * A.length + stride.width = stride.width * (A ++ [e]).length := by
      rw [List.length_append, List.length_singleton, Nat.mul_add, Nat.mul_one]
    have hsplit : A ++ ([e] ++ B) = A ++ [e] ++ B := (List.append_assoc A [e] B).symm
    simp only [haround.find_present he, if_neg (show ¬ ((stride.width * A.length : Nat) : Int) < 0 by omega),
      Int.toNat_natCast]
    rw [flat_take, hnext, hsplit, flat_drop, hdel, List.nil_append, flat_append]
  · have hdel : del t.keys.keyed k S = S := by
      apply del_absent
      apply find_none
      intro e he
      rw [Bool.eq_false_iff]
      exact fun heq => hno e he ((t.text_inj e.1 k).2 heq)
    rw [haround.find_absent hno, hdel]
    rfl

/-- An update that stays known does to the items what it does to the entries listed. -/
theorem knownStep_spec (hkt : rdNormTy kt = t.name) (h : Ascending t es) {op : Op t.Key Str}
    (known : knownStep t stride kt (flat t stride es) op = some items) :
    items = flat t stride (listedAfter t.keys es op) ∧ Ascending t (listedAfter t.keys es op) := by
  obtain ⟨A, S, B, rfl, haround, hS⟩ := ascending_split h (rank60 (t.keys.hash op.key))
  cases op with
  | insert k v =>
    change Around t (rank60 (t.keys.hash k)) A B at haround
    obtain ⟨hbelow, habove⟩ := haround.ranked
    obtain ⟨hitems, hput⟩ := knownPut_spec hkt haround hS known
    show items = flat t stride (put t.keys.keyed k v (A ++ (S ++ B))) ∧
      Ascending t (put t.keys.keyed k v (A ++ (S ++ B)))
    rw [put_between hbelow habove]
    refine ⟨hitems, ?_⟩
    rw [hput]
    exact ascending_put (e := (k, v)) h haround
  | remove k =>
    change Around t (rank60 (t.keys.hash k)) A B at haround
    obtain ⟨hbelow, habove⟩ := haround.ranked
    show items = flat t stride (del t.keys.keyed k (A ++ (S ++ B))) ∧
      Ascending t (del t.keys.keyed k (A ++ (S ++ B)))
    rw [del_between hbelow habove, ← knownDel_spec haround hS]
    refine ⟨(Option.some.inj known).symm, ?_⟩
    have hsub : (A ++ (del t.keys.keyed k S ++ B)).Sublist (A ++ (S ++ B)) :=
      (List.Sublist.refl A).append ((del_sublist k S).append (List.Sublist.refl B))
    exact List.Pairwise.sublist hsub h

/-! ## Runs -/

theorem knownRun_from (hkt : rdNormTy kt = t.name) (ops : List (Op t.Key Str))
    (h : Ascending t es)
    (known : ops.foldlM (knownStep t stride kt) (flat t stride es) = some items) :
    items = flat t stride (ops.foldl (listedAfter t.keys) es) ∧
      Ascending t (ops.foldl (listedAfter t.keys) es) := by
  induction ops generalizing es with
  | nil => exact ⟨(Option.some.inj known).symm, h⟩
  | cons op ops ih =>
    obtain ⟨mid, hmid, hrest⟩ := Option.bind_eq_some_iff.1 known
    obtain ⟨rfl, hnext⟩ := knownStep_spec hkt h hmid
    exact ih hnext hrest

theorem knownRun_listed (hkt : rdNormTy kt = t.name) {ops : List (Op t.Key Str)}
    (known : knownRun t stride kt ops = some items) :
    items = flat t stride (listed t.keys ops) ∧ Ascending t (listed t.keys ops) :=
  knownRun_from hkt ops List.Pairwise.nil known

/-- Searching a known map finds what the run-time map holds, its value behind the key. -/
theorem rdMapFind_listed (h : Ascending t es) (k : t.Key) :
    (0 ≤ rdMapFind (flat t stride es) (t.text k) stride 0 ↔
        (find t.keys.keyed k es).isSome = true) ∧
      (stride = .map → ∀ v, find t.keys.keyed k es = some v →
        (flat t stride es)[(rdMapFind (flat t stride es) (t.text k) stride 0).toNat + 1]? = some v) := by
  obtain ⟨A, S, B, rfl, haround, hS⟩ := ascending_split h (rank60 (t.keys.hash k))
  obtain ⟨hbelow, habove⟩ := haround.ranked
  rw [find_between hbelow habove]
  rcases present_or_absent k hS with ⟨e, rfl, he⟩ | hno
  · have heq : t.keys.keyed.eq e.1 k = true := (t.text_inj e.1 k).1 he
    have hfind : find t.keys.keyed k [e] = some e.2 := by rw [find_cons, if_pos heq]
    rw [haround.find_present he, hfind, Int.toNat_natCast]
    refine ⟨iff_of_true (Int.natCast_nonneg _) rfl, ?_⟩
    rintro rfl v hv
    have hitems : flat t .map (A ++ ([e] ++ B)) =
        flat t .map A ++ (t.text e.1 :: e.2 :: flat t .map B) := by
      rw [List.singleton_append, flat_append, flat_cons]
      rfl
    rw [hitems, ← flat_length, List.getElem?_append_right (Nat.le_add_right _ 1),
      Nat.add_sub_cancel_left, ← hv]
    rfl
  · have hfind : find t.keys.keyed k S = none := by
      apply find_none
      intro e he
      rw [Bool.eq_false_iff]
      exact fun heq => hno e he ((t.text_inj e.1 k).2 heq)
    rw [haround.find_absent hno, hfind]
    refine ⟨iff_of_false (by decide) Bool.false_ne_true, ?_⟩
    intro _ v hv
    cases hv

/-- Where putting a key stays known, its rank ties exactly when the key is there. -/
theorem rdMapPos_listed (hkt : rdNormTy kt = t.name) (h : Ascending t es) (k : t.Key) (v : Str)
    (known : rdMapPut (flat t stride es) (t.text k) v kt stride ≠ none) :
    rdMapPos (flat t stride es) (rdKeyRank (t.text k) kt) kt stride 0 = -1 ↔
      (find t.keys.keyed k es).isSome = true := by
  obtain ⟨A, S, B, rfl, haround, hS⟩ := ascending_split h (rank60 (t.keys.hash k))
  obtain ⟨hbelow, habove⟩ := haround.ranked
  rw [find_between hbelow habove, t.keyRank_eq hkt]
  rcases hS with rfl | ⟨e, rfl, hrank⟩
  · rw [haround.pos_free hkt]
    exact iff_of_false (by omega) Bool.false_ne_true
  · have heq : t.keys.keyed.eq e.1 k = true := by
      obtain ⟨items, hitems⟩ := Option.ne_none_iff_exists'.1 known
      obtain ⟨-, hput⟩ := knownPut_spec hkt haround (Or.inr ⟨e, rfl, hrank⟩) hitems
      by_contra hne
      have hlen := congrArg List.length hput
      rw [put, if_neg hne] at hlen
      split_ifs at hlen <;> simp [put] at hlen
    rw [haround.pos_tie hkt hrank, find_cons, if_pos heq]
    exact iff_of_true rfl rfl

/-- A known map is the run-time map of its history: the same keys in the same order with the
same values, and a key is found in one where it is found in the other. -/
theorem known_map_agrees (t : KeyTy) (stride : Stride) (kt : Str) (ops : List (Op t.Key Str))
    (items : List Str) (hkt : rdNormTy kt = t.name)
    (known : knownRun t stride kt ops = some items) :
    items = flat t stride (mapEntries (run t.keys ops)) ∧
      ((mapEntries (run t.keys ops)).Pairwise fun a b =>
        canonRank (t.keys.hash a.1) < canonRank (t.keys.hash b.1)) ∧
      (∀ k, (rdFnv (t.text k) (0#64 - 3750763034362895579#64)).toNat = t.keys.hash k) ∧
      (∀ k, mapFind t.keys (run t.keys ops) k = lastValue t.keys k ops) ∧
      (∀ k, 0 ≤ rdMapFind items (t.text k) stride 0 ↔
        (mapFind t.keys (run t.keys ops) k).isSome = true) ∧
      (stride = .map → ∀ k v, mapFind t.keys (run t.keys ops) k = some v →
        items[(rdMapFind items (t.text k) stride 0).toNat + 1]? = some v) ∧
      (∀ k v, rdMapPut items (t.text k) v kt stride ≠ none →
        (rdMapPos items (rdKeyRank (t.text k) kt) kt stride 0 = -1 ↔
          (mapFind t.keys (run t.keys ops) k).isSome = true)) := by
  obtain ⟨rfl, hasc⟩ := knownRun_listed hkt known
  have hfind : ∀ k, mapFind t.keys (run t.keys ops) k = find t.keys.keyed k (listed t.keys ops) :=
    fun k => (run_find ops k).trans (find_listed ops k).symm
  rw [run_entries]
  refine ⟨rfl, ?_, t.hash_eq, run_find ops, ?_, ?_, ?_⟩
  · exact hasc.imp fun hlt => canonRank_lt_of_rank60 (t.keys.hash_lt _) (t.keys.hash_lt _) hlt
  · intro k
    rw [hfind]
    exact (rdMapFind_listed hasc k).1
  · intro hmap k v hv
    rw [hfind] at hv
    exact (rdMapFind_listed hasc k).2 hmap v hv
  · intro k v hput
    rw [hfind]
    exact rdMapPos_listed hkt hasc k v hput

/-- Keys 7 and -7: the order is the ranks', not the keys'. -/
theorem known_map_agrees_ints :
    knownRun .int .map "Int(64)".toList [.insert 5#64 "a".toList, .insert (-7#64) "b".toList,
        .remove 5#64, .insert 7#64 "c".toList, .insert (-7#64) "d".toList] =
      some ["7".toList, "c".toList, "-7".toList, "d".toList] ∧
    ["7".toList, "c".toList, "-7".toList, "d".toList] =
      flat .int .map (mapEntries (run intKeys [.insert 5#64 "a".toList, .insert (-7#64) "b".toList,
        .remove 5#64, .insert 7#64 "c".toList, .insert (-7#64) "d".toList])) := by
  have known : knownRun .int .map "Int(64)".toList [.insert 5#64 "a".toList,
      .insert (-7#64) "b".toList, .remove 5#64, .insert 7#64 "c".toList,
      .insert (-7#64) "d".toList] =
      some ["7".toList, "c".toList, "-7".toList, "d".toList] := by decide +kernel
  exact ⟨known, (known_map_agrees .int .map "Int(64)".toList _ _ (by decide) known).1⟩

end Reduce

import Resid.Maps.Listing
import Resid.Runtime.Text
import Resid.Maps.OwnedRuns

/-!
# How Int and Str keys are hashed

FNV-1a of an Int's decimal text and of a Str's bytes.

    fnvFrom h (p ++ q) = fnvFrom (fnvFrom h p) q                     (fnvFrom_append)
    mag < 10 ^ digits → fnvDec digits h mag = fnvFrom h (strBytes (text mag))   (fnvDec_eq)
    fnvI64 v = fnvStr (strBytes (intText v))                         (fnvI64_eq)

## Algorithm

`fnvDec` hashes the digits of `mag / 10` first, so its recursion is the decimal text read
from the front.
-/

namespace Maps

open Runtime

/-- The bytes of a Str at run time. -/
def strBytes (s : Str) : List UInt8 := s.flatMap String.utf8EncodeChar

def fnvFrom (h : BitVec 64) : List UInt8 → BitVec 64
  | [] => h
  | c :: p => if c = 0 then h else fnvFrom ((h ^^^ BitVec.ofNat 64 c.toNat) * fnvP) p

def fnvStr (s : List UInt8) : BitVec 64 := fnvFrom fnvOff s

/-- A text a Str can hold: the NUL ends it. -/
structure StrKey where
  text : Str
  noNul : ∀ c ∈ text, c.toNat ≠ 0

/-! ## Bytes -/

theorem strBytes_append (s t : Str) : strBytes (s ++ t) = strBytes s ++ strBytes t :=
  List.flatMap_append

theorem strBytes_cons (c : Char) (s : Str) :
    strBytes (c :: s) = String.utf8EncodeChar c ++ strBytes s := List.flatMap_cons

/-- An ASCII codepoint is its own byte. -/
theorem utf8EncodeChar_ascii {c : Char} (h : c.toNat < 128) :
    String.utf8EncodeChar c = [UInt8.ofNat c.toNat] := by
  have hle : c.val.toNat ≤ 127 := Nat.le_of_lt_succ h
  unfold String.utf8EncodeChar
  exact if_pos hle

theorem strBytes_inj {s t : Str} (h : strBytes s = strBytes t) : s = t := by
  have hs : (String.ofList s).toByteArray = (String.ofList t).toByteArray := by
    show (s.flatMap String.utf8EncodeChar).toByteArray = (t.flatMap String.utf8EncodeChar).toByteArray
    exact congrArg List.toByteArray h
  have heq := String.toByteArray_inj.1 hs
  rw [← String.toList_ofList (l := s), heq, String.toList_ofList]

/-! ## One byte after the other -/

theorem fnvFrom_cons {h : BitVec 64} {c : UInt8} {p : List UInt8} (hc : c ≠ 0) :
    fnvFrom h (c :: p) = fnvFrom ((h ^^^ BitVec.ofNat 64 c.toNat) * fnvP) p := if_neg hc

theorem fnvFrom_append {h : BitVec 64} {p : List UInt8} (hp : ∀ c ∈ p, c ≠ 0) (q : List UInt8) :
    fnvFrom h (p ++ q) = fnvFrom (fnvFrom h p) q := by
  induction p generalizing h with
  | nil => rfl
  | cons c p ih =>
    have hc := hp c List.mem_cons_self
    rw [List.cons_append, fnvFrom_cons hc, fnvFrom_cons hc]
    exact ih fun d hd => hp d (List.mem_cons_of_mem c hd)

/-- The bytes of a text without NUL. -/
theorem strBytes_ne_zero {s : Str} (h : ∀ c ∈ s, c.toNat ≠ 0) : ∀ b ∈ strBytes s, b ≠ 0 := by
  intro b hb
  obtain ⟨c, hc, hbc⟩ := List.mem_flatMap.1 hb
  have hcode : c.val.toNat ≠ 0 := h c hc
  have hmax : c.val.toNat < 1114112 := by
    have := c.valid
    unfold UInt32.isValidChar Nat.isValidChar at this
    omega
  rintro rfl
  have hzero : ∀ n : Nat, (0 : UInt8) = UInt8.ofNat n → n % 256 = 0 := by
    intro n hn
    have := congrArg UInt8.toNat hn
    rw [UInt8.toNat_ofNat'] at this
    exact this.symm
  unfold String.utf8EncodeChar at hbc
  simp only at hbc
  split_ifs at hbc with h1 h2 h3 <;>
    simp only [List.mem_cons, List.not_mem_nil, or_false] at hbc
  · have := hzero _ hbc
    omega
  · rcases hbc with hbc | hbc <;> have := hzero _ hbc <;> omega
  · rcases hbc with hbc | hbc | hbc <;> have := hzero _ hbc <;> omega
  · rcases hbc with hbc | hbc | hbc | hbc <;> have := hzero _ hbc <;> omega

/-! ## Decimal text -/

variable {n : Nat} {a : MapKey} {b : BitVec 64}

theorem text_succ_digit (h : 10 ≤ n) :
    Decimal.text n = Decimal.text (n / 10) ++ [Nat.digitChar (n % 10)] := by
  unfold Decimal.text
  rw [Nat.toDigits_of_base_le (by decide) h]

theorem text_digit (h : n < 10) : Decimal.text n = [Nat.digitChar n] :=
  Nat.toDigits_of_lt_base h

theorem strBytes_digit (h : n < 10) : strBytes [Nat.digitChar n] = [UInt8.ofNat (48 + n)] := by
  have hcode := Nat.toNat_digitChar_of_lt_ten h
  rw [strBytes_cons, utf8EncodeChar_ascii (by omega), hcode]
  rfl

theorem text_noNul (n : Nat) : ∀ c ∈ Decimal.text n, c.toNat ≠ 0 := by
  intro c hc
  have hd := (Decimal.isDigit_iff c).1 (Decimal.allDigits_text n c hc)
  omega

theorem fnvFrom_digit (h : BitVec 64) (hn : n < 10) :
    fnvFrom h (strBytes [Nat.digitChar n]) = (h ^^^ BitVec.ofNat 64 (48 + n)) * fnvP := by
  have hval : (UInt8.ofNat (48 + n)).toNat = 48 + n := by
    rw [UInt8.toNat_ofNat']
    omega
  have hne : UInt8.ofNat (48 + n) ≠ 0 := by
    intro h0
    rw [h0] at hval
    have : (0 : UInt8).toNat = 0 := rfl
    omega
  rw [strBytes_digit hn, fnvFrom_cons hne, hval]
  rfl

theorem fnvDec_eq {digits : Nat} (h : BitVec 64) {mag : Nat} (hmag : mag < 10 ^ digits)
    (hd : 0 < digits) : fnvDec digits h mag = fnvFrom h (strBytes (Decimal.text mag)) := by
  induction digits generalizing mag with
  | zero => omega
  | succ d ih =>
    have hlast : 48 + mag - mag / 10 * 10 = 48 + mag % 10 := by omega
    unfold fnvDec
    simp only [hlast]
    by_cases hsmall : mag < 10
    · have hq : ¬ mag / 10 > 0 := by omega
      have hm : mag % 10 = mag := Nat.mod_eq_of_lt hsmall
      rw [if_neg hq, text_digit hsmall, fnvFrom_digit h hsmall, hm]
    · have hq : mag / 10 > 0 := by omega
      have hdpos : 0 < d := by
        rcases Nat.eq_zero_or_pos d with rfl | hpos
        · rw [Nat.zero_add, Nat.pow_one] at hmag
          omega
        · exact hpos
      have hlt : mag / 10 < 10 ^ d := by
        rw [Nat.pow_succ] at hmag
        omega
      have hten : 10 ≤ mag := by omega
      rw [if_pos hq, ih hlt hdpos, text_succ_digit hten, strBytes_append,
        fnvFrom_append (strBytes_ne_zero (text_noNul _)), fnvFrom_digit _ (by omega)]

theorem fnvI64_eq (v : BitVec 64) : fnvI64 v = fnvStr (strBytes (intText v.toInt)) := by
  have hslt : v.slt 0#64 = decide (v.toInt < 0) := by
    rw [BitVec.slt_eq_decide]
    rfl
  have hnul : ∀ c ∈ ['-'], c.toNat ≠ 0 := by
    intro c hc
    rw [List.mem_singleton.1 hc]
    decide
  have hdash : fnvFrom fnvOff (strBytes ['-']) = (fnvOff ^^^ 45#64) * fnvP := rfl
  have hneg : ∀ m : Nat, fnvStr (strBytes ('-' :: Decimal.text m)) =
      fnvFrom ((fnvOff ^^^ 45#64) * fnvP) (strBytes (Decimal.text m)) := by
    intro m
    have happ : '-' :: Decimal.text m = ['-'] ++ Decimal.text m := rfl
    rw [fnvStr, happ, strBytes_append, fnvFrom_append (strBytes_ne_zero hnul), hdash]
  have hbound := v.isLt
  unfold fnvI64 intText
  simp only [hslt, decide_eq_true_eq]
  by_cases hv : v = rawEmpty
  · have hint : v.toInt = -9223372036854775808 := by
      rw [hv]
      decide
    have hlast : Decimal.text 9223372036854775808 =
        Decimal.text 922337203685477580 ++ [Nat.digitChar 8] :=
      text_succ_digit (by decide)
    have habs : (-9223372036854775808 : Int).natAbs = 9223372036854775808 := by decide
    rw [if_pos hv, hint, if_pos (by decide), if_pos (by decide), habs, hneg, hlast, strBytes_append,
      fnvFrom_append (strBytes_ne_zero (text_noNul _)), fnvFrom_digit _ (by decide),
      fnvDec_eq _ (by decide) (by decide)]
  · rw [if_neg hv]
    by_cases hlt : v.toInt < 0
    · have hmag : (-v).toNat = v.toInt.natAbs := by
        have hcond := BitVec.toInt_eq_toNat_cond v
        rw [BitVec.toNat_neg]
        split_ifs at hcond <;> omega
      have hle : (-v).toNat < 10 ^ 20 := Nat.lt_of_lt_of_le (-v).isLt (by decide)
      rw [if_pos hlt, if_pos hlt, if_pos hlt, hneg, fnvDec_eq _ hle (by decide), hmag]
    · have hmag : v.toNat = v.toInt.natAbs := by
        have hcond := BitVec.toInt_eq_toNat_cond v
        split_ifs at hcond <;> omega
      have hle : v.toNat < 10 ^ 20 := Nat.lt_of_lt_of_le hbound (by decide)
      rw [if_neg hlt, if_neg hlt, if_neg hlt, fnvDec_eq _ hle (by decide), hmag]
      rfl

/-! ## The keys of a map -/

/-- Int keys, compared as words. -/
def intKeys : Keys (BitVec 64) where
  hash k := (fnvI64 k).toNat
  eq a b := a == b
  hash_lt k := (fnvI64 k).isLt
  refl := wordEq_refl
  symm := wordEq_symm
  trans := wordEq_trans
  hash_eq a b h := by rw [eq_of_beq h]

/-- Str keys, compared byte by byte. -/
def strKeys : Keys StrKey where
  hash k := (fnvStr (strBytes k.text)).toNat
  eq a b := strBytes a.text == strBytes b.text
  hash_lt k := (fnvStr (strBytes k.text)).isLt
  refl a := beq_self_eq_true (strBytes a.text)
  symm a b h := by rw [eq_of_beq h]; exact beq_self_eq_true (strBytes b.text)
  trans a b c h h' := by rw [eq_of_beq h]; exact h'
  hash_eq a b h := by rw [eq_of_beq h]

/-!
## The keys of a map, and the table over them

A key is a scalar, a string or a box; equality and hashes are those of the run time.  A NaN
equals no key, itself included.  The two zeros of a Float are equal, but hash by their texts,
which differ.  Keys among which neither occurs are told apart in one way (`soundKeys`), and over
them the table is a finite map:

    a run answers as the map of its history does                              (table_refines_map)
-/

/-! ## Algorithm -/

/-- The integers of more than one word. -/
inductive WideType
  | i128
  | u128
  | i256
  | u256
  | i512
  | u512
deriving DecidableEq

/-- A key: an Int, raw or boxed; a Float by its bits; a Bool; a wide integer, the lowest word
first; a bare string; a boxed one, or none; another box by its type's name and its address. -/
inductive MapKey
  | int (v : BitVec 64)
  | float (bits : BitVec 64)
  | bool (b : Bool)
  | wide (type : WideType) (limbs : List (BitVec 64))
  | str (bytes : List UInt8)
  | strBox (bytes : Option (List UInt8))
  | box (type : List UInt8) (address : Nat)
deriving DecidableEq

/-- A string's bytes before its NUL. -/
def cText (s : List UInt8) : List UInt8 := s.takeWhile fun c => c != 0

def isNan (bits : BitVec 64) : Bool := 0xFFE0000000000000#64 < bits <<< 1

/-- Equality of Floats: a NaN equals nothing, the two zeros are equal. -/
def floatEq (a b : BitVec 64) : Bool :=
  !isNan a && !isNan b && (a == b || (a <<< 1 == 0#64 && b <<< 1 == 0#64))

/-- A key's hash; `floatText` prints a Float with 17 significant digits. -/
def valueHash (floatText : BitVec 64 → List UInt8) : MapKey → BitVec 64
  | .int v => fnvI64 v
  | .float bits => fnvStr (floatText bits)
  | .bool b => fnvStr (if b then [116] else [102])
  | .wide .u128 limbs => fnvStr (strBytes (Decimal.text (limbs.headD 0#64).toNat))
  | .wide _ limbs => fnvI64 (limbs.headD 0#64)
  | .str bytes => fnvStr bytes
  | .strBox bytes => fnvStr (bytes.getD [])
  | .box type _ => fnvStr type

def valueEq : MapKey → MapKey → Bool
  | .int a, .int b => a == b
  | .float a, .float b => floatEq a b
  | .bool a, .bool b => a == b
  | .wide ta a, .wide tb b => ta == tb && a == b
  | .str a, .str b => cText a == cText b
  | .strBox a, .strBox b => a.map cText == b.map cText
  | .box ta a, .box tb b => ta == tb && a == b
  | _, _ => false

/-- The kinds a key can be kept as.  A table of bare strings is a map's with keys of type Str,
and asked for strings alone. -/
def unboxK : Kind → MapKey → Bool
  | .raw, .int _ => true
  | .bare, .str _ => true
  | .boxed, _ => true
  | _, _ => false

def keyWord : MapKey → BitVec 64
  | .int v => v
  | _ => 0#64

def mapKeys (floatText : BitVec 64 → List UInt8) : KeyOps MapKey where
  hash k := (valueHash floatText k).toNat
  eq := valueEq
  fits := unboxK
  word := keyWord

/-- The same operations on some of the keys. -/
def KeyOps.on {κ : Type} (K : KeyOps κ) (S : κ → Prop) : KeyOps {k // S k} where
  hash k := K.hash k.1
  eq a b := K.eq a.1 b.1
  fits kind k := K.fits kind k.1
  word k := K.word k.1

/-! ## Keys told apart in one way -/

/-- Among these keys are no NaN and not both zeros of a Float. -/
def Sound (S : MapKey → Prop) : Prop :=
  (∀ bits, S (.float bits) → isNan bits = false) ∧
    ¬ (S (.float 0#64) ∧ S (.float 0x8000000000000000#64))

theorem fnvFrom_cText (h : BitVec 64) (s : List UInt8) : fnvFrom h (cText s) = fnvFrom h s := by
  induction s generalizing h with
  | nil => rfl
  | cons c s ih =>
    by_cases hc : c = 0
    · subst hc
      rfl
    · have hcons : cText (c :: s) = c :: cText s :=
        List.takeWhile_cons_of_pos (bne_iff_ne.2 hc)
      rw [hcons, fnvFrom_cons hc, fnvFrom_cons hc]
      exact ih _

theorem fnvStr_congr {a b : List UInt8} (h : cText a = cText b) : fnvStr a = fnvStr b := by
  unfold fnvStr
  rw [← fnvFrom_cText, h, fnvFrom_cText]

/-- Only the two zeros have no bit but a sign. -/
theorem zero_of_shift (h : b <<< 1 = 0#64) : b = 0#64 ∨ b = 0x8000000000000000#64 := by
  have hnat := congrArg BitVec.toNat h
  rw [BitVec.toNat_shiftLeft, Nat.shiftLeft_eq] at hnat
  have hlt := b.isLt
  have hcases : b.toNat = 0 ∨ b.toNat = 9223372036854775808 := by
    rw [BitVec.toNat_ofNat] at hnat
    omega
  rcases hcases with hb | hb
  · left
    exact BitVec.eq_of_toNat_eq hb
  · right
    exact BitVec.eq_of_toNat_eq hb

/-- Both zeros as one. -/
def canonFloat (b : BitVec 64) : BitVec 64 := if b <<< 1 = 0#64 then 0#64 else b

theorem canonFloat_zero (h : canonFloat b = 0#64) : b <<< 1 = 0#64 := by
  unfold canonFloat at h
  split_ifs at h with hz
  · exact hz
  · rw [h]
    rfl

theorem isNan_zero (h : b <<< 1 = 0#64) : isNan b = false := by
  unfold isNan
  rw [h]
  decide

theorem floatEq_iff (a b : BitVec 64) :
    floatEq a b = true ↔ canonFloat a = canonFloat b ∧ isNan a = false := by
  unfold floatEq
  simp only [Bool.and_eq_true, Bool.not_eq_true', Bool.or_eq_true, beq_iff_eq, and_assoc]
  constructor
  · rintro ⟨ha, -, rfl | ⟨hza, hzb⟩⟩
    · exact ⟨rfl, ha⟩
    · unfold canonFloat
      rw [if_pos hza, if_pos hzb]
      exact ⟨rfl, ha⟩
  · rintro ⟨hab, ha⟩
    by_cases hza : a <<< 1 = 0#64
    · have hzb : b <<< 1 = 0#64 := by
        apply canonFloat_zero
        rw [← hab]
        exact if_pos hza
      exact ⟨ha, isNan_zero hzb, .inr ⟨hza, hzb⟩⟩
    · have hzb : ¬ b <<< 1 = 0#64 := by
        intro hzb
        apply hza
        apply canonFloat_zero
        rw [hab]
        exact if_pos hzb
      unfold canonFloat at hab
      rw [if_neg hza, if_neg hzb] at hab
      subst hab
      exact ⟨ha, ha, .inl rfl⟩

/-- A key by what equality reads of it. -/
def canonKey : MapKey → MapKey
  | .float bits => .float (canonFloat bits)
  | .str bytes => .str (cText bytes)
  | .strBox bytes => .strBox (bytes.map cText)
  | k => k

def nanKey : MapKey → Bool
  | .float bits => isNan bits
  | _ => false

theorem valueEq_iff (a b : MapKey) :
    valueEq a b = true ↔ canonKey a = canonKey b ∧ nanKey a = false := by
  cases a with
  | float a =>
    cases b with
    | float b =>
      have hfloat := floatEq_iff a b
      rw [show canonKey (.float a) = canonKey (.float b) ↔ canonFloat a = canonFloat b from
        MapKey.float.injEq _ _ ▸ Iff.rfl]
      exact hfloat
    | _ => simp [valueEq, canonKey]
  | _ => cases b <;> simp [valueEq, canonKey, nanKey]

/-- Sound Floats that are equal are the same. -/
theorem Sound.float_eq {S : MapKey → Prop} (hS : Sound S) {a : BitVec 64} (ha : S (.float a))
    (hb : S (.float b)) (h : canonFloat a = canonFloat b) : a = b := by
  by_cases hza : a <<< 1 = 0#64
  · have hzb : b <<< 1 = 0#64 := by
      apply canonFloat_zero
      rw [← h]
      exact if_pos hza
    rcases zero_of_shift hza with rfl | rfl
    · rcases zero_of_shift hzb with rfl | rfl
      · rfl
      · exact absurd ⟨ha, hb⟩ hS.2
    · rcases zero_of_shift hzb with rfl | rfl
      · exact absurd ⟨hb, ha⟩ hS.2
      · rfl
  · have hzb : ¬ b <<< 1 = 0#64 := by
      intro hzb
      apply hza
      apply canonFloat_zero
      rw [h]
      exact if_pos hzb
    unfold canonFloat at h
    rwa [if_neg hza, if_neg hzb] at h

/-- Sound keys that are equal hash alike. -/
theorem valueHash_congr {S : MapKey → Prop} (hS : Sound S) (floatText : BitVec 64 → List UInt8)
    {b : MapKey} (ha : S a) (hb : S b) (h : valueEq a b = true) :
    valueHash floatText a = valueHash floatText b := by
  obtain ⟨hab, -⟩ := (valueEq_iff a b).1 h
  cases a with
  | float x =>
    cases b with
    | float y =>
      rw [hS.float_eq ha hb (MapKey.float.inj hab)]
    | _ => cases hab
  | str s =>
    cases b with
    | str t => exact fnvStr_congr (MapKey.str.inj hab)
    | _ => cases hab
  | strBox s =>
    cases b with
    | strBox t =>
      have htext : s.map cText = t.map cText := MapKey.strBox.inj hab
      cases s with
      | none =>
        cases t with
        | none => rfl
        | some t => cases htext
      | some s =>
        cases t with
        | none => cases htext
        | some t => exact fnvStr_congr (Option.some.inj htext)
    | _ => cases hab
  | _ =>
    cases b with
    | float y => cases hab
    | str t => cases hab
    | strBox t => cases hab
    | _ => exact congrArg (valueHash floatText) hab

theorem unboxK_congr {b : MapKey} (h : canonKey a = canonKey b) (kind : Kind) :
    unboxK kind a = unboxK kind b := by
  have hcanon : ∀ k : MapKey, unboxK kind (canonKey k) = unboxK kind k := by
    intro k
    cases k <;> cases kind <;> rfl
  rw [← hcanon, h, hcanon]

theorem keyWord_congr {b : MapKey} (h : canonKey a = canonKey b) : keyWord a = keyWord b := by
  have hcanon : ∀ k : MapKey, keyWord (canonKey k) = keyWord k := by
    intro k
    cases k <;> rfl
  rw [← hcanon, h, hcanon]

theorem int_of_raw (h : unboxK .raw a = true) : a = .int (keyWord a) := by
  cases a with
  | int v => rfl
  | _ => cases h

def soundKeys (floatText : BitVec 64 → List UInt8) (S : MapKey → Prop) (hS : Sound S) :
    TableKeys {k // S k} where
  toKeyOps := (mapKeys floatText).on S
  hash_lt k := (valueHash floatText k.1).isLt
  refl a := by
    refine (valueEq_iff a.1 a.1).2 ⟨rfl, ?_⟩
    obtain ⟨a, ha⟩ := a
    cases a with
    | float bits => exact hS.1 bits ha
    | _ => rfl
  symm a b h := by
    obtain ⟨hab, -⟩ := (valueEq_iff a.1 b.1).1 h
    refine (valueEq_iff b.1 a.1).2 ⟨hab.symm, ?_⟩
    obtain ⟨b, hb⟩ := b
    cases b with
    | float bits => exact hS.1 bits hb
    | _ => rfl
  trans a b c h h' := by
    obtain ⟨hab, hnan⟩ := (valueEq_iff a.1 b.1).1 h
    obtain ⟨hbc, -⟩ := (valueEq_iff b.1 c.1).1 h'
    exact (valueEq_iff a.1 c.1).2 ⟨hab.trans hbc, hnan⟩
  hash_eq a b h := congrArg BitVec.toNat (valueHash_congr hS floatText a.2 b.2 h)
  fits_boxed a := by
    obtain ⟨a, ha⟩ := a
    cases a <;> rfl
  fits_eq kind a b h := unboxK_congr ((valueEq_iff a.1 b.1).1 h).1 kind
  word_eq a b h := keyWord_congr ((valueEq_iff a.1 b.1).1 h).1
  word_inj a b ha hb h := by
    have hsame : a.1 = b.1 := by
      rw [int_of_raw ha, int_of_raw hb]
      exact congrArg MapKey.int h
    refine (valueEq_iff a.1 b.1).2 ⟨congrArg canonKey hsame, ?_⟩
    rw [int_of_raw ha]
    rfl

/-! ## The finite map -/

/-- Over keys without NaN and without both zeros, every run of requests ends and answers as the
map of its history does; half of the slots are free, every search ends, and the kept answer is
the one a search gives. -/
theorem table_refines_map {υ : Type} (floatText : BitVec 64 → List UInt8) (S : MapKey → Prop)
    (hS : Sound S) (n : Nat) (kind : Kind) (verbs : List (Verb {k // S k} υ)) :
    ∃ o, (newTab n kind).run ((mapKeys floatText).on S) verbs =
        some (o, answers (soundKeys floatText S hS).toKeys [] verbs) ∧
      o.table.slots.countP Slot.used * 2 ≤ o.table.slots.length ∧
      (∀ k, tProbe ((mapKeys floatText).on S) o.table k ≠ none) ∧
      (∀ w r, o.last = some (w, r) → probeWord ((mapKeys floatText).on S) o.table w = some r) ∧
      ∀ k, tFind ((mapKeys floatText).on S) o.table k =
        some (lastValue (soundKeys floatText S hS).toKeys k (verbs.filterMap Verb.op)) := by
  obtain ⟨o, hrun, hok, hshows⟩ :=
    run_spec (K := soundKeys floatText S hS) (newTab_ok n kind) (newTab_shows n kind) verbs
  refine ⟨o, hrun, hok.ok.half, tProbe_ends hok.ok, hok.last, ?_⟩
  intro k
  obtain ⟨r, hr, hhas⟩ := tFind_spec hok.ok k
  exact hr.trans (congrArg some (hshows.unique hhas))

/-- Int keys, the two that mark slots among them. -/
theorem table_refines_map_marks :
    ∃ o, (newTab 0 .raw).run ((mapKeys fun _ => []).on fun k => unboxK .raw k = true)
        [.put true ⟨.int rawEmpty, rfl⟩ 'a', .put true ⟨.int 7#64, rfl⟩ 'b',
          .find true ⟨.int rawTomb, rfl⟩, .del ⟨.int 7#64, rfl⟩, .find true ⟨.int 7#64, rfl⟩,
          .find true ⟨.int rawEmpty, rfl⟩] =
      some (o, [.done, .done, .value none, .deleted true, .value none, .value (some 'a')]) := by
  have hS : Sound fun k => unboxK .raw k = true := by
    constructor
    · intro bits h
      cases h
    · rintro ⟨h, -⟩
      cases h
  obtain ⟨o, hrun, -⟩ := table_refines_map (fun _ => []) _ hS 0 .raw
    [.put true ⟨.int rawEmpty, rfl⟩ 'a', .put true ⟨.int 7#64, rfl⟩ 'b',
      .find true ⟨.int rawTomb, rfl⟩, .del ⟨.int 7#64, rfl⟩, .find true ⟨.int 7#64, rfl⟩,
      .find true ⟨.int rawEmpty, rfl⟩]
  refine ⟨o, hrun.trans ?_⟩
  rfl

/-- A NaN is put, and not found: it equals no key. -/
theorem table_refines_map_nan : ¬ ∀ (k : MapKey) (v : Nat),
    ∃ o, (newTab 0 .boxed).run (mapKeys fun _ => [110, 97, 110]) [.put true k v, .find true k] =
      some (o, [.done, .value (some v)]) := by
  intro h
  obtain ⟨o, ho⟩ := h (.float 0x7FF8000000000000#64) 1
  have hnone : ((newTab 0 .boxed).run (mapKeys fun _ => [110, 97, 110])
      [.put true (.float 0x7FF8000000000000#64) 1, .find true (.float 0x7FF8000000000000#64)]).map
        Prod.snd = some [.done, .value none] := by decide +kernel
  rw [ho] at hnone
  cases hnone

/-- The zeros of a Float are equal keys with two hashes: what one put is not found by the
other. -/
example : ((newTab 0 .boxed).run
    (mapKeys fun b => if b = 0#64 then [48] else [45, 48])
    [.put true (.float 0#64) 1, .find true (.float 0x8000000000000000#64)]).map Prod.snd =
      some [.done, .value none] := by decide +kernel

end Maps

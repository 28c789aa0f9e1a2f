import Resid.Lib.FixedWidth
import Resid.Lib.CheckedInt
import Resid.Lib.Outcome
import Resid.Serial.Protocol

/-!
# Heads

A head is a major type in the top three bits of a byte and an argument: the low five bits below
24, or the 1, 2, 4 or 8 bytes after them, most significant first.  `Head mt ai arg hd` says that
the bytes `hd` are one.

    major < 7 → arg < 2 ^ 64 → ∃ ai, Head major ai arg (cbHead major arg)    (head_cbHead)
    Head mt ai arg hd → mt < 7 → cdPeekHead (hd here) = ok ⟨mt, ai, arg⟩     (cdPeekHead_head)
-/

namespace Cbor

open Runtime Serial CheckedInt ByteOrder

/-- The runtime allocates no longer list. -/
def listCap : Nat := 1152921504606846972

/-- A list of bytes as the runtime holds it. -/
abbrev ByteList := {bs : List UInt8 // bs.length ≤ listCap}

abbrev Read (α : Type) := Outcome SerialError α

/-! ## Heads, written -/

/-- The low `n` bytes of `v` appended to `acc`, least significant first. -/
def cbBe16At : (v n : Nat) → (acc : List UInt8) → List UInt8
  | _, 0, acc => acc
  | v, n + 1, acc =>
    let q := v / 256
    cbBe16At q n (acc ++ [UInt8.ofNat (v - q * 256)])

def cbRev : (xs acc : List UInt8) → List UInt8
  | [], acc => acc
  | x :: xs, acc => cbRev xs ([x] ++ acc)

/-- `v` as 16 big-endian bytes. -/
def cbBe16 (v : Nat) : List UInt8 := cbRev (cbBe16At v 16 []) []

/-- One byte of the argument, zero past its end. -/
def cbByteAt (full : List UInt8) (i : Nat) : UInt8 := full[i]?.getD 0

/-- The first byte from `i` that is not a leading zero, never past the last. -/
def cbFirstSet (full : List UInt8) (i : Nat) : Nat :=
  if i ≥ full.length - 1 then i
  else if cbByteAt full i = 0 then cbFirstSet full (i + 1)
  else i
termination_by full.length - i

/-- The shortest of the five forms for the bytes from `i` on. -/
def cbHeadAt (full : List UInt8) (i major : Nat) : List UInt8 :=
  let n := full.length - i
  let mt := major <<< 5
  let b0 := if n = 0 then 0 else cbByteAt full i
  let last := fun k => cbByteAt full (full.length - k)
  if n ≤ 1 ∧ b0 ≤ 23 then [UInt8.ofNat (mt ||| b0.toNat)]
  else if n ≤ 1 then [UInt8.ofNat (mt ||| 24), b0]
  else if n ≤ 2 then [UInt8.ofNat (mt ||| 25), b0, cbByteAt full (i + 1)]
  else if n ≤ 4 then [UInt8.ofNat (mt ||| 26), last 4, last 3, last 2, last 1]
  else [UInt8.ofNat (mt ||| 27), last 8, last 7, last 6, last 5, last 4, last 3, last 2, last 1]

def cbHead (major arg : Nat) : List UInt8 :=
  let full := cbBe16 arg
  cbHeadAt full (cbFirstSet full 0) major

/-! ## The decoder's state -/

/-- An open container and the parts it has left. -/
inductive CbFrame
  | arr (n : Int)
  | map (n : Int)
  | str (n : Int)
  | byt (n : Int)
deriving DecidableEq

structure CborDec where
  input : ByteList
  pos : Nat
  opened : List CbFrame
  payloads : Int
  vmaps : Int

def cborDecoder (bs : ByteList) : CborDec := ⟨bs, 0, [], 0, 0⟩

def cdAt (d : CborDec) (pos : Nat) (opened : List CbFrame) : CborDec :=
  ⟨d.input, pos, opened, d.payloads, d.vmaps⟩

def cdTake (d : CborDec) (n : Nat) : CborDec := cdAt d (d.pos + n) d.opened

/-! ## Heads, read -/

structure CbHead where
  mt : Nat
  ai : Nat
  arg : Nat
deriving DecidableEq

def cbArgWidth (ai : Nat) : Nat :=
  if ai = 24 then 1 else if ai = 25 then 2 else if ai = 26 then 4 else 8

/-- The `n` bytes at `i` shifted into 64 bits; reading past the end traps. -/
def cbArgBytes (bs : List UInt8) : (i n acc : Nat) → Option Nat
  | _, 0, acc => some acc
  | i, n + 1, acc => do
    let b ← bs[i]?
    cbArgBytes bs (i + 1) n (FixedWidth.shlLow 64 acc 8 ||| b.toNat)

/-- The head at `start`, which is not consumed. -/
def cdPeekHead (d : CborDec) (start : Nat) (what : Str) : Read CbHead :=
  match d.input.val[start]? with
  | none => .err (eofError what)
  | some b0 =>
    let mt := b0.toNat >>> 5
    let ai := b0.toNat &&& 31
    if ai < 24 then .ok ⟨mt, ai, ai⟩
    else if ai = 31 then .ok ⟨mt, 31, 0⟩
    else if mt = 7 then .ok ⟨mt, ai, 0⟩
    else
      let n := cbArgWidth ai
      if start + n ≥ d.input.val.length then .err (eofError what)
      else do
        let arg ← .checked (cbArgBytes d.input.val (start + 1) n 0)
        pure ⟨mt, ai, arg⟩

def cbHeadLen (h : CbHead) : Nat :=
  if h.mt = 7 then 1
  else if h.ai = 31 then 1
  else if h.ai < 24 then 1
  else if h.ai = 24 then 2
  else if h.ai = 25 then 3
  else if h.ai = 26 then 5
  else 9

/-- The head at the read position, and the state just past it. -/
def cdReadHead (d : CborDec) (what : Str) : Read (Parsed CbHead CborDec) := do
  let h ← cdPeekHead d d.pos what
  pure ⟨h, cdAt d (d.pos + cbHeadLen h) d.opened⟩

/-- The break byte, seen without consuming it. -/
def cbAtBreak (d : CborDec) : Bool := d.input.val[d.pos]? == some 0xFF

/-- An argument as a length, or -1 when the bytes it promises are not there. -/
def cbFitArg (arg : Nat) (d : CborDec) : Read Int := do
  let n ← .checked (check 64 arg)
  if n < 0 then pure (-1)
  else do
    let stop ← .checked (add 64 d.pos n)
    if stop > d.input.val.length then pure (-1) else pure n

def cbHeadName (h : CbHead) : Str :=
  (if h.mt = 0 then "an unsigned integer"
  else if h.mt = 1 then "a negative integer"
  else if h.mt = 2 then "bytes"
  else if h.mt = 3 then "a string"
  else if h.mt = 4 then "a sequence"
  else if h.mt = 5 then "a map"
  else if h.mt = 6 then "a tag"
  else if h.ai = 20 ∨ h.ai = 21 then "a boolean"
  else if h.ai = 22 ∨ h.ai = 23 then "null"
  else if h.ai = 25 ∨ h.ai = 26 ∨ h.ai = 27 then "a float"
  else if h.ai < 20 then "a simple value"
  else "a break").toList

/-! ## What a head is -/

inductive Head : (mt ai arg : Nat) → List UInt8 → Prop
  | short {mt ai : Nat} : mt < 8 → ai < 24 → Head mt ai ai [UInt8.ofNat (32 * mt + ai)]
  | wide {mt ai : Nat} {as : List UInt8} : mt < 8 → 24 ≤ ai → ai < 28 →
      as.length = cbArgWidth ai →
      Head mt ai (value as.reverse) (UInt8.ofNat (32 * mt + ai) :: as)

theorem Head.length_pos {mt ai arg : Nat} {hd : List UInt8} (h : Head mt ai arg hd) :
    0 < hd.length := by
  cases h with
  | short _ _ => simp
  | wide _ _ _ _ => simp

theorem Head.major_lt {mt ai arg : Nat} {hd : List UInt8} (h : Head mt ai arg hd) : mt < 8 := by
  cases h with
  | short hm _ => exact hm
  | wide hm _ _ _ => exact hm

theorem Head.info_lt {mt ai arg : Nat} {hd : List UInt8} (h : Head mt ai arg hd) : ai < 28 := by
  cases h with
  | short _ hai => omega
  | wide _ _ h28 _ => exact h28

/-! ## Writing makes a head -/

theorem cbBe16At_eq (v n : Nat) (acc : List UInt8) : cbBe16At v n acc = acc ++ split n v := by
  induction n generalizing v acc with
  | zero => simp [cbBe16At, split]
  | succ n ih =>
    have hbyte : UInt8.ofNat (v - v / 256 * 256) = UInt8.ofNat v := by
      apply UInt8.toNat_inj.1
      rw [UInt8.toNat_ofNat', UInt8.toNat_ofNat']
      omega
    show cbBe16At (v / 256) n (acc ++ [UInt8.ofNat (v - v / 256 * 256)]) = _
    rw [ih, hbyte, List.append_assoc]
    rfl

theorem cbRev_eq (xs acc : List UInt8) : cbRev xs acc = xs.reverse ++ acc := by
  induction xs generalizing acc with
  | nil => rfl
  | cons x xs ih =>
    show cbRev xs ([x] ++ acc) = _
    rw [ih]
    simp

theorem cbBe16_eq (v : Nat) : cbBe16 v = (split 16 v).reverse := by
  rw [cbBe16, cbBe16At_eq, cbRev_eq]
  simp

@[simp] theorem length_cbBe16 (v : Nat) : (cbBe16 v).length = 16 := by
  rw [cbBe16_eq]
  simp

/-- Byte `i` of the sixteen. -/
theorem cbByteAt_be16 {v i k : Nat} (hik : i + k = 15) :
    cbByteAt (cbBe16 v) i = UInt8.ofNat (v / 256 ^ k) := by
  unfold cbByteAt
  rw [cbBe16_eq, List.getElem?_reverse (by simp; omega), length_split]
  have hj : 16 - 1 - i = k := by omega
  rw [hj, getElem?_split (by omega)]
  rfl

theorem cbByteAt_be16_eq_zero {v i k : Nat} (hik : i + k = 15) (hv : v < 256 ^ (k + 1)) :
    cbByteAt (cbBe16 v) i = 0 ↔ v < 256 ^ k := by
  have hpos : 0 < 256 ^ k := Nat.pow_pos (by decide)
  have hlt : v / 256 ^ k < 256 := by
    apply Nat.div_lt_of_lt_mul
    rw [Nat.pow_succ] at hv
    exact hv
  rw [cbByteAt_be16 hik, ← UInt8.toNat_inj, UInt8.toNat_ofNat', Nat.mod_eq_of_lt hlt]
  exact Nat.div_eq_zero_iff_lt hpos

/-- The significant bytes start at `16 - n`: they hold the value, and one less does not. -/
theorem cbFirstSet_be16 {v i : Nat} (hi : i ≤ 15) (hv : v < 256 ^ (16 - i)) :
    ∃ n, cbFirstSet (cbBe16 v) i = 15 - n ∧ n ≤ 15 ∧ v < 256 ^ (n + 1) ∧
      (n = 0 ∨ 256 ^ n ≤ v) := by
  induction hk : 15 - i generalizing i with
  | zero =>
    have hend : i = 15 := by omega
    subst hend
    refine ⟨0, ?_, by omega, hv, Or.inl rfl⟩
    rw [cbFirstSet, if_pos (by simp)]
  | succ k ih =>
    have hpow : 16 - i = 15 - i + 1 := by omega
    rw [hpow] at hv
    have hzero := cbByteAt_be16_eq_zero (v := v) (i := i) (k := 15 - i) (by omega) hv
    rw [cbFirstSet, if_neg (by simp; omega)]
    by_cases hb : cbByteAt (cbBe16 v) i = 0
    · rw [if_pos hb]
      apply ih (by omega) _ (by omega)
      have hnext : 16 - (i + 1) = 15 - i := by omega
      rw [hnext]
      exact hzero.1 hb
    · rw [if_neg hb]
      have hge := mt hzero.2 hb
      exact ⟨15 - i, by omega, by omega, hv, Or.inr (by omega)⟩

theorem shiftLeft_or {major x : Nat} (hx : x < 32) : major <<< 5 ||| x = 32 * major + x := by
  rw [← Nat.shiftLeft_add_eq_or_of_lt (show x < 2 ^ 5 from hx), Nat.shiftLeft_eq]
  omega

/-- The bytes of an argument that fits its width. -/
theorem head_split {major v : Nat} (ai : Nat) (hm : major < 8) (h24 : 24 ≤ ai) (h28 : ai < 28)
    (hv : v < 256 ^ cbArgWidth ai) :
    Head major ai v (UInt8.ofNat (32 * major + ai) :: (split (cbArgWidth ai) v).reverse) := by
  have hval : value ((split (cbArgWidth ai) v).reverse).reverse = v := by
    rw [List.reverse_reverse, value_split, Nat.mod_eq_of_lt hv]
  have h := @Head.wide major ai (split (cbArgWidth ai) v).reverse hm h24 h28 (by simp)
  rwa [hval] at h

theorem head_cbHead {arg : Nat} (major : Nat) (hm : major < 8) (ha : arg < 2 ^ 64) :
    ∃ ai, Head major ai arg (cbHead major arg) := by
  have hbig : arg < 256 ^ (16 - 0) := lt_trans ha (by decide)
  obtain ⟨n, hfirst, hn, hlt, hge⟩ := cbFirstSet_be16 (Nat.zero_le 15) hbig
  have hn8 : n < 8 := by
    rcases hge with h0 | hge
    · omega
    · by_contra hcon
      have hpow : 256 ^ 8 ≤ 256 ^ n := Nat.pow_le_pow_right (by decide) (by omega)
      omega
  have hlast : ∀ k < 8, cbByteAt (cbBe16 arg) (16 - (k + 1)) = UInt8.ofNat (arg / 256 ^ k) :=
    fun k hk => cbByteAt_be16 (by omega)
  have hb0 : cbByteAt (cbBe16 arg) (15 - n) = UInt8.ofNat (arg / 256 ^ n) :=
    cbByteAt_be16 (by omega)
  have hcount : 16 - (15 - n) = n + 1 := by omega
  unfold cbHead cbHeadAt
  simp only [hfirst, length_cbBe16, hcount, hb0]
  rw [if_neg (Nat.succ_ne_zero n)]
  by_cases hn1 : n = 0
  · subst hn1
    have hbyte : (UInt8.ofNat arg).toNat = arg := by
      rw [UInt8.toNat_ofNat']
      omega
    simp only [Nat.pow_zero, Nat.div_one]
    by_cases hsmall : UInt8.ofNat arg ≤ 23
    · have h23 : arg ≤ 23 := by
        rw [UInt8.le_iff_toNat_le, hbyte] at hsmall
        exact hsmall
      refine ⟨arg, ?_⟩
      rw [if_pos ⟨Nat.le_refl 1, hsmall⟩, hbyte, shiftLeft_or (by omega)]
      exact Head.short hm (by omega)
    · refine ⟨24, ?_⟩
      rw [if_neg (fun h => hsmall h.2), if_pos (Nat.le_refl 1), shiftLeft_or (by decide)]
      exact head_split 24 hm (by decide) (by decide) hlt
  · rw [if_neg (fun h => hn1 (by omega)), if_neg (by omega)]
    by_cases h2 : n + 1 ≤ 2
    · have hone : n = 1 := by omega
      subst hone
      refine ⟨25, ?_⟩
      rw [if_pos h2, shiftLeft_or (by decide), hlast 0 (by decide)]
      have h := head_split 25 hm (by decide) (by decide) hlt
      simpa [cbArgWidth, split] using h
    · rw [if_neg h2]
      by_cases h4 : n + 1 ≤ 4
      · refine ⟨26, ?_⟩
        rw [if_pos h4, shiftLeft_or (by decide), hlast 0 (by decide), hlast 1 (by decide),
          hlast 2 (by decide), hlast 3 (by decide)]
        have hpow : 256 ^ (n + 1) ≤ 256 ^ 4 := Nat.pow_le_pow_right (by decide) h4
        have h := @head_split major arg 26 hm (by decide) (by decide)
          (lt_of_lt_of_le hlt hpow)
        simpa [cbArgWidth, split, Nat.div_div_eq_div_mul] using h
      · refine ⟨27, ?_⟩
        rw [if_neg h4, shiftLeft_or (by decide), hlast 0 (by decide), hlast 1 (by decide),
          hlast 2 (by decide), hlast 3 (by decide), hlast 4 (by decide), hlast 5 (by decide),
          hlast 6 (by decide), hlast 7 (by decide)]
        have h := @head_split major arg 27 hm (by decide) (by decide)
          (by simpa [cbArgWidth] using ha)
        simpa [cbArgWidth, split, Nat.div_div_eq_div_mul] using h

/-! ## Reading a head -/

theorem toNat_headByte {mt ai : Nat} (hm : mt < 8) (hai : ai < 32) :
    (UInt8.ofNat (32 * mt + ai)).toNat = 32 * mt + ai := by
  rw [UInt8.toNat_ofNat']
  omega

theorem headByte_major {n : Nat} : n >>> 5 = n / 32 := Nat.shiftRight_eq_div_pow n 5

theorem headByte_info {n : Nat} : n &&& 31 = n % 32 := Nat.and_two_pow_sub_one_eq_mod n 5

theorem value_reverse_cons (b : UInt8) (as : List UInt8) :
    value (b :: as).reverse = b.toNat * 256 ^ as.length + value as.reverse := by
  rw [List.reverse_cons, value_append, List.length_reverse]
  show value as.reverse + 256 ^ as.length * (b.toNat + 256 * 0) = _
  ring

/-- One more byte at the low end. -/
theorem shlLow_or_byte {w acc : Nat} {b : UInt8} (h : acc * 256 < 2 ^ w) :
    FixedWidth.shlLow w acc 8 ||| b.toNat = acc * 256 + b.toNat := by
  have hb := b.toNat_lt
  have hlow : FixedWidth.shlLow w acc 8 = acc <<< 8 := by
    rw [FixedWidth.shlLow, Nat.shiftLeft_eq]
    exact Nat.mod_eq_of_lt h
  rw [hlow, ← Nat.shiftLeft_add_eq_or_of_lt hb, Nat.shiftLeft_eq]

/-- The first of the bytes from `i`, and the rest. -/
theorem getElem?_of_drop_cons {bs r : List UInt8} {i : Nat} {b : UInt8} (h : bs.drop i = b :: r) :
    bs[i]? = some b ∧ bs.drop (i + 1) = r := by
  constructor
  · have h0 := @List.getElem?_drop _ bs i 0
    rw [h] at h0
    exact h0.symm
  · rw [← List.drop_drop, h]
    rfl

theorem cbArgBytes_eq {bs as rest : List UInt8} {i acc : Nat} (h : bs.drop i = as ++ rest)
    (hfit : (acc + 1) * 256 ^ as.length ≤ 2 ^ 64) :
    cbArgBytes bs i as.length acc = some (acc * 256 ^ as.length + value as.reverse) := by
  induction as generalizing i acc with
  | nil => simp [cbArgBytes]
  | cons b as ih =>
    obtain ⟨hget, hdrop⟩ := getElem?_of_drop_cons h
    have hb := b.toNat_lt
    have hpow : 256 ^ (as.length + 1) = 256 * 256 ^ as.length := by rw [Nat.pow_succ, Nat.mul_comm]
    rw [List.length_cons, hpow] at hfit
    have hacc : acc * 256 < 2 ^ 64 := by
      have hone : 0 < 256 ^ as.length := Nat.pow_pos (by decide)
      have hle : (acc + 1) * 256 ≤ (acc + 1) * (256 * 256 ^ as.length) :=
        Nat.mul_le_mul_left _ (Nat.le_mul_of_pos_right _ hone)
      omega
    have hnext : (acc * 256 + b.toNat + 1) * 256 ^ as.length ≤ 2 ^ 64 := by
      have hle : acc * 256 + b.toNat + 1 ≤ (acc + 1) * 256 := by omega
      calc (acc * 256 + b.toNat + 1) * 256 ^ as.length
          ≤ (acc + 1) * 256 * 256 ^ as.length := Nat.mul_le_mul_right _ hle
        _ = (acc + 1) * (256 * 256 ^ as.length) := Nat.mul_assoc _ _ _
        _ ≤ 2 ^ 64 := hfit
    show (bs[i]?.bind fun b => cbArgBytes bs (i + 1) as.length _) = _
    rw [hget, Option.bind_some, shlLow_or_byte hacc, ih hdrop hnext, value_reverse_cons,
      List.length_cons, hpow]
    congr 1
    ring

theorem cbArgWidth_le (ai : Nat) : cbArgWidth ai ≤ 8 := by
  unfold cbArgWidth
  split_ifs <;> omega

section

variable {mt ai arg p : Nat} {hd rest : List UInt8} {d : CborDec}

/-- A head's argument reads back; a float's bytes are no argument. -/
theorem cdPeekHead_head (h : Head mt ai arg hd) (hd' : d.input.val.drop p = hd ++ rest)
    (what : Str) :
    cdPeekHead d p what = .ok ⟨mt, ai, if mt = 7 ∧ 24 ≤ ai then 0 else arg⟩ := by
  cases h with
  | short hm hai =>
    obtain ⟨hget, -⟩ := getElem?_of_drop_cons hd'
    unfold cdPeekHead
    rw [hget]
    simp only [headByte_major, headByte_info, toNat_headByte hm (show ai < 32 by omega)]
    have hmt : (32 * mt + ai) / 32 = mt := by omega
    have harg : (32 * mt + ai) % 32 = ai := by omega
    rw [hmt, harg, if_pos hai, if_neg (by omega)]
  | @wide as hm h24 h28 hlen =>
    obtain ⟨hget, hrest⟩ := getElem?_of_drop_cons hd'
    unfold cdPeekHead
    rw [hget]
    simp only [headByte_major, headByte_info, toNat_headByte hm (show ai < 32 by omega)]
    have hmt : (32 * mt + ai) / 32 = mt := by omega
    have harg : (32 * mt + ai) % 32 = ai := by omega
    rw [hmt, harg, if_neg (by omega), if_neg (by omega)]
    by_cases h7 : mt = 7
    · rw [if_pos h7, if_pos ⟨h7, h24⟩]
    · have hroom := congrArg List.length hd'
      rw [List.length_drop, List.length_append, List.length_cons, hlen] at hroom
      have hfit : (0 + 1) * 256 ^ as.length ≤ 2 ^ 64 := by
        have hpow : 256 ^ as.length ≤ 256 ^ 8 :=
          Nat.pow_le_pow_right (by decide) (hlen ▸ cbArgWidth_le ai)
        omega
      have hbytes := cbArgBytes_eq hrest hfit
      rw [hlen] at hbytes
      rw [if_neg h7, if_neg (by omega), hbytes, if_neg (fun h => h7 h.1)]
      simp

theorem cbHeadLen_head (h : Head mt ai arg hd) (h7 : mt = 7 → ai < 24) (a : Nat) :
    cbHeadLen ⟨mt, ai, a⟩ = hd.length := by
  cases h with
  | short hm hai =>
    unfold cbHeadLen
    simp only [List.length_singleton]
    split_ifs <;> omega
  | @wide as hm h24 h28 hlen =>
    have hw : cbArgWidth ai = as.length := hlen.symm
    unfold cbArgWidth at hw
    unfold cbHeadLen
    simp only [List.length_cons]
    split_ifs at hw ⊢ <;> omega

theorem cdReadHead_head (h : Head mt ai arg hd) (hd' : d.input.val.drop d.pos = hd ++ rest)
    (h7 : mt = 7 → ai < 24) (what : Str) :
    cdReadHead d what = .ok ⟨⟨mt, ai, arg⟩, cdTake d hd.length⟩ := by
  have hnot : ¬ (mt = 7 ∧ 24 ≤ ai) := fun h => absurd (h7 h.1) (by omega)
  unfold cdReadHead
  rw [cdPeekHead_head h hd', if_neg hnot, Outcome.ok_bind, cbHeadLen_head h h7]
  rfl

/-- A head is never empty. -/
theorem cbHeadLen_pos (h : CbHead) : 0 < cbHeadLen h := by
  unfold cbHeadLen
  split_ifs <;> decide

end

theorem cdPeekHead_lt {d : CborDec} {p : Nat} {what : Str} {h : CbHead}
    (hok : cdPeekHead d p what = .ok h) : p < d.input.val.length := by
  unfold cdPeekHead at hok
  split at hok
  · cases hok
  · next b0 hget => exact (List.getElem?_eq_some_iff.1 hget).1

theorem cdReadHead_ok {d : CborDec} {what : Str} {h : Parsed CbHead CborDec}
    (hok : cdReadHead d what = .ok h) :
    h.rest.input = d.input ∧ d.pos < h.rest.pos ∧ d.pos < d.input.val.length := by
  obtain ⟨head, hpeek, hok⟩ := Outcome.bind_ok.1 hok
  cases hok
  have hpos := cbHeadLen_pos head
  refine ⟨rfl, ?_, cdPeekHead_lt hpeek⟩
  show d.pos < d.pos + cbHeadLen head
  omega

@[simp] theorem cdTake_cdTake (d : CborDec) (m n : Nat) :
    cdTake (cdTake d m) n = cdTake d (m + n) := by
  unfold cdTake cdAt
  simp [Nat.add_assoc]

@[simp] theorem cdTake_input (d : CborDec) (n : Nat) : (cdTake d n).input = d.input := rfl

@[simp] theorem cdTake_pos (d : CborDec) (n : Nat) : (cdTake d n).pos = d.pos + n := rfl

theorem drop_cdTake {d : CborDec} {hd rest : List UInt8}
    (h : d.input.val.drop d.pos = hd ++ rest) :
    (cdTake d hd.length).input.val.drop (cdTake d hd.length).pos = rest := by
  rw [cdTake_input, cdTake_pos, ← List.drop_drop, h, List.drop_left]

/-- A length is fitted when its bytes are there. -/
theorem cbFitArg_eq {d : CborDec} {n : Nat} (hn : d.pos + n ≤ d.input.val.length) :
    cbFitArg n d = .ok n := by
  have hcap := d.input.property
  unfold listCap at hcap
  unfold cbFitArg
  rw [check_of_fits (fits_64.2 (by omega)), Outcome.checked_some, Outcome.ok_bind,
    if_neg (by omega), add_of_fits (fits_64.2 (by omega)), Outcome.checked_some, Outcome.ok_bind,
    if_neg (by omega)]
  rfl

end Cbor

import Resid.Cbor.Head
import Resid.Runtime.Ints

/-!
# 128-bit integers

A 128-bit integer is written under major type 0 or 1 when its argument fits in 64 bits and as a
bignum, tag 2 or 3 around a byte string, when it does not.  The reader takes a negative head with
an argument of `2 ^ 63 - 1` or more for the start of a bignum.

    what was written reads back ↔ ¬ (-2 ^ 64 ≤ v ∧ v ≤ -2 ^ 63)      (i128_round_trip_iff)
-/

namespace Cbor

open Runtime Serial CheckedInt ByteOrder

/-! ## The encoder -/

/-- The bytes written so far, newest first. -/
structure CborEnc where
  out : List UInt8
deriving DecidableEq

def cborEncoder : CborEnc := ⟨[]⟩

/-- The bytes written, oldest first. -/
def cborBytes (e : CborEnc) : List UInt8 := e.out.reverse

def cePush (e : CborEnc) (b : UInt8) : CborEnc := ⟨b :: e.out⟩

def cePushAll (e : CborEnc) (bs : List UInt8) : CborEnc := bs.foldl cePush e

def ceHead (e : CborEnc) (major arg : Nat) : CborEnc := cePushAll e (cbHead major arg)

/-- `(UInt(w)) n`, checked. -/
def toUInt (w : Nat) (n : Int) : Read Nat := if 0 ≤ n ∧ n < 2 ^ w then .ok n.toNat else .trap

/-- `(Int(w)) n`, checked. -/
def toInt (w : Nat) (n : Int) : Read Int := .checked (check w n)

/-- The index of the first nonzero byte, at most the last index. -/
def cbLeadingZeros (be : List UInt8) (i : Nat) : Nat := cbFirstSet be i

/-- Tag 2 or 3 around a byte string of the magnitude. -/
def cbBignum (negative : Bool) (magnitude : Nat) : List UInt8 :=
  let be := cbBe16 magnitude
  let start := cbLeadingZeros be 0
  let body := be.drop start
  let trimmed := if body.length = 0 then [0] else body
  let tag := cbHead 6 (if negative then 3 else 2)
  let wrap := cbHead 2 trimmed.length
  tag ++ wrap ++ trimmed

/-- -1 - v for a negative v. -/
def cbMag128 (v : Int) : Read Nat := do
  let most := 170141183460469231731687303715884105727
  let negated ← .checked (sub 128 0 most)
  let least ← .checked (sub 128 negated 1)
  if v = least then pure 170141183460469231731687303715884105727
  else do
    let w ← .checked (sub 128 0 v)
    let abs ← toUInt 128 w
    .checked (FixedWidth.subChk abs 1)

def ceI128 (e : CborEnc) (v : IntN 128) : Read CborEnc :=
  if v.val ≥ 0 then do
    let u ← toUInt 128 v.val
    if u ≤ 18446744073709551615 then pure (ceHead e 0 u)
    else pure (cePushAll e (cbBignum false u))
  else do
    let mag ← cbMag128 v.val
    if mag ≤ 18446744073709551615 then pure (ceHead e 1 mag)
    else pure (cePushAll e (cbBignum true mag))

/-! ## Byte strings, read -/

/-- The byte length of one chunk. -/
structure CbChunk where
  len : Int

/-- The head of the next chunk of an indefinite string, and its length. -/
def cdChunkHead (d : CborDec) (mt : Nat) (what : Str) : Read (Parsed CbChunk CborDec) := do
  let h ← cdPeekHead d d.pos what
  if h.mt ≠ mt ∨ h.ai = 31 then
    .err (serialError .errSyntax (what ++ " must be a definite-length string".toList))
  else do
    let len ← cbFitArg h.arg d
    if len < 0 then .err (eofError what)
    else pure ⟨⟨len⟩, cdTake d (cbHeadLen h)⟩

/-- `xs[lo..hi]`, the bounds clamped. -/
def slice (bs : List UInt8) (lo len : Nat) : List UInt8 := (bs.drop lo).take len

theorem cdChunkHead_pos {d : CborDec} {mt : Nat} {what : Str} {c : Parsed CbChunk CborDec}
    (hok : cdChunkHead d mt what = .ok c) :
    c.rest.input = d.input ∧ d.pos < c.rest.pos ∧ d.pos < d.input.val.length := by
  obtain ⟨h, hpeek, hok⟩ := Outcome.bind_ok.1 hok
  split_ifs at hok
  obtain ⟨len, -, hok⟩ := Outcome.bind_ok.1 hok
  split_ifs at hok
  cases hok
  have hpos := cbHeadLen_pos h
  refine ⟨rfl, ?_, cdPeekHead_lt hpeek⟩
  show d.pos < d.pos + cbHeadLen h
  omega

def cdByteChunks (d : CborDec) (acc : List UInt8) : Read (Parsed (List UInt8) CborDec) :=
  if cbAtBreak d then .ok ⟨acc, cdTake d 1⟩
  else
    match _hc : cdChunkHead d 2 "a byte string chunk".toList with
    | .err e => .err e
    | .trap => .trap
    | .ok c =>
      let part := slice c.rest.input.val c.rest.pos c.value.len.toNat
      cdByteChunks (cdTake c.rest c.value.len.toNat) (acc ++ part)
termination_by d.input.val.length - d.pos
decreasing_by
  obtain ⟨hin, hpos, hlt⟩ := cdChunkHead_pos _hc
  show c.rest.input.val.length - (c.rest.pos + c.value.len.toNat) < _
  rw [hin]
  omega

def cdBytes (d : CborDec) : Read (Parsed (List UInt8) CborDec) := do
  let h ← cdReadHead d "bytes".toList
  if h.value.mt ≠ 2 then .err (invalidType "bytes".toList (cbHeadName h.value))
  else if h.value.ai = 31 then cdByteChunks h.rest []
  else do
    let len ← cbFitArg h.value.arg h.rest
    if len < 0 then .err (eofError "bytes".toList)
    else pure ⟨slice h.rest.input.val h.rest.pos len.toNat, cdTake h.rest len.toNat⟩

/-! ## Integers, read -/

def cbBeValueAt (bs : List UInt8) (acc : Nat) : Nat :=
  bs.foldl (fun acc b => FixedWidth.shlLow 128 acc 8 ||| b.toNat) acc

def cbBeValue (bs : List UInt8) : Nat := cbBeValueAt bs 0

/-- The byte string a tag 2 or 3 wraps, as a magnitude. -/
def cdBignum (d : CborDec) : Read (Parsed Nat CborDec) := do
  let bs ← cdBytes d
  if bs.value.length > 16 then
    .err (invalidLength bs.value.length "a bignum of at most 16 bytes".toList)
  else pure ⟨cbBeValue bs.value, bs.rest⟩

def cdBignumPos (d : CborDec) : Read (Parsed Int CborDec) := do
  let u ← cdBignum d
  let v ← toInt 128 u.value
  pure ⟨v, u.rest⟩

def cdBignumNeg (d : CborDec) : Read (Parsed Int CborDec) := do
  let u ← cdBignum d
  let v ← toInt 128 u.value
  let w ← .checked (sub 128 0 v)
  let r ← .checked (sub 128 w 1)
  pure ⟨r, u.rest⟩

def cdI128 (d : CborDec) : Read (Parsed Int CborDec) := do
  let h ← cdReadHead d "a 128-bit integer".toList
  if h.value.mt = 0 then do
    let v ← toInt 128 h.value.arg
    pure ⟨v, h.rest⟩
  else if h.value.mt = 1 then do
    let mag ← .checked (FixedWidth.addChk 128 h.value.arg 1)
    if mag ≤ 9223372036854775807 then do
      let m ← toInt 128 mag
      let v ← .checked (sub 128 0 m)
      pure ⟨v, h.rest⟩
    else cdBignumNeg h.rest
  else if h.value.mt = 6 ∧ h.value.arg = 2 then cdBignumPos h.rest
  else if h.value.mt = 6 ∧ h.value.arg = 3 then cdBignumNeg h.rest
  else .err (invalidType "a 128-bit integer".toList (cbHeadName h.value))

/-! ## The bytes written -/

@[simp] theorem cborBytes_cePushAll (e : CborEnc) (bs : List UInt8) :
    cborBytes (cePushAll e bs) = cborBytes e ++ bs := by
  unfold cePushAll
  induction bs generalizing e with
  | nil => simp
  | cons b bs ih =>
    show cborBytes (bs.foldl cePush (cePush e b)) = _
    rw [ih]
    simp [cborBytes, cePush]

theorem toUInt_of_lt {w n : Nat} (h : n < 2 ^ w) : toUInt w n = .ok n := by
  have hcast : (n : Int) < 2 ^ w := by exact_mod_cast h
  rw [toUInt, if_pos ⟨by omega, hcast⟩]
  rfl

theorem toInt_of_fits {w : Nat} {n : Int} (h : Fits w n) : toInt w n = .ok n := by
  rw [toInt, check_of_fits h]
  rfl

theorem fits_128 {n : Int} :
    Fits 128 n ↔ -170141183460469231731687303715884105728 ≤ n ∧
      n < 170141183460469231731687303715884105728 :=
  Iff.rfl

theorem cbMag128_eq {v : Int} (hfit : Fits 128 v) (hneg : v < 0) :
    cbMag128 v = .ok (-1 - v).toNat := by
  have hv := fits_128.1 hfit
  unfold cbMag128
  simp only []
  rw [sub_of_fits (fits_128.2 (by omega)), Outcome.checked_some, Outcome.ok_bind,
    sub_of_fits (fits_128.2 (by omega)), Outcome.checked_some, Outcome.ok_bind]
  by_cases hleast : v = 0 - 170141183460469231731687303715884105727 - 1
  · rw [if_pos hleast, hleast]
    rfl
  · have habs : 0 - v = ((0 - v).toNat : Int) := by omega
    have hlt : (0 - v).toNat < 2 ^ 128 := by omega
    rw [if_neg hleast, sub_of_fits (fits_128.2 (by omega)), Outcome.checked_some, Outcome.ok_bind,
      habs, toUInt_of_lt hlt, Outcome.ok_bind, FixedWidth.subChk_of_le (by omega)]
    have hone : (0 - v).toNat - 1 = (-1 - v).toNat := by omega
    rw [hone]
    rfl

/-- A bignum is a tag, the head of a byte string, and the magnitude's bytes. -/
theorem cbBignum_eq (negative : Bool) {m : Nat} (hm : m < 2 ^ 128) :
    ∃ ai bi tag wrap body, cbBignum negative m = tag ++ (wrap ++ body) ∧
      Head 6 ai (if negative then 3 else 2) tag ∧ Head 2 bi body.length wrap ∧
      body.length ≤ 16 ∧ value body.reverse = m := by
  obtain ⟨n, hfirst, hn, hlt, -⟩ := cbFirstSet_be16 (v := m) (Nat.zero_le 15) hm
  have hdrop : (cbBe16 m).drop (15 - n) = (split (n + 1) m).reverse := by
    rw [cbBe16_eq, List.drop_reverse, length_split, take_split (by omega)]
    congr 2
    omega
  have hne : ¬ (split (n + 1) m).reverse.length = 0 := by simp
  have htag : (if negative then 3 else 2) < 2 ^ 64 := by cases negative <;> decide
  obtain ⟨ai, hai⟩ := head_cbHead 6 (by decide) htag
  obtain ⟨bi, hbi⟩ := @head_cbHead (split (n + 1) m).reverse.length 2
    (by decide) (by simp; omega)
  refine ⟨ai, bi, _, _, (split (n + 1) m).reverse, ?_, hai, hbi, by simp; omega, ?_⟩
  · unfold cbBignum cbLeadingZeros
    simp only [hfirst, hdrop]
    rw [if_neg hne, List.append_assoc]
  · rw [List.reverse_reverse, value_split, Nat.mod_eq_of_lt hlt]

/-! ## Reading them back -/

theorem cdBytes_head {ai : Nat} {d : CborDec} {hd bs rest : List UInt8}
    (h : Head 2 ai bs.length hd) (hd' : d.input.val.drop d.pos = hd ++ (bs ++ rest)) :
    cdBytes d = .ok ⟨bs, cdTake d (hd.length + bs.length)⟩ := by
  have hai : ai ≠ 31 := by
    have := h.info_lt
    omega
  have hrest := drop_cdTake hd'
  have hroom : d.pos + hd.length + bs.length ≤ d.input.val.length := by
    have hlen := congrArg List.length hd'
    have hpos := h.length_pos
    rw [List.length_drop, List.length_append, List.length_append] at hlen
    omega
  unfold cdBytes
  rw [cdReadHead_head h hd' (fun h => absurd h (by decide)), Outcome.ok_bind]
  simp only []
  rw [if_neg (by decide), if_neg hai, cbFitArg_eq (d := cdTake d hd.length) (by simpa using hroom),
    Outcome.ok_bind, if_neg (by omega), Int.toNat_natCast, slice, hrest, List.take_left,
    cdTake_cdTake]
  rfl

theorem cbBeValueAt_eq {bs : List UInt8} {acc : Nat} (hfit : (acc + 1) * 256 ^ bs.length ≤ 2 ^ 128) :
    cbBeValueAt bs acc = acc * 256 ^ bs.length + value bs.reverse := by
  induction bs generalizing acc with
  | nil => simp [cbBeValueAt]
  | cons b bs ih =>
    have hb := b.toNat_lt
    have hone : 0 < 256 ^ bs.length := Nat.pow_pos (by decide)
    have hpow : 256 ^ (bs.length + 1) = 256 * 256 ^ bs.length := by rw [Nat.pow_succ, Nat.mul_comm]
    rw [List.length_cons, hpow] at hfit
    have hacc : acc * 256 < 2 ^ 128 := by
      have hle : (acc + 1) * 256 ≤ (acc + 1) * (256 * 256 ^ bs.length) :=
        Nat.mul_le_mul_left _ (Nat.le_mul_of_pos_right _ hone)
      omega
    have hnext : (acc * 256 + b.toNat + 1) * 256 ^ bs.length ≤ 2 ^ 128 := by
      have hle : acc * 256 + b.toNat + 1 ≤ (acc + 1) * 256 := by omega
      calc (acc * 256 + b.toNat + 1) * 256 ^ bs.length
          ≤ (acc + 1) * 256 * 256 ^ bs.length := Nat.mul_le_mul_right _ hle
        _ = (acc + 1) * (256 * 256 ^ bs.length) := Nat.mul_assoc _ _ _
        _ ≤ 2 ^ 128 := hfit
    show cbBeValueAt bs (FixedWidth.shlLow 128 acc 8 ||| b.toNat) = _
    rw [shlLow_or_byte hacc, ih hnext, value_reverse_cons, List.length_cons, hpow]
    ring

theorem cdBignum_head {ai : Nat} {d : CborDec} {hd bs rest : List UInt8}
    (h : Head 2 ai bs.length hd) (h16 : bs.length ≤ 16)
    (hd' : d.input.val.drop d.pos = hd ++ (bs ++ rest)) :
    cdBignum d = .ok ⟨value bs.reverse, cdTake d (hd.length + bs.length)⟩ := by
  have hfit : (0 + 1) * 256 ^ bs.length ≤ 2 ^ 128 := by
    have hpow : 256 ^ bs.length ≤ 256 ^ 16 := Nat.pow_le_pow_right (by decide) h16
    omega
  unfold cdBignum
  rw [cdBytes_head h hd', Outcome.ok_bind, if_neg (by simpa using h16), cbBeValue,
    cbBeValueAt_eq hfit, Nat.zero_mul, Nat.zero_add]
  rfl

/-- Whatever follows, reading a byte string moves on. -/
theorem cdByteChunks_pos {d : CborDec} {acc : List UInt8} {r : Parsed (List UInt8) CborDec}
    (hok : cdByteChunks d acc = .ok r) : d.pos < r.rest.pos := by
  fun_induction cdByteChunks d acc with
  | case1 d acc hbreak =>
    cases hok
    show d.pos < d.pos + 1
    omega
  | case2 => cases hok
  | case3 => cases hok
  | case4 d acc hbreak c hc part ih =>
    obtain ⟨-, hpos, -⟩ := cdChunkHead_pos hc
    have hnext := ih hok
    rw [cdTake_pos] at hnext
    omega

theorem cdBytes_pos {d : CborDec} {r : Parsed (List UInt8) CborDec} (hok : cdBytes d = .ok r) :
    d.pos < r.rest.pos := by
  obtain ⟨h, hread, hok⟩ := Outcome.bind_ok.1 hok
  have hpos := (cdReadHead_ok hread).2.1
  split_ifs at hok
  · exact lt_trans hpos (cdByteChunks_pos hok)
  · obtain ⟨len, -, hok⟩ := Outcome.bind_ok.1 hok
    split_ifs at hok
    cases hok
    show d.pos < h.rest.pos + len.toNat
    omega

theorem cdBignumNeg_pos {d : CborDec} {r : Parsed Int CborDec} (hok : cdBignumNeg d = .ok r) :
    d.pos < r.rest.pos := by
  obtain ⟨u, hu, hok⟩ := Outcome.bind_ok.1 hok
  obtain ⟨v, -, hok⟩ := Outcome.bind_ok.1 hok
  obtain ⟨w, -, hok⟩ := Outcome.bind_ok.1 hok
  obtain ⟨x, -, hok⟩ := Outcome.bind_ok.1 hok
  cases hok
  obtain ⟨bs, hbs, hu⟩ := Outcome.bind_ok.1 hu
  split_ifs at hu
  cases hu
  exact cdBytes_pos hbs

/-! ## The round trip -/

/-- What is written for `v`. -/
def i128Written (v : Int) : List UInt8 :=
  if v ≥ 0 then
    if v.toNat < 2 ^ 64 then cbHead 0 v.toNat else cbBignum false v.toNat
  else
    let mag := (-1 - v).toNat
    if mag < 2 ^ 64 then cbHead 1 mag else cbBignum true mag

theorem ceI128_written (e : CborEnc) (v : IntN 128) :
    ∃ e', ceI128 e v = .ok e' ∧ cborBytes e' = cborBytes e ++ i128Written v.val := by
  have hv := fits_128.1 v.fits
  unfold ceI128 i128Written
  by_cases h0 : v.val ≥ 0
  · have hcast : v.val = (v.val.toNat : Int) := by omega
    have hu : toUInt 128 v.val = .ok v.val.toNat := by
      rw [hcast]
      exact toUInt_of_lt (by omega)
    rw [if_pos h0, if_pos h0, hu, Outcome.ok_bind]
    by_cases hsmall : v.val.toNat < 2 ^ 64
    · rw [if_pos (by omega), if_pos hsmall]
      exact ⟨_, rfl, cborBytes_cePushAll _ _⟩
    · rw [if_neg (by omega), if_neg hsmall]
      exact ⟨_, rfl, cborBytes_cePushAll _ _⟩
  · rw [if_neg h0, if_neg h0, cbMag128_eq v.fits (by omega), Outcome.ok_bind]
    by_cases hsmall : (-1 - v.val).toNat < 2 ^ 64
    · simp only []
      rw [if_pos (by omega), if_pos hsmall]
      exact ⟨_, rfl, cborBytes_cePushAll _ _⟩
    · simp only []
      rw [if_neg (by omega), if_neg hsmall]
      exact ⟨_, rfl, cborBytes_cePushAll _ _⟩

section

variable {d : CborDec} {rest : List UInt8} {v : Int}

theorem cdI128_nat (hlt : v.toNat < 2 ^ 64) (h0 : 0 ≤ v)
    (hd : d.input.val.drop d.pos = cbHead 0 v.toNat ++ rest) :
    cdI128 d = .ok ⟨v, cdTake d (cbHead 0 v.toNat).length⟩ := by
  obtain ⟨ai, hhead⟩ := head_cbHead 0 (by decide) hlt
  have hfit : Fits 128 (v.toNat : Int) := fits_128.2 (by omega)
  have hcast : (v.toNat : Int) = v := by omega
  unfold cdI128
  rw [cdReadHead_head hhead hd (fun h => absurd h (by decide)), Outcome.ok_bind]
  simp only []
  rw [if_pos trivial, toInt_of_fits hfit, hcast]
  rfl

theorem cdBignumNeg_written {body : List UInt8} {m bi : Nat} {wrap : List UInt8}
    (h : Head 2 bi body.length wrap) (h16 : body.length ≤ 16) (hm : value body.reverse = m)
    (hlt : m < 2 ^ 127) (hd : d.input.val.drop d.pos = wrap ++ (body ++ rest)) :
    cdBignumNeg d = .ok ⟨-1 - (m : Int), cdTake d (wrap.length + body.length)⟩ := by
  have hres : 0 - (m : Int) - 1 = -1 - m := by omega
  unfold cdBignumNeg
  rw [cdBignum_head h h16 hd, Outcome.ok_bind, hm]
  simp only []
  rw [toInt_of_fits (fits_128.2 (by omega)), Outcome.ok_bind, sub_of_fits (fits_128.2 (by omega)), Outcome.checked_some, Outcome.ok_bind,
    sub_of_fits (fits_128.2 (by omega)), Outcome.checked_some, Outcome.ok_bind, hres]
  rfl

/-- A number past 64 bits, either sign. -/
theorem cdI128_bignum (negative : Bool) {m : Nat} (hlt : m < 2 ^ 127)
    (hd : d.input.val.drop d.pos = cbBignum negative m ++ rest) :
    cdI128 d = .ok ⟨if negative then -1 - (m : Int) else m,
      cdTake d (cbBignum negative m).length⟩ := by
  obtain ⟨ai, bi, tag, wrap, body, heq, htag, hwrap, h16, hval⟩ :=
    cbBignum_eq negative (m := m) (by omega)
  rw [heq, List.append_assoc, List.append_assoc] at hd
  have hnext := drop_cdTake hd
  have hlen : tag.length + (wrap.length + body.length) = (cbBignum negative m).length := by
    rw [heq, List.length_append, List.length_append]
  unfold cdI128
  rw [cdReadHead_head htag hd (fun h => absurd h (by decide)), Outcome.ok_bind]
  cases negative with
  | false =>
    simp only []
    rw [if_neg (by decide), if_neg (by decide), if_pos (by decide)]
    unfold cdBignumPos
    rw [cdBignum_head hwrap h16 hnext, Outcome.ok_bind, hval]
    simp only []
    rw [toInt_of_fits (fits_128.2 (by omega)), Outcome.ok_bind, cdTake_cdTake, hlen]
    rfl
  | true =>
    simp only []
    rw [if_neg (by decide), if_neg (by decide), if_neg (by decide), if_pos (by decide),
      cdBignumNeg_written hwrap h16 hval hlt hnext, cdTake_cdTake, hlen]
    rfl

/-- A negative head below the limit is read as the number it is; past it, as a tag. -/
theorem cdI128_neg (hlt : (-1 - v).toNat < 2 ^ 64) (h0 : v < 0)
    (hd : d.input.val.drop d.pos = cbHead 1 (-1 - v).toNat ++ rest) :
    cdI128 d = if -2 ^ 63 < v then .ok ⟨v, cdTake d (cbHead 1 (-1 - v).toNat).length⟩
      else cdBignumNeg (cdTake d (cbHead 1 (-1 - v).toNat).length) := by
  obtain ⟨ai, hhead⟩ := head_cbHead 1 (by decide) hlt
  unfold cdI128
  rw [cdReadHead_head hhead hd (fun h => absurd h (by decide)), Outcome.ok_bind]
  simp only []
  rw [if_neg (by decide), if_pos trivial, FixedWidth.addChk_of_lt (by omega),
    Outcome.checked_some, Outcome.ok_bind]
  by_cases hmag : -2 ^ 63 < v
  · have hres : 0 - (((-1 - v).toNat + 1 : Nat) : Int) = v := by omega
    rw [if_pos (by omega), if_pos hmag, toInt_of_fits (fits_128.2 (by omega)), Outcome.ok_bind,
      sub_of_fits (fits_128.2 (by omega)), hres]
    rfl
  · rw [if_neg (by omega), if_neg hmag]

theorem cdI128_written (hfit : Fits 128 v) (hd : d.input.val.drop d.pos = i128Written v ++ rest) :
    cdI128 d = if -2 ^ 64 ≤ v ∧ v ≤ -2 ^ 63 then cdBignumNeg (cdTake d (i128Written v).length)
      else .ok ⟨v, cdTake d (i128Written v).length⟩ := by
  have hv := fits_128.1 hfit
  unfold i128Written at hd ⊢
  by_cases h0 : v ≥ 0
  · rw [if_neg (by omega)]
    rw [if_pos h0] at hd ⊢
    by_cases hsmall : v.toNat < 2 ^ 64
    · rw [if_pos hsmall] at hd ⊢
      exact cdI128_nat hsmall h0 hd
    · have hcast : (v.toNat : Int) = v := by omega
      rw [if_neg hsmall] at hd ⊢
      rw [cdI128_bignum false (by omega) hd, if_neg Bool.false_ne_true, hcast]
  · rw [if_neg h0] at hd ⊢
    by_cases hsmall : (-1 - v).toNat < 2 ^ 64
    · simp only [] at hd ⊢
      rw [if_pos hsmall] at hd ⊢
      rw [cdI128_neg hsmall (by omega) hd]
      by_cases hmag : -2 ^ 63 < v
      · rw [if_pos hmag, if_neg (by omega)]
      · rw [if_neg hmag, if_pos (by omega)]
    · have hcast : -1 - ((-1 - v).toNat : Int) = v := by omega
      simp only [] at hd ⊢
      rw [if_neg hsmall] at hd ⊢
      rw [cdI128_bignum true (by omega) hd, if_pos rfl, hcast, if_neg (by omega)]

end

/-- Every 128-bit integer can be written, and what was written is read back, and no more, except
from `-2 ^ 64` to `-2 ^ 63`. -/
theorem i128_round_trip_iff (e : CborEnc) (v : IntN 128) :
    ∃ e', ceI128 e v = .ok e' ∧ ∀ (d : CborDec) (rest : List UInt8),
      d.input.val = cborBytes e' ++ rest → d.pos = (cborBytes e).length →
      (cdI128 d = .ok ⟨v.val, cdAt d (cborBytes e').length d.opened⟩ ↔
        ¬ (-2 ^ 64 ≤ v.val ∧ v.val ≤ -2 ^ 63)) := by
  obtain ⟨e', he, hbytes⟩ := ceI128_written e v
  refine ⟨e', he, ?_⟩
  intro d rest hin hpos
  have hd : d.input.val.drop d.pos = i128Written v.val ++ rest := by
    rw [hin, hpos, hbytes, List.append_assoc, List.drop_left]
  have hstop : cdTake d (i128Written v.val).length = cdAt d (cborBytes e').length d.opened := by
    rw [cdTake, hpos, hbytes, List.length_append]
  rw [cdI128_written v.fits hd]
  by_cases hgap : -2 ^ 64 ≤ v.val ∧ v.val ≤ -2 ^ 63
  · rw [if_pos hgap]
    constructor
    · intro hok
      -- a bignum read here takes bytes after the ones written
      have hmoved := cdBignumNeg_pos hok
      rw [hstop] at hmoved
      exact absurd hmoved (Nat.lt_irrefl _)
    · intro hnot
      exact absurd hgap hnot
  · rw [if_neg hgap, hstop]
    exact ⟨fun _ => hgap, fun _ => rfl⟩

theorem i128_round_trip_one :
    cdI128 (cborDecoder ⟨[1], by decide⟩) = .ok ⟨1, cdAt (cborDecoder ⟨[1], by decide⟩) 1 []⟩ := by
  obtain ⟨e', he, h⟩ := i128_round_trip_iff cborEncoder ⟨1, by decide⟩
  have hone : ceI128 cborEncoder ⟨1, by decide⟩ = .ok ⟨[1]⟩ := by decide +kernel
  have he' : e' = ⟨[1]⟩ := by
    rw [hone] at he
    cases he
    rfl
  subst he'
  exact (h (cborDecoder ⟨[1], by decide⟩) [] rfl rfl).2 (by decide)

set_option maxRecDepth 2000 in
/-- `-2 ^ 63` is written as a head that the reader takes for the start of a bignum. -/
theorem i128_least_int64 :
    ceI128 cborEncoder ⟨-9223372036854775808, by decide⟩ =
      .ok ⟨[255, 255, 255, 255, 255, 255, 255, 127, 59]⟩ ∧
    cdI128 (cborDecoder ⟨[59, 127, 255, 255, 255, 255, 255, 255, 255], by decide⟩) =
      .err (eofError "bytes".toList) := by
  constructor
  · decide +kernel
  · rfl

end Cbor

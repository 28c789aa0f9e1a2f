import Resid.Lib.FixedWidth
import Resid.Layout.Facts

/-!
# Integers in bytes

The helpers' loops read and write a number in either byte order, and the conversions around them
undo each other on the values of a field's type.

    p + n ≤ b.length → lyRd b p n be = ok (value (lowFirst be (bytes p … p + n)))   (lyRd_eq)
    lyWr v n be = lowFirst be (split n v)                                           (lyWr_eq)
    InRange ty n → decode be ty (encode be ty n) = n                                (decode_encode)
    bs.length = lyIntBits ty / 8 → encode be ty (decode be ty bs) = bs              (encode_decode)
-/

namespace Layout

open Runtime ByteOrder CheckedInt

/-! ## The loops -/

/-- No list is longer: the allocator refuses a larger block. -/
def listMax : Nat := 70368744177664

theorem addI_of_fits {a b : Int} (h : Fits 64 (a + b)) : addI a b = .ok (a + b) := by
  unfold addI
  rw [add_of_fits h]
  rfl

variable {b : List UInt8} {left n p v : Nat} {ty : Str}

theorem byteAt_of_lt {i : Nat} (h : i < b.length) : byteAt b i = .ok b[i] := by
  unfold byteAt
  rw [if_pos (by omega), Int.toNat_natCast, List.getElem?_eq_getElem h]
  rfl

theorem two_pow_bytes (e : Nat) : 2 ^ (e * 8) = 256 ^ e := by
  rw [Nat.mul_comm, Nat.pow_mul]

/-- The next byte goes above what has been read, when the order is low first. -/
theorem or_above {acc x e : Nat} (hacc : acc < 256 ^ e) (hx : x < 256) (he : e < 8) :
    acc ||| FixedWidth.shlLow 64 x (e * 8) = acc + 256 ^ e * x := by
  have hpow := two_pow_bytes e
  have hfit : x * 2 ^ (e * 8) < 2 ^ 64 := by
    calc x * 2 ^ (e * 8) < 2 ^ 8 * 2 ^ (e * 8) :=
          Nat.mul_lt_mul_of_pos_right hx (Nat.two_pow_pos _)
      _ = 2 ^ (8 + e * 8) := (Nat.pow_add 2 8 (e * 8)).symm
      _ ≤ 2 ^ 64 := Nat.pow_le_pow_right (by decide) (by omega)
  rw [FixedWidth.shlLow_of_lt hfit, Nat.or_comm, FixedWidth.shl_or_eq_add x (by rwa [hpow]), hpow]
  ring

/-- The next byte goes below what has been read, when the order is high first. -/
theorem or_below {a x e : Nat} (hx : x < 256) (he : e < 8) :
    a * 256 ^ (e + 1) ||| FixedWidth.shlLow 64 x (e * 8) = (a * 256 + x) * 256 ^ e := by
  have hpow := two_pow_bytes e
  have hpow' : (2 : Nat) ^ (8 + e * 8) = 256 ^ (e + 1) := by
    rw [Nat.pow_add, hpow, @Nat.pow_succ 256 e]
    exact Nat.mul_comm _ _
  have hlt : x * 2 ^ (e * 8) < 2 ^ (8 + e * 8) := by
    rw [Nat.pow_add]
    exact Nat.mul_lt_mul_of_pos_right hx (Nat.two_pow_pos _)
  have hfit : x * 2 ^ (e * 8) < 2 ^ 64 :=
    lt_of_lt_of_le hlt (Nat.pow_le_pow_right (by decide) (by omega))
  rw [FixedWidth.shlLow_of_lt hfit, ← hpow', FixedWidth.shl_or_eq_add a hlt, hpow', hpow]
  ring

theorem drop_take_succ (h : p < b.length) :
    (b.drop p).take (n + 1) = b[p] :: (b.drop (p + 1)).take n := by
  rw [List.drop_eq_getElem_cons h, List.take_succ_cons]

theorem lyRdAt_le {acc : Nat} (hp : p + n ≤ b.length) (hb : b.length ≤ listMax) (hn : n ≤ 8)
    (hleft : left ≤ n) (hacc : acc < 256 ^ (n - left)) : lyRdAt b p n false left acc =
      .ok (acc + 256 ^ (n - left) * value ((b.drop (p + (n - left))).take left)) := by
  unfold listMax at hb
  induction left generalizing acc with
  | zero => simp [lyRdAt]
  | succ left ih =>
    obtain ⟨e, he⟩ : ∃ e, n - (left + 1) = e := ⟨_, rfl⟩
    have hnext : n - left = e + 1 := by omega
    have hidx : p + e < b.length := by omega
    have hfits : Fits 64 ((p : Int) + (e : Int)) := by
      rw [fits_64]
      omega
    have hx := b[p + e].toNat_lt
    rw [he] at hacc ⊢
    simp only [lyRdAt, he, Bool.false_eq_true, if_false, addI_of_fits hfits, Out.ok_bind]
    rw [show (p : Int) + (e : Int) = ((p + e : Nat) : Int) by omega, byteAt_of_lt hidx,
      Out.ok_bind, or_above hacc hx (by omega), ih (by omega) ?_, hnext, drop_take_succ hidx]
    · congr 1
      show _ = acc + 256 ^ e * (b[p + e].toNat + 256 * value ((b.drop (p + e + 1)).take left))
      rw [Nat.pow_succ, Nat.add_assoc p e 1]
      ring
    · rw [hnext, Nat.pow_succ]
      have hmul : 256 ^ e * b[p + e].toNat ≤ 256 ^ e * 255 := Nat.mul_le_mul_left _ (by omega)
      omega

theorem lyRdAt_be {a : Nat} (hp : p + n ≤ b.length) (hb : b.length ≤ listMax) (hn : n ≤ 8)
    (hleft : left ≤ n) : lyRdAt b p n true left (a * 256 ^ left) =
      .ok (a * 256 ^ left + value ((b.drop (p + (n - left))).take left).reverse) := by
  unfold listMax at hb
  induction left generalizing a with
  | zero => simp [lyRdAt]
  | succ left ih =>
    obtain ⟨e, he⟩ : ∃ e, n - (left + 1) = e := ⟨_, rfl⟩
    have hnext : n - left = e + 1 := by omega
    have hidx : p + e < b.length := by omega
    have hfits : Fits 64 ((p : Int) + (e : Int)) := by
      rw [fits_64]
      omega
    have hx := b[p + e].toNat_lt
    have hsh : n - 1 - e = left := by omega
    simp only [lyRdAt, he, hsh, if_true, addI_of_fits hfits, Out.ok_bind]
    rw [show (p : Int) + (e : Int) = ((p + e : Nat) : Int) by omega, byteAt_of_lt hidx,
      Out.ok_bind, or_below hx (by omega), ih (by omega), hnext, drop_take_succ hidx,
      List.reverse_cons, value_append, Nat.add_assoc p e 1]
    congr 1
    have hlen : ((b.drop (p + (e + 1))).take left).reverse.length = left := by
      rw [List.length_reverse, List.length_take, List.length_drop]
      omega
    rw [hlen, Nat.pow_succ]
    simp only [value]
    ring

/-- Reading `n` bytes inside the list. -/
theorem lyRd_eq (hp : p + n ≤ b.length) (hb : b.length ≤ listMax) (hn : n ≤ 8) (be : Bool) :
    lyRd b p n be = .ok (value (lowFirst be ((b.drop p).take n))) := by
  unfold lyRd
  cases be with
  | false =>
    rw [lyRdAt_le hp hb hn le_rfl (by simp)]
    simp [lowFirst]
  | true =>
    have h := lyRdAt_be hp hb hn le_rfl (a := 0)
    rw [Nat.zero_mul] at h
    rw [h]
    simp [lowFirst]

theorem byte_of_and (v e : Nat) :
    UInt8.ofNat ((v >>> (e * 8)) &&& 255) = UInt8.ofNat (v / 256 ^ e) := by
  have hpow := two_pow_bytes e
  apply UInt8.toNat_inj.1
  rw [UInt8.toNat_ofNat', UInt8.toNat_ofNat', Nat.shiftRight_eq_div_pow, hpow,
    show 255 = 2 ^ 8 - 1 by rfl, Nat.and_two_pow_sub_one_eq_mod]
  omega

theorem lyWrAt_le (hleft : left ≤ n) (acc : List UInt8) :
    lyWrAt v n false left acc = acc ++ split left (v / 256 ^ (n - left)) := by
  induction left generalizing acc with
  | zero => simp [lyWrAt, split]
  | succ left ih =>
    obtain ⟨e, he⟩ : ∃ e, n - (left + 1) = e := ⟨_, rfl⟩
    have hnext : n - left = e + 1 := by omega
    have hdiv : v / 256 ^ (e + 1) = v / 256 ^ e / 256 := by
      rw [Nat.pow_succ, Nat.div_div_eq_div_mul]
    simp only [lyWrAt, he, Bool.false_eq_true, if_false]
    rw [ih (by omega), hnext, byte_of_and, hdiv, List.append_assoc]
    rfl

theorem lyWrAt_be (hleft : left ≤ n) (acc : List UInt8) :
    lyWrAt v n true left acc = acc ++ (split left v).reverse := by
  induction left generalizing acc with
  | zero => simp [lyWrAt, split]
  | succ left ih =>
    have hsh : n - 1 - (n - (left + 1)) = left := by omega
    simp only [lyWrAt, hsh, if_true]
    rw [ih (by omega), byte_of_and, split_succ_last, List.reverse_append, List.append_assoc]
    rfl

theorem lyWr_eq (v n : Nat) (be : Bool) : lyWr v n be = lowFirst be (split n v) := by
  unfold lyWr
  cases be with
  | false =>
    rw [lyWrAt_le le_rfl]
    simp [lowFirst]
  | true =>
    rw [lyWrAt_be le_rfl]
    simp [lowFirst]

/-! ## Values of a field's type -/

/-- A value of the integer type `ty`. -/
def InRange (ty : Str) (n : Int) : Prop :=
  if lySigned ty then Fits (lyIntBits ty) n else 0 ≤ n ∧ n < 2 ^ lyIntBits ty

instance (ty : Str) (n : Int) : Decidable (InRange ty n) := by
  unfold InRange
  infer_instance

theorem InRange.lt {n : Int} (h : InRange ty n) : n < 2 ^ 64 := by
  have hbits := lyIntBits_cases ty
  unfold InRange at h
  split_ifs at h
  · have hlt := h.2
    rcases hbits with hw | hw | hw | hw | hw <;> rw [hw] at hlt <;> omega
  · have hlt := h.2
    rcases hbits with hw | hw | hw | hw | hw <;> rw [hw] at hlt <;> omega

/-- A length below zero is that of a signed field. -/
theorem InRange.signed {n : Int} (h : InRange ty n) (hneg : n < 0) : lySigned ty = true := by
  unfold InRange at h
  split_ifs at h with hs
  · exact hs
  · omega

/-- The value of type `ty` that the bytes stand for. -/
def decode (be : Bool) (ty : Str) (bs : List UInt8) : Int :=
  let u := value (lowFirst be bs)
  if lySigned ty then wrappingI (lyIntBits ty) u else u

/-- The bytes that stand for a value of type `ty`. -/
def encode (be : Bool) (ty : Str) (n : Int) : List UInt8 :=
  lyWr (if lySigned ty then wrappingU64 n else n.toNat) (lyIntBits ty / 8) be

theorem pow_bytes (ty : Str) : 256 ^ (lyIntBits ty / 8) = 2 ^ lyIntBits ty := by
  rcases lyIntBits_cases ty with h | h | h | h | h <;> rw [h] <;> rfl

theorem bytes_le_eight (ty : Str) : lyIntBits ty / 8 ≤ 8 := by
  rcases lyIntBits_cases ty with h | h | h | h | h <;> omega

theorem length_encode (be : Bool) (ty : Str) (n : Int) :
    (encode be ty n).length = lyIntBits ty / 8 := by
  unfold encode
  rw [lyWr_eq, length_lowFirst, length_split]

theorem wrappingI_eq (w v : Nat) : wrappingI w v = (v : Int).bmod (2 ^ w) := by
  exact BitVec.toInt_ofNat v

theorem wrappingI_of_fits {w : Nat} {n : Int} (hw : 0 < w) (hn : Fits w n)
    (hv : (v : Int) % 2 ^ w = n % 2 ^ w) : wrappingI w v = n := by
  obtain ⟨m, rfl⟩ : ∃ m, w = m + 1 := ⟨w - 1, by omega⟩
  obtain ⟨hlo, hhi⟩ := hn
  rw [Nat.add_sub_cancel] at hlo hhi
  have hcast : ((2 ^ (m + 1) : Nat) : Int) = 2 * 2 ^ m := by
    push_cast
    ring
  have hcast' : (2 : Int) ^ (m + 1) = 2 * 2 ^ m := by ring
  rw [wrappingI_eq, Int.bmod_def, hcast]
  rw [hcast'] at hv
  rw [hv]
  generalize (2 : Int) ^ m = e at *
  rcases Int.lt_or_le n 0 with hneg | hpos
  · have hmod : n % (2 * e) = n + 2 * e := by
      rw [← Int.add_emod_right, Int.emod_eq_of_lt (by omega) (by omega)]
    split_ifs <;> omega
  · rw [Int.emod_eq_of_lt hpos (by omega)]
    split_ifs <;> omega

theorem decode_encode {n : Int} (hty : 0 < lyIntBits ty) (h : InRange ty n) (be : Bool) :
    decode be ty (encode be ty n) = n := by
  unfold InRange at h
  simp only [decode, encode]
  rw [lyWr_eq, lowFirst_lowFirst, value_split, pow_bytes]
  split_ifs at h ⊢ with hs
  · apply wrappingI_of_fits hty h
    have hdvd : (2 : Int) ^ lyIntBits ty ∣ 2 ^ 64 :=
      pow_dvd_pow 2 (by rcases lyIntBits_cases ty with h | h | h | h | h <;> omega)
    have hnonneg := Int.emod_nonneg n (show (2 : Int) ^ 64 ≠ 0 by decide)
    rw [Int.natCast_mod, Int.natCast_pow, Nat.cast_ofNat, wrappingU64,
      Int.toNat_of_nonneg hnonneg, Int.emod_emod, Int.emod_emod_of_dvd n hdvd]
  · have hcast : ((2 ^ lyIntBits ty : Nat) : Int) = 2 ^ lyIntBits ty := Int.natCast_pow 2 _
    rw [Nat.mod_eq_of_lt (by omega)]
    omega

theorem decode_inRange {bs : List UInt8} (hlen : bs.length = lyIntBits ty / 8) (be : Bool) :
    InRange ty (decode be ty bs) := by
  have hlt := value_lt (lowFirst be bs)
  rw [length_lowFirst, hlen, pow_bytes] at hlt
  have hcast : ((2 ^ lyIntBits ty : Nat) : Int) = 2 ^ lyIntBits ty := Int.natCast_pow 2 _
  simp only [decode, InRange]
  split_ifs with hs
  · unfold wrappingI
    have hlo := BitVec.le_toInt (BitVec.ofNat (lyIntBits ty) (value (lowFirst be bs)))
    have hhi := BitVec.toInt_lt (x := BitVec.ofNat (lyIntBits ty) (value (lowFirst be bs)))
    exact ⟨hlo, hhi⟩
  · omega

theorem wrappingI_emod (w v : Nat) : wrappingI w v % 2 ^ w = v % 2 ^ w := by
  have h := @Int.bmod_emod v (2 ^ w)
  rw [wrappingI_eq]
  exact h

theorem encode_decode {bs : List UInt8} (hlen : bs.length = lyIntBits ty / 8) (be : Bool) :
    encode be ty (decode be ty bs) = bs := by
  have hlt := value_lt (lowFirst be bs)
  rw [length_lowFirst, hlen] at hlt
  have hwrite : ∀ v, v % 256 ^ (lyIntBits ty / 8) = value (lowFirst be bs) →
      lyWr v (lyIntBits ty / 8) be = bs := by
    intro v hv
    have hback := split_value (lowFirst be bs)
    rw [length_lowFirst, hlen] at hback
    rw [lyWr_eq, ← split_mod, hv, hback, lowFirst_lowFirst]
  simp only [encode, decode]
  apply hwrite
  split_ifs with hs
  · have hdvd : (2 : Int) ^ lyIntBits ty ∣ 2 ^ 64 :=
      pow_dvd_pow 2 (by rcases lyIntBits_cases ty with h | h | h | h | h <;> omega)
    have hnonneg := Int.emod_nonneg (wrappingI (lyIntBits ty) (value (lowFirst be bs)))
      (show (2 : Int) ^ 64 ≠ 0 by decide)
    have hmod : ((wrappingU64 (wrappingI (lyIntBits ty) (value (lowFirst be bs))) %
        2 ^ lyIntBits ty : Nat) : Int) = value (lowFirst be bs) % 2 ^ lyIntBits ty := by
      rw [Int.natCast_mod, Int.natCast_pow, Nat.cast_ofNat, wrappingU64,
        Int.toNat_of_nonneg hnonneg, Int.emod_emod_of_dvd _ hdvd, wrappingI_emod]
    rw [pow_bytes] at hlt ⊢
    have hcast : ((2 ^ lyIntBits ty : Nat) : Int) = 2 ^ lyIntBits ty := Int.natCast_pow 2 _
    rw [← hcast, ← Int.natCast_mod, Nat.mod_eq_of_lt hlt] at hmod
    exact Int.ofNat.inj hmod
  · rw [Int.toNat_natCast, Nat.mod_eq_of_lt hlt]

end Layout

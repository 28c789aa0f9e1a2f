import Resid.H2.DynamicTable
import Resid.Lib.CheckedInt

/-!
# Integers with a prefix

An integer stands in the low bits of an octet or, where they are all set, in septets after it, the
lowest first.  The reader takes five septets at most; what it computes fits 64 bits.

    hpIntContChecked b pos acc m = some (hpIntCont b pos acc m)          (hpIntContChecked_eq)
    ¬ (hpReadInt b pos first mask).bad → IntAt b pos mask v last         (intAt_of_hpReadInt)
    v < mask + 2^35 → IntAt at the octets that encode v                  (intAt_encoded)
-/

namespace H2

open CheckedInt

/-! ## Algorithm -/

/-- A power of two in 64 bits. -/
def pow2 : Nat → Option Int
  | 0 => some 1
  | k + 1 => do
    let p ← pow2 k
    mul 64 2 p

/-- The continuation octets, every sum and product checked. -/
def hpIntContChecked (b : List UInt8) (pos : Nat) (acc : Int) (m : Nat) : Option HpInt :=
  if pos ≥ b.length ∨ m > 28 then some ⟨0, pos, true⟩
  else do
    let byte := (b.getD pos 0).toNat
    let cont := byte &&& 128
    let low := byte - cont
    let p ← pow2 m
    let x ← mul 64 low p
    let step ← add 64 acc x
    if cont = 0 then some ⟨step.toNat, pos, false⟩
    else hpIntContChecked b (pos + 1) step (m + 7)
termination_by 29 - m

def hpReadIntChecked (b : List UInt8) (pos first pfxmask : Nat) : Option HpInt :=
  let v := first &&& pfxmask
  if v < pfxmask then some ⟨v, pos, false⟩ else hpIntContChecked b (pos + 1) v 0

/-- The septets of the standard's encoder, the last one unmarked. -/
def contOctets (n : Nat) : List UInt8 :=
  if n < 128 then [UInt8.ofNat n] else UInt8.ofNat (n % 128 + 128) :: contOctets (n / 128)
termination_by n

/-- The octets after the first of the standard's encoding of `v`. -/
def intOctets (mask v : Nat) : List UInt8 := if v < mask then [] else contOctets (v - mask)

/-! ## Nothing overflows -/

theorem pow2_eq {k : Nat} (h : k ≤ 28) : pow2 k = some ((2 ^ k : Nat) : Int) := by
  induction k with
  | zero => rfl
  | succ k ih =>
    have hpow : 2 ^ k ≤ 2 ^ 27 := Nat.pow_le_pow_right (by decide) (by omega)
    have hdouble : (2 : Int) * ((2 ^ k : Nat) : Int) = ((2 ^ (k + 1) : Nat) : Int) := by
      omega
    have hfits : Fits 64 ((2 ^ (k + 1) : Nat) : Int) := by
      rw [fits_64, Nat.pow_succ]
      omega
    rw [pow2, ih (by omega), Option.bind_eq_bind, Option.bind_some, mul_of_fits (hdouble ▸ hfits),
      hdouble]

/-- The septets read so far leave room for the ones to come. -/
theorem hpIntContChecked_eq {b : List UInt8} {pos acc m : Nat} (hm : m ≤ 35)
    (hacc : acc < 256 + 2 ^ m) : hpIntContChecked b pos acc m = some (hpIntCont b pos acc m) := by
  induction hd : 36 - m using Nat.strongRecOn generalizing pos acc m with
  | ind d ih =>
    rw [hpIntContChecked, hpIntCont]
    by_cases hend : pos ≥ b.length ∨ m > 28
    · rw [if_pos hend, if_pos hend]
    rw [if_neg hend, if_neg hend]
    have hand := and_128 (b.getD pos 0).toNat_lt
    obtain ⟨low, hlow⟩ : ∃ low, (b.getD pos 0).toNat - ((b.getD pos 0).toNat &&& 128) = low :=
      ⟨_, rfl⟩
    have hpow : 2 ^ m ≤ 2 ^ 28 := Nat.pow_le_pow_right (by decide) (by omega)
    have hprod : low * 2 ^ m ≤ 127 * 2 ^ m := Nat.mul_le_mul_right _ (by omega)
    have hx : mul 64 (low : Int) ((2 ^ m : Nat) : Int) = some ((low * 2 ^ m : Nat) : Int) := by
      rw [mul_of_fits, Nat.cast_mul]
      rw [← Nat.cast_mul, fits_64]
      omega
    have hstep : add 64 (acc : Int) ((low * 2 ^ m : Nat) : Int) =
        some ((acc + low * 2 ^ m : Nat) : Int) := by
      rw [add_of_fits, Nat.cast_add]
      rw [← Nat.cast_add, fits_64]
      omega
    simp only [hlow]
    refine (bind_of_eq (pow2_eq (show m ≤ 28 by omega)) _).trans ?_
    refine (bind_of_eq hx _).trans ?_
    refine (bind_of_eq hstep _).trans ?_
    rw [Int.toNat_natCast]
    by_cases hlast : (b.getD pos 0).toNat &&& 128 = 0
    · rw [if_pos hlast, if_pos hlast]
    · rw [if_neg hlast, if_neg hlast]
      apply ih (36 - (m + 7)) (by omega) (by omega) _ rfl
      rw [Nat.pow_add]
      omega

theorem hpReadIntChecked_eq (b : List UInt8) (pos : Nat) {first pfxmask : Nat}
    (hfirst : first < 256) : hpReadIntChecked b pos first pfxmask =
      some (hpReadInt b pos first pfxmask) := by
  have hand : first &&& pfxmask ≤ first := Nat.and_le_left
  unfold hpReadIntChecked hpReadInt
  simp only
  split_ifs
  · rfl
  · exact hpIntContChecked_eq (by decide) (by omega)

/-! ## What is read stands there -/

/-- Five octets at most are looked at. -/
theorem next_hpIntCont_le {b : List UInt8} {pos acc m : Nat} (hm : m ≤ 35) :
    (hpIntCont b pos acc m).next ≤ pos + (41 - m) / 7 := by
  induction hd : 36 - m using Nat.strongRecOn generalizing pos acc m with
  | ind d ih =>
    rw [hpIntCont]
    simp only
    split_ifs with hend hlast
    · exact Nat.le_add_right pos _
    · exact Nat.le_add_right pos _
    · have hnext := @ih (36 - (m + 7)) (by omega) (pos + 1)
        (acc + ((b.getD pos 0).toNat - ((b.getD pos 0).toNat &&& 128)) * 2 ^ m) (m + 7)
        (by omega) rfl
      omega

theorem next_hpReadInt_le (b : List UInt8) (pos first pfxmask : Nat) :
    (hpReadInt b pos first pfxmask).next ≤ pos + 6 := by
  unfold hpReadInt
  simp only
  split_ifs
  · exact Nat.le_add_right pos 6
  · have hnext := @next_hpIntCont_le b (pos + 1) (first &&& pfxmask) 0 (Nat.zero_le 35)
    omega

/-- A row of octets that `hp_int_cont` accepts: at most four marked ones and one unmarked. -/
theorem cont_of_hpIntCont {b : List UInt8} {pos acc m : Nat}
    (h : (hpIntCont b pos acc m).bad = false) :
    ∃ more final rest, b.drop pos = more ++ final :: rest ∧ m + 7 * more.length ≤ 28 ∧
      (∀ x ∈ more, 128 ≤ x.toNat) ∧ final.toNat < 128 := by
  induction hd : 36 - m using Nat.strongRecOn generalizing pos acc m with
  | ind d ih =>
    rw [hpIntCont] at h
    by_cases hend : pos ≥ b.length ∨ m > 28
    · rw [if_pos hend] at h
      cases h
    rw [if_neg hend] at h
    have hlt : pos < b.length := by omega
    have hdrop := List.drop_eq_getElem_cons hlt
    have hget : b.getD pos 0 = b[pos] := by
      rw [List.getD_eq_getElem?_getD, List.getElem?_eq_getElem hlt, Option.getD_some]
    have hand := and_128 (b.getD pos 0).toNat_lt
    rw [hget] at h hand
    by_cases hlast : b[pos].toNat &&& 128 = 0
    · refine ⟨[], b[pos], b.drop (pos + 1), hdrop, ?_, ?_, ?_⟩
      · rw [List.length_nil]
        omega
      · intro x hx
        cases hx
      · omega
    · rw [if_neg hlast] at h
      obtain ⟨more, final, rest, hrest, hlen, hmore, hfinal⟩ :=
        ih (36 - (m + 7)) (by omega) h rfl
      refine ⟨b[pos] :: more, final, rest, ?_, ?_, ?_, hfinal⟩
      · rw [hdrop, hrest]
        rfl
      · rw [List.length_cons]
        omega
      · intro x hx
        rcases List.mem_cons.1 hx with rfl | hx
        · omega
        · exact hmore x hx

/-- An integer read stands at its place. -/
theorem intAt_of_hpReadInt {b : List UInt8} {pos mask : Nat} (hpos : pos < b.length)
    (h : (hpReadInt b pos (b.getD pos 0).toNat mask).bad = false) :
    IntAt b pos mask (hpReadInt b pos (b.getD pos 0).toNat mask).val
      (hpReadInt b pos (b.getD pos 0).toNat mask).next := by
  have hdrop := List.drop_eq_getElem_cons hpos
  have hget : b.getD pos 0 = b[pos] := by
    rw [List.getD_eq_getElem?_getD, List.getElem?_eq_getElem hpos, Option.getD_some]
  have hat : ∃ v last, IntAt b pos mask v last := by
    by_cases hlt : b[pos].toNat &&& mask < mask
    · exact ⟨_, pos, b[pos], b.drop (pos + 1), hdrop, .inl ⟨hlt, rfl, rfl⟩⟩
    · have hle : b[pos].toNat &&& mask ≤ mask := Nat.and_le_right
      rw [hget] at h
      unfold hpReadInt at h
      simp only [if_neg hlt] at h
      obtain ⟨more, final, rest, hrest, hlen, hmore, hfinal⟩ := cont_of_hpIntCont h
      exact ⟨_, _, b[pos], b.drop (pos + 1), hdrop, .inr ⟨by omega, more, final, rest, hrest,
        by omega, hmore, hfinal, rfl, rfl⟩⟩
  obtain ⟨v, last, hat⟩ := hat
  rw [hpReadInt_eq hat]
  exact hat

/-! ## What the standard's encoder writes -/

theorem contOctets_spec (n : Nat) : ∃ more final, contOctets n = more ++ [final] ∧
    (∀ x ∈ more, 128 ≤ x.toNat) ∧ final.toNat < 128 ∧ contValue (contOctets n) = n ∧
      ∀ k, n < 128 * 128 ^ k → more.length ≤ k := by
  induction n using Nat.strongRecOn with
  | ind n ih =>
    rw [contOctets]
    by_cases hsmall : n < 128
    · have hval : (UInt8.ofNat n).toNat = n := by
        rw [UInt8.toNat_ofNat']
        omega
      rw [if_pos hsmall]
      refine ⟨[], UInt8.ofNat n, rfl, ?_, ?_, ?_, ?_⟩
      · intro x hx
        cases hx
      · rw [hval]
        exact hsmall
      · rw [contValue, contValue, hval]
        omega
      · intro k _
        exact Nat.zero_le k
    · have hval : (UInt8.ofNat (n % 128 + 128)).toNat = n % 128 + 128 := by
        rw [UInt8.toNat_ofNat']
        omega
      obtain ⟨more, final, heq, hmore, hfinal, hcont, hlen⟩ := ih (n / 128) (by omega)
      rw [if_neg hsmall]
      refine ⟨UInt8.ofNat (n % 128 + 128) :: more, final, ?_, ?_, hfinal, ?_, ?_⟩
      · rw [heq]
        rfl
      · intro x hx
        rcases List.mem_cons.1 hx with rfl | hx
        · omega
        · exact hmore x hx
      · rw [contValue, hcont, hval]
        omega
      · intro k hk
        cases k with
        | zero => omega
        | succ k =>
          have hk' : n / 128 < 128 * 128 ^ k := by
            omega
          exact Nat.succ_le_succ (hlen k hk')

/-- The encoding of an integer below the prefix and 35 bits is one the reader takes. -/
theorem intAt_encoded {b after : List UInt8} {pos mask v : Nat} {first : UInt8}
    (hdrop : b.drop pos = first :: intOctets mask v ++ after)
    (hfirst : first.toNat &&& mask = min v mask) (hv : v < mask + 2 ^ 35) :
    IntAt b pos mask v (pos + (intOctets mask v).length) := by
  unfold intOctets at hdrop ⊢
  by_cases hsmall : v < mask
  · rw [if_pos hsmall] at hdrop ⊢
    rw [Nat.min_eq_left hsmall.le] at hfirst
    exact ⟨first, after, hdrop, .inl ⟨by omega, hfirst.symm, rfl⟩⟩
  · rw [if_neg hsmall] at hdrop ⊢
    rw [Nat.min_eq_right (Nat.not_lt.1 hsmall)] at hfirst
    obtain ⟨more, final, heq, hmore, hfinal, hcont, hlen⟩ := contOctets_spec (v - mask)
    have hfour := hlen 4 (by omega)
    refine ⟨first, contOctets (v - mask) ++ after, hdrop, .inr ⟨hfirst, more, final, after, ?_, hfour,
      hmore, hfinal, ?_, ?_⟩⟩
    · rw [heq, List.append_assoc]
      rfl
    · rw [← heq, hcont]
      omega
    · rw [heq, List.length_append, List.length_singleton]
      omega

end H2

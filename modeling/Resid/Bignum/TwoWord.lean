import Mathlib.Tactic.Zify
import Resid.Bignum.Division
import Resid.Lib.Montgomery

/-!
# Montgomery exponentiation on fixed-width words

The two one-word classes of `lib/bignum.resid` (`bk_*` for moduli of up to 1024 bits,
`bd_*` for up to 2048) are one definition with the widths and the number of Newton
rounds as parameters.  A cast to a wider type changes nothing and is left out; a cast to
a narrower type is checked.

    m odd, 1 < m < 2 ^ w, b < m →
      nkExpNative c (limbs b) (limbs e) (limbs m) = some (limbs (b ^ e % m))
                                                                    (nkExpNative_limbs)
-/

namespace Bignum

open FixedWidth Positional Loops Montgomery

/-! ## Algorithm -/

/-- A size class: the width of a word, of a doubled word, of a product, and the number of
Newton rounds for the inverse. -/
structure NativeClass where
  word : Nat
  dbl : Nat
  prod : Nat
  rounds : Nat

/-- The limbs `i`, …, 0 shifted into a word; the argument `i + 1` stands for `i`. -/
def nkOf (w : Nat) (x : List Nat) : Nat → Nat → Option Nat
  | 0, acc => some acc
  | i + 1, acc => do
    let d ← x[i]?
    nkOf w x i (shlLow w acc 64 ||| d)

def nkTo (v limbs i : Nat) (acc : List Nat) : Option (List Nat) := do
  bnTrim (← pushFrom (fun i => some (wrap 64 (shr v (64 * i) &&& 18446744073709551615))) limbs i acc)

def nkNewton (c : NativeClass) (n x i : Nat) : Nat :=
  if i ≥ c.rounds then x
  else
    let nx := wrapMul c.word n x
    let twoMinus := wrapSub c.word 2 nx
    nkNewton c n (wrapMul c.word x twoMinus) (i + 1)
termination_by c.rounds - i

/-- `-n^-1` modulo `2^word`; `n` is its own inverse modulo 8. -/
def nkNinv (c : NativeClass) (n : Nat) : Nat := wrapSub c.word 0 (nkNewton c n n 0)

/-- `x * 2^count mod n`, by repeated doubling (`x < n`). -/
def nkDouble (c : NativeClass) (n : Nat) : Nat → Nat → Option Nat
  | 0, x => some x
  | count + 1, x => do
    let d := shlLow c.dbl x 1
    let r ← (if d ≥ n then subChk d n else some d)
    let y ← castChk c.word r
    nkDouble c n count y

/-- Montgomery product `a b R^-1 mod n`, for `a, b < n < R = 2^word`. -/
def nkMm (c : NativeClass) (n ninv a b : Nat) : Option Nat := do
  let t ← mulChk c.prod a b
  let mask ← subChk (shlLow c.prod 1 c.word) 1
  let low ← castChk c.word (t &&& mask)
  let m := wrapMul c.word low ninv
  let p ← mulChk c.prod m n
  let s ← addChk c.prod t p
  let u := shr s c.word
  let r ← (if u ≥ n then subChk u n else some u)
  castChk c.word r

def nkExp (c : NativeClass) (bm : Nat) (exp : List Nat) (i n ninv acc : Nat) : Option Nat :=
  powLoop (nkMm c n ninv) (bnBit exp) bm i acc

/-- `base^exp mod m` for an odd `m` of at most `word` bits, `base < m`. -/
def nkExpNative (c : NativeClass) (base exp m : List Nat) : Option (List Nat) := do
  let n ← nkOf c.word m m.length 0
  let ninv := nkNinv c n
  let r1 ← nkDouble c n c.word 1
  let r2 ← nkDouble c n c.word r1
  let b ← nkOf c.word base base.length 0
  let bm ← nkMm c n ninv b r2
  let acc ← nkExp c bm exp (← bnBitLen exp) n ninv r1
  let out ← nkMm c n ninv acc 1
  nkTo out m.length 0 []

/-- Moduli of up to 1024 bits, `R = 2^1024`. -/
def bk : NativeClass := { word := 1024, dbl := 1088, prod := 2112, rounds := 9 }

/-- Moduli of 1025 to 2048 bits, `R = 2^2048`. -/
def bd : NativeClass := { word := 2048, dbl := 2112, prod := 4160, rounds := 10 }

def bkExpNative := nkExpNative bk

def bdExpNative := nkExpNative bd

/-! ## Lists and words -/

/-- Shifting the limbs in from the top builds the number. -/
theorem nkOf_run {w x : Nat} (hx : x < 2 ^ w) : ∀ i, i ≤ (limbs x).length →
    nkOf w (limbs x) i (x / bnBase ^ i) = some x := by
  intro i
  induction i with
  | zero =>
    intro _
    rw [nkOf, pow_zero, Nat.div_one]
  | succ i ih =>
    intro hi
    have hsplit := div_pow_eq_digit_add x i
    have hd := digit_lt_two_pow x i
    have hfit : x / bnBase ^ (i + 1) * 2 ^ 64 < 2 ^ w := by
      have hle : x / bnBase ^ i ≤ x := Nat.div_le_self _ _
      rw [← bnBase_eq, Nat.mul_comm]
      omega
    rw [nkOf, getElem?_limbs (by omega), Option.bind_eq_bind, Option.bind_some, shlLow_of_lt hfit,
      shl_or_eq_add _ hd, ← bnBase_eq, Nat.mul_comm, Nat.add_comm, ← hsplit]
    exact ih (by omega)

theorem nkOf_limbs {w x : Nat} (hx : x < 2 ^ w) :
    nkOf w (limbs x) (limbs x).length 0 = some x := by
  have h := nkOf_run hx _ (Nat.le_refl _)
  rwa [Nat.div_eq_of_lt (lt_pow_length x)] at h

theorem nkTo_eq {v k : Nat} (h : v < bnBase ^ k) : nkTo v k 0 [] = some (limbs v) := by
  have hlimb : ∀ i, wrap 64 (shr v (64 * i) &&& 18446744073709551615) = digit bnBase v i := by
    intro i
    have hand : ∀ x, x &&& 18446744073709551615 = x % 2 ^ 64 :=
      fun x => Nat.and_two_pow_sub_one_eq_mod x 64
    rw [hand, wrap, Nat.mod_mod, shr, digit, bnBase_pow, bnBase_eq]
  have hloop : pushFrom (fun i => some (wrap 64 (shr v (64 * i) &&& 18446744073709551615))) k 0 [] =
      some (table (digit bnBase v) k) := pushFrom_all fun t _ => congrArg some (hlimb t)
  rw [nkTo, hloop, Option.bind_eq_bind, Option.bind_some, bnTrim_table h]

/-! ## Words -/

section Class

variable {c : NativeClass} {n : Nat}

theorem nkNewton_lt (c : NativeClass) (n : Nat) : ∀ i x, x < 2 ^ c.word → nkNewton c n x i < 2 ^ c.word := by
  intro i x hx
  induction hk : c.rounds - i generalizing i x with
  | zero =>
    rw [nkNewton, if_pos (by omega)]
    exact hx
  | succ k ih =>
    rw [nkNewton, if_neg (by omega)]
    exact ih _ _ (Nat.mod_lt _ (Nat.two_pow_pos _)) (by omega)

/-- After `i` rounds `3 * 2 ^ i` bits of the inverse are right, as far as the word goes. -/
theorem nkNewton_dvd : ∀ i (x : Nat), i ≤ c.rounds →
    (2 : Int) ^ min (3 * 2 ^ i) c.word ∣ n * x - 1 →
    (2 : Int) ^ min (3 * 2 ^ c.rounds) c.word ∣ n * nkNewton c n x i - 1 := by
  intro i x hi h
  induction hk : c.rounds - i generalizing i x with
  | zero =>
    obtain rfl : i = c.rounds := by omega
    rw [nkNewton, if_pos (Nat.le_refl _)]
    exact h
  | succ k ih =>
    rw [nkNewton, if_neg (by omega)]
    refine ih _ _ (by omega) ?_ (by omega)
    refine newtonNext_dvd h ?_ (Nat.min_le_right _ _)
    omega

theorem nkNinv_dvd (hw : 3 ≤ c.word) (hrounds : c.word ≤ 3 * 2 ^ c.rounds) (hn : n < 2 ^ c.word)
    (hodd : n % 2 = 1) : 2 ^ c.word ∣ n * nkNinv c n + 1 := by
  have h0 : (2 : Int) ^ min (3 * 2 ^ 0) c.word ∣ n * n - 1 := by
    rw [pow_zero, Nat.mul_one, Nat.min_eq_left hw]
    exact odd_square_dvd hodd
  have h := nkNewton_dvd 0 n (Nat.zero_le _) h0
  rw [Nat.min_eq_right hrounds] at h
  have hlt := nkNewton_lt c n 0 n hn
  have hneg := neg_inverse_dvd (Nat.le_of_lt hlt) (R := 2 ^ c.word) (by exact_mod_cast h)
  rwa [nkNinv, wrapSub, Nat.add_zero]

theorem subChk_condSub (u n : Nat) :
    (if u ≥ n then subChk u n else some u) = some (condSub n u) := by
  unfold condSub
  split
  · rename_i h
    rw [subChk_of_le h]
  · rfl

theorem nkDouble_eq (hdbl : c.word + 1 ≤ c.dbl) (hn : n < 2 ^ c.word) : ∀ count x, x < n →
    nkDouble c n count x = some (x * 2 ^ count % n) := by
  intro count
  induction count with
  | zero =>
    intro x hx
    rw [nkDouble, pow_zero, Nat.mul_one, Nat.mod_eq_of_lt hx]
  | succ count ih =>
    intro x hx
    have hfit : x * 2 ^ 1 < 2 ^ c.dbl := by
      have : 2 ^ (c.word + 1) ≤ 2 ^ c.dbl := Nat.pow_le_pow_right (by decide) hdbl
      omega
    have hcond := condSub_lt (show x * 2 ^ 1 < 2 * n by omega)
    have hmod := condSub_modEq n (x * 2 ^ 1)
    rw [nkDouble]
    simp only [shlLow_of_lt hfit, subChk_condSub, Option.bind_eq_bind, Option.bind_some]
    rw [castChk_of_lt (lt_trans hcond hn), Option.bind_some, ih _ hcond]
    have hnext := hmod.mul_right (2 ^ count)
    rw [Nat.mul_assoc, ← pow_add, Nat.add_comm 1 count] at hnext
    exact congrArg some hnext

theorem nkMm_isMontMul {ninv : Nat} (hw : 0 < c.word) (hprod : 2 * c.word + 1 ≤ c.prod)
    (hn : n < 2 ^ c.word) (hinv : 2 ^ c.word ∣ n * ninv + 1) :
    IsMontMul n (2 ^ c.word) (nkMm c n ninv) := by
  intro a b ha hb
  have hpos : 0 < n := by omega
  have hR : 0 < 2 ^ c.word := Nat.two_pow_pos _
  have ht : a * b < n * 2 ^ c.word := Nat.mul_lt_mul'' ha (lt_trans hb hn)
  have hsum := redc_sum_lt ninv hR hpos ht
  have hfit : 2 * n * 2 ^ c.word < 2 ^ c.prod := by
    have h1 : n * 2 ^ c.word < 2 ^ c.word * 2 ^ c.word := Nat.mul_lt_mul_of_pos_right hn hR
    have h2 : 2 ^ (2 * c.word + 1) ≤ 2 ^ c.prod := Nat.pow_le_pow_right (by decide) hprod
    rw [pow_succ, Nat.two_mul, pow_add] at h2
    rw [Nat.mul_assoc]
    omega
  have hmask : subChk (shlLow c.prod 1 c.word) 1 = some (2 ^ c.word - 1) := by
    have h1 : 1 * 2 ^ c.word < 2 ^ c.prod := by
      rw [Nat.one_mul]
      exact Nat.pow_lt_pow_right (by decide) (by omega)
    rw [shlLow_of_lt h1, Nat.one_mul, subChk_of_le hR]
  have hred := redc_isReduced hinv hR hpos ht
  have hlt := lt_trans hred.1 hn
  refine ⟨_, ?_, hred⟩
  rw [nkMm, mulChk_of_lt (by omega)]
  simp only [hmask, Nat.and_two_pow_sub_one_eq_mod, Option.bind_eq_bind, Option.bind_some]
  rw [castChk_of_lt (Nat.mod_lt _ hR), Option.bind_some, wrapMul,
    show a * b % 2 ^ c.word * ninv % 2 ^ c.word = redcFactor (2 ^ c.word) ninv (a * b) from rfl,
    mulChk_of_lt (by omega), Option.bind_some, addChk_of_lt (by omega), Option.bind_some,
    subChk_condSub, Option.bind_some, shr, castChk_of_lt hlt]

/-- One exponentiation on words of the class. -/
theorem nkExpNative_limbs (hw : 3 ≤ c.word) (hdbl : c.word + 1 ≤ c.dbl)
    (hprod : 2 * c.word + 1 ≤ c.prod) (hrounds : c.word ≤ 3 * 2 ^ c.rounds) {b e m : Nat}
    (hodd : m % 2 = 1) (h1 : 1 < m) (hm : m < 2 ^ c.word) (hb : b < m) :
    nkExpNative c (limbs b) (limbs e) (limbs m) = some (limbs (b ^ e % m)) := by
  have hinv := nkNinv_dvd hw hrounds hm hodd
  have hmm := nkMm_isMontMul (by omega) hprod hm hinv
  have hr1 := nkDouble_eq hdbl hm c.word 1 h1
  have hr2 := nkDouble_eq hdbl hm c.word (1 * 2 ^ c.word % m) (Nat.mod_lt _ (by omega))
  obtain ⟨bm, acc, hbm, hacc, hout⟩ := powLoop_montgomery h1 (coprime_two_pow c.word hodd) hmm
    (bnBit (limbs e)) e (1 * 2 ^ c.word % m) (1 * 2 ^ c.word % m * 2 ^ c.word % m) (Nat.size e) hb
    (bnBit_limbs e) (Nat.lt_size_self e) (by rw [Nat.one_mul]) (by rw [Nat.one_mul, Nat.mod_mul_mod])
  have hlt : b ^ e % m < bnBase ^ (limbs m).length :=
    lt_trans (Nat.mod_lt _ (by omega)) (lt_pow_length m)
  simp only [nkExpNative, nkExp, nkOf_limbs hm, nkOf_limbs (lt_trans hb hm), hr1, hr2, hbm, hacc,
    hout, bnBitLen_limbs, nkTo_eq hlt, Option.bind_eq_bind, Option.bind_some]

end Class

/-!
## The two-word Montgomery class

Moduli of 2049 to 4096 bits (`bw_*` in `lib/bignum.resid`) live in one wide integer and
are multiplied in two words of `M = 2 ^ word`, row by row with a reduction after each
row, so `R = M ^ 2`.  The last sum can pass `M ^ 2`; its top word `v2` is then 1.

    (v0 + v1 M + v2 M ^ 2) M ^ 2 = a b + (m1 + m2 M) n              (bwMm2_value)
    a, b < n < M ^ 2 → bwMm2 answers a b / R modulo n               (bwMm2_isMontMul)
    M ^ 2 > m > 1 odd, b < m → bnNativeExp answers b ^ e % m        (bnNativeExp_limbs)
-/

/-! ## Algorithm -/

/-- The widths of a word, of the scalars and of a word product, and the Newton rounds. -/
structure TwoWordClass where
  word : Nat
  wide : Nat
  prod : Nat
  rounds : Nat

def bwMask (c : TwoWordClass) : Option Nat := subChk (shlLow c.wide 1 c.word) 1

def bwOf (c : TwoWordClass) := nkOf c.wide
def bwTo := nkTo

def bwNewton (c : TwoWordClass) (n x i mask : Nat) : Option Nat :=
  if i ≥ c.rounds then some x
  else do
    let nx := wrapMul c.wide n x &&& mask
    let t ← addChk c.wide (shlLow c.wide 1 c.word) 2
    let d ← subChk t nx
    let twoMinus := d &&& mask
    bwNewton c n (wrapMul c.wide x twoMinus &&& mask) (i + 1) mask
termination_by c.rounds - i

def bwNinv (c : TwoWordClass) (n : Nat) : Option Nat := do
  let mask ← bwMask c
  let x ← bwNewton c (n &&& mask) (n &&& mask) 0 mask
  let d ← subChk (shlLow c.wide 1 c.word) x
  some (d &&& mask)

/-- `x * 2^count mod n`, by repeated doubling. -/
def bwDouble (c : TwoWordClass) (n : Nat) : Nat → Nat → Option Nat
  | 0, x => some x
  | count + 1, x => do
    let d := shlLow c.wide x 1
    let r ← (if d ≥ n then subChk d n else some d)
    bwDouble c n count r

/-- Montgomery product for a modulus of one word. -/
def bwMm1 (c : TwoWordClass) (n ninv a b : Nat) : Option Nat := do
  let mask ← bwMask c
  let t ← mulChk c.wide a b
  let m := wrapMul c.wide (t &&& mask) ninv &&& mask
  let p ← mulChk c.wide m n
  let s ← addChk c.wide t p
  let u := shr s c.word
  (if u ≥ n then subChk u n else some u)

def bwLo (c : TwoWordClass) (v : Nat) : Option Nat := do
  let mask ← bwMask c
  castChk c.word (v &&& mask)

def bwHi (c : TwoWordClass) (v : Nat) : Option Nat := do
  let mask ← bwMask c
  castChk c.word (shr v c.word &&& mask)

def bwWm (c : TwoWordClass) (x y : Nat) : Option Nat := mulChk c.prod x y

/-- The addition of `(a0, a1) * b` to the words `u0, u1, u2`, into four words. -/
def bwMulRow (c : TwoWordClass) (mask a0 a1 b u0 u1 u2 : Nat) :
    Option (Nat × Nat × Nat × Nat) := do
  let s6 ← addChk c.wide u0 (← bwWm c a0 b)
  let c6 := shr s6 c.word
  let t ← addChk c.wide u1 (← bwWm c a1 b)
  let s7 ← addChk c.wide t c6
  let s8 ← addChk c.wide u2 (shr s7 c.word)
  some (s6 &&& mask, s7 &&& mask, s8 &&& mask, shr s8 c.word)

/-- The reduction after a row, which the source writes out twice: the multiple of
`(n0, n1)` that clears `w0` is added and the cleared word dropped. -/
def bwReduceRow (c : TwoWordClass) (mask ni n0 n1 w0 w1 w2 : Nat) :
    Option (Nat × Nat × Nat) := do
  let m := wrapMul c.word (← castChk c.word w0) ni
  let s9 ← addChk c.wide w0 (← bwWm c m n0)
  let c9 := shr s9 c.word
  let t ← addChk c.wide w1 (← bwWm c m n1)
  let s10 ← addChk c.wide t c9
  let s11 ← addChk c.wide w2 (shr s10 c.word)
  some (s10 &&& mask, s11 &&& mask, shr s11 c.word)

/-- Montgomery product for a modulus of two words. -/
def bwMm2 (c : TwoWordClass) (n ninv a b : Nat) : Option Nat := do
  let mask ← bwMask c
  let a0 ← bwLo c a
  let a1 ← bwHi c a
  let b0 ← bwLo c b
  let b1 ← bwHi c b
  let n0 ← bwLo c n
  let n1 ← bwHi c n
  let ni ← bwLo c ninv
  let s1 ← bwWm c a0 b0
  let s2 ← addChk c.wide (← bwWm c a1 b0) (shr s1 c.word)
  let (u0, u1, u2) ← bwReduceRow c mask ni n0 n1 (s1 &&& mask) (s2 &&& mask) (shr s2 c.word)
  let (w0, w1, w2, w3) ← bwMulRow c mask a0 a1 b1 u0 u1 u2
  let (v0, v1, c11) ← bwReduceRow c mask ni n0 n1 w0 w1 w2
  let v2 ← addChk c.wide w3 c11
  let r := v0 ||| shlLow c.wide v1 c.word
  let top := shlLow c.wide 1 (2 * c.word)
  -- the true value is `r + v2 M^2`
  if v2 ≠ 0 then do
    let s ← addChk c.wide r top
    subChk s n
  else if r ≥ n then subChk r n
  else some r

def bwMul (c : TwoWordClass) (two : Bool) (n ninv a b : Nat) : Option Nat :=
  if two then bwMm2 c n ninv a b else bwMm1 c n ninv a b

def bwExp (c : TwoWordClass) (two : Bool) (bm : Nat) (exp : List Nat) (i n ninv acc : Nat) :
    Option Nat :=
  powLoop (bwMul c two n ninv) (bnBit exp) bm i acc

/-- Words of 2048 bits in `UInt(4224)` scalars. -/
def bw : TwoWordClass := { word := 2048, wide := 4224, prod := 4160, rounds := 10 }

/-- `base^exp mod m` for an odd `m` of at most 4096 bits, `base < m`; `bits` is 64 times
the limb count of `m`. -/
def bnNativeExp (base exp m : List Nat) (bits : Nat) : Option (List Nat) :=
  if bits ≤ 1024 then bkExpNative base exp m
  else if bits ≤ 2048 then bdExpNative base exp m
  else do
    let two := decide (bits > 2048)
    let rbits := if two then 4096 else 2048
    let n ← bwOf bw m m.length 0
    let ninv ← bwNinv bw n
    let r1 ← bwDouble bw n rbits 1
    let r2 ← bwDouble bw n rbits r1
    let b ← bwOf bw base base.length 0
    let bm ← bwMul bw two n ninv b r2
    let acc ← bwExp bw two bm exp (← bnBitLen exp) n ninv r1
    let out ← bwMul bw two n ninv acc 1
    bwTo out m.length 0 []

/-! ## Rows -/

section Rows

variable {M a0 a1 b m n0 n1 : Nat}

/-- The first row, `(a0 + a1 M) b`, in three words. -/
theorem firstRow_value {w0 c1 w1 w2 : Nat} (h1 : w0 + M * c1 = a0 * b)
    (h2 : w1 + M * w2 = a1 * b + c1) : w0 + w1 * M + w2 * M ^ 2 = (a0 + a1 * M) * b := by
  zify at *
  linear_combination h1 + (M : Int) * h2

/-- Adding `(a0 + a1 M) b` to three words. -/
theorem mulRow_value {u0 u1 u2 w0 c6 w1 c7 w2 w3 : Nat} (h6 : w0 + M * c6 = u0 + a0 * b)
    (h7 : w1 + M * c7 = u1 + a1 * b + c6) (h8 : w2 + M * w3 = u2 + c7) :
    w0 + w1 * M + w2 * M ^ 2 + w3 * M ^ 3 = u0 + u1 * M + u2 * M ^ 2 + (a0 + a1 * M) * b := by
  zify at *
  linear_combination h6 + (M : Int) * h7 + (M : Int) ^ 2 * h8

/-- Adding `m (n0 + n1 M)` to four words and dropping the lowest, which it clears. -/
theorem reduceRow_value {w0 w1 w2 w3 c9 v0 c10 v1 c11 : Nat} (h9 : M * c9 = w0 + m * n0)
    (h10 : v0 + M * c10 = w1 + m * n1 + c9) (h11 : v1 + M * c11 = w2 + c10) :
    (v0 + v1 * M + (w3 + c11) * M ^ 2) * M =
      w0 + w1 * M + w2 * M ^ 2 + w3 * M ^ 3 + m * (n0 + n1 * M) := by
  zify at *
  linear_combination h9 + (M : Int) * h10 + (M : Int) ^ 2 * h11

/-- A word product and two more words stay within two words. -/
theorem row_lt {x y u v : Nat} (hx : x < M) (hy : y < M) (hu : u < M) (hv : v < M) :
    u + x * y + v < M * M := by
  obtain ⟨k, rfl⟩ : ∃ k, M = k + 1 := ⟨M - 1, by omega⟩
  nlinarith

end Rows

section Class

variable {c : TwoWordClass}

/-- What the widths of the class must allow. -/
structure TwoWordClass.Wide (c : TwoWordClass) : Prop where
  word : 3 ≤ c.word
  prod : 2 * c.word ≤ c.prod
  wide : 2 * c.word + 2 ≤ c.wide
  rounds : c.word ≤ 3 * 2 ^ c.rounds

variable (hc : c.Wide)

include hc

theorem wide_lt {x : Nat} (h : x < 4 * (2 ^ c.word * 2 ^ c.word)) : x < 2 ^ c.wide := by
  refine lt_of_lt_of_le h ?_
  have := hc.wide
  calc 4 * (2 ^ c.word * 2 ^ c.word) = 2 ^ (2 * c.word + 2) := by
        rw [pow_add, Nat.two_mul, pow_add, Nat.mul_comm]
        norm_num
    _ ≤ 2 ^ c.wide := Nat.pow_le_pow_right (by decide) this

theorem shlLow_one : shlLow c.wide 1 c.word = 2 ^ c.word := by
  rw [shlLow_of_lt, Nat.one_mul]
  rw [Nat.one_mul]
  exact Nat.pow_lt_pow_right (by decide) (by have := hc.wide; omega)

theorem bwMask_eq : bwMask c = some (2 ^ c.word - 1) := by
  rw [bwMask, shlLow_one hc, subChk_of_le (Nat.two_pow_pos _)]

theorem bwLo_eq (v : Nat) : bwLo c v = some (v % 2 ^ c.word) := by
  rw [bwLo, bwMask_eq hc, Option.bind_eq_bind, Option.bind_some, Nat.and_two_pow_sub_one_eq_mod,
    castChk_of_lt (Nat.mod_lt _ (Nat.two_pow_pos _))]

theorem bwHi_eq (v : Nat) : bwHi c v = some (v / 2 ^ c.word % 2 ^ c.word) := by
  rw [bwHi, bwMask_eq hc, Option.bind_eq_bind, Option.bind_some, Nat.and_two_pow_sub_one_eq_mod,
    castChk_of_lt (Nat.mod_lt _ (Nat.two_pow_pos _)), shr]

theorem bwWm_eq {x y : Nat} (hx : x < 2 ^ c.word) (hy : y < 2 ^ c.word) :
    bwWm c x y = some (x * y) := mulChk_of_lt (mul_lt_two_pow hc.prod hx hy)

/-! ## Inverse and doubling -/

theorem bwNewton_run {n : Nat} (hn : n < 2 ^ c.word) : ∀ i (x : Nat), i ≤ c.rounds → x < 2 ^ c.word →
    (2 : Int) ^ min (3 * 2 ^ i) c.word ∣ n * x - 1 →
    ∃ y : Nat, bwNewton c n x i (2 ^ c.word - 1) = some y ∧ y < 2 ^ c.word ∧
      (2 : Int) ^ min (3 * 2 ^ c.rounds) c.word ∣ n * y - 1 := by
  intro i x hi hx h
  induction hk : c.rounds - i generalizing i x with
  | zero =>
    obtain rfl : i = c.rounds := by omega
    exact ⟨x, by rw [bwNewton, if_pos (Nat.le_refl _)], hx, h⟩
  | succ k ih =>
    have hR : 0 < 2 ^ c.word := Nat.two_pow_pos _
    have hR2 : 2 ^ c.word + 2 < 2 ^ c.wide := by
      refine wide_lt hc ?_
      have : 2 ^ c.word ≤ 2 ^ c.word * 2 ^ c.word := Nat.le_mul_of_pos_left _ hR
      omega
    -- products of words do not wrap in the wide type
    have hwrap : ∀ {u v : Nat}, u < 2 ^ c.word → v < 2 ^ c.word → wrapMul c.wide u v = u * v := by
      intro u v hu hv
      refine Nat.mod_eq_of_lt (wide_lt hc ?_)
      have : u * v < 2 ^ c.word * 2 ^ c.word := Nat.mul_lt_mul'' hu hv
      omega
    have hstep : bwNewton c n x i (2 ^ c.word - 1) =
        bwNewton c n (newtonNext (2 ^ c.word) n x) (i + 1) (2 ^ c.word - 1) := by
      conv_lhs => rw [bwNewton]
      rw [if_neg (by omega)]
      simp only [shlLow_one hc, hwrap hn hx, Nat.and_two_pow_sub_one_eq_mod]
      rw [addChk_of_lt hR2, Option.bind_eq_bind, Option.bind_some, subChk_of_le (by omega),
        Option.bind_some, hwrap hx (Nat.mod_lt _ hR)]
      rfl
    rw [hstep]
    refine ih _ _ (by omega) (Nat.mod_lt _ hR) ?_ (by omega)
    refine newtonNext_dvd h ?_ (Nat.min_le_right _ _)
    omega

theorem bwNinv_spec {n : Nat} (hodd : n % 2 = 1) :
    ∃ ninv, bwNinv c n = some ninv ∧ 2 ^ c.word ∣ n % 2 ^ c.word * ninv + 1 := by
  have hR : 0 < 2 ^ c.word := Nat.two_pow_pos _
  have hn := Nat.mod_lt n hR
  have hodd' : n % 2 ^ c.word % 2 = 1 := by
    rw [Nat.mod_mod_of_dvd n (dvd_pow_self 2 (by have := hc.word; omega)), hodd]
  have h0 : (2 : Int) ^ min (3 * 2 ^ 0) c.word ∣
      (n % 2 ^ c.word : Nat) * (n % 2 ^ c.word : Nat) - 1 := by
    rw [pow_zero, Nat.mul_one, Nat.min_eq_left hc.word]
    exact odd_square_dvd hodd'
  obtain ⟨y, hy, hylt, hydvd⟩ := bwNewton_run hc hn 0 _ (Nat.zero_le _) hn h0
  rw [Nat.min_eq_right hc.rounds] at hydvd
  refine ⟨(2 ^ c.word - y) % 2 ^ c.word, ?_,
    neg_inverse_dvd (Nat.le_of_lt hylt) (by exact_mod_cast hydvd)⟩
  simp only [bwNinv, bwMask_eq hc, Nat.and_two_pow_sub_one_eq_mod, Option.bind_eq_bind,
    Option.bind_some, hy, shlLow_one hc]
  rw [subChk_of_le (Nat.le_of_lt hylt), Option.bind_some]

theorem bwDouble_eq {n : Nat} (hn : n < 2 ^ c.word * 2 ^ c.word) : ∀ count x, x < n →
    bwDouble c n count x = some (x * 2 ^ count % n) := by
  intro count
  induction count with
  | zero =>
    intro x hx
    rw [bwDouble, pow_zero, Nat.mul_one, Nat.mod_eq_of_lt hx]
  | succ count ih =>
    intro x hx
    have hfit : x * 2 ^ 1 < 2 ^ c.wide := wide_lt hc (by omega)
    have hcond := condSub_lt (show x * 2 ^ 1 < 2 * n by omega)
    have hmod := condSub_modEq n (x * 2 ^ 1)
    have hnext := hmod.mul_right (2 ^ count)
    rw [Nat.mul_assoc, ← pow_add, Nat.add_comm 1 count] at hnext
    rw [bwDouble]
    simp only [shlLow_of_lt hfit, subChk_condSub, Option.bind_eq_bind, Option.bind_some]
    rw [ih _ hcond]
    exact congrArg some hnext

/-! ## The two-word product -/

omit hc in
theorem two_words {x M : Nat} (h : x < M * M) : x % M + x / M % M * M = x := by
  rw [Nat.mod_eq_of_lt (Nat.div_lt_of_lt_mul h), Nat.mul_comm]
  exact Nat.mod_add_div x M

omit hc in
theorem two_words_lt {x y M : Nat} (hx : x < M) (hy : y < M) : x + y * M < M * M := by
  have : (y + 1) * M ≤ M * M := Nat.mul_le_mul_right M hy
  rw [Nat.succ_mul] at this
  omega

theorem row_fits {x : Nat} (h : x < 2 ^ c.word * 2 ^ c.word) : x < 2 ^ c.wide :=
  wide_lt hc (by omega)

theorem two_le_word : 2 ≤ 2 ^ c.word := by
  have := hc.word
  calc 2 = 2 ^ 1 := rfl
    _ ≤ 2 ^ c.word := Nat.pow_le_pow_right (by decide) (by omega)

theorem add_words_lt {x y : Nat} (hx : x < 2 ^ c.word) (hy : y < 2 ^ c.word) :
    x + y < 2 ^ c.word * 2 ^ c.word := by
  have : 2 * 2 ^ c.word ≤ 2 ^ c.word * 2 ^ c.word := Nat.mul_le_mul_right _ (two_le_word hc)
  omega

theorem bwMulRow_spec {a0 a1 b u0 u1 u2 : Nat} (ha0 : a0 < 2 ^ c.word) (ha1 : a1 < 2 ^ c.word)
    (hb : b < 2 ^ c.word) (hu0 : u0 < 2 ^ c.word) (hu1 : u1 < 2 ^ c.word)
    (hu2 : u2 < 2 ^ c.word) :
    ∃ w0 w1 w2 w3, bwMulRow c (2 ^ c.word - 1) a0 a1 b u0 u1 u2 = some (w0, w1, w2, w3) ∧
      w0 < 2 ^ c.word ∧ w1 < 2 ^ c.word ∧ w2 < 2 ^ c.word ∧ w3 < 2 ^ c.word ∧
      w0 + w1 * 2 ^ c.word + w2 * (2 ^ c.word) ^ 2 + w3 * (2 ^ c.word) ^ 3 =
        u0 + u1 * 2 ^ c.word + u2 * (2 ^ c.word) ^ 2 + (a0 + a1 * 2 ^ c.word) * b := by
  have hR : 0 < 2 ^ c.word := Nat.two_pow_pos _
  have hlt := fun x => Nat.mod_lt x hR
  have hm := fun x => Nat.mod_add_div x (2 ^ c.word)
  have k6 : u0 + a0 * b < 2 ^ c.word * 2 ^ c.word := row_lt ha0 hb hu0 hR
  have q6 := Nat.div_lt_of_lt_mul k6
  have k7 := row_lt ha1 hb hu1 q6
  have q7 := Nat.div_lt_of_lt_mul k7
  have k8 := add_words_lt hc hu2 q7
  have q8 := Nat.div_lt_of_lt_mul k8
  have k7' : u1 + a1 * b < 2 ^ c.word * 2 ^ c.word := row_lt ha1 hb hu1 hR
  refine ⟨_, _, _, _, ?_, hlt _, hlt _, hlt _, q8, mulRow_value (hm _) (hm _) (hm _)⟩
  simp [bwMulRow, bwWm_eq hc ha0 hb, bwWm_eq hc ha1 hb, addChk_of_lt (row_fits hc k6),
    addChk_of_lt (row_fits hc k7'), shr, addChk_of_lt (row_fits hc k7),
    addChk_of_lt (row_fits hc k8), Nat.and_two_pow_sub_one_eq_mod, Option.bind_eq_bind,
    Option.bind_some]

theorem bwReduceRow_spec {ni n0 n1 w0 w1 w2 : Nat} (hn0 : n0 < 2 ^ c.word)
    (hn1 : n1 < 2 ^ c.word) (hw0 : w0 < 2 ^ c.word) (hw1 : w1 < 2 ^ c.word)
    (hw2 : w2 < 2 ^ c.word) (hinv : 2 ^ c.word ∣ n0 * ni + 1) :
    ∃ v0 v1 c11 m, bwReduceRow c (2 ^ c.word - 1) ni n0 n1 w0 w1 w2 = some (v0, v1, c11) ∧
      v0 < 2 ^ c.word ∧ v1 < 2 ^ c.word ∧ c11 < 2 ^ c.word ∧ m < 2 ^ c.word ∧
      ∀ w3, (v0 + v1 * 2 ^ c.word + (w3 + c11) * (2 ^ c.word) ^ 2) * 2 ^ c.word =
        w0 + w1 * 2 ^ c.word + w2 * (2 ^ c.word) ^ 2 + w3 * (2 ^ c.word) ^ 3 +
          m * (n0 + n1 * 2 ^ c.word) := by
  have hR : 0 < 2 ^ c.word := Nat.two_pow_pos _
  have hlt := fun x => Nat.mod_lt x hR
  have hm := fun x => Nat.mod_add_div x (2 ^ c.word)
  have hfac : w0 * ni % 2 ^ c.word < 2 ^ c.word := Nat.mod_lt _ hR
  have hdvd := redcFactor_dvd hinv (t := w0)
  rw [redcFactor, Nat.mod_eq_of_lt hw0] at hdvd
  have e9 := Nat.mul_div_cancel' hdvd
  have hdef : wrapMul c.word w0 ni = w0 * ni % 2 ^ c.word := rfl
  generalize w0 * ni % 2 ^ c.word = m at *
  have k9 : w0 + m * n0 < 2 ^ c.word * 2 ^ c.word := row_lt hfac hn0 hw0 hR
  have q9 := Nat.div_lt_of_lt_mul k9
  have k10 := row_lt hfac hn1 hw1 q9
  have q10 := Nat.div_lt_of_lt_mul k10
  have k11 := add_words_lt hc hw2 q10
  have q11 := Nat.div_lt_of_lt_mul k11
  have k10' : w1 + m * n1 < 2 ^ c.word * 2 ^ c.word := row_lt hfac hn1 hw1 hR
  refine ⟨_, _, _, m, ?_, hlt _, hlt _, q11, hfac, fun w3 => reduceRow_value e9 (hm _) (hm _)⟩
  simp [bwReduceRow, castChk_of_lt hw0, hdef, bwWm_eq hc hfac hn0, bwWm_eq hc hfac hn1,
    addChk_of_lt (row_fits hc k9), addChk_of_lt (row_fits hc k10'), shr,
    addChk_of_lt (row_fits hc k10), addChk_of_lt (row_fits hc k11), Nat.and_two_pow_sub_one_eq_mod,
    Option.bind_eq_bind, Option.bind_some]

/-- Every sum of the two-word product fits, and it answers the reduced sum of the rows. -/
theorem bwMm2_value {n ninv a b : Nat} (ha : a < 2 ^ c.word * 2 ^ c.word)
    (hb : b < 2 ^ c.word * 2 ^ c.word) (hn : n < 2 ^ c.word * 2 ^ c.word)
    (hinv : 2 ^ c.word ∣ n % 2 ^ c.word * ninv + 1) :
    ∃ v0 v1 v2 m, v0 < 2 ^ c.word ∧ v1 < 2 ^ c.word ∧ m < 2 ^ c.word * 2 ^ c.word ∧
      (v0 + v1 * 2 ^ c.word + v2 * (2 ^ c.word * 2 ^ c.word)) * (2 ^ c.word * 2 ^ c.word) =
        a * b + m * n ∧
      bwMm2 c n ninv a b =
        if v2 ≠ 0 then
          (addChk c.wide (v0 ||| shlLow c.wide v1 c.word) (shlLow c.wide 1 (2 * c.word))).bind
            fun s => subChk s n
        else if (v0 ||| shlLow c.wide v1 c.word) ≥ n
          then subChk (v0 ||| shlLow c.wide v1 c.word) n
        else some (v0 ||| shlLow c.wide v1 c.word) := by
  have hR : 0 < 2 ^ c.word := Nat.two_pow_pos _
  have hinv' : 2 ^ c.word ∣ n % 2 ^ c.word * (ninv % 2 ^ c.word) + 1 := by
    refine Nat.modEq_zero_iff_dvd.1 ?_
    exact (((Nat.mod_modEq ninv _).mul_left _).add_right 1).trans (Nat.modEq_zero_iff_dvd.2 hinv)
  have hlt := fun x => Nat.mod_lt x hR
  have hm := fun x => Nat.mod_add_div x (2 ^ c.word)
  have hae := two_words ha
  have hbe := two_words hb
  have hne := two_words hn
  -- the first row has nothing to add to
  have k1 : a % 2 ^ c.word * (b % 2 ^ c.word) < 2 ^ c.word * 2 ^ c.word :=
    Nat.mul_lt_mul'' (hlt a) (hlt b)
  have q1 := Nat.div_lt_of_lt_mul k1
  have k2 := row_lt (hlt (a / 2 ^ c.word)) (hlt b) hR q1
  rw [Nat.zero_add] at k2
  have q2 := Nat.div_lt_of_lt_mul k2
  obtain ⟨u0, u1, u2, m1, hred1, hu0, hu1, hu2, hm1, hval1⟩ := bwReduceRow_spec hc (hlt n)
    (hlt (n / 2 ^ c.word)) (hlt (a % 2 ^ c.word * (b % 2 ^ c.word))) (hlt (a / 2 ^ c.word %
      2 ^ c.word * (b % 2 ^ c.word) + a % 2 ^ c.word * (b % 2 ^ c.word) / 2 ^ c.word)) q2 hinv'
  obtain ⟨w0, w1, w2, w3, hmul, hw0, hw1, hw2, hw3, hval2⟩ := bwMulRow_spec hc (hlt a)
    (hlt (a / 2 ^ c.word)) (hlt (b / 2 ^ c.word)) hu0 hu1 hu2
  obtain ⟨v0, v1, c11, m2, hred2, hv0, hv1, hc11, hm2, hval3⟩ := bwReduceRow_spec hc (hlt n)
    (hlt (n / 2 ^ c.word)) hw0 hw1 hw2 hinv'
  have hv2 := row_fits hc (add_words_lt hc hw3 hc11)
  refine ⟨v0, v1, w3 + c11, m1 + m2 * 2 ^ c.word, hv0, hv1, two_words_lt hm1 hm2, ?_, ?_⟩
  · have r1 := hval1 0
    have r2 := hval3 w3
    have p1 := firstRow_value (hm (a % 2 ^ c.word * (b % 2 ^ c.word)))
      (hm (a / 2 ^ c.word % 2 ^ c.word * (b % 2 ^ c.word) +
        a % 2 ^ c.word * (b % 2 ^ c.word) / 2 ^ c.word))
    generalize a % 2 ^ c.word = a0 at *
    generalize a / 2 ^ c.word % 2 ^ c.word = a1 at *
    generalize b % 2 ^ c.word = b0 at *
    rw [← hae, ← hbe, ← hne]
    generalize 2 ^ c.word = M at *
    zify at r1 r2 p1 hval2 ⊢
    linear_combination (M : Int) * r2 + (M : Int) * hval2 + r1 + p1
  · unfold bwMm2
    simp only [bwMask_eq hc, bwLo_eq hc, bwHi_eq hc, bwWm_eq hc (hlt a) (hlt b),
      bwWm_eq hc (hlt (a / 2 ^ c.word)) (hlt b), addChk_of_lt (row_fits hc k2), shr, hred1, hmul,
      hred2, addChk_of_lt hv2, Nat.and_two_pow_sub_one_eq_mod, Option.bind_eq_bind,
      Option.bind_some]

theorem bwMm2_isMontMul {n ninv : Nat} (hn : n < 2 ^ c.word * 2 ^ c.word)
    (hinv : 2 ^ c.word ∣ n % 2 ^ c.word * ninv + 1) :
    IsMontMul n (2 ^ c.word * 2 ^ c.word) (bwMm2 c n ninv) := by
  intro a b ha hb
  obtain ⟨v0, v1, v2, m, hv0, hv1, hm, hval, hrun⟩ :=
    bwMm2_value hc (lt_trans ha hn) (lt_trans hb hn) hn hinv
  have hR : 0 < 2 ^ c.word := Nat.two_pow_pos _
  have hshl : shlLow c.wide v1 c.word = v1 * 2 ^ c.word := by
    refine shlLow_of_lt (wide_lt hc ?_)
    have : v1 * 2 ^ c.word < 2 ^ c.word * 2 ^ c.word := Nat.mul_lt_mul_of_pos_right hv1 hR
    omega
  have htop : shlLow c.wide 1 (2 * c.word) = 2 ^ c.word * 2 ^ c.word := by
    rw [shlLow_of_lt] <;> rw [Nat.one_mul, Nat.two_mul, pow_add]
    exact wide_lt hc (by have := Nat.mul_pos hR hR; omega)
  rw [hshl, htop, Nat.or_comm, shl_or_eq_add _ hv0, Nat.add_comm] at hrun
  have hr := two_words_lt hv0 hv1
  have hwide : v0 + v1 * 2 ^ c.word + 2 ^ c.word * 2 ^ c.word < 2 ^ c.wide :=
    wide_lt hc (by omega)
  generalize 2 ^ c.word * 2 ^ c.word = R at *
  generalize v0 + v1 * 2 ^ c.word = r at *
  -- the sum is below twice the modulus
  have hlt : r + v2 * R < 2 * n := by
    have h1 : a * b < n * R := Nat.mul_lt_mul'' ha (lt_trans hb hn)
    have h2 : m * n ≤ R * n := Nat.mul_le_mul_right n (Nat.le_of_lt hm)
    refine Nat.lt_of_mul_lt_mul_right (a := R) ?_
    rw [hval, Nat.mul_assoc, Nat.two_mul, Nat.mul_comm R n] at *
    omega
  have hsub : bwMm2 c n ninv a b = some (condSub n (r + v2 * R)) := by
    rw [hrun]
    unfold condSub
    rcases Nat.eq_zero_or_pos v2 with h0 | h0
    · rw [if_neg (by omega), h0, Nat.zero_mul, Nat.add_zero]
      split
      · rename_i h
        rw [subChk_of_le h]
      · rfl
    · have h1 : v2 = 1 := by
        by_contra hne
        have : 2 * R ≤ v2 * R := Nat.mul_le_mul_right R (by omega)
        omega
      rw [if_pos (by omega), addChk_of_lt hwide, Option.bind_some,
        subChk_of_le (by omega), h1, Nat.one_mul, if_pos (by omega)]
  refine ⟨_, hsub, condSub_lt hlt, ?_⟩
  have h := (condSub_modEq n (r + v2 * R)).mul_right R
  rw [hval] at h
  refine h.trans ?_
  have : a * b + m * n ≡ a * b + 0 [MOD n] :=
    Nat.ModEq.add_left _ (Nat.modEq_zero_iff_dvd.2 (Dvd.intro_left _ rfl))
  rwa [Nat.add_zero] at this

/-- The two-word exponentiation, with `R = 2 ^ w` and `w` twice the word. -/
theorem bwExp_run {w b e m : Nat} (hw : w = c.word + c.word) (hodd : m % 2 = 1) (h1 : 1 < m)
    (hm : m < 2 ^ w) (hb : b < m) :
    ∃ ninv r1 r2 bm acc, bwNinv c m = some ninv ∧ bwDouble c m w 1 = some r1 ∧
      bwDouble c m w r1 = some r2 ∧ bwMul c true m ninv b r2 = some bm ∧
      bwExp c true bm (limbs e) (Nat.size e) m ninv r1 = some acc ∧
      bwMul c true m ninv acc 1 = some (b ^ e % m) := by
  have hRR : 2 ^ c.word * 2 ^ c.word = 2 ^ w := by rw [hw, pow_add]
  have hm' : m < 2 ^ c.word * 2 ^ c.word := hRR ▸ hm
  obtain ⟨ninv, hninv, hdvd⟩ := bwNinv_spec hc hodd
  have hmm := bwMm2_isMontMul hc hm' hdvd
  rw [hRR] at hmm
  obtain ⟨bm, acc, hbm, hacc, hout⟩ := powLoop_montgomery h1 (coprime_two_pow w hodd) hmm
    (bnBit (limbs e)) e (1 * 2 ^ w % m) (1 * 2 ^ w % m * 2 ^ w % m) (Nat.size e) hb (bnBit_limbs e)
    (Nat.lt_size_self e) (by rw [Nat.one_mul]) (by rw [Nat.one_mul, Nat.mod_mul_mod])
  exact ⟨ninv, _, _, bm, acc, hninv, bwDouble_eq hc hm' w 1 h1,
    bwDouble_eq hc hm' w _ (Nat.mod_lt _ (by omega)), hbm, hacc, hout⟩

end Class

/-! ## The native path -/

theorem bw_wide : bw.Wide := by
  constructor <;> decide

theorem limbs_length_class {m w : Nat} (h : (limbs m).length * 64 ≤ w) : m < 2 ^ w := by
  refine lt_of_lt_of_le (lt_pow_length m) ?_
  rw [bnBase_pow, Nat.mul_comm]
  exact Nat.pow_le_pow_right (by decide) h

/-- Every size class of the native path answers the power. -/
theorem bnNativeExp_limbs {b e m : Nat} (hlen : (limbs m).length ≤ 64) (hodd : m % 2 = 1)
    (h1 : 1 < m) (hb : b < m) :
    bnNativeExp (limbs b) (limbs e) (limbs m) ((limbs m).length * 64) =
      some (limbs (b ^ e % m)) := by
  unfold bnNativeExp
  by_cases hk : (limbs m).length * 64 ≤ 1024
  · rw [if_pos hk]
    exact nkExpNative_limbs (by decide) (by decide) (by decide) (by decide) hodd h1
      (limbs_length_class hk) hb
  by_cases hd : (limbs m).length * 64 ≤ 2048
  · rw [if_neg hk, if_pos hd]
    exact nkExpNative_limbs (by decide) (by decide) (by decide) (by decide) hodd h1
      (limbs_length_class hd) hb
  rw [if_neg hk, if_neg hd]
  obtain ⟨w, hw⟩ : ∃ w, w = 4096 := ⟨_, rfl⟩
  have hm : m < 2 ^ w := limbs_length_class (by omega)
  have hmw : m < 2 ^ bw.wide := limbs_length_class (Nat.le_trans (by omega : _ ≤ 4096) (by decide))
  obtain ⟨ninv, r1, r2, bm, acc, hninv, hr1, hr2, hbm, hacc, hout⟩ :=
    bwExp_run bw_wide (e := e) (hw.trans (by decide)) hodd h1 hm hb
  have hlt : b ^ e % m < bnBase ^ (limbs m).length :=
    lt_trans (Nat.mod_lt _ (by omega)) (lt_pow_length m)
  have htwo : decide ((limbs m).length * 64 > 2048) = true := decide_eq_true (by omega)
  simp [bwOf, bwTo, htwo, nkOf_limbs hmw, nkOf_limbs (lt_trans hb hmw), hninv, ← hw, hr1,
    hr2, hbm, hacc, hout, bnBitLen_limbs, nkTo_eq hlt, Option.bind_eq_bind, Option.bind_some]

end Bignum

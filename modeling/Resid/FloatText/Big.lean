import Resid.Lib.FixedWidth
import Resid.Lib.Limbs

/-!
# Big integers of the float text routines

A big integer is its limbs of 32 bits, low first, without a zero on top.  A routine that
works in place returns the new limbs.  Of a machine word `x`, `x &&& mask32` and `x >>> 32`
are its low limb and what is above it.

    val (bnMuladd b m a) = val b * m + a                             (bnMuladd_spec)
    val (bnShl b k) = val b * 2^k, val (bnShr b k) = val b / 2^k     (bnShl_spec, bnShr_spec)
    bnBitlen b = (val b).size                                        (bnBitlen_eq)
    bitAt b i = val b / 2^i % 2                                      (bitAt_eq)
    lowNonzero b n = true ↔ val b % 2^n ≠ 0                          (lowNonzero_iff)
-/

namespace FloatText

open BitLength Positional

/-! ## Definitions -/

/-- `2^32`. -/
def base : Nat := 4294967296

def mask32 : Nat := 4294967295

/-- The number the limbs denote. -/
def val (l : List Nat) : Nat := Nat.ofDigits base l

/-- The set bits of a word, as the processor counts them. -/
def popcount (x : Nat) : Nat := (List.range 64).countP x.testBit

/-- Bits of a word. -/
def bitlen (x : Nat) : Nat :=
  let a := x ||| (x >>> 1)
  let b := a ||| (a >>> 2)
  let c := b ||| (b >>> 4)
  let d := c ||| (c >>> 8)
  let e := d ||| (d >>> 16)
  popcount (e ||| (e >>> 32))

/-- Limb `i`, or 0 past the end. -/
def bnW (b : List Nat) (i : Nat) : Nat := b.getD i 0

def bnFrom (v : Nat) : List Nat := trimTop [v &&& mask32, v >>> 32]

def muladdAt (m : Nat) : List Nat → Nat → List Nat × Nat
  | [], c => ([], c)
  | x :: b, c =>
    let t := x * m + c
    let rest := muladdAt m b (t >>> 32)
    ((t &&& mask32) :: rest.1, rest.2)

/-- `b * m + a`. -/
def bnMuladd (b : List Nat) (m a : Nat) : List Nat :=
  let r := muladdAt m b a
  if r.2 = 0 then r.1 else r.1 ++ [r.2]

/-- `b / d`, and the remainder. -/
def bnDivsmall (b : List Nat) (d : Nat) : List Nat × Nat :=
  let r := shortDiv base b d b.length 0
  (trimTop r.1, r.2)

def bnBitlen (b : List Nat) : Nat :=
  if b.length = 0 then 0 else (b.length - 1) * 32 + bitlen (b.getD (b.length - 1) 0)

/-- Shifts by less than a limb; `hi` comes from the limb below. -/
def shlLimbs (bs : Nat) : Nat → List Nat → List Nat
  | hi, [] => [hi]
  | hi, v :: b =>
    (((v <<< bs) &&& mask32) ||| hi) :: shlLimbs bs (if bs = 0 then 0 else v >>> (32 - bs)) b

def bnShl (b : List Nat) (k : Nat) : List Nat :=
  if b.length = 0 then b
  else
    let ws := k / 32
    let bs := k % 32
    trimTop (List.replicate ws 0 ++ shlLimbs bs 0 b)

def shrLimbs (bs : Nat) : List Nat → List Nat
  | [] => []
  | x :: b =>
    let lo := x >>> bs
    let hi := if bs ≠ 0 ∧ b ≠ [] then (b.getD 0 0 <<< (32 - bs)) &&& mask32 else 0
    (lo ||| hi) :: shrLimbs bs b

def bnShr (b : List Nat) (k : Nat) : List Nat :=
  let ws := k / 32
  let bs := k % 32
  if ws ≥ b.length then [] else trimTop (shrLimbs bs (b.drop ws))

def bnCmp (a b : List Nat) : Int :=
  if a.length ≠ b.length then if a.length > b.length then 1 else -1
  else cmpFrom a b a.length

def pow10At (b : List Nat) (e : Nat) : List Nat :=
  if e = 0 then b
  else if e ≥ 9 then pow10At (bnMuladd b 1000000000 0) (e - 9)
  else
    let m := [1, 10, 100, 1000, 10000, 100000, 1000000, 10000000, 100000000].getD e 0
    bnMuladd b m 0
termination_by e

/-- `10^e`. -/
def bnPow10 (e : Nat) : List Nat := pow10At (bnFrom 1) e

def mulPow10 (m : List Nat) (e : Nat) : List Nat :=
  if e = 0 then m
  else
    let step := min e 9
    let f := [1, 10, 100, 1000, 10000, 100000, 1000000, 10000000, 100000000, 1000000000].getD step 0
    mulPow10 (bnMuladd m f 0) (e - step)
termination_by e

def bitAt (q : List Nat) (i : Nat) : Nat :=
  if i / 32 < q.length then (q.getD (i / 32) 0 >>> (i % 32)) &&& 1 else 0

/-- A nonzero limb among the first `n`. -/
def limbsNz : List Nat → Nat → Bool
  | _, 0 => false
  | [], _ + 1 => false
  | x :: q, n + 1 => decide (x ≠ 0) || limbsNz q n

/-- A nonzero bit among the low `n`. -/
def lowNonzero (q : List Nat) (n : Nat) : Bool :=
  let ws := n / 32
  let bs := n % 32
  let full := min ws q.length
  if limbsNz q full then true
  else decide (ws < q.length ∧ (q.getD ws 0 &&& ((1 <<< bs) - 1)) ≠ 0)

/-- `q >> drop` or `q << -drop`, of which the low 64 bits are read. -/
def topBits (q : List Nat) (drop : Int) : Nat :=
  let t := if drop > 0 then bnShr q drop.toNat else bnShl q (-drop).toNat
  bnW t 0 ||| (bnW t 1 <<< 32)

/-! ## Words -/

theorem one_lt_base : 1 < base := by decide

theorem base_pos : 0 < base := by decide

theorem base_eq : base = 2 ^ 32 := rfl

theorem base_pow (n : Nat) : base ^ n = 2 ^ (32 * n) := by
  rw [base_eq, ← Nat.pow_mul]

theorem and_mask32 (x : Nat) : x &&& mask32 = x % base := Nat.and_two_pow_sub_one_eq_mod x 32

theorem shiftRight_limb (x : Nat) : x >>> 32 = x / base := Nat.shiftRight_eq_div_pow x 32

@[simp] theorem val_nil : val [] = 0 := rfl

@[simp] theorem val_cons (x : Nat) (l : List Nat) : val (x :: l) = x + base * val l :=
  Nat.ofDigits_cons

theorem val_append (a b : List Nat) : val (a ++ b) = val a + base ^ a.length * val b :=
  Nat.ofDigits_append

variable {b l q : List Nat}

theorem val_lt (hl : IsDigits base l) : val l < base ^ l.length :=
  hl.ofDigits_lt one_lt_base

theorem val_trimTop (hl : IsDigits base l) : val (trimTop l) = val l :=
  ofDigits_trimTop one_lt_base hl

theorem normal_trim (hl : IsDigits base l) : Normal base (trimTop l) :=
  normal_trimTop one_lt_base hl

/-- The bits of two words that do not overlap. -/
theorem or_eq_add {p x y n : Nat} (hp : p = 2 ^ n) (hy : y < p) : p * x ||| y = p * x + y := by
  subst hp
  exact (Nat.two_pow_add_eq_or_of_lt hy x).symm

theorem bitlen_eq {x : Nat} (hx : x < 2 ^ 64) : bitlen x = x.size := by
  have h := (Smeared.one x).double.double.double.double.double.double
  exact h.count hx

/-! ## Multiplying -/

theorem muladdAt_spec (m : Nat) (b : List Nat) : ∀ c, IsDigits base b → m < base → c < base →
    IsDigits base (muladdAt m b c).1 ∧ (muladdAt m b c).1.length = b.length ∧
      (muladdAt m b c).2 < base ∧
      val (muladdAt m b c).1 + base ^ b.length * (muladdAt m b c).2 = val b * m + c := by
  induction b with
  | nil =>
    intro c _ _ hc
    exact ⟨IsDigits.nil base, rfl, hc, by simp [muladdAt]⟩
  | cons x b ih =>
    intro c hb hm hc
    obtain ⟨hx, hb⟩ := hb.of_cons
    have hcarry : (x * m + c) / base < base := by
      apply Nat.div_lt_of_lt_mul
      calc x * m + c < x * m + base := Nat.add_lt_add_left hc _
        _ ≤ (base - 1) * base + base :=
          Nat.add_le_add_right (Nat.mul_le_mul (Nat.le_sub_one_of_lt hx) hm.le) _
        _ = base * base := by decide
    obtain ⟨h1, h2, h3, h4⟩ := ih ((x * m + c) / base) hb hm hcarry
    unfold muladdAt
    simp only [and_mask32, shiftRight_limb]
    refine ⟨IsDigits.cons (Nat.mod_lt _ base_pos) h1, congrArg (· + 1) h2, h3, ?_⟩
    have hdm := Nat.mod_add_div (x * m + c) base
    rw [val_cons, val_cons, List.length_cons, pow_succ]
    calc (x * m + c) % base + base * val (muladdAt m b ((x * m + c) / base)).1 +
          base ^ b.length * base * (muladdAt m b ((x * m + c) / base)).2
        = (x * m + c) % base + base * (val (muladdAt m b ((x * m + c) / base)).1 +
          base ^ b.length * (muladdAt m b ((x * m + c) / base)).2) := by ring
      _ = (x * m + c) % base + base * ((x * m + c) / base) + base * (val b * m) := by
        rw [h4]
        ring
      _ = (x + base * val b) * m + c := by
        rw [hdm]
        ring

theorem bnMuladd_spec (hb : Normal base b) {m a : Nat} (hm0 : 0 < m) (hm : m < base)
    (ha : a < base) : Normal base (bnMuladd b m a) ∧ val (bnMuladd b m a) = val b * m + a := by
  obtain ⟨h1, h2, h3, h4⟩ := muladdAt_spec m b a hb.digits hm ha
  unfold bnMuladd
  simp only []
  generalize muladdAt m b a = r at h1 h2 h3 h4 ⊢
  by_cases hzero : r.2 = 0
  · rw [if_pos hzero]
    rw [hzero, Nat.mul_zero, Nat.add_zero] at h4
    refine ⟨normal_of_le one_lt_base h1 (fun n hn => ?_), h4⟩
    have hlow := hb.pow_le (h2 ▸ hn)
    show base ^ n ≤ val r.1
    calc base ^ n ≤ val b := hlow
      _ ≤ val b * m := Nat.le_mul_of_pos_right _ hm0
      _ ≤ val r.1 := by
        rw [h4]
        exact Nat.le_add_right _ _
  · rw [if_neg hzero]
    refine ⟨⟨h1.append (IsDigits.singleton h3), fun h => ?_⟩, ?_⟩
    · rwa [List.getLast_append_singleton]
    · rw [val_append, val_cons, val_nil, Nat.mul_zero, Nat.add_zero, h2, h4]

theorem bnFrom_spec {v : Nat} (hv : v < 2 ^ 64) : Normal base (bnFrom v) ∧ val (bnFrom v) = v := by
  have hlow : v % base < base := Nat.mod_lt v base_pos
  have hhigh : v / base < base := by
    apply Nat.div_lt_of_lt_mul
    exact hv
  have hdig : IsDigits base [v % base, v / base] :=
    IsDigits.cons hlow (IsDigits.singleton hhigh)
  unfold bnFrom
  rw [and_mask32, shiftRight_limb]
  refine ⟨normal_trim hdig, ?_⟩
  rw [val_trimTop hdig]
  simp only [val_cons, val_nil, Nat.mul_zero, Nat.add_zero]
  exact Nat.mod_add_div v base

theorem pow10At_spec (b : List Nat) (e : Nat) : Normal base b →
    Normal base (pow10At b e) ∧ val (pow10At b e) = val b * 10 ^ e := by
  induction e using Nat.strong_induction_on generalizing b with
  | _ e ih =>
    intro hb
    rw [pow10At]
    by_cases hzero : e = 0
    · rw [if_pos hzero, hzero, Nat.pow_zero, Nat.mul_one]
      exact ⟨hb, rfl⟩
    · rw [if_neg hzero]
      by_cases hnine : e ≥ 9
      · rw [if_pos hnine]
        obtain ⟨h1, h2⟩ := bnMuladd_spec hb (m := 1000000000) (a := 0) (by decide) (by decide)
          base_pos
        obtain ⟨h3, h4⟩ := ih (e - 9) (by omega) _ h1
        refine ⟨h3, ?_⟩
        have hsplit : 10 ^ e = 10 ^ 9 * 10 ^ (e - 9) := by
          rw [← Nat.pow_add]
          congr 1
          omega
        rw [h4, h2, hsplit, Nat.add_zero]
        exact Nat.mul_assoc _ _ _
      · rw [if_neg hnine]
        have hm : [1, 10, 100, 1000, 10000, 100000, 1000000, 10000000, 100000000].getD e 0 =
            10 ^ e := by
          have hlt : e < 9 := by omega
          interval_cases e <;> rfl
        have hpow : 10 ^ e < base := by
          calc 10 ^ e < 10 ^ 9 := Nat.pow_lt_pow_right (by decide) (by omega)
            _ < base := by decide
        simp only [hm]
        exact bnMuladd_spec hb (Nat.pow_pos (by decide)) hpow base_pos

theorem bnPow10_spec (e : Nat) : Normal base (bnPow10 e) ∧ val (bnPow10 e) = 10 ^ e := by
  obtain ⟨h1, h2⟩ := bnFrom_spec (v := 1) (by decide)
  obtain ⟨h3, h4⟩ := pow10At_spec (bnFrom 1) e h1
  refine ⟨h3, ?_⟩
  unfold bnPow10
  rw [h4, h2, Nat.one_mul]

theorem mulPow10_spec (m : List Nat) (e : Nat) : Normal base m →
    Normal base (mulPow10 m e) ∧ val (mulPow10 m e) = val m * 10 ^ e := by
  induction e using Nat.strong_induction_on generalizing m with
  | _ e ih =>
    intro hm
    rw [mulPow10]
    by_cases hzero : e = 0
    · rw [if_pos hzero, hzero, Nat.pow_zero, Nat.mul_one]
      exact ⟨hm, rfl⟩
    · rw [if_neg hzero]
      have hstep : min e 9 ≤ 9 := Nat.min_le_right e 9
      have hf : [1, 10, 100, 1000, 10000, 100000, 1000000, 10000000, 100000000, 1000000000].getD
          (min e 9) 0 = 10 ^ min e 9 := by
        generalize min e 9 = step at hstep ⊢
        interval_cases step <;> rfl
      have hpow : 10 ^ min e 9 < base := by
        calc 10 ^ min e 9 ≤ 10 ^ 9 := Nat.pow_le_pow_right (by decide) hstep
          _ < base := by decide
      simp only [hf]
      obtain ⟨h1, h2⟩ := bnMuladd_spec hm (Nat.pow_pos (by decide)) hpow base_pos
      obtain ⟨h3, h4⟩ := ih (e - min e 9) (by omega) _ h1
      refine ⟨h3, ?_⟩
      rw [h4, h2, Nat.add_zero, Nat.mul_assoc, ← Nat.pow_add, Nat.add_sub_cancel' (Nat.min_le_left e 9)]

theorem bnDivsmall_spec (hb : IsDigits base b) {d : Nat} (hd : 0 < d) :
    Normal base (bnDivsmall b d).1 ∧ val (bnDivsmall b d).1 = val b / d ∧
      (bnDivsmall b d).2 = val b % d := by
  obtain ⟨h1, -, h3, h4⟩ := shortDiv_spec one_lt_base hb hd b.length (Nat.le_refl _) 0 hd
  rw [Nat.zero_mul, Nat.zero_add, List.take_length] at h3
  unfold bnDivsmall
  simp only []
  generalize shortDiv base b d b.length 0 = r at h1 h3 h4 ⊢
  have hval : val b = val r.1 * d + r.2 := h3
  refine ⟨normal_trim h1, ?_, ?_⟩
  · rw [val_trimTop h1, hval, Nat.add_comm, Nat.add_mul_div_right _ _ hd, Nat.div_eq_of_lt h4,
      Nat.zero_add]
  · rw [hval, Nat.add_comm, Nat.add_mul_mod_self_right, Nat.mod_eq_of_lt h4]

/-! ## Bits -/

theorem size_add_mul {low t n : Nat} (hlow : low < 2 ^ n) (ht : 0 < t) :
    (low + 2 ^ n * t).size = n + t.size := by
  apply Nat.le_antisymm
  · rw [Nat.size_le, Nat.pow_add]
    have hlt := Nat.lt_size_self t
    calc low + 2 ^ n * t < 2 ^ n + 2 ^ n * t := Nat.add_lt_add_right hlow _
      _ = 2 ^ n * (t + 1) := by ring
      _ ≤ 2 ^ n * 2 ^ t.size := Nat.mul_le_mul_left _ hlt
  · obtain ⟨s, hs⟩ : ∃ s, t.size = s + 1 := ⟨t.size - 1, by have := Nat.size_pos.2 ht; omega⟩
    have hle : 2 ^ s ≤ t := Nat.lt_size.1 (by omega)
    rw [hs]
    apply Nat.lt_size.2
    calc 2 ^ (n + s) = 2 ^ n * 2 ^ s := Nat.pow_add 2 n s
      _ ≤ 2 ^ n * t := Nat.mul_le_mul_left _ hle
      _ ≤ low + 2 ^ n * t := Nat.le_add_left _ _

theorem bnBitlen_eq (hb : Normal base b) : bnBitlen b = (val b).size := by
  unfold bnBitlen
  by_cases hnil : b = []
  · rw [hnil]
    rfl
  · have hlen := List.length_pos_iff.2 hnil
    rw [if_neg (by omega)]
    obtain ⟨low, t, rfl, hlow, ht, htb⟩ := hb.split_top hnil
    have hlowlt := val_lt hlow
    rw [base_pow] at hlowlt
    have htop : (low ++ [t]).getD low.length 0 = t := by simp
    rw [List.length_append, List.length_singleton, Nat.add_sub_cancel, htop,
      bitlen_eq (htb.trans (by decide)), val_append, val_cons, val_nil, Nat.mul_zero, Nat.add_zero,
      base_pow, size_add_mul hlowlt ht, Nat.mul_comm]

theorem shlLimbs_spec {bs : Nat} (hbs : bs < 32) (b : List Nat) : ∀ hi, IsDigits base b →
    hi < 2 ^ bs → IsDigits base (shlLimbs bs hi b) ∧ val (shlLimbs bs hi b) = val b * 2 ^ bs + hi := by
  have hpow : 2 ^ bs * 2 ^ (32 - bs) = base := by
    rw [← Nat.pow_add, Nat.add_sub_cancel' hbs.le]
    rfl
  induction b with
  | nil =>
    intro hi _ hhi
    have hlt : hi < base := by
      calc hi < 2 ^ bs := hhi
        _ ≤ 2 ^ 32 := Nat.pow_le_pow_right (by decide) hbs.le
    exact ⟨IsDigits.singleton hlt, by simp [shlLimbs]⟩
  | cons v b ih =>
    intro hi hb hhi
    obtain ⟨hv, hb⟩ := hb.of_cons
    have hnext : (if bs = 0 then 0 else v >>> (32 - bs)) = v / 2 ^ (32 - bs) := by
      by_cases hzero : bs = 0
      · rw [if_pos hzero, hzero]
        exact (Nat.div_eq_of_lt hv).symm
      · rw [if_neg hzero, Nat.shiftRight_eq_div_pow]
    have hcarry : v / 2 ^ (32 - bs) < 2 ^ bs := by
      apply Nat.div_lt_of_lt_mul
      rwa [Nat.mul_comm, hpow]
    have hlow : (v <<< bs) &&& mask32 = 2 ^ bs * (v % 2 ^ (32 - bs)) := by
      rw [and_mask32, Nat.shiftLeft_eq, ← hpow, Nat.mul_comm v, Nat.mul_mod_mul_left]
    obtain ⟨h1, h2⟩ := ih _ hb hcarry
    unfold shlLimbs
    rw [hnext, hlow, or_eq_add rfl hhi]
    constructor
    · apply IsDigits.cons _ h1
      have hmod := Nat.mod_lt v (show 0 < 2 ^ (32 - bs) from Nat.pow_pos (by decide))
      calc 2 ^ bs * (v % 2 ^ (32 - bs)) + hi < 2 ^ bs * (v % 2 ^ (32 - bs)) + 2 ^ bs :=
            Nat.add_lt_add_left hhi _
        _ = 2 ^ bs * (v % 2 ^ (32 - bs) + 1) := by ring
        _ ≤ 2 ^ bs * 2 ^ (32 - bs) := Nat.mul_le_mul_left _ hmod
        _ = base := hpow
    · have hdm := Nat.mod_add_div v (2 ^ (32 - bs))
      rw [val_cons, val_cons, h2]
      calc 2 ^ bs * (v % 2 ^ (32 - bs)) + hi + base * (val b * 2 ^ bs + v / 2 ^ (32 - bs))
          = 2 ^ bs * (v % 2 ^ (32 - bs)) + 2 ^ bs * 2 ^ (32 - bs) * (v / 2 ^ (32 - bs)) + hi +
            base * val b * 2 ^ bs := by rw [hpow]; ring
        _ = 2 ^ bs * (v % 2 ^ (32 - bs) + 2 ^ (32 - bs) * (v / 2 ^ (32 - bs))) + hi +
            base * val b * 2 ^ bs := by ring
        _ = (v + base * val b) * 2 ^ bs + hi := by
          rw [hdm]
          ring

theorem two_pow_limbs (k : Nat) : base ^ (k / 32) * 2 ^ (k % 32) = 2 ^ k := by
  rw [base_pow, ← Nat.pow_add, Nat.div_add_mod]

theorem isDigits_zeros (n : Nat) : IsDigits base (List.replicate n 0) := by
  intro d hd
  rw [List.eq_of_mem_replicate hd]
  exact base_pos

theorem bnShl_spec (hb : Normal base b) (k : Nat) :
    Normal base (bnShl b k) ∧ val (bnShl b k) = val b * 2 ^ k := by
  unfold bnShl
  by_cases hnil : b.length = 0
  · rw [if_pos hnil]
    have hb0 : b = [] := List.eq_nil_of_length_eq_zero hnil
    subst hb0
    exact ⟨hb, by simp⟩
  · rw [if_neg hnil]
    have hbs : k % 32 < 32 := Nat.mod_lt k (by decide)
    obtain ⟨h1, h2⟩ := shlLimbs_spec hbs b 0 hb.digits (Nat.pow_pos (by decide))
    have hdig := (isDigits_zeros (k / 32)).append h1
    refine ⟨normal_trim hdig, ?_⟩
    show val (trimTop (List.replicate (k / 32) 0 ++ shlLimbs (k % 32) 0 b)) = _
    rw [val_trimTop hdig, val, ofDigits_replicate_append, ← val, h2, Nat.add_zero, ← two_pow_limbs k]
    ring

theorem shrLimbs_eq {bs : Nat} (hbs : bs < 32) (b : List Nat) (hb : IsDigits base b) :
    shrLimbs bs b = shiftDown (2 ^ bs) (2 ^ (32 - bs)) b := by
  have hpow : 2 ^ (32 - bs) * 2 ^ bs = base := by
    rw [← Nat.pow_add, Nat.sub_add_cancel hbs.le]
    rfl
  induction b with
  | nil => rfl
  | cons x b ih =>
    obtain ⟨hx, hb⟩ := hb.of_cons
    have hhi : (if bs ≠ 0 ∧ b ≠ [] then (b.getD 0 0 <<< (32 - bs)) &&& mask32 else 0) =
        2 ^ (32 - bs) * (b.getD 0 0 % 2 ^ bs) := by
      by_cases hcond : bs ≠ 0 ∧ b ≠ []
      · rw [if_pos hcond, and_mask32, Nat.shiftLeft_eq, ← hpow, Nat.mul_comm (b.getD 0 0),
          Nat.mul_mod_mul_left]
      · rw [if_neg hcond]
        rcases not_and_or.1 hcond with h | h
        · rw [not_not.1 h, Nat.pow_zero, Nat.mod_one, Nat.mul_zero]
        · rw [not_not.1 h]
          simp
    have hlow : x >>> bs < 2 ^ (32 - bs) := by
      rw [Nat.shiftRight_eq_div_pow]
      apply Nat.div_lt_of_lt_mul
      rwa [Nat.mul_comm, hpow]
    unfold shrLimbs shiftDown
    simp only [hhi]
    rw [ih hb, Nat.or_comm, or_eq_add rfl hlow, Nat.shiftRight_eq_div_pow, Nat.add_comm]
    congr 2
    cases b with
    | nil => simp [lowAbove]
    | cons y b => exact Nat.mul_comm _ _

theorem bnShr_spec (hb : Normal base b) (k : Nat) :
    Normal base (bnShr b k) ∧ val (bnShr b k) = val b / 2 ^ k := by
  have hbs : k % 32 < 32 := Nat.mod_lt k (by decide)
  unfold bnShr
  simp only []
  by_cases hws : k / 32 ≥ b.length
  · rw [if_pos hws]
    refine ⟨⟨IsDigits.nil base, fun h => absurd rfl h⟩, ?_⟩
    have hlt : val b < 2 ^ k := by
      calc val b < base ^ b.length := val_lt hb.digits
        _ ≤ base ^ (k / 32) := Nat.pow_le_pow_right base_pos hws
        _ ≤ base ^ (k / 32) * 2 ^ (k % 32) := Nat.le_mul_of_pos_right _ (Nat.pow_pos (by decide))
        _ = 2 ^ k := two_pow_limbs k
    rw [val_nil, Nat.div_eq_of_lt hlt]
  · rw [if_neg hws]
    have hdrop : IsDigits base (b.drop (k / 32)) :=
      fun d hd => hb.digits d (List.mem_of_mem_drop hd)
    have hpow : 2 ^ (k % 32) * 2 ^ (32 - k % 32) = base := by
      rw [← Nat.pow_add, Nat.add_sub_cancel' hbs.le]
      rfl
    obtain ⟨h1, h2⟩ := shiftDown_spec one_lt_base hpow hdrop
    rw [shrLimbs_eq hbs _ hdrop]
    refine ⟨normal_trim h1, ?_⟩
    rw [val_trimTop h1, val, h2, ofDigits_drop one_lt_base hb.digits, Nat.div_div_eq_div_mul,
      two_pow_limbs, ← val]

theorem bnCmp_spec {a : List Nat} (ha : Normal base a) (hb : Normal base b) :
    Compares (bnCmp a b) (val a) (val b) := by
  unfold bnCmp
  by_cases heq : a.length = b.length
  · rw [if_neg (not_not.2 heq)]
    have h := cmpFrom_spec one_lt_base ha.digits hb.digits a.length (Nat.le_refl _) heq.le
    rwa [List.take_length, List.take_of_length_le heq.ge] at h
  · rw [if_pos heq]
    by_cases hgt : a.length > b.length
    · rw [if_pos hgt]
      refine .inl ⟨rfl, Nat.lt_of_not_le fun hle => ?_⟩
      have := ha.length_le one_lt_base hb hle
      omega
    · rw [if_neg hgt]
      refine .inr (.inr ⟨rfl, Nat.lt_of_not_le fun hle => ?_⟩)
      have := hb.length_le one_lt_base ha hle
      omega

/-! ## Reading bits -/

theorem bitAt_eq (hq : IsDigits base q) (i : Nat) : bitAt q i = val q / 2 ^ i % 2 := by
  have hsplit : val q / 2 ^ i = val q / base ^ (i / 32) / 2 ^ (i % 32) := by
    rw [Nat.div_div_eq_div_mul, two_pow_limbs]
  unfold bitAt
  by_cases hi : i / 32 < q.length
  · have hlimb := getD_eq_digit one_lt_base hq (i / 32)
    have hpow : base = 2 ^ (i % 32) * 2 ^ (32 - i % 32) := by
      have hlt : i % 32 < 32 := Nat.mod_lt i (by decide)
      rw [← Nat.pow_add, Nat.add_sub_cancel' hlt.le]
      rfl
    have heven : 2 ^ (32 - i % 32) % 2 = 0 := by
      have hlt : i % 32 < 32 := Nat.mod_lt i (by decide)
      rw [show 32 - i % 32 = (31 - i % 32) + 1 by omega, Nat.pow_succ, Nat.mul_mod_left]
    rw [if_pos hi, hlimb, ← val, Nat.shiftRight_eq_div_pow, Nat.and_one_is_mod, hsplit]
    generalize val q / base ^ (i / 32) = w
    rw [hpow, Nat.mod_mul_right_div_self, Nat.mod_mod_of_dvd _ (Nat.dvd_of_mod_eq_zero heven)]
  · have hlt : val q < base ^ (i / 32) :=
      (val_lt hq).trans_le (Nat.pow_le_pow_right base_pos (Nat.le_of_not_lt hi))
    rw [if_neg hi, hsplit, Nat.div_eq_of_lt hlt, Nat.zero_div, Nat.zero_mod]

theorem limbsNz_iff (q : List Nat) : ∀ n, limbsNz q n = true ↔ val (q.take n) ≠ 0 := by
  induction q with
  | nil =>
    intro n
    cases n <;> simp [limbsNz]
  | cons x q ih =>
    intro n
    cases n with
    | zero => simp [limbsNz]
    | succ n =>
      have hB := base_pos
      rw [limbsNz, Bool.or_eq_true, ih n, List.take_succ_cons, val_cons, decide_eq_true_eq]
      constructor
      · rintro (h | h)
        · omega
        · have := Nat.mul_pos hB (Nat.pos_of_ne_zero h)
          omega
      · intro h
        by_contra hboth
        obtain ⟨h1, h2⟩ := not_or.1 hboth
        rw [not_not.1 h1, not_not.1 h2] at h
        exact h rfl

theorem lowNonzero_iff (hq : IsDigits base q) (n : Nat) :
    lowNonzero q n = true ↔ val q % 2 ^ n ≠ 0 := by
  have hpow := Nat.pow_pos (n := n / 32) base_pos
  have hsplit : val q % 2 ^ n =
      val q % base ^ (n / 32) + base ^ (n / 32) * (val q / base ^ (n / 32) % 2 ^ (n % 32)) := by
    rw [← two_pow_limbs n, Nat.mod_mul]
  have hlow : val (q.take (min (n / 32) q.length)) = val q % base ^ (n / 32) := by
    by_cases hws : n / 32 ≤ q.length
    · rw [Nat.min_eq_left hws, val, take_eq_lowDigits one_lt_base hq hws, ofDigits_lowDigits, ← val]
    · have hlt : val q < base ^ (n / 32) :=
        (val_lt hq).trans_le (Nat.pow_le_pow_right base_pos (by omega))
      rw [Nat.min_eq_right (by omega), List.take_length, Nat.mod_eq_of_lt hlt]
  have hhigh : (n / 32 < q.length ∧ (q.getD (n / 32) 0 &&& ((1 <<< (n % 32)) - 1)) ≠ 0) ↔
      val q / base ^ (n / 32) % 2 ^ (n % 32) ≠ 0 := by
    have hdvd : 2 ^ (n % 32) ∣ base := by
      have hlt : n % 32 < 32 := Nat.mod_lt n (by decide)
      exact Nat.pow_dvd_pow 2 hlt.le
    have hlimb : (q.getD (n / 32) 0 &&& ((1 <<< (n % 32)) - 1)) =
        val q / base ^ (n / 32) % 2 ^ (n % 32) := by
      rw [getD_eq_digit one_lt_base hq, ← val, Nat.one_shiftLeft, Nat.and_two_pow_sub_one_eq_mod,
        Nat.mod_mod_of_dvd _ hdvd]
    rw [hlimb]
    constructor
    · exact fun h => h.2
    · intro h
      refine ⟨Nat.lt_of_not_le fun hge => h ?_, h⟩
      have hlt : val q < base ^ (n / 32) :=
        (val_lt hq).trans_le (Nat.pow_le_pow_right base_pos hge)
      rw [Nat.div_eq_of_lt hlt, Nat.zero_mod]
  unfold lowNonzero
  simp only []
  by_cases hfirst : limbsNz q (min (n / 32) q.length) = true
  · rw [if_pos hfirst]
    have h := (limbsNz_iff q _).1 hfirst
    rw [hlow] at h
    exact iff_of_true rfl (by omega)
  · rw [if_neg hfirst, decide_eq_true_eq, hhigh, hsplit]
    have h := mt (limbsNz_iff q _).2 hfirst
    rw [hlow, not_not] at h
    rw [h, Nat.zero_add]
    constructor
    · intro hne hzero
      rcases Nat.mul_eq_zero.1 hzero with h0 | h0
      · omega
      · exact hne h0
    · intro hne hzero
      rw [hzero, Nat.mul_zero] at hne
      exact hne rfl

/-- The low word of a number below `2^64`. -/
theorem low_word {t : List Nat} (ht : IsDigits base t) (hlt : val t < 2 ^ 64) :
    bnW t 0 ||| (bnW t 1 <<< 32) = val t := by
  have hbase : base ^ 2 = 2 ^ 64 := rfl
  have hmod : val t % base < base := Nat.mod_lt _ base_pos
  have hhigh : val t / base % base = val t / base := by
    apply Nat.mod_eq_of_lt
    apply Nat.div_lt_of_lt_mul
    rwa [← hbase, pow_two] at hlt
  unfold bnW
  rw [getD_eq_digit one_lt_base ht, getD_eq_digit one_lt_base ht, ← val, Nat.pow_zero, Nat.div_one,
    Nat.pow_one, hhigh, Nat.shiftLeft_eq, Nat.mul_comm, Nat.or_comm, ← base_eq,
    or_eq_add base_eq hmod, Nat.div_add_mod]

theorem topBits_down (hq : Normal base q) {drop : Int} (hpos : 0 < drop)
    (hlt : val q / 2 ^ drop.toNat < 2 ^ 64) : topBits q drop = val q / 2 ^ drop.toNat := by
  obtain ⟨h1, h2⟩ := bnShr_spec hq drop.toNat
  unfold topBits
  simp only [if_pos hpos]
  rw [low_word h1.digits (by rwa [h2]), h2]

theorem topBits_up (hq : Normal base q) {drop : Int} (hneg : drop ≤ 0)
    (hlt : val q * 2 ^ (-drop).toNat < 2 ^ 64) : topBits q drop = val q * 2 ^ (-drop).toNat := by
  obtain ⟨h1, h2⟩ := bnShl_spec hq (-drop).toNat
  unfold topBits
  simp only [if_neg (not_lt.2 hneg)]
  rw [low_word h1.digits (by rwa [h2]), h2]

end FloatText

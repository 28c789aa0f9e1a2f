import Resid.FloatText.Big

/-!
# Dividing big integers

A divisor of one limb takes the short division.  Longer ones are shifted until the top bit
of the divisor is set, and each step guesses a quotient limb from the leading limbs, lowers
the guess, subtracts guess times divisor and adds the divisor back once where that went
below zero.

    W / V ≤ qhatAdjust … ≤ W / V + 1                                 (qhatAdjust_spec)
    one step divides its window by the divisor                       (knuthStep_spec)
    val (bnDivmod n d).1 = val n / val d, the flag: a remainder      (bnDivmod_spec)

## Algorithm

A step works on the limbs of the dividend from its index up.
-/

namespace FloatText

open Positional

/-- Lowers the guess; a guess of zero passes the test. -/
def qhatAdjust (vt vs u2 : Nat) : Nat → Nat → Nat
  | 0, _ => 0
  | qh + 1, rh =>
    let big := qh + 1 ≥ base ∨ (rh < base ∧ (qh + 1) * vs > ((rh <<< 32) ||| u2))
    if ¬ big then qh + 1 else qhatAdjust vt vs u2 qh (rh + vt)

/-- `u - qh * v`, limb by limb, and the borrow into the limb above. -/
def mulsub (qh : Nat) : List Nat → List Nat → Nat → Nat → List Nat × Nat
  | x :: u, y :: v, carry, br =>
    let p := qh * y + carry
    let t : Int := x - (p &&& mask32 : Nat) - br
    let rest := mulsub qh u v (p >>> 32) (if t < 0 then 1 else 0)
    ((t % base).toNat :: rest.1, rest.2)
  | _, _, carry, br => ([], carry + br)

/-- `u + v`, limb by limb, and the carry. -/
def addback : List Nat → List Nat → Nat → List Nat × Nat
  | x :: u, y :: v, c =>
    let t := x + y + c
    let rest := addback u v (t >>> 32)
    ((t &&& mask32) :: rest.1, rest.2)
  | _, _, c => ([], c)

/-- The quotient limb, and what the step leaves of the limbs `u`. -/
def knuthStep (v : List Nat) (n vt vs : Nat) (u : List Nat) : Nat × List Nat :=
  let num := (u.getD n 0 <<< 32) ||| u.getD (n - 1) 0
  let qh0 := num / vt
  let rh0 := num - qh0 * vt
  let qh := qhatAdjust vt vs (u.getD (n - 2) 0) qh0 rh0
  let br := mulsub qh u v 0 0
  let top : Int := u.getD n 0 - br.2
  let x := (top % base).toNat
  let neg := top < 0
  let back := addback br.1 v 0
  let low := if neg then back.1 ++ [(x + back.2) &&& mask32] else br.1 ++ [x]
  (if neg then qh - 1 else qh, low ++ u.drop (n + 1))

/-- The steps from index `j - 1` down. -/
def knuthSteps (v : List Nat) (n vt vs : Nat) : Nat → List Nat → List Nat × List Nat :=
  longSteps (knuthStep v n vt vs)

/-- The quotient, and whether there is a remainder. -/
def bnDivmod (n d : List Nat) : List Nat × Bool :=
  let dn := d.length
  if dn = 1 then
    let r := bnDivsmall n (d.getD 0 0)
    (r.1, decide (r.2 ≠ 0))
  else if bnCmp n d < 0 then ([], decide (n ≠ []))
  else
    let sh := 32 - bitlen (d.getD (dn - 1) 0)
    let dd := bnShl d sh
    let ns := bnShl n sh
    let m := ns.length - dn
    let r := knuthSteps dd dn (dd.getD (dn - 1) 0) (dd.getD (dn - 2) 0) (m + 1) (ns ++ [0])
    (trimTop r.1, limbsNz r.2 dn)

/-! ## Lowering the guess -/

section Guess

open QuotientDigit

variable {p V W : Nat} (hp : 0 < p) (htop : 0 < V / (p * base)) (hW : W < V * base)

include hp htop hW

/-- The lowered guess is the true limb or one more, and fits a limb. -/
theorem qhatAdjust_spec (guess : Nat) : ∀ rest,
    guess * (V / (p * base)) + rest = W / (p * base) → W / V ≤ guess →
    W / V ≤ qhatAdjust (V / (p * base)) (V / p % base) (W / p % base) guess rest ∧
      qhatAdjust (V / (p * base)) (V / p % base) (W / p % base) guess rest ≤ W / V + 1 ∧
      qhatAdjust (V / (p * base)) (V / p % base) (W / p % base) guess rest < base := by
  have hu2 := Nat.mod_lt (W / p) base_pos
  induction guess with
  | zero =>
    intro rest _ hge
    exact ⟨hge, Nat.zero_le _, base_pos⟩
  | succ q ih =>
    intro rest hguess hge
    have hword : ((rest <<< 32) ||| W / p % base) = rest * base + W / p % base := by
      rw [Nat.shiftLeft_eq, Nat.mul_comm, ← base_eq, or_eq_add base_eq hu2, Nat.mul_comm]
    unfold qhatAdjust
    simp only [hword]
    by_cases hbig : q + 1 ≥ base ∨
        (rest < base ∧ (q + 1) * (V / p % base) > rest * base + W / p % base)
    · rw [if_neg (not_not.2 hbig)]
      have hge' : W / V ≤ q := by
        rcases hbig with h | ⟨-, h⟩
        · have := quot_lt_base hW
          omega
        · have := quot_lt_of_test hp htop hguess h
          omega
      have hguess' : q * (V / (p * base)) + (rest + V / (p * base)) = W / (p * base) := by
        rw [← hguess]
        ring
      exact ih _ hguess' hge'
    · rw [if_pos hbig]
      obtain ⟨hlt, htest⟩ := not_or.1 hbig
      have hpass : base ≤ rest ∨ (q + 1) * (V / p % base) ≤ rest * base + W / p % base := by
        rcases Nat.lt_or_ge rest base with h | h
        · exact .inr (not_lt.1 fun hgt => htest ⟨h, hgt⟩)
        · exact .inl h
      have hq : q + 1 < base := not_le.1 hlt
      exact ⟨hge, le_quot_succ_of_passed hp base_pos htop hq.le hguess hpass, hq⟩

end Guess

/-! ## Multiply and subtract, add back -/

/-- A difference kept in a limb, with its borrow. -/
theorem sub_limb {x y br : Nat} (hx : x < base) (hy : y < base) (hbr : br ≤ 1) {t : Int}
    (ht : t = (x : Int) - y - br) : (t % base).toNat < base ∧ (if t < 0 then 1 else 0 : Nat) ≤ 1 ∧
      x + base * (if t < 0 then 1 else 0) = (t % base).toNat + y + br := by
  have hbase : ((base : Nat) : Int) = 4294967296 := rfl
  have hnat : base = 4294967296 := rfl
  rw [hbase]
  split_ifs with h <;> omega

theorem mulsub_spec {qh : Nat} (hq : qh < base) (u : List Nat) : ∀ (v : List Nat) (carry br : Nat),
    IsDigits base u → IsDigits base v → v.length ≤ u.length → carry < base → br ≤ 1 →
    IsDigits base (mulsub qh u v carry br).1 ∧ (mulsub qh u v carry br).1.length = v.length ∧
      (mulsub qh u v carry br).2 ≤ base ∧
      val (u.take v.length) + base ^ v.length * (mulsub qh u v carry br).2 =
        val (mulsub qh u v carry br).1 + qh * val v + carry + br := by
  induction u with
  | nil =>
    intro v carry br _ _ hlen hc hbr
    have hnil : v = [] := List.eq_nil_of_length_eq_zero (Nat.le_zero.1 hlen)
    subst hnil
    refine ⟨IsDigits.nil base, rfl, ?_, ?_⟩
    · show carry + br ≤ base
      omega
    · simp [mulsub]
  | cons x u ih =>
    intro v carry br hu hv hlen hc hbr
    cases v with
    | nil =>
      refine ⟨IsDigits.nil base, rfl, ?_, ?_⟩
      · show carry + br ≤ base
        omega
      · simp [mulsub]
    | cons y v =>
      obtain ⟨hx, hu⟩ := hu.of_cons
      obtain ⟨hy, hv⟩ := hv.of_cons
      have hquot : (qh * y + carry) / base < base := by
        apply Nat.div_lt_of_lt_mul
        calc qh * y + carry < qh * y + base := Nat.add_lt_add_left hc _
          _ ≤ (base - 1) * base + base :=
            Nat.add_le_add_right (Nat.mul_le_mul (Nat.le_sub_one_of_lt hq) hy.le) _
          _ = base * base := by decide
      have hlow := Nat.mod_lt (qh * y + carry) base_pos
      have hdm := Nat.mod_add_div (qh * y + carry) base
      obtain ⟨h1, h2, h3⟩ := sub_limb hx hlow hbr rfl
      unfold mulsub
      simp only [and_mask32, shiftRight_limb]
      generalize (x : Int) - ((qh * y + carry) % base : Nat) - br = t at h1 h2 h3 ⊢
      obtain ⟨i1, i2, i3, i4⟩ := ih v ((qh * y + carry) / base) (if t < 0 then 1 else 0) hu hv
        (by simpa using hlen) hquot h2
      generalize (if t < 0 then 1 else 0 : Nat) = b at h2 h3 i1 i2 i3 i4 ⊢
      generalize mulsub qh u v ((qh * y + carry) / base) b = r at i1 i2 i3 i4 ⊢
      refine ⟨IsDigits.cons h1 i1, congrArg (· + 1) i2, i3, ?_⟩
      rw [List.length_cons, List.take_succ_cons, val_cons, val_cons, val_cons, pow_succ]
      calc x + base * val (u.take v.length) + base ^ v.length * base * r.2
          = x + base * (val (u.take v.length) + base ^ v.length * r.2) := by ring
        _ = x + base * b + base * (val r.1 + qh * val v) + base * ((qh * y + carry) / base) := by
          rw [i4]
          ring
        _ = (t % base).toNat + ((qh * y + carry) % base + base * ((qh * y + carry) / base)) + br +
            base * (val r.1 + qh * val v) := by
          rw [h3]
          ring
        _ = (t % base).toNat + base * val r.1 + qh * (y + base * val v) + carry + br := by
          rw [hdm]
          ring

theorem addback_spec (u : List Nat) : ∀ (v : List Nat) (c : Nat), IsDigits base u →
    IsDigits base v → v.length = u.length → c ≤ 1 →
    IsDigits base (addback u v c).1 ∧ (addback u v c).1.length = v.length ∧
      val (addback u v c).1 + base ^ v.length * (addback u v c).2 = val u + val v + c := by
  induction u with
  | nil =>
    intro v c _ _ hlen _
    have hnil : v = [] := List.eq_nil_of_length_eq_zero hlen
    subst hnil
    exact ⟨IsDigits.nil base, rfl, by simp [addback]⟩
  | cons x u ih =>
    intro v c hu hv hlen hc
    cases v with
    | nil => exact absurd hlen (by simp)
    | cons y v =>
      obtain ⟨hx, hu⟩ := hu.of_cons
      obtain ⟨hy, hv⟩ := hv.of_cons
      have hcarry : (x + y + c) / base ≤ 1 := by
        apply Nat.le_of_lt_succ
        apply Nat.div_lt_of_lt_mul
        omega
      obtain ⟨h1, h2, h3⟩ := ih v ((x + y + c) / base) hu hv (by simpa using hlen) hcarry
      have hdm := Nat.mod_add_div (x + y + c) base
      unfold addback
      simp only [and_mask32, shiftRight_limb]
      refine ⟨IsDigits.cons (Nat.mod_lt _ base_pos) h1, congrArg (· + 1) h2, ?_⟩
      rw [List.length_cons, val_cons, val_cons, val_cons, pow_succ]
      calc (x + y + c) % base + base * val (addback u v ((x + y + c) / base)).1 +
            base ^ v.length * base * (addback u v ((x + y + c) / base)).2
          = (x + y + c) % base + base * (val (addback u v ((x + y + c) / base)).1 +
            base ^ v.length * (addback u v ((x + y + c) / base)).2) := by ring
        _ = (x + y + c) % base + base * ((x + y + c) / base) + base * (val u + val v) := by
          rw [h3]
          ring
        _ = x + base * val u + (y + base * val v) + c := by
          rw [hdm]
          ring

/-! ## One step -/

theorem knuthStep_spec {u v : List Nat} {m : Nat} (hu : IsDigits base u) (hv : IsDigits base v)
    (hn : v.length = m + 2) (htop : v.getD (m + 1) 0 ≠ 0) (hlen : m + 3 ≤ u.length)
    (hlt : val u < val v * base) :
    IsStep base (val v) u (knuthStep v (m + 2) (v.getD (m + 1) 0) (v.getD m 0) u) := by
  have hpow : base ^ m * base = base ^ (m + 1) := (pow_succ _ _).symm
  have hV : val v < base ^ (m + 2) := hn ▸ val_lt hv
  have hp : 0 < base ^ m := Nat.pow_pos base_pos
  -- the limbs the step reads are the leading limbs of the two numbers
  have hvt : v.getD (m + 1) 0 = val v / (base ^ m * base) := by
    rw [hpow]
    exact getD_top one_lt_base hv hV
  have hvs : v.getD m 0 = val v / base ^ m % base := getD_eq_digit one_lt_base hv m
  have hu2 : u.getD m 0 = val u / base ^ m % base := getD_eq_digit one_lt_base hu m
  have htop' : 0 < val v / (base ^ m * base) := by
    rw [← hvt]
    exact Nat.pos_of_ne_zero htop
  have hwindow : IsWindow base (val v) (m + 2) u :=
    ⟨hu, hlen, QuotientDigit.pos_of_top htop', hV, hlt⟩
  have hnum : ((u.getD (m + 2) 0 <<< 32) ||| u.getD (m + 1) 0) = val u / (base ^ m * base) := by
    rw [Nat.shiftLeft_eq, Nat.mul_comm, ← base_eq, or_eq_add base_eq (hu.getD_lt base_pos _),
      Nat.mul_comm, hpow]
    exact two_limbs one_lt_base hu hwindow.lt
  have hge := QuotientDigit.quot_le_guess (W := val u) hp base_pos htop'
  have hguess := Nat.div_add_mod' (val u / (base ^ m * base)) (val v / (base ^ m * base))
  have hrest : val u / (base ^ m * base) - val u / (base ^ m * base) / (val v / (base ^ m * base)) *
      (val v / (base ^ m * base)) = val u / (base ^ m * base) % (val v / (base ^ m * base)) := by omega
  obtain ⟨hq1, hq2, hq3⟩ := qhatAdjust_spec hp htop' hlt _ _ hguess hge
  unfold knuthStep
  simp only [show m + 2 - 1 = m + 1 by omega, show m + 2 - 2 = m by omega, hnum, hvt, hvs, hu2, hrest]
  generalize qhatAdjust (val v / (base ^ m * base)) (val v / base ^ m % base)
    (val u / base ^ m % base) (val u / (base ^ m * base) / (val v / (base ^ m * base)))
    (val u / (base ^ m * base) % (val v / (base ^ m * base))) = qh at hq1 hq2 hq3 ⊢
  -- guess times divisor off the window
  obtain ⟨s1, s2, s3, s4⟩ := mulsub_spec hq3 u v 0 0 hu hv (by omega) base_pos (Nat.zero_le 1)
  generalize mulsub qh u v 0 0 = s at s1 s2 s3 s4 ⊢
  rw [hn] at s2 s4
  obtain ⟨b1, b2, b3⟩ := addback_spec s.1 v 0 s1 hv (by omega) (Nat.zero_le 1)
  generalize addback s.1 v 0 = t at b1 b2 b3 ⊢
  rw [hn] at b2 b3
  have hx := hu.getD_lt base_pos (m + 2)
  have hsplit : val u = val (u.take (m + 2)) + base ^ (m + 2) * u.getD (m + 2) 0 := by
    have h := ofDigits_take_succ (b := base) u (show m + 2 < u.length by omega)
    rwa [ofDigits_take_of_lt one_lt_base hu hlen hwindow.lt] at h
  generalize u.getD (m + 2) 0 = x at hx hsplit ⊢
  have hbase : ((base : Nat) : Int) = 4294967296 := rfl
  have hnat : base = 4294967296 := rfl
  by_cases hneg : (x : Int) - s.2 < 0
  · -- the guess was one too big
    obtain ⟨y, hy, hyx, hylt⟩ : ∃ y : Nat, (((x : Int) - s.2) % base).toNat = y ∧
        x + base = y + s.2 ∧ y < base := by
      refine ⟨_, rfl, ?_, ?_⟩ <;> rw [hbase] <;> omega
    have hexact : val u + base ^ (m + 3) = val s.1 + base ^ (m + 2) * y + qh * val v := by
      calc val u + base ^ (m + 3)
          = val (u.take (m + 2)) + base ^ (m + 2) * (x + base) := by
            rw [hsplit]
            ring
        _ = val (u.take (m + 2)) + base ^ (m + 2) * s.2 + base ^ (m + 2) * y := by
            rw [hyx]
            ring
        _ = val s.1 + base ^ (m + 2) * y + qh * val v := by
            rw [s4]
            ring
    simp only [if_pos hneg, hy, and_mask32, List.append_assoc, List.singleton_append]
    exact IsStep.of_borrow one_lt_base hwindow s1 s2 hylt hq1 hq3 hq2 hexact b1 b2 b3
  · obtain ⟨y, hy, hyx, hylt⟩ : ∃ y : Nat, (((x : Int) - s.2) % base).toNat = y ∧
        x = y + s.2 ∧ y < base := by
      refine ⟨_, rfl, ?_, ?_⟩ <;> rw [hbase] <;> omega
    have hexact : val u = val s.1 + base ^ (m + 2) * y + qh * val v := by
      calc val u = val (u.take (m + 2)) + base ^ (m + 2) * s.2 + base ^ (m + 2) * y := by
            rw [hsplit, hyx]
            ring
        _ = val s.1 + base ^ (m + 2) * y + qh * val v := by
            rw [s4]
            ring
    simp only [if_neg hneg, hy, List.append_assoc, List.singleton_append]
    exact IsStep.of_exact one_lt_base hwindow s1 s2 hylt hq1 hq3 hexact

/-! ## The whole division -/

/-- The steps divide where the top limb of the divisor is its last. -/
theorem knuthSteps_spec {v : List Nat} {n : Nat} (hv : Normal base v) (hn : v.length = n)
    (htwo : 2 ≤ n) {u : List Nat} (hu : IsDigits base u) {j : Nat} (hj : n + j = u.length)
    (hlt : val u < val v * base ^ j) :
    IsDigits base (knuthSteps v n (v.getD (n - 1) 0) (v.getD (n - 2) 0) j u).1 ∧
      IsDigits base (knuthSteps v n (v.getD (n - 1) 0) (v.getD (n - 2) 0) j u).2 ∧
      (knuthSteps v n (v.getD (n - 1) 0) (v.getD (n - 2) 0) j u).2.length = u.length ∧
      val (knuthSteps v n (v.getD (n - 1) 0) (v.getD (n - 2) 0) j u).1 = val u / val v ∧
      val (knuthSteps v n (v.getD (n - 1) 0) (v.getD (n - 2) 0) j u).2 = val u % val v := by
  obtain ⟨m, rfl⟩ : ∃ m, n = m + 2 := ⟨n - 2, by omega⟩
  have htop := hv.getD_top_ne (show v.length = m + 1 + 1 from hn)
  have hstep : DividesBy base (val v) (m + 3)
      (knuthStep v (m + 2) (v.getD (m + 1) 0) (v.getD m 0)) := by
    intro w hw hlw hltw
    exact knuthStep_spec hw hv.digits hn htop hlw hltw
  obtain ⟨h1, -, h2, h3, h4, h5⟩ := longSteps_spec one_lt_base hstep j u hu (by omega) (by omega) hlt
  show IsDigits base (longSteps (knuthStep v (m + 2) (v.getD (m + 1) 0) (v.getD m 0)) j u).1 ∧ _
  unfold knuthSteps
  simp only [show m + 2 - 1 = m + 1 by omega, show m + 2 - 2 = m by omega]
  generalize longSteps (knuthStep v (m + 2) (v.getD (m + 1) 0) (v.getD m 0)) j u = r
    at h1 h2 h3 h4 h5 ⊢
  have hval : val u = val r.1 * val v + val r.2 := h4
  have hpos : 0 < val v := Nat.lt_of_le_of_lt (Nat.zero_le _) h5
  have hlow : val r.2 < val v := h5
  refine ⟨h1, h2, h3, ?_, ?_⟩
  · rw [hval, Nat.add_comm, Nat.add_mul_div_right _ _ hpos, Nat.div_eq_of_lt hlow, Nat.zero_add]
  · rw [hval, Nat.add_comm, Nat.add_mul_mod_self_right, Nat.mod_eq_of_lt hlow]

/-- Shifting the top limb to the top of its limb keeps the number of limbs. -/
theorem normalized_spec {d : List Nat} (hd : Normal base d) {n : Nat} (hn : d.length = n + 1) :
    Normal base (bnShl d (32 - bitlen (d.getD n 0))) ∧
      (bnShl d (32 - bitlen (d.getD n 0))).length = n + 1 ∧
      val (bnShl d (32 - bitlen (d.getD n 0))) = val d * 2 ^ (32 - bitlen (d.getD n 0)) := by
  have hVlt : val d < base ^ (n + 1) := hn ▸ val_lt hd.digits
  have hlimb := hd.digits.getD_lt base_pos n
  have htop : d.getD n 0 = val d / base ^ n := getD_top one_lt_base hd.digits hVlt
  have hlen : bitlen (d.getD n 0) = (d.getD n 0).size := bitlen_eq (hlimb.trans (by decide))
  have hsize : (d.getD n 0).size ≤ 32 := Nat.size_le.2 hlimb
  have hroom := Nat.lt_size_self (d.getD n 0)
  rw [hlen]
  generalize hk : 32 - (d.getD n 0).size = k
  obtain ⟨h1, h2⟩ := bnShl_spec hd k
  have hlow := hd.pow_le hn
  have hlt : val d * 2 ^ k < base ^ (n + 1) := by
    have hdlt : val d < (d.getD n 0 + 1) * base ^ n := by
      rw [htop, ← Nat.div_lt_iff_lt_mul (Nat.pow_pos base_pos)]
      exact Nat.lt_succ_self _
    calc val d * 2 ^ k < (d.getD n 0 + 1) * base ^ n * 2 ^ k :=
          Nat.mul_lt_mul_of_pos_right hdlt (Nat.pow_pos (by decide))
      _ ≤ 2 ^ (d.getD n 0).size * base ^ n * 2 ^ k :=
          Nat.mul_le_mul_right _ (Nat.mul_le_mul_right _ hroom)
      _ = 2 ^ ((d.getD n 0).size + k) * base ^ n := by
          rw [Nat.pow_add]
          ring
      _ = base ^ (n + 1) := by
          rw [← hk, Nat.add_sub_cancel' hsize, ← base_eq, pow_succ']
  refine ⟨h1, h1.length_eq one_lt_base ?_ ?_, h2⟩
  · show base ^ n ≤ val (bnShl d k)
    rw [h2]
    exact hlow.trans (Nat.le_mul_of_pos_right _ (Nat.pow_pos (by decide)))
  · show val (bnShl d k) < base ^ (n + 1)
    rwa [h2]

/-- The division of two big integers. -/
theorem bnDivmod_spec {n d : List Nat} (hn : Normal base n) (hd : Normal base d) (hpos : 0 < val d) :
    Normal base (bnDivmod n d).1 ∧ val (bnDivmod n d).1 = val n / val d ∧
      ((bnDivmod n d).2 = true ↔ val n % val d ≠ 0) := by
  have hne : d ≠ [] := fun h => by rw [h] at hpos; exact absurd hpos (by decide)
  obtain ⟨k, hk⟩ : ∃ k, d.length = k + 1 := ⟨d.length - 1, by
    have := List.length_pos_iff.2 hne
    omega⟩
  unfold bnDivmod
  by_cases hone : d.length = 1
  · have hval : val d = d.getD 0 0 := by
      match d, hone with
      | [x], _ => simp
    obtain ⟨h1, h2, h3⟩ := bnDivsmall_spec hn.digits (hval ▸ hpos)
    simp only [if_pos hone]
    rw [h2, h3, hval, decide_eq_true_eq]
    exact ⟨h1, rfl, Iff.rfl⟩
  · simp only [if_neg hone]
    have hcmp := (bnCmp_spec hn hd).neg_iff
    by_cases hlt : bnCmp n d < 0
    · have hsmall := hcmp.1 hlt
      rw [if_pos hlt, val_nil, Nat.div_eq_of_lt hsmall, Nat.mod_eq_of_lt hsmall, decide_eq_true_eq]
      refine ⟨⟨IsDigits.nil base, fun h => absurd rfl h⟩, rfl, ?_⟩
      exact not_congr (hn.eq_zero_iff one_lt_base).symm
    · rw [if_neg hlt]
      have hge : val d ≤ val n := not_lt.1 (mt hcmp.2 hlt)
      obtain ⟨h1, h2, h3⟩ := normalized_spec hd hk
      rw [hk, Nat.add_sub_cancel]
      generalize 32 - bitlen (d.getD k 0) = sh at h1 h2 h3 ⊢
      obtain ⟨g1, g2⟩ := bnShl_spec hn sh
      generalize bnShl d sh = dd at h1 h2 h3 ⊢
      generalize bnShl n sh = ns at g1 g2 ⊢
      have hle : dd.length ≤ ns.length := by
        apply h1.length_le one_lt_base g1
        show val dd ≤ val ns
        rw [h3, g2]
        exact Nat.mul_le_mul_right _ hge
      have hbound : val (ns ++ [0]) < val dd * base ^ (ns.length - (k + 1) + 1) := by
        rw [val_append, val_cons, val_nil, Nat.mul_zero, Nat.add_zero, Nat.mul_zero, Nat.add_zero]
        calc val ns < base ^ ns.length := val_lt g1.digits
          _ = base ^ k * base ^ (ns.length - (k + 1) + 1) := by
            rw [← pow_add]
            congr 1
            omega
          _ ≤ val dd * base ^ (ns.length - (k + 1) + 1) := Nat.mul_le_mul_right _ (h1.pow_le h2)
      have hlen : k + 1 + (ns.length - (k + 1) + 1) = (ns ++ [0]).length := by
        rw [List.length_append, List.length_singleton]
        omega
      obtain ⟨r1, r2, r3, r4, r5⟩ := knuthSteps_spec h1 h2 (by omega)
        (g1.digits.append (IsDigits.singleton base_pos)) hlen hbound
      simp only [Nat.add_sub_cancel] at r1 r2 r3 r4 r5
      generalize knuthSteps dd (k + 1) (dd.getD k 0) (dd.getD (k + 1 - 2) 0)
        (ns.length - (k + 1) + 1) (ns ++ [0]) = r at r1 r2 r3 r4 r5 ⊢
      have hns : val (ns ++ [0]) = val n * 2 ^ sh := by
        rw [val_append, val_cons, val_nil, Nat.mul_zero, Nat.add_zero, Nat.mul_zero, Nat.add_zero, g2]
      have hsh : 0 < 2 ^ sh := Nat.pow_pos (by decide)
      rw [hns, h3] at r4 r5
      rw [Nat.mul_div_mul_right _ _ hsh] at r4
      rw [Nat.mul_mod_mul_right] at r5
      refine ⟨normal_trim r1, by rw [val_trimTop r1, r4], ?_⟩
      -- the remainder fits the limbs of the divisor
      have hrest : val (r.2.take (k + 1)) = val r.2 := by
        apply ofDigits_take_of_lt one_lt_base r2
        · rw [r3, List.length_append]
          omega
        · show val r.2 < base ^ (k + 1)
          have hdd : val dd < base ^ (k + 1) := h2 ▸ val_lt h1.digits
          rw [r5]
          rw [h3] at hdd
          exact (Nat.mul_lt_mul_of_pos_right (Nat.mod_lt _ hpos) hsh).trans hdd
      rw [limbsNz_iff, hrest, r5]
      constructor
      · intro h hzero
        rw [hzero, Nat.zero_mul] at h
        exact h rfl
      · intro h hzero
        rcases Nat.mul_eq_zero.1 hzero with h0 | h0
        · exact h h0
        · omega

end FloatText

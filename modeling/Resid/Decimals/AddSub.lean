import Resid.Decimals.Value

/-!
# Sums and differences of decimals

Two operands are aligned to the lower exponent, added or subtracted limb by limb, and the
exact result is rounded once.  An operand two or more places below the other's guard digit
is left out.

    |y| < 10 ^ (m - p - 1), x of p digits from 10 ^ m →
      roundAway 10 p (x + y) = x                                     (roundAway_far)
    Rounds p ((sa * val pa + sb * val pb) * 10 ^ e) (addsubN …)      (addsubN_rounds)
    Rounds (max N M) (a ± b) (addsub a b negb (max N M))             (addsub_rounds)
-/

namespace Decimals

open FixedWidth Positional RoundAway Runtime

/-! ## Algorithm -/

def addsubN (sa sb : Int) (pa pb : List Nat) (e : Int) (prec : Nat) : Except String Block := do
  let cap := max pa.length pb.length + 1
  if sa = sb then
    dalloc cap
    let r := if pa.length ≥ pb.length then addN pa pb else addN pb pa
    finish sa r e prec
  else
    let c := cmpN pa pb
    if c = 0 then pure (dzero prec)
    else
      dalloc cap
      if c > 0 then finish sa (subN pa pb) e prec
      else finish sb (subN pb pa) e prec

/-- The coefficient at a lower exponent. -/
def align (l : List Nat) (exp e : Int) : List Nat :=
  if exp > e then scale l (exp - e).toNat else l

/-- `a + (negb ? -b : b)`, rounded once to `prec`. -/
def addsub (a b : Block) (negb : Bool) (prec : Nat) : Except String Block :=
  let sb := if negb then -b.sign else b.sign
  if a.sign = 0 then roundV b prec negb
  else if b.sign = 0 then roundV a prec false
  else
    let mxa := a.exp + a.nd - 1
    let mxb := b.exp + b.nd - 1
    -- an operand two or more places below the other's guard digit cannot change the result
    if mxb ≤ mxa - prec - 2 then roundV a prec false
    else if mxa ≤ mxb - prec - 2 then roundV b prec negb
    else
      let e := min a.exp b.exp
      addsubN a.sign sb (align a.limbs a.exp e) (align b.limbs b.exp e) e prec

/-! ## Aligned operands -/

variable {l : List Nat} {e exp : Int} {v : Block} {p : Nat}

theorem align_spec (hl : Normal bb l) (hle : e ≤ exp) :
    Normal bb (align l exp e) ∧ val (align l exp e) = val l * 10 ^ (exp - e).toNat := by
  unfold align
  by_cases hgt : exp > e
  · rw [if_pos hgt]
    exact scale_spec hl.digits _
  · rw [if_neg hgt, show (exp - e).toNat = 0 by omega, Nat.pow_zero, Nat.mul_one]
    exact ⟨hl, rfl⟩

theorem align_value (hl : Normal bb l) (hle : e ≤ exp) :
    (val (align l exp e) : ℚ) * 10 ^ e = val l * 10 ^ exp := by
  have hsplit : exp = ((exp - e).toNat : ℤ) + e := by omega
  rw [(align_spec hl hle).2]
  conv_rhs => rw [hsplit, zpow_add₀ ten_ne_zero', zpow_natCast]
  push_cast
  ring

/-- Aligning adds no more limbs than places. -/
theorem align_length (hl : Normal bb l) (hle : e ≤ exp) (hc : val l ≠ 0) :
    ((align l exp e).length : Int) ≤ ndig l + (exp - e) := by
  obtain ⟨hnorm, hval⟩ := align_spec hl hle
  have hlen := length_le_ndig hnorm
  rw [ndig_eq hnorm, hval, ndig_mul_pow _ hc, ← ndig_eq hl] at hlen
  omega

/-- The sum or difference of aligned coefficients is rounded once. -/
theorem addsubN_rounds {pa pb : List Nat} (ha : Normal bb pa) (hb : Normal bb pb)
    (hla : pa.length < 1099511627776) (hlb : pb.length < 1099511627776) {sa sb : Int}
    (hsa : sa = 1 ∨ sa = -1) (hsb : sb = 1 ∨ sb = -1) (e : Int) (p : Prec) :
    Rounds p.val ((sa * val pa + sb * val pb) * 10 ^ e) (addsubN sa sb pa pb e p.val) := by
  have hcap : dalloc (max pa.length pb.length + 1) = .ok () := dalloc_of_le (by omega)
  unfold addsubN
  by_cases hs : sa = sb
  · have hsum : IsDigits bb (if pa.length ≥ pb.length then addN pa pb else addN pb pa) ∧
        val (if pa.length ≥ pb.length then addN pa pb else addN pb pa) = val pa + val pb := by
      by_cases hlen : pa.length ≥ pb.length
      · obtain ⟨h1, -, h3⟩ := addN_spec ha.digits hb.digits hlen
        rw [if_pos hlen]
        exact ⟨h1, h3⟩
      · obtain ⟨h1, -, h3⟩ := addN_spec hb.digits ha.digits (by omega)
        rw [if_neg hlen, Nat.add_comm]
        exact ⟨h1, h3⟩
    have hfin := finish_val_rounds hsum.1 hsa e p
    rw [hsum.2] at hfin
    have hvalue : ((sa : ℚ) * val pa + sb * val pb) = sa * ((val pa + val pb : ℕ) : ℚ) := by
      rw [← hs]
      push_cast
      ring
    rw [if_pos hs, hcap, hvalue]
    exact hfin
  · -- opposite signs: the larger magnitude gives the sign
    have hopp : sb = -sa := by omega
    have hvalue : ((sa : ℚ) * val pa + sb * val pb) = sa * ((val pa : ℚ) - val pb) := by
      rw [hopp]
      push_cast
      ring
    rw [if_neg hs, hvalue]
    rcases cmpN_spec ha.digits hb.digits with ⟨hc, hlt⟩ | ⟨hc, heq⟩ | ⟨hc, hlt⟩
    · obtain ⟨h1, -, h3⟩ := subN_spec ha.digits hb.digits (hb.length_le one_lt_bb ha hlt.le) hlt.le
      have hfin := finish_val_rounds h1 hsa e p
      rw [h3, Nat.cast_sub hlt.le] at hfin
      rw [hc, if_neg (by decide), hcap]
      exact hfin
    · rw [hc, if_pos rfl, heq, sub_self, mul_zero, zero_mul]
      exact rounds_dzero p
    · obtain ⟨h1, -, h3⟩ := subN_spec hb.digits ha.digits (ha.length_le one_lt_bb hb hlt.le) hlt.le
      have hfin := finish_val_rounds h1 hsb e p
      have hflip : (sa : ℚ) * ((val pa : ℚ) - val pb) = sb * ((val pb : ℚ) - val pa) := by
        rw [hopp]
        push_cast
        ring
      rw [h3, Nat.cast_sub hlt.le] at hfin
      rw [hc, if_neg (by decide), hcap, hflip]
      exact hfin

/-! ## Operands far apart -/

/-- A number of at most `p` digits does not move for one a hundred times below its last place. -/
theorem roundAway_far (h : v.Valid) (hs : v.sign ≠ 0) (hp : v.nd ≤ p) {y : ℚ}
    (hy : |y| < 10 ^ (v.exp + v.nd - 1 - (p : ℤ) - 1)) :
    roundAway 10 p (v.value + y) = v.value := by
  have hc := h.val_ne_zero hs
  have hnd := h.nd_eq
  obtain ⟨hsgn, -⟩ := h.neg_iff hs
  have hcp : val v.limbs * 10 ^ (p - v.nd) ≠ 0 :=
    Nat.mul_ne_zero hc (Nat.pow_pos (by decide)).ne'
  have hpad : Runtime.ndig (val v.limbs * 10 ^ (p - v.nd)) = p := by
    rw [ndig_mul_pow _ hc]
    omega
  have hpos : 0 < p := by
    have := lt_pow_ndig (val v.limbs * 10 ^ (p - v.nd))
    rw [hpad] at this
    by_contra hzero
    rw [show p = 0 by omega, Nat.pow_zero] at this
    rw [show p = 0 by omega] at hcp
    omega
  have hlt := lt_pow_ndig (val v.limbs * 10 ^ (p - v.nd))
  have hge := pow_le_of_lt_ndig (k := p - 1) hcp (by rw [hpad]; omega)
  rw [hpad] at hlt
  -- both numbers in units of the last of `p` places
  obtain ⟨E, hE⟩ : ∃ E : ℤ, E = v.exp - ((p - v.nd : ℕ) : ℤ) := ⟨_, rfl⟩
  have hten := ten_zpow_pos E
  have hval : v.value = sgn v.neg * ((val v.limbs * 10 ^ (p - v.nd) : ℕ) : ℚ) * 10 ^ E := by
    rw [Block.value, hsgn, show v.exp = E + ((p - v.nd : ℕ) : ℤ) by omega, zpow_add₀ ten_ne_zero',
      zpow_natCast]
    push_cast
    ring
  have hsq : sgn v.neg * sgn v.neg = 1 := by
    rcases sgn_cases v.neg with hv | hv <;> rw [hv] <;> norm_num
  have habs : |sgn v.neg| = 1 := by
    rcases sgn_cases v.neg with hv | hv <;> rw [hv] <;> norm_num
  obtain ⟨d, hd⟩ : ∃ d : ℚ, d = sgn v.neg * y / 10 ^ E := ⟨_, rfl⟩
  have hyd : y = sgn v.neg * d * 10 ^ E := by
    rw [hd]
    field_simp
    rw [pow_two, hsq, mul_one]
  have hsmall : |d| < 1 / 100 := by
    have hexp : v.exp + v.nd - 1 - (p : ℤ) - 1 = -2 + E := by omega
    rw [hexp, zpow_add₀ ten_ne_zero'] at hy
    rw [hd, abs_div, abs_mul, habs, one_mul, abs_of_pos hten, div_lt_iff₀ hten]
    norm_num at hy ⊢
    exact hy
  have hnear := @roundMag_near 10 p (by decide)
    (((val v.limbs * 10 ^ (p - v.nd) : ℕ) : ℚ) + d) (val v.limbs * 10 ^ (p - v.nd)) hpos hge hlt (by
      norm_num
      linarith)
  have hone : (1 : ℚ) ≤ ((val v.limbs * 10 ^ (p - v.nd) : ℕ) : ℚ) := by
    exact_mod_cast Nat.pos_of_ne_zero hcp
  have hnonneg : 0 ≤ ((val v.limbs * 10 ^ (p - v.nd) : ℕ) : ℚ) + d := by
    have := (abs_lt.1 hsmall).1
    linarith
  have hsum : v.value + y =
      sgn v.neg * ((((val v.limbs * 10 ^ (p - v.nd) : ℕ) : ℚ) + d) * 10 ^ E) := by
    rw [hval, hyd]
    ring
  have hmove := @roundAway_mul_zpow 10 p (by decide)
    (((val v.limbs * 10 ^ (p - v.nd) : ℕ) : ℚ) + d) E
  rw [Nat.cast_ofNat] at hmove
  rw [hsum, roundAway_sgn, hmove, roundAway_of_nonneg hnonneg, hnear, hval]
  ring

/-- A value with no more digits than the precision is its own rounding. -/
theorem roundAway_value (h : v.Valid) (hp : v.nd ≤ p) : roundAway 10 p v.value = v.value := by
  by_cases hs : v.sign = 0
  · have hvalue : v.value = 0 := by
      rw [Block.value, hs, Int.cast_zero, zero_mul, zero_mul]
    rw [hvalue, roundAway_zero]
  · have hfar := roundAway_far h hs hp (y := 0) (by
      exact ten_zpow_pos _)
    rwa [add_zero] at hfar

/-- The leading digit bounds a value. -/
theorem abs_value_lt (h : v.Valid) (hs : v.sign ≠ 0) : |v.value| < 10 ^ (v.exp + v.nd) := by
  have hbound := (coef_bounds (h.val_ne_zero hs) v.exp).2
  rw [← h.nd_eq, add_comm] at hbound
  have habs : |(v.sign : ℚ)| = 1 := by
    rcases h.sign_ne_zero hs with hv | hv <;> rw [hv] <;> norm_num
  have hnonneg : (0 : ℚ) ≤ val v.limbs * 10 ^ v.exp :=
    mul_nonneg (Nat.cast_nonneg _) (ten_zpow_pos _).le
  rw [Block.value, mul_assoc, abs_mul, habs, one_mul, abs_of_nonneg hnonneg]
  exact hbound

theorem Rounds.congr {x y : ℚ} {r : Except String Block} (h : Rounds p x r)
    (hxy : roundAway 10 p x = roundAway 10 p y) : Rounds p y r := by
  cases r with
  | ok v =>
    obtain ⟨h1, h2, h3, h4⟩ := h
    rw [hxy] at h3 h4
    exact ⟨h1, h2, h3, h4⟩
  | error m =>
    obtain ⟨h1, h2⟩ := h
    rw [hxy] at h2
    exact ⟨h1, h2⟩

theorem Block.Valid.value_zero (hs : v.sign = 0) : v.value = 0 := by
  rw [Block.value, hs, Int.cast_zero, zero_mul, zero_mul]

/-- A zero value is the one zero of its precision. -/
theorem Block.Valid.eq_dzero_of_value (h : v.Valid) (hv : v.value = 0) : v = dzero v.prec := by
  by_cases hs : v.sign = 0
  · exact h.eq_dzero hs
  · have hne : v.value ≠ 0 := by
      have hc : ((val v.limbs : ℕ) : ℚ) ≠ 0 := Nat.cast_ne_zero.2 (h.val_ne_zero hs)
      have hsq : (v.sign : ℚ) ≠ 0 := Int.cast_ne_zero.2 hs
      exact mul_ne_zero (mul_ne_zero hsq hc) (ten_zpow_pos _).ne'
    exact absurd hv hne

/-- The value with its sign perhaps turned. -/
def signed (negate : Bool) (x : ℚ) : ℚ := if negate then -x else x

/-- Rounded to a precision that holds both operands, a sum is rounded once. -/
theorem addsub_rounds_of_le {a b : Block} (ha : a.Valid) (hb : b.Valid) (negb : Bool) {p : Prec}
    (hap : a.nd ≤ p.val) (hbp : b.nd ≤ p.val) :
    Rounds p.val (a.value + signed negb b.value) (addsub a b negb p.val) := by
  unfold addsub
  by_cases hsa : a.sign = 0
  · rw [if_pos hsa, Block.Valid.value_zero hsa, zero_add]
    exact roundV_rounds hb p negb
  rw [if_neg hsa]
  by_cases hsb : b.sign = 0
  · have hzero : signed negb b.value = 0 := by
      rw [signed, Block.Valid.value_zero hsb, neg_zero, ite_self]
    rw [if_pos hsb, hzero, add_zero]
    exact roundV_rounds ha p false
  rw [if_neg hsb]
  have habs : |signed negb b.value| = |b.value| := by
    unfold signed
    split_ifs
    · exact abs_neg _
    · rfl
  by_cases hfarb : b.exp + b.nd - 1 ≤ a.exp + a.nd - 1 - (p.val : ℤ) - 2
  · rw [if_pos hfarb]
    have hlt : |signed negb b.value| < 10 ^ (a.exp + a.nd - 1 - (p.val : ℤ) - 1) := by
      rw [habs]
      exact (abs_value_lt hb hsb).trans_le (zpow_le_zpow_right₀ (by norm_num) (by omega))
    refine (roundV_rounds ha p false).congr ?_
    rw [if_neg (by decide), roundAway_value ha hap, roundAway_far ha hsa hap hlt]
  rw [if_neg hfarb]
  by_cases hfara : a.exp + a.nd - 1 ≤ b.exp + b.nd - 1 - (p.val : ℤ) - 2
  · rw [if_pos hfara]
    refine (roundV_rounds hb p negb).congr ?_
    -- rounding commutes with the sign, so the far operand may be turned instead
    have hfar : ∀ y : ℚ, |y| = |a.value| → roundAway 10 p.val (b.value + y) = b.value := by
      intro y hy
      refine roundAway_far hb hsb hbp ?_
      rw [hy]
      exact (abs_value_lt ha hsa).trans_le (zpow_le_zpow_right₀ (by norm_num) (by omega))
    cases negb with
    | false =>
      show roundAway 10 p.val b.value = roundAway 10 p.val (a.value + b.value)
      rw [roundAway_value hb hbp, add_comm, hfar _ rfl]
    | true =>
      show roundAway 10 p.val (-b.value) = roundAway 10 p.val (a.value + -b.value)
      rw [show a.value + -b.value = -(b.value + -a.value) by ring, roundAway_neg, roundAway_neg,
        roundAway_value hb hbp, hfar _ (abs_neg _)]
  rw [if_neg hfara]
  have hlea : min a.exp b.exp ≤ a.exp := min_le_left _ _
  have hleb : min a.exp b.exp ≤ b.exp := min_le_right _ _
  have hlena := align_length ha.normal hlea (ha.val_ne_zero hsa)
  have hlenb := align_length hb.normal hleb (hb.val_ne_zero hsb)
  rw [← ha.nd] at hlena
  rw [← hb.nd] at hlenb
  have hsign : (if negb then -b.sign else b.sign) = 1 ∨ (if negb then -b.sign else b.sign) = -1 := by
    rcases hb.sign_ne_zero hsb with hv | hv <;> cases negb <;> simp [hv]
  have hvalue : a.value + signed negb b.value =
      ((a.sign : ℚ) * val (align a.limbs a.exp (min a.exp b.exp)) +
        ((if negb then -b.sign else b.sign : Int) : ℚ) *
          val (align b.limbs b.exp (min a.exp b.exp))) * 10 ^ min a.exp b.exp := by
    rw [add_mul, mul_assoc, mul_assoc, align_value ha.normal hlea, align_value hb.normal hleb,
      ← mul_assoc, ← mul_assoc, signed, Block.value, Block.value]
    cases negb <;> simp
  rw [hvalue]
  exact addsubN_rounds (align_spec ha.normal hlea).1 (align_spec hb.normal hleb).1 (by omega)
    (by omega) (ha.sign_ne_zero hsa) hsign _ p

/-- Sums and differences are correctly rounded to the larger precision, with one zero. -/
theorem addsub_rounds {a b : Block} (ha : a.Valid) (hb : b.Valid) (negb : Bool) :
    Rounds (max a.prec b.prec) (if negb then a.value - b.value else a.value + b.value)
      (addsub a b negb (max a.prec b.prec)) ∧
    ∀ v, addsub a b negb (max a.prec b.prec) = .ok v → v.value = 0 →
      v = dzero (max a.prec b.prec) := by
  have hpa := ha.prec
  have hpb := hb.prec
  have hrounds := addsub_rounds_of_le ha hb negb
    (p := ⟨max a.prec b.prec, by omega, by omega⟩) (ha.fits.trans (le_max_left _ _))
    (hb.fits.trans (le_max_right _ _))
  have hexact : a.value + signed negb b.value =
      if negb then a.value - b.value else a.value + b.value := by
    cases negb with
    | false => rfl
    | true => exact (sub_eq_add_neg _ _).symm
  rw [hexact] at hrounds
  refine ⟨hrounds, fun v hv hzero => ?_⟩
  change Rounds (max a.prec b.prec) _ (addsub a b negb (max a.prec b.prec)) at hrounds
  rw [hv] at hrounds
  rw [← hrounds.2.1]
  exact hrounds.1.eq_dzero_of_value hzero

/-- One limb that is not zero makes a valid value. -/
theorem valid_limb {sign : Int} (hs : sign = 1 ∨ sign = -1) {prec : Nat}
    {x : Nat} (h : (1 ≤ prec ∧ prec ≤ 1073741823) ∧ 0 < x ∧ x < bb ∧ ndig [x] ≤ prec ∧
      -maxExp ≤ exp - (prec - ndig [x]) ∧ exp - (prec - ndig [x]) ≤ maxExp) :
    (Block.mk sign prec exp [x] (ndig [x])).Valid := by
  obtain ⟨hp, hx, hxb, hfits, he⟩ := h
  exact ⟨hp, ⟨IsDigits.singleton hxb, fun _ => by simpa using hx.ne'⟩, rfl, hfits,
    .inr ⟨hs, List.cons_ne_nil _ _, he⟩⟩

/-- `999 - 0.05`, to three digits. -/
theorem addsub_rounds_hundredths :
    Rounds 3 (if true then (Block.mk 1 3 0 [999] (ndig [999])).value -
        (Block.mk 1 1 (-2) [5] (ndig [5])).value
      else (Block.mk 1 3 0 [999] (ndig [999])).value + (Block.mk 1 1 (-2) [5] (ndig [5])).value)
      (addsub ⟨1, 3, 0, [999], ndig [999]⟩ ⟨1, 1, -2, [5], ndig [5]⟩ true 3) ∧
    ∀ v, addsub ⟨1, 3, 0, [999], ndig [999]⟩ ⟨1, 1, -2, [5], ndig [5]⟩ true 3 = .ok v →
      v.value = 0 → v = dzero 3 :=
  addsub_rounds (valid_limb (.inl rfl) (by decide +kernel))
    (valid_limb (.inl rfl) (by decide +kernel)) true

end Decimals

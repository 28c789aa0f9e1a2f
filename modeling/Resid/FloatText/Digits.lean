import Resid.FloatText.Big
import Resid.Lib.DecimalCut

/-!
# The decimal digits of a double

`expand` writes the digits of `m * 2^e2`, most significant first: those of the integer by dividing
by ten, those of the fraction by multiplying.  `roundDigits` keeps some of them, ties to even.

    Expands (m * 2 ^ e2) need (expand m e2 need)                              (expand_spec)
    keep < need → Expands v need st → Rounded v X keep (roundDigits st keep)  (roundDigits_rounded)

## Algorithm

A buffer is the list of the digits written into it.  `X` is the decimal exponent: the value is
0.d1d2... * 10^X.
-/

namespace FloatText

open Binary64 DecimalCut Positional

/-! ## Definitions -/

def bnZero (b : List Nat) : Bool := b.length == 0

/-- `b` mod `2^k`. -/
def bnLowbits (b : List Nat) (k : Nat) : List Nat :=
  let ws := k / 32
  let bs := k % 32
  if ws ≥ b.length then b else trimTop (b.take ws ++ [b.getD ws 0 &&& ((1 <<< bs) - 1)])

/-- The exponent, the digits, and whether there is anything past them. -/
structure Fx where
  x : Int
  digits : List Nat
  sticky : Bool
  deriving DecidableEq

/-- The digits of an integer, the least significant first. -/
def intDigits : (fuel : Nat) → List Nat → List Nat
  | 0, _ => []
  | fuel + 1, ip =>
    if bnZero ip then []
    else
      let r := bnDivsmall ip 10
      r.2 :: intDigits fuel r.1

def digitsNz (ds : List Nat) : Bool := ds.any (· != 0)

/-- Skips the zero digits in front of a fraction; the exponent goes down by one each. -/
def leadZeros (fbits : Nat) : (fuel : Nat) → List Nat → Int → List Nat × Int
  | 0, fr, x => (fr, x)
  | fuel + 1, fr, x =>
    if bnZero fr then (fr, x)
    else if !bnZero (bnShr (bnMuladd fr 10 0) fbits) then (fr, x)
    else leadZeros fbits fuel (bnMuladd fr 10 0) (x - 1)

/-- `fr >> fbits`, one decimal digit. -/
def digitAbove (fr : List Nat) (fbits : Nat) : Nat :=
  let ws := fbits / 32
  let bs := fbits % 32
  let lo := if ws < fr.length then fr.getD ws 0 >>> bs else 0
  let hi :=
    if bs ≠ 0 ∧ ws + 1 < fr.length then (fr.getD (ws + 1) 0 <<< (32 - bs)) &&& mask32 else 0
  (lo ||| hi) &&& 15

/-- `frac_digits`: at most `k` digits of a fraction, and what is left of it. -/
def fxFracDigits (fbits : Nat) : (k : Nat) → List Nat → List Nat × List Nat
  | 0, fr => ([], fr)
  | k + 1, fr =>
    if bnZero fr then ([], fr)
    else
      let f10 := bnMuladd fr 10 0
      let r := fxFracDigits fbits k (bnLowbits f10 fbits)
      (digitAbove f10 fbits :: r.1, r.2)

/-- The integer in `m * 2^e2`. -/
def intPart (m : Nat) (e2 : Int) : List Nat :=
  if e2 ≥ 0 then bnShl (bnFrom m) e2.toNat else bnShr (bnFrom m) (0 - e2).toNat

/-- Its fraction, over `2 ^ fracBits e2`. -/
def fracPart (m : Nat) (e2 : Int) : List Nat :=
  if e2 ≥ 0 then [] else bnLowbits (bnFrom m) (0 - e2).toNat

def fracBits (e2 : Int) : Nat := if e2 ≥ 0 then 0 else (0 - e2).toNat

/-- Up to `need` digits of `m * 2^e2`. -/
def expand (m : Nat) (e2 : Int) (need : Nat) : Fx :=
  let ip := intPart m e2
  let fr := fracPart m e2
  let fbits := fracBits e2
  let tmp := intDigits (32 * ip.length) ip
  let il := tmp.length
  let kept := min il need
  let isticky := digitsNz (tmp.take (il - kept))
  let lz := if il = 0 then leadZeros fbits (fbits + 1) fr il else (fr, (il : Int))
  let fd := fxFracDigits fbits (need - kept) lz.1
  ⟨lz.2, tmp.reverse.take kept ++ fd.1, isticky || !bnZero fd.2⟩

/-- Adds one at the last of the first `i` digits; all nines become 1 and zeros, one place higher. -/
def carryUp (x : Int) (ds : List Nat) : (i : Nat) → Int × List Nat
  | 0 => (x + 1, 1 :: List.replicate (ds.length - 1) 0)
  | i + 1 =>
    let d := ds.getD i 0
    if d < 9 then (x, ds.set i (d + 1)) else carryUp x (ds.set i 0) i

/-- The digits rounded to `keep`, ties to even. -/
def roundDigits (st : Fx) (keep : Int) : Fx :=
  let n := st.digits.length
  let ds := st.digits ++ List.replicate (keep + 1 - n).toNat 0
  if keep < 0 then { st with digits := [] }
  else
    let k := keep.toNat
    let rd := ds.getD k 0
    let rest := st.sticky || digitsNz (ds.drop (k + 1))
    let odd := decide (k > 0) && (ds.getD (k - 1) 0 &&& 1 == 1)
    let up := decide (rd > 5) || (rd == 5 && (rest || odd))
    if !up then { st with digits := ds.take k }
    else if k = 0 then { st with x := st.x + 1, digits := [1] }
    else
      let r := carryUp st.x (ds.take k) k
      { st with x := r.1, digits := r.2 }

/-- `prec` significant digits. -/
def significant (m : Nat) (e2 : Int) (prec : Nat) : Fx := roundDigits (expand m e2 (prec + 1)) prec

/-- `prec` digits after the point. -/
def afterPoint (m : Nat) (e2 : Int) (prec : Nat) : Fx :=
  let x := (expand m e2 1).x
  let need := (max (x + prec) 0).toNat
  let st := expand m e2 (need + 1)
  roundDigits st (st.x + prec)

/-! ## Shifts and digits -/

variable {b ds fr : List Nat} {A fbits k need : Nat} {v : ℚ} {st : Fx}

theorem bnZero_iff (hb : Normal base b) : bnZero b = true ↔ val b = 0 := by
  unfold bnZero
  rw [beq_iff_eq, List.length_eq_zero_iff]
  constructor
  · rintro rfl
    rfl
  · intro h
    by_contra hne
    obtain ⟨n, hn⟩ := Nat.exists_eq_succ_of_ne_zero (mt List.length_eq_zero_iff.1 hne)
    have hle : base ^ n ≤ val b := hb.pow_le hn
    have hpos : 0 < base ^ n := Nat.pow_pos base_pos
    omega

theorem bnLowbits_spec (hb : Normal base b) (k : Nat) :
    Normal base (bnLowbits b k) ∧ val (bnLowbits b k) = val b % 2 ^ k := by
  unfold bnLowbits
  by_cases hws : k / 32 ≥ b.length
  · rw [if_pos hws]
    refine ⟨hb, (Nat.mod_eq_of_lt ?_).symm⟩
    calc val b < base ^ b.length := val_lt hb.digits
      _ ≤ base ^ (k / 32) := Nat.pow_le_pow_right base_pos hws
      _ ≤ base ^ (k / 32) * 2 ^ (k % 32) := Nat.le_mul_of_pos_right _ (Nat.pow_pos (by decide))
      _ = 2 ^ k := two_pow_limbs k
  · rw [if_neg hws]
    have hlt : k % 32 < 32 := Nat.mod_lt k (by decide)
    have hlimb : b.getD (k / 32) 0 &&& ((1 <<< (k % 32)) - 1) =
        val b / base ^ (k / 32) % 2 ^ (k % 32) := by
      have hdvd : 2 ^ (k % 32) ∣ base := Nat.pow_dvd_pow 2 hlt.le
      rw [getD_eq_digit one_lt_base hb.digits, ← val, Nat.one_shiftLeft,
        Nat.and_two_pow_sub_one_eq_mod, Nat.mod_mod_of_dvd _ hdvd]
    have hsmall : b.getD (k / 32) 0 &&& ((1 <<< (k % 32)) - 1) < base := by
      rw [hlimb]
      exact (Nat.mod_lt _ (Nat.pow_pos (by decide))).trans_le
        (Nat.pow_le_pow_right (by decide) hlt.le)
    have hdig := (hb.digits.take (k / 32)).append (IsDigits.singleton hsmall)
    refine ⟨normal_trim hdig, ?_⟩
    have hlow : val (b.take (k / 32)) = val b % base ^ (k / 32) := by
      rw [val, take_eq_lowDigits one_lt_base hb.digits (by omega), ofDigits_lowDigits, ← val]
    rw [val_trimTop hdig, val_append, val_cons, val_nil, Nat.mul_zero, Nat.add_zero, hlow, hlimb,
      List.length_take, Nat.min_eq_left (by omega), ← two_pow_limbs k, Nat.mod_mul]

theorem getD_drop (l : List Nat) (i j : Nat) : (l.drop i).getD j 0 = l.getD (i + j) 0 := by
  rw [List.getD_eq_getElem?_getD, List.getElem?_drop, List.getD_eq_getElem?_getD]

theorem digitAbove_eq (hfr : Normal base fr) (hlt : val fr < 10 * 2 ^ fbits) :
    digitAbove fr fbits = val fr / 2 ^ fbits := by
  have hq : val fr / 2 ^ fbits < 10 := Nat.div_lt_of_lt_mul (by rwa [Nat.mul_comm])
  have hbs : fbits % 32 < 32 := Nat.mod_lt fbits (by decide)
  have hdrop : IsDigits base (fr.drop (fbits / 32)) :=
    fun d hd => hfr.digits d (List.mem_of_mem_drop hd)
  have hpow : 2 ^ (fbits % 32) * 2 ^ (32 - fbits % 32) = base := by
    rw [← Nat.pow_add, Nat.add_sub_cancel' hbs.le]
    rfl
  obtain ⟨h1, h2⟩ := shiftDown_spec one_lt_base hpow hdrop
  rw [← shrLimbs_eq hbs _ hdrop] at h1 h2
  have hval : val (shrLimbs (fbits % 32) (fr.drop (fbits / 32))) = val fr / 2 ^ fbits := by
    rw [val, h2, ofDigits_drop one_lt_base hfr.digits, Nat.div_div_eq_div_mul, two_pow_limbs, ← val]
  have hlow : (shrLimbs (fbits % 32) (fr.drop (fbits / 32))).getD 0 0 = val fr / 2 ^ fbits := by
    rw [getD_eq_digit one_lt_base h1, Nat.pow_zero, Nat.div_one, ← val, hval]
    exact Nat.mod_eq_of_lt (hq.trans (by decide))
  have hword : digitAbove fr fbits =
      (shrLimbs (fbits % 32) (fr.drop (fbits / 32))).getD 0 0 &&& 15 := by
    unfold digitAbove
    simp only
    cases hd : fr.drop (fbits / 32) with
    | nil =>
      have hle := List.drop_eq_nil_iff.1 hd
      rw [if_neg (by omega), if_neg (by omega)]
      rfl
    | cons x rest =>
      have hx : fr.getD (fbits / 32) 0 = x := by
        rw [← Nat.add_zero (fbits / 32), ← getD_drop, hd]
        rfl
      have hnext : fr.getD (fbits / 32 + 1) 0 = rest.getD 0 0 := by
        rw [← getD_drop, hd]
        rfl
      have hlen := congrArg List.length hd
      rw [List.length_drop, List.length_cons] at hlen
      have hrest : fbits / 32 + 1 < fr.length ↔ rest ≠ [] := by
        rw [← List.length_pos_iff]
        omega
      rw [if_pos (by omega), hx, hnext, shrLimbs]
      simp only [hrest]
      rfl
  rw [hword, hlow, show 15 = 2 ^ 4 - 1 from rfl, Nat.and_two_pow_sub_one_eq_mod]
  exact Nat.mod_eq_of_lt (by omega)

theorem intDigits_eq {ip : List Nat} (hip : Normal base ip) {fuel : Nat}
    (hlt : val ip < 10 ^ fuel) : intDigits fuel ip = Nat.digits 10 (val ip) := by
  induction fuel generalizing ip with
  | zero =>
    have hzero : val ip = 0 := by
      omega
    rw [hzero]
    rfl
  | succ fuel ih =>
    rw [intDigits]
    by_cases hzero : bnZero ip = true
    · rw [if_pos hzero, (bnZero_iff hip).1 hzero, Nat.digits_zero]
    · rw [if_neg hzero]
      obtain ⟨h1, h2, h3⟩ := bnDivsmall_spec hip.digits (show 0 < 10 by decide)
      have hpos : 0 < val ip := Nat.pos_of_ne_zero fun h => hzero ((bnZero_iff hip).2 h)
      have hless : val (bnDivsmall ip 10).1 < 10 ^ fuel := by
        rw [h2]
        exact Nat.div_lt_of_lt_mul (by rwa [Nat.pow_succ, Nat.mul_comm] at hlt)
      simp only
      rw [ih h1 hless, h2, h3]
      exact (Nat.digits_def' (by decide) hpos).symm

theorem bnMuladd_ten (hfr : Normal base fr) :
    Normal base (bnMuladd fr 10 0) ∧ val (bnMuladd fr 10 0) = val fr * 10 :=
  bnMuladd_spec hfr (by decide) (by decide) (by decide)

/-- The fraction without its leading zeros, the exponent lowered by as many. -/
theorem leadZeros_spec {fuel : Nat} {x : Int} (hfr : Normal base fr) (hlt : val fr < 2 ^ fbits)
    (hfuel : val fr ≠ 0 → 2 ^ fbits ≤ val fr * 10 ^ fuel) :
    ∃ z : Nat, Normal base (leadZeros fbits fuel fr x).1 ∧
      val (leadZeros fbits fuel fr x).1 = val fr * 10 ^ z ∧
      (leadZeros fbits fuel fr x).2 = x - z ∧ val fr * 10 ^ z < 2 ^ fbits ∧
      (val fr ≠ 0 → 2 ^ fbits ≤ val fr * 10 ^ (z + 1)) := by
  induction fuel generalizing fr x with
  | zero =>
    refine ⟨0, hfr, ?_, ?_, ?_, ?_⟩
    · rw [leadZeros, Nat.pow_zero, Nat.mul_one]
    · rw [leadZeros]
      omega
    · rwa [Nat.pow_zero, Nat.mul_one]
    · intro hne
      have := hfuel hne
      omega
  | succ fuel ih =>
    rw [leadZeros]
    by_cases hzero : bnZero fr = true
    · have hv := (bnZero_iff hfr).1 hzero
      rw [if_pos hzero]
      refine ⟨0, hfr, ?_, ?_, ?_, fun hne => absurd hv hne⟩
      · rw [Nat.pow_zero, Nat.mul_one]
      · show x = x - (0 : Nat)
        omega
      · rwa [Nat.pow_zero, Nat.mul_one]
    rw [if_neg hzero]
    obtain ⟨hten, hval⟩ := bnMuladd_ten hfr
    obtain ⟨hshr, hquot⟩ := bnShr_spec hten fbits
    have habove : bnZero (bnShr (bnMuladd fr 10 0) fbits) = true ↔ val fr * 10 < 2 ^ fbits := by
      rw [bnZero_iff hshr, hquot, hval, Nat.div_eq_zero_iff]
      constructor
      · rintro (h | h)
        · exact absurd h (Nat.pow_pos (by decide)).ne'
        · exact h
      · exact Or.inr
    by_cases hstop : (!bnZero (bnShr (bnMuladd fr 10 0) fbits)) = true
    · rw [if_pos hstop]
      refine ⟨0, hfr, ?_, ?_, ?_, fun _ => ?_⟩
      · rw [Nat.pow_zero, Nat.mul_one]
      · show x = x - (0 : Nat)
        omega
      · rwa [Nat.pow_zero, Nat.mul_one]
      · have hnot : ¬val fr * 10 < 2 ^ fbits := by
          rw [← habove]
          simpa using hstop
        omega
    · rw [if_neg hstop]
      have hless : val fr * 10 < 2 ^ fbits := habove.1 (by simpa using hstop)
      obtain ⟨z, h1, h2, h3, h4, h5⟩ := @ih (bnMuladd fr 10 0) (x - 1) hten
        (by rwa [hval]) (fun hne => by
          rw [hval] at hne ⊢
          have := hfuel fun h0 => hne (by rw [h0, Nat.zero_mul])
          rwa [Nat.pow_succ, Nat.mul_comm (10 ^ fuel), ← Nat.mul_assoc] at this)
      rw [hval] at h2 h4 h5
      have hpow (k : Nat) : val fr * 10 * 10 ^ k = val fr * 10 ^ (k + 1) := by
        ring
      refine ⟨z + 1, h1, ?_, ?_, ?_, ?_⟩
      · rw [h2, hpow]
      · rw [h3]
        omega
      · rwa [hpow] at h4
      · intro hne
        have := h5 (fun h0 => hne (by omega))
        rwa [hpow] at this

/-- Digits of the fraction in turn; fewer than asked for when it ends. -/
theorem fxFracDigits_spec (hfr : Normal base fr) (hlt : val fr < 2 ^ fbits) :
    IsDigits 10 (fxFracDigits fbits k fr).1 ∧ (fxFracDigits fbits k fr).1.length ≤ k ∧
      Normal base (fxFracDigits fbits k fr).2 ∧ val (fxFracDigits fbits k fr).2 < 2 ^ fbits ∧
      val fr * 10 ^ (fxFracDigits fbits k fr).1.length =
        num (fxFracDigits fbits k fr).1 * 2 ^ fbits + val (fxFracDigits fbits k fr).2 ∧
      ((fxFracDigits fbits k fr).1.length < k → val (fxFracDigits fbits k fr).2 = 0) := by
  induction k generalizing fr with
  | zero =>
    refine ⟨IsDigits.nil 10, Nat.le_refl 0, hfr, hlt, ?_, fun h => absurd h (Nat.lt_irrefl 0)⟩
    simp [fxFracDigits]
  | succ k ih =>
    rw [fxFracDigits]
    by_cases hzero : bnZero fr = true
    · rw [if_pos hzero]
      have hv := (bnZero_iff hfr).1 hzero
      refine ⟨IsDigits.nil 10, Nat.zero_le _, hfr, hlt, ?_, fun _ => hv⟩
      simp
    · rw [if_neg hzero]
      obtain ⟨hten, hval⟩ := bnMuladd_ten hfr
      obtain ⟨hlow, hmod⟩ := bnLowbits_spec hten fbits
      have hpos : 0 < 2 ^ fbits := Nat.pow_pos (by decide)
      have hless : val (bnMuladd fr 10 0) < 10 * 2 ^ fbits := by
        omega
      have hdigit := digitAbove_eq hten hless
      obtain ⟨h1, h2, h3, h4, h5, h6⟩ := ih hlow (by rw [hmod]; exact Nat.mod_lt _ hpos)
      simp only
      refine ⟨IsDigits.cons ?_ h1, Nat.succ_le_succ h2, h3, h4, ?_, fun h => h6 (by
        rw [List.length_cons] at h
        omega)⟩
      · rw [hdigit]
        exact Nat.div_lt_of_lt_mul (by rwa [Nat.mul_comm])
      · rw [num_cons, List.length_cons, hdigit, Nat.pow_succ]
        rw [hmod] at h5
        have hsplit := Nat.div_add_mod (val (bnMuladd fr 10 0)) (2 ^ fbits)
        rw [hval] at hsplit h5 ⊢
        generalize fxFracDigits fbits k (bnLowbits (bnMuladd fr 10 0) fbits) = r at h5 ⊢
        calc val fr * (10 ^ r.1.length * 10) = val fr * 10 * 10 ^ r.1.length := by ring
          _ = (2 ^ fbits * (val fr * 10 / 2 ^ fbits) + val fr * 10 % 2 ^ fbits) *
                10 ^ r.1.length := by rw [hsplit]
          _ = (val fr * 10 / 2 ^ fbits * 10 ^ r.1.length) * 2 ^ fbits +
                val fr * 10 % 2 ^ fbits * 10 ^ r.1.length := by ring
          _ = _ := by
            rw [h5]
            ring

/-! ## The expansion -/

theorem parts_spec {m : Nat} (hm : m < 2 ^ 64) (e2 : Int) :
    Normal base (intPart m e2) ∧ Normal base (fracPart m e2) ∧
      val (fracPart m e2) < 2 ^ fracBits e2 ∧
      (m : ℚ) * 2 ^ e2 = val (intPart m e2) + val (fracPart m e2) / 2 ^ fracBits e2 := by
  obtain ⟨hfrom, hval⟩ := bnFrom_spec hm
  unfold intPart fracPart fracBits
  by_cases he : e2 ≥ 0
  · rw [if_pos he, if_pos he, if_pos he]
    obtain ⟨k, rfl⟩ := Int.eq_ofNat_of_zero_le he
    obtain ⟨h1, h2⟩ := bnShl_spec hfrom (k : Int).toNat
    refine ⟨h1, ⟨IsDigits.nil base, fun h => absurd rfl h⟩, ?_, ?_⟩
    · exact Nat.one_pos
    · rw [h2, hval, Int.toNat_natCast, val_nil, zpow_natCast]
      push_cast
      ring
  · rw [if_neg he, if_neg he, if_neg he]
    obtain ⟨k, hk⟩ := Int.eq_ofNat_of_zero_le (show 0 ≤ 0 - e2 by omega)
    obtain rfl : e2 = -(k : Int) := by omega
    obtain ⟨h1, h2⟩ := bnShr_spec hfrom k
    obtain ⟨h3, h4⟩ := bnLowbits_spec hfrom k
    rw [hk, Int.toNat_natCast]
    have hpos : (0 : ℚ) < 2 ^ k := by positivity
    refine ⟨h1, h3, ?_, ?_⟩
    · rw [h4]
      exact Nat.mod_lt _ (Nat.pow_pos (by decide))
    · rw [h2, h4, hval, zpow_neg, zpow_natCast]
      have hsplit : (m : ℚ) = 2 ^ k * (m / 2 ^ k : Nat) + (m % 2 ^ k : Nat) := by
        exact_mod_cast (Nat.div_add_mod m (2 ^ k)).symm
      rw [eq_comm, eq_mul_inv_iff_mul_eq₀ hpos.ne', add_mul, div_mul_cancel₀ _ hpos.ne', hsplit]
      ring

/-- What `expand` says of `v`, of which at most `need` digits were asked for. -/
structure Expands (v : ℚ) (need : Nat) (st : Fx) : Prop where
  cut : Cut st.digits st.sticky (v * 10 ^ ((st.digits.length : ℤ) - st.x))
  le_need : st.digits.length ≤ need
  exact : st.digits.length < need → st.sticky = false
  lt : v < 10 ^ st.x
  le : v ≠ 0 → (10 : ℚ) ^ (st.x - 1) ≤ v

theorem digitsNz_iff (ds : List Nat) : digitsNz ds = true ↔ num ds ≠ 0 := by
  unfold digitsNz
  rw [List.any_eq_true, ne_eq, num_eq_zero]
  push Not
  simp

/-- What is left of a fraction behind `n` digits. -/
theorem frac_behind {F F' D n : Nat} (h : F * 10 ^ n = D * 2 ^ fbits + F') :
    (F : ℚ) / 2 ^ fbits * 10 ^ n = D + F' / 2 ^ fbits := by
  have hpos : (0 : ℚ) < 2 ^ fbits := by positivity
  have hq : (F : ℚ) * 10 ^ n = D * 2 ^ fbits + F' := by exact_mod_cast h
  rw [div_mul_eq_mul_div, hq, add_div, mul_div_cancel_right₀ _ hpos.ne']

theorem rest_bounds {F : Nat} (h : F < 2 ^ fbits) :
    (0 : ℚ) ≤ F / 2 ^ fbits ∧ (F : ℚ) / 2 ^ fbits < 1 ∧ (0 < F ↔ (0 : ℚ) < F / 2 ^ fbits) := by
  have hpos : (0 : ℚ) < 2 ^ fbits := by positivity
  have hq : (F : ℚ) < 2 ^ fbits := by exact_mod_cast h
  refine ⟨by positivity, (div_lt_one hpos).2 hq, ?_⟩
  rw [div_pos_iff_of_pos_right hpos]
  exact Nat.cast_pos.symm

theorem bnZero_not_iff (hb : Normal base b) : (!bnZero b) = true ↔ 0 < val b := by
  rw [Bool.not_eq_true', ← Bool.not_eq_true, bnZero_iff hb, Nat.pos_iff_ne_zero]

/-- Below one: the digits start behind the zeros. -/
theorem expands_below {fr' rest : List Nat} {z : Nat} (hfr' : val fr' = val fr * 10 ^ z)
    (hlt : val fr * 10 ^ z < 2 ^ fbits) (hle : val fr ≠ 0 → 2 ^ fbits ≤ val fr * 10 ^ (z + 1))
    (hds : IsDigits 10 ds) (hlen : ds.length ≤ need) (hrest : Normal base rest)
    (hrestlt : val rest < 2 ^ fbits)
    (hsplit : val fr' * 10 ^ ds.length = num ds * 2 ^ fbits + val rest)
    (hexact : ds.length < need → val rest = 0) :
    Expands ((val fr : ℚ) / 2 ^ fbits) need ⟨-z, ds, !bnZero rest⟩ := by
  have hpos : (0 : ℚ) < 2 ^ fbits := by positivity
  obtain ⟨h0, h1, hiff⟩ := rest_bounds hrestlt
  have hq := frac_behind hsplit
  rw [hfr'] at hq
  refine ⟨?_, hlen, ?_, ?_, ?_⟩
  · refine Cut.of_add hds h0 h1 ((bnZero_not_iff hrest).trans hiff) ?_
    rw [← hq]
    push_cast
    rw [sub_neg_eq_add, zpow_add₀ (by norm_num), zpow_natCast, zpow_natCast]
    ring
  · intro hshort
    rw [Bool.not_eq_false', bnZero_iff hrest]
    exact hexact hshort
  · have hltq : (val fr : ℚ) * 10 ^ z < 2 ^ fbits := by exact_mod_cast hlt
    show _ < (10 : ℚ) ^ (-(z : ℤ))
    rw [zpow_neg, zpow_natCast, div_lt_iff₀ hpos, inv_mul_eq_div, lt_div_iff₀ (by positivity)]
    exact hltq
  · intro hne
    have hfr0 : val fr ≠ 0 := by
      intro h
      rw [h] at hne
      simp at hne
    have hleq : (2 : ℚ) ^ fbits ≤ val fr * 10 ^ (z + 1) := by exact_mod_cast hle hfr0
    show (10 : ℚ) ^ (-(z : ℤ) - 1) ≤ _
    rw [show -(z : ℤ) - 1 = -((z + 1 : ℕ) : ℤ) by push_cast; ring, zpow_neg, zpow_natCast,
      le_div_iff₀ hpos, inv_mul_eq_div, div_le_iff₀ (by positivity)]
    exact hleq

theorem num_digits (A : Nat) : num (Nat.digits 10 A).reverse = A := by
  rw [num_reverse, Nat.ofDigits_digits]

theorem isDigits_digits (A : Nat) : IsDigits 10 (Nat.digits 10 A).reverse := by
  intro d hd
  exact Nat.digits_lt_base (by decide) (List.mem_reverse.1 hd)

/-- The exponent is the number of digits before the point. -/
theorem magnitude_int {φ : ℚ} (hA : A ≠ 0) (h0 : 0 ≤ φ) (h1 : φ < 1) :
    (A : ℚ) + φ < 10 ^ ((Nat.digits 10 A).length : ℤ) ∧
      (10 : ℚ) ^ (((Nat.digits 10 A).length : ℤ) - 1) ≤ A + φ := by
  have hlt : (A : ℚ) + 1 ≤ 10 ^ (Nat.digits 10 A).length := by
    exact_mod_cast Nat.lt_base_pow_length_digits (b := 10) (m := A) (by decide)
  have hne : Nat.digits 10 A ≠ [] := Nat.digits_ne_nil_iff_ne_zero.2 hA
  obtain ⟨n, hn⟩ := Nat.exists_eq_succ_of_ne_zero (mt List.length_eq_zero_iff.1 hne)
  have hle : (10 : ℚ) ^ n ≤ A := by
    have hpow := Nat.base_pow_length_digits_le 10 A (by decide) hA
    rw [hn, Nat.pow_succ] at hpow
    have : 10 ^ n ≤ A := by omega
    exact_mod_cast this
  constructor
  · rw [zpow_natCast]
    linarith
  · rw [hn, show ((n.succ : ℕ) : ℤ) - 1 = (n : ℤ) by push_cast; ring, zpow_natCast]
    linarith

/-- Cut inside the integer. -/
theorem expands_int (hA : A ≠ 0) (hfr : Normal base fr) (hlt : val fr < 2 ^ fbits)
    (hneed : need ≤ (Nat.digits 10 A).length) : Expands ((A : ℚ) + val fr / 2 ^ fbits) need
      ⟨(Nat.digits 10 A).length, (Nat.digits 10 A).reverse.take need,
        digitsNz ((Nat.digits 10 A).take ((Nat.digits 10 A).length - need)) || !bnZero fr⟩ := by
  obtain ⟨h0, h1, hiff⟩ := rest_bounds hlt
  obtain ⟨hupper, hlower⟩ := magnitude_int hA h0 h1
  have hlen : ((Nat.digits 10 A).reverse.take need).length = need := by
    rw [List.length_take, List.length_reverse, Nat.min_eq_left hneed]
  obtain ⟨low, hlow⟩ : ∃ low, low = (Nat.digits 10 A).take ((Nat.digits 10 A).length - need) :=
    ⟨_, rfl⟩
  have hdrop : (Nat.digits 10 A).reverse.drop need = low.reverse := by
    rw [List.drop_reverse, hlow]
  have hlowlen : low.length = (Nat.digits 10 A).length - need := by
    rw [hlow, List.length_take, Nat.min_eq_left (Nat.sub_le _ _)]
  have hsplit : A = num ((Nat.digits 10 A).reverse.take need) * 10 ^ low.length +
      num low.reverse := by
    have h := num_append ((Nat.digits 10 A).reverse.take need) low.reverse
    rwa [← hdrop, List.take_append_drop, num_digits, hdrop, List.length_reverse] at h
  have hlowlt : num low.reverse < 10 ^ low.length := by
    rw [← @List.length_reverse Nat low]
    apply num_lt
    rw [← hdrop]
    exact fun d hd => isDigits_digits A d (List.mem_of_mem_drop hd)
  have hnz : digitsNz low = true ↔ 0 < num low.reverse := by
    rw [digitsNz_iff, Nat.pos_iff_ne_zero, ne_eq, ne_eq, num_eq_zero, num_eq_zero]
    simp
  have hpow : (0 : ℚ) < 10 ^ low.length := by positivity
  have hlowq : (num low.reverse : ℚ) + 1 ≤ 10 ^ low.length := by exact_mod_cast hlowlt
  have hsplitq : (A : ℚ) = num ((Nat.digits 10 A).reverse.take need) * 10 ^ low.length +
      num low.reverse := by exact_mod_cast hsplit
  rw [← hlow]
  refine ⟨?_, hlen.le, fun h => absurd h (by rw [hlen]; exact Nat.lt_irrefl _), hupper,
    fun _ => hlower⟩
  refine Cut.of_add (δ := (num low.reverse + val fr / 2 ^ fbits) / 10 ^ low.length)
    ((isDigits_digits A).take need) (div_nonneg (by linarith) hpow.le)
    ((div_lt_one hpow).2 (by linarith)) ?_ ?_
  · rw [Bool.or_eq_true, hnz, bnZero_not_iff hfr, hiff, div_pos_iff_of_pos_right hpow]
    constructor
    · rintro (h | h)
      · have : (0 : ℚ) < num low.reverse := by exact_mod_cast h
        linarith
      · linarith
    · intro h
      by_cases hz : 0 < num low.reverse
      · exact Or.inl hz
      · have hz0 : num low.reverse = 0 := by omega
        rw [hz0, Nat.cast_zero, zero_add] at h
        exact Or.inr h
  · show _ * (10 : ℚ) ^ (((List.take need _).length : ℤ) - ((Nat.digits 10 A).length : ℤ)) = _
    rw [hlen, show (need : ℤ) - ((Nat.digits 10 A).length : ℤ) = -(low.length : ℤ) by
      omega, zpow_neg, zpow_natCast, hsplitq, ← div_eq_mul_inv, add_assoc, add_div,
      mul_div_cancel_right₀ _ hpow.ne']

/-- Cut behind the point. -/
theorem expands_frac {rest : List Nat} (hA : A ≠ 0) (hlt : val fr < 2 ^ fbits)
    (hneed : (Nat.digits 10 A).length ≤ need) (hds : IsDigits 10 ds)
    (hlen : ds.length ≤ need - (Nat.digits 10 A).length) (hrest : Normal base rest)
    (hrestlt : val rest < 2 ^ fbits)
    (hsplit : val fr * 10 ^ ds.length = num ds * 2 ^ fbits + val rest)
    (hexact : ds.length < need - (Nat.digits 10 A).length → val rest = 0) :
    Expands ((A : ℚ) + val fr / 2 ^ fbits) need
      ⟨(Nat.digits 10 A).length, (Nat.digits 10 A).reverse ++ ds, !bnZero rest⟩ := by
  obtain ⟨h0, h1, -⟩ := rest_bounds hlt
  obtain ⟨h2, h3, hiff⟩ := rest_bounds hrestlt
  obtain ⟨hupper, hlower⟩ := magnitude_int hA h0 h1
  have hlength : ((Nat.digits 10 A).reverse ++ ds).length =
      (Nat.digits 10 A).length + ds.length := by
    rw [List.length_append, List.length_reverse]
  refine ⟨?_, by rw [hlength]; omega, ?_, hupper, fun _ => hlower⟩
  · refine Cut.of_add ((isDigits_digits A).append hds) h2 h3
      ((bnZero_not_iff hrest).trans hiff) ?_
    have hq := frac_behind hsplit
    show _ * (10 : ℚ) ^ (((_ ++ _ : List ℕ).length : ℤ) - ((Nat.digits 10 A).length : ℤ)) = _
    rw [hlength, Nat.cast_add, add_sub_cancel_left, zpow_natCast, add_mul, hq, num_append,
      num_digits]
    push_cast
    ring
  · intro hshort
    rw [hlength] at hshort
    rw [Bool.not_eq_false', bnZero_iff hrest]
    exact hexact (by omega)

theorem expand_spec {m : Nat} (hm : m < 2 ^ 64) (e2 : Int) (need : Nat) :
    Expands ((m : ℚ) * 2 ^ e2) need (expand m e2 need) := by
  obtain ⟨hip, hfr, hfrlt, hv⟩ := parts_spec hm e2
  have hfuel : val (intPart m e2) < 10 ^ (32 * (intPart m e2).length) := by
    calc val (intPart m e2) < base ^ (intPart m e2).length := val_lt hip.digits
      _ = 2 ^ (32 * (intPart m e2).length) := base_pow _
      _ ≤ 10 ^ (32 * (intPart m e2).length) := Nat.pow_le_pow_left (by decide) _
  have htmp := intDigits_eq hip hfuel
  unfold expand
  simp only
  rw [htmp, hv]
  generalize val (intPart m e2) = A
  generalize fracPart m e2 = fr at hfr hfrlt ⊢
  generalize fracBits e2 = fbits at hfrlt ⊢
  by_cases hA : A = 0
  · -- no digit before the point
    subst hA
    have hmany : val fr ≠ 0 → 2 ^ fbits ≤ val fr * 10 ^ (fbits + 1) := fun hne => by
      calc 2 ^ fbits ≤ 10 ^ fbits := Nat.pow_le_pow_left (by decide) _
        _ ≤ 10 ^ (fbits + 1) := Nat.pow_le_pow_right (by decide) (Nat.le_succ _)
        _ ≤ val fr * 10 ^ (fbits + 1) := Nat.le_mul_of_pos_left _ (Nat.pos_of_ne_zero hne)
    obtain ⟨z, h1, h2, h3, h4, h5⟩ := leadZeros_spec (x := 0) hfr hfrlt hmany
    obtain ⟨h6, h7, h8, h9, h10, h11⟩ := fxFracDigits_spec (k := need) h1 (by rwa [h2])
    have hbelow := expands_below h2 h4 h5 h6 h7 h8 h9 h10 h11
    simp only [Nat.digits_zero, List.length_nil, if_true, Nat.zero_min, Nat.sub_zero, List.take_nil,
      List.reverse_nil, List.nil_append, Nat.cast_zero, zero_add]
    rw [h3, Int.zero_sub]
    exact hbelow
  · have hlen : ¬(Nat.digits 10 A).length = 0 :=
      mt List.length_eq_zero_iff.1 (Nat.digits_ne_nil_iff_ne_zero.2 hA)
    rw [if_neg hlen]
    by_cases hneed : need ≤ (Nat.digits 10 A).length
    · rw [Nat.min_eq_right hneed, Nat.sub_self, fxFracDigits, List.append_nil]
      exact expands_int hA hfr hfrlt hneed
    · have hle : (Nat.digits 10 A).length ≤ need := by omega
      rw [Nat.min_eq_left hle, Nat.sub_self, List.take_zero,
        List.take_of_length_le (List.length_reverse).le]
      obtain ⟨h6, h7, h8, h9, h10, h11⟩ :=
        fxFracDigits_spec (k := need - (Nat.digits 10 A).length) hfr hfrlt
      exact expands_frac hA hfrlt hle h6 h7 h8 h9 h10 h11

/-! ## Rounding -/

/-- The number that exponent and digits stand for. -/
def Fx.value (st : Fx) : ℚ := num st.digits * 10 ^ (st.x - st.digits.length)

/-- One more at the last place; behind it are zeros. -/
theorem carryUp_spec (x : Int) (j : Nat) (hds : IsDigits 10 ds) (hne : 0 < ds.length + j) :
    (carryUp x (ds ++ List.replicate j 0) ds.length).2.length = ds.length + j ∧
      IsDigits 10 (carryUp x (ds ++ List.replicate j 0) ds.length).2 ∧
      (((carryUp x (ds ++ List.replicate j 0) ds.length).1 = x ∧
          num (carryUp x (ds ++ List.replicate j 0) ds.length).2 = (num ds + 1) * 10 ^ j) ∨
        ((carryUp x (ds ++ List.replicate j 0) ds.length).1 = x + 1 ∧
          num ds + 1 = 10 ^ ds.length ∧
          num (carryUp x (ds ++ List.replicate j 0) ds.length).2 * 10 = 10 ^ (ds.length + j))) := by
  induction ds using List.reverseRecOn generalizing j with
  | nil =>
    obtain ⟨k, rfl⟩ := Nat.exists_eq_succ_of_ne_zero (show j ≠ 0 by simp at hne; omega)
    have hzeros : IsDigits 10 (List.replicate k 0) := by
      intro d hd
      rw [List.eq_of_mem_replicate hd]
      decide
    refine ⟨by simp [carryUp], ?_, Or.inr ⟨rfl, rfl, ?_⟩⟩
    · simpa [carryUp] using IsDigits.cons (by decide) hzeros
    · simp [carryUp, num_cons, Nat.pow_succ]
  | append_singleton ds d ih =>
    have hd : d < 10 := hds d (by simp)
    have hrest : IsDigits 10 ds := fun e he => hds e (by simp [he])
    have hget : ((ds ++ [d]) ++ List.replicate j 0).getD ds.length 0 = d := by
      rw [List.append_assoc, ← Nat.add_zero ds.length, ← getD_drop, List.drop_left]
      rfl
    have hset (e : Nat) : ((ds ++ [d]) ++ List.replicate j 0).set ds.length e =
        (ds ++ [e]) ++ List.replicate j 0 := by
      rw [List.append_assoc, List.set_append_right _ _ (Nat.le_refl _), Nat.sub_self,
        List.append_assoc]
      rfl
    rw [List.length_append, List.length_singleton, carryUp]
    simp only [hget, hset]
    by_cases hnine : d < 9
    · rw [if_pos hnine]
      refine ⟨?_, ?_, Or.inl ⟨rfl, ?_⟩⟩
      · simp only [List.length_append, List.length_singleton, List.length_replicate]
      · refine (hrest.append (IsDigits.singleton (by omega))).append fun e he => ?_
        rw [List.eq_of_mem_replicate he]
        decide
      · rw [num_append, num_concat, num_concat, num_zeros, List.length_replicate]
        ring
    · rw [if_neg hnine]
      have hzero : (ds ++ [0]) ++ List.replicate j 0 = ds ++ List.replicate (j + 1) 0 := by
        rw [List.append_assoc]
        rfl
      obtain ⟨h1, h2, h3⟩ := ih (j + 1) hrest (Nat.succ_pos _)
      have hd9 : d = 9 := by omega
      rw [hzero, num_concat, hd9]
      refine ⟨by rw [h1]; omega, h2, ?_⟩
      rcases h3 with ⟨hx, hnum⟩ | ⟨hx, hall, hnum⟩
      · refine Or.inl ⟨hx, ?_⟩
        rw [hnum, Nat.pow_succ]
        ring
      · refine Or.inr ⟨hx, ?_, ?_⟩
        · rw [Nat.pow_succ, ← hall]
          ring
        · rw [hnum]
          congr 1
          omega

/-- With zeros behind a row that says all, the row is as long as asked for. -/
theorem padded_cut (h : Expands v need st) (hk : k < need) :
    Cut (st.digits ++ List.replicate ((k : Int) + 1 - st.digits.length).toNat 0) st.sticky
        (v * 10 ^ (((st.digits ++ List.replicate ((k : Int) + 1 - st.digits.length).toNat
          0).length : ℤ) - st.x)) ∧
      k < (st.digits ++ List.replicate ((k : Int) + 1 - st.digits.length).toNat 0).length := by
  obtain ⟨p, hp⟩ : ∃ p, p = ((k : Int) + 1 - st.digits.length).toNat := ⟨_, rfl⟩
  rw [← hp]
  have hlen : (st.digits ++ List.replicate p 0).length = st.digits.length + p := by
    rw [List.length_append, List.length_replicate]
  refine ⟨?_, by rw [hlen]; omega⟩
  rw [hlen]
  by_cases hzero : p = 0
  · rw [hzero, List.replicate_zero, List.append_nil, Nat.add_zero]
    exact h.cut
  · have hsticky := h.exact (by omega)
    have hcut := h.cut
    have heq : v * 10 ^ ((st.digits.length : ℤ) - st.x) = num st.digits := by
      by_contra hne
      have hlt := lt_of_le_of_ne hcut.le (Ne.symm hne)
      have := hcut.sticky_iff.2 hlt
      rw [hsticky] at this
      cases this
    refine Cut.of_add (δ := 0) (hcut.digits.append fun d hd => ?_) le_rfl one_pos ?_ ?_
    · rw [List.eq_of_mem_replicate hd]
      decide
    · rw [hsticky]
      simp
    · rw [num_append, num_zeros, List.length_replicate, Nat.cast_add, add_sub_right_comm,
        zpow_add₀ (by norm_num), ← mul_assoc, heq, zpow_natCast]
      push_cast
      ring

/-- `r` is `v`, of decimal exponent `x`, rounded to `keep` digits, ties to even. -/
structure Rounded (v : ℚ) (x keep : Int) (r : Fx) : Prop where
  digits : IsDigits 10 r.digits
  value : r.value = halfEven (v * 10 ^ (keep - x)) * 10 ^ (x - keep)
  exponent : r.x = if (halfEven (v * 10 ^ (keep - x)) : ℚ) = 10 ^ keep then x + 1 else x
  length : 0 < keep → (r.digits.length : Int) = keep

/-- Nothing is kept of a number that ends far below the last place. -/
theorem rounded_none {keep : Int} (hv : 0 ≤ v) (hlt : v < 10 ^ st.x) (hk : keep < 0) :
    Rounded v st.x keep { st with digits := [] } := by
  have hten : (10 : ℚ) ^ keep ≤ 1 / 10 := by
    have h := zpow_le_zpow_right₀ (a := (10 : ℚ)) (by norm_num) (show keep ≤ -1 by omega)
    norm_num at h ⊢
    exact h
  have hy : v * 10 ^ (keep - st.x) < 1 / 10 := by
    have hpow : (0 : ℚ) < 10 ^ (keep - st.x) := zpow_pos (by norm_num) _
    calc v * 10 ^ (keep - st.x) < 10 ^ st.x * 10 ^ (keep - st.x) := mul_lt_mul_of_pos_right hlt hpow
      _ = 10 ^ keep := by rw [← zpow_add₀ (by norm_num), add_sub_cancel]
      _ ≤ 1 / 10 := hten
  have h0 : 0 ≤ v * 10 ^ (keep - st.x) := mul_nonneg hv (zpow_pos (by norm_num) _).le
  have hzero : halfEven (v * 10 ^ (keep - st.x)) = 0 := by
    have hfloor : ⌊v * 10 ^ (keep - st.x)⌋ = 0 := by
      rw [Int.floor_eq_iff]
      push_cast
      constructor <;> linarith
    unfold halfEven
    rw [hfloor, if_pos]
    linarith
  refine ⟨IsDigits.nil 10, ?_, ?_, fun h => absurd h (by omega)⟩
  · rw [hzero, Fx.value]
    simp
  · rw [hzero, if_neg]
    have : (0 : ℚ) < 10 ^ keep := zpow_pos (by norm_num) _
    exact this.ne

theorem odd_iff (hk : k ≤ ds.length) :
    (decide (k > 0) && (ds.getD (k - 1) 0 &&& 1 == 1)) = true ↔ num (ds.take k) % 2 = 1 := by
  cases k with
  | zero => simp
  | succ k =>
    have hlt : k < ds.length := hk
    have htake : ds.take (k + 1) = ds.take k ++ [ds.getD k 0] := by
      rw [List.getD_eq_getElem _ _ hlt, List.take_append_getElem hlt]
    rw [htake, num_concat, Nat.add_sub_cancel, Nat.and_one_is_mod]
    simp only [gt_iff_lt, Nat.succ_pos, decide_true, Bool.true_and, beq_iff_eq]
    omega

theorem roundDigits_rounded {keep : Int} (hv : 0 ≤ v) (h : Expands v need st) (hk : keep < need) :
    Rounded v st.x keep (roundDigits st keep) := by
  unfold roundDigits
  simp only
  by_cases hneg : keep < 0
  · rw [if_pos hneg]
    exact rounded_none hv h.lt hneg
  rw [if_neg hneg]
  obtain ⟨k, rfl⟩ := Int.eq_ofNat_of_zero_le (not_lt.1 hneg)
  obtain ⟨hcut, hlen⟩ := padded_cut (k := k) h (by exact_mod_cast hk)
  rw [Int.toNat_natCast]
  generalize st.digits ++ List.replicate ((k : Int) + 1 - st.digits.length).toNat 0 = ds
    at hcut hlen ⊢
  have hsplit : ds = ds.take k ++ ds.getD k 0 :: ds.drop (k + 1) := by
    rw [List.getD_eq_getElem _ _ hlen, List.getElem_cons_drop hlen, List.take_append_drop]
  have htake : (ds.take k).length = k := by rw [List.length_take, Nat.min_eq_left hlen.le]
  have hdigits : IsDigits 10 (ds.take k) := hcut.digits.take k
  have hlt : num (ds.take k) < 10 ^ k := by
    have := num_lt hdigits
    rwa [htake] at this
  have hscale : v * 10 ^ ((ds.length : ℤ) - st.x) / 10 ^ ((ds.drop (k + 1)).length + 1) =
      v * 10 ^ ((k : ℤ) - st.x) := by
    have hrest : (ds.drop (k + 1)).length + 1 = ds.length - k := by
      rw [List.length_drop]
      omega
    rw [hrest, mul_div_assoc, ← zpow_natCast, ← zpow_sub₀ (by norm_num), Nat.cast_sub hlen.le]
    congr 2
    ring
  have hround := halfEven_of_cut (by rwa [← hsplit])
  rw [hscale] at hround
  have hup : (decide (ds.getD k 0 > 5) || (ds.getD k 0 == 5 &&
      ((st.sticky || digitsNz (ds.drop (k + 1))) ||
        (decide (k > 0) && (ds.getD (k - 1) 0 &&& 1 == 1))))) = true ↔
      (5 < ds.getD k 0 ∨ (ds.getD k 0 = 5 ∧
        ((st.sticky = true ∨ ∃ d ∈ ds.drop (k + 1), d ≠ 0) ∨ num (ds.take k) % 2 = 1))) := by
    rw [Bool.or_eq_true, Bool.and_eq_true, Bool.or_eq_true, odd_iff hlen.le, Bool.or_eq_true,
      decide_eq_true_eq, beq_iff_eq, digitsNz, List.any_eq_true]
    simp
  generalize (decide (ds.getD k 0 > 5) || (ds.getD k 0 == 5 &&
      ((st.sticky || digitsNz (ds.drop (k + 1))) ||
        (decide (k > 0) && (ds.getD (k - 1) 0 &&& 1 == 1))))) = up at hup ⊢
  by_cases hcond : up = true
  · -- the next number
    rw [if_pos (hup.1 hcond)] at hround
    rw [hcond, if_neg (by decide)]
    by_cases hzero : k = 0
    · subst hzero
      refine ⟨IsDigits.singleton (by decide), ?_, ?_, fun h => absurd h (by decide)⟩
      · rw [hround]
        simp [Fx.value, num]
      · rw [hround]
        simp
    · rw [if_neg hzero]
      obtain ⟨h1, h2, h3⟩ := carryUp_spec st.x 0 hdigits (by omega)
      rw [List.replicate_zero, List.append_nil, htake] at h1 h2 h3
      rw [Nat.add_zero] at h1
      have hlast : ((num (ds.take k) : ℤ) + 1 : ℤ) = ((num (ds.take k) + 1 : ℕ) : ℤ) := by
        rfl
      refine ⟨h2, ?_, ?_, fun _ => by rw [h1]⟩
      · rw [hround, hlast, Int.cast_natCast, Fx.value]
        simp only [h1]
        rcases h3 with ⟨hx, hnum⟩ | ⟨hx, hall, hnum⟩
        · rw [hx, hnum, Nat.pow_zero, Nat.mul_one]
        · have hq : (num (carryUp st.x (ds.take k) k).2 : ℚ) * 10 = (num (ds.take k) + 1 : ℕ) := by
            rw [hall]
            exact_mod_cast hnum
          rw [hx, ← hq, mul_assoc, ← zpow_one_add₀ (by norm_num)]
          ring
      · rw [hround, hlast, Int.cast_natCast, zpow_natCast]
        simp only
        rcases h3 with ⟨hx, hnum⟩ | ⟨hx, hall, hnum⟩
        · rw [hx, if_neg]
          intro heq
          have hfull : num (ds.take k) + 1 = 10 ^ k := by exact_mod_cast heq
          have hbound := num_lt h2
          rw [h1, hnum, Nat.pow_zero, Nat.mul_one] at hbound
          omega
        · rw [hx, if_pos]
          exact_mod_cast hall
  · rw [if_neg fun h => hcond (hup.2 h)] at hround
    rw [if_pos (by simpa using hcond)]
    refine ⟨hdigits, ?_, ?_, fun _ => by exact_mod_cast htake⟩
    · rw [hround, Fx.value]
      simp only [htake, Int.cast_natCast]
    · rw [hround, if_neg]
      intro heq
      have : num (ds.take k) = 10 ^ k := by exact_mod_cast heq
      omega

/-- Digits asked for by their number or by their place behind the point are the value's own,
rounded there with ties to even; the exponent goes up by one when a carry runs through them all. -/
theorem digits_rounded {m : Nat} (hm : m < 2 ^ 53) (e2 : Int) :
    ∃ x : Int, (m ≠ 0 → (10 : ℚ) ^ (x - 1) ≤ m * 2 ^ e2) ∧ (m : ℚ) * 2 ^ e2 < 10 ^ x ∧
      (∀ prec : Nat, Rounded (m * 2 ^ e2) x prec (significant m e2 prec)) ∧
      (∀ prec : Nat, Rounded (m * 2 ^ e2) x (x + prec) (afterPoint m e2 prec) ∧
        (afterPoint m e2 prec).value = halfEven (m * 2 ^ e2 * 10 ^ prec) / 10 ^ prec) ∧
      ∀ (need : Nat) (keep : Int), keep < need →
        Rounded (m * 2 ^ e2) x keep (roundDigits (expand m e2 need) keep) := by
  have hm64 : m < 2 ^ 64 := hm.trans (by decide)
  have hpow : (0 : ℚ) < 2 ^ e2 := zpow_pos (by norm_num) _
  have hv : (0 : ℚ) ≤ m * 2 ^ e2 := mul_nonneg (Nat.cast_nonneg m) hpow.le
  have hall (need : Nat) (keep : Int) (hk : keep < need) :
      Rounded (m * 2 ^ e2) (expand m e2 1).x keep (roundDigits (expand m e2 need) keep) := by
    exact roundDigits_rounded hv (expand_spec hm64 e2 need) hk
  have hone := expand_spec hm64 e2 1
  refine ⟨(expand m e2 1).x, ?_, hone.lt, ?_, ?_, hall⟩
  · intro hne
    exact hone.le (mul_ne_zero (by exact_mod_cast hne) hpow.ne')
  · intro prec
    exact hall (prec + 1) prec (by omega)
  · intro prec
    have hround : Rounded (m * 2 ^ e2) (expand m e2 1).x ((expand m e2 1).x + prec)
        (afterPoint m e2 prec) := by
      unfold afterPoint
      exact hall _ _ (by omega)
    refine ⟨hround, ?_⟩
    rw [hround.value, add_sub_cancel_left, zpow_natCast, sub_add_cancel_left, zpow_neg,
      zpow_natCast, div_eq_mul_inv]

/-- 9.5 without a digit after the point: the tie goes to the even ten, one place higher. -/
theorem digits_rounded_carry : (afterPoint 19 (-1) 0).value = 10 := by
  obtain ⟨x, -, -, -, hafter, -⟩ := digits_rounded (m := 19) (by decide) (-1)
  rw [(hafter 0).2]
  norm_num [halfEven]

end FloatText

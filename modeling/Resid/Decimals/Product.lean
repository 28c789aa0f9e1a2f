import Resid.Decimals.Text
import Resid.Lib.CheckedInt

/-!
# Products of decimals

A product of coefficients is built row by row: limb `i` of the one times all of the other is
added into the limbs from `i` up.  A row splits each product by `divB` and carries its high
limb and one bit apart, so no limb passes the base.

    val (mulRowAt xi y r h c) = val r + xi * val y + h + c           (mulRowAt_spec)
    val (mulRows x y 0…0) = val x * val y                            (mulRows_spec)
    Rounds p (a * b) (mulV a b p)                                    (mulV_rounds)
    cmpV a b is the order of the numbers, mulLimbs the product        (cmpV_mulLimbs)

## Algorithm

A row walks `y` and the limbs it adds into in step; the limb after them is still zero, and takes
the carry out.  An operand of one limb needs no rows.
-/

namespace Decimals

open FixedWidth Positional RoundAway Runtime

/-- `r + xi * y` with the carries `hprev` and `cb` coming in. -/
def mulRowAt (xi : Nat) : List Nat → List Nat → Nat → Nat → List Nat
  | [], _ :: r, hprev, cb => wrap 64 (hprev + cb) :: r
  | y :: ys, x :: r, hprev, cb =>
    let p := xi * y + x
    let hi := divB p
    let lo := wrapSub 64 (wrap 64 p) (wrapMul 64 hi bb)
    let xx := wrap 64 (lo + cb)
    let t := bb - hprev
    let c := xx ≥ t
    (if c then xx - t else xx + hprev) :: mulRowAt xi ys r hi (if c then 1 else 0)
  | _, [], _, _ => []

def mulRow (xi : Nat) (y r : List Nat) : List Nat := mulRowAt xi y r 0 0

/-- The rows of the limbs `x`, added into `r` from its first limb on. -/
def mulRows : List Nat → List Nat → List Nat → List Nat
  | [], _, r => r
  | xi :: x, y, r =>
    match if xi ≠ 0 then mulRow xi y r else r with
    | [] => []
    | low :: rest => low :: mulRows x y rest

/-- The limbs of the product of two coefficients, before rounding. -/
def mulLimbs (a b : List Nat) : List Nat :=
  if b.length = 1 then mul1 a (b.getD 0 0)
  else if a.length = 1 then mul1 b (a.getD 0 0)
  else mulRows a b (List.replicate (a.length + b.length) 0)

/-- `a * b`, rounded once to `prec`. -/
def mulV (a b : Block) (prec : Nat) : Except String Block := do
  if a.sign = 0 ∨ b.sign = 0 then pure (dzero prec)
  else
    let sign := if a.sign = b.sign then 1 else -1
    let exp := a.exp + b.exp
    dalloc (a.limbs.length + b.limbs.length + 1)
    finish sign (mulLimbs a.limbs b.limbs) exp prec

/-! ## One row -/

/-- One limb of a row: the two carries out stay below the base together. -/
theorem mulRow_digit {xi y x hprev cb : Nat} (hxi : xi < bb) (hy : y < bb) (hx : x < bb)
    (hcarry : hprev + cb ≤ xi) :
    let p := xi * y + x
    let lo := p % bb
    let c := lo + cb ≥ bb - hprev
    let digit := if c then lo + cb - (bb - hprev) else lo + cb + hprev
    let carry := if c then 1 else 0
    digit < bb ∧ p / bb + carry ≤ xi ∧
      digit + bb * (p / bb + carry) = x + xi * y + hprev + cb := by
  intro p lo c digit carry
  have hdiv := Nat.div_add_mod p bb
  have hmod : lo < bb := Nat.mod_lt p bb_pos
  have hfull : digit + bb * (p / bb + carry) = x + xi * y + hprev + cb ∧ digit < bb := by
    by_cases hc : lo + cb ≥ bb - hprev
    · have hd : digit = lo + cb - (bb - hprev) := if_pos hc
      have hcar : carry = 1 := if_pos hc
      rw [hd, hcar, Nat.mul_add, Nat.mul_one]
      omega
    · have hd : digit = lo + cb + hprev := if_neg hc
      have hcar : carry = 0 := if_neg hc
      rw [hd, hcar, Nat.add_zero]
      omega
  refine ⟨hfull.2, ?_, hfull.1⟩
  -- all that comes in is at most `xi * bb + (bb - 1)`
  have hle : x + xi * y + hprev + cb < bb * (xi + 1) := by
    have hrow : xi * y + xi ≤ xi * bb := by
      calc xi * y + xi = xi * (y + 1) := by ring
        _ ≤ xi * bb := Nat.mul_le_mul_left xi hy
    rw [Nat.mul_add, Nat.mul_one, Nat.mul_comm bb]
    omega
  have hlt : bb * (p / bb + carry) < bb * (xi + 1) := by omega
  exact Nat.lt_succ_iff.1 (Nat.lt_of_mul_lt_mul_left hlt)

/-- A row adds `xi` times `y`, into the limbs over `y` and the zero limb after them. -/
theorem mulRowAt_spec {xi : Nat} (hxi : xi < bb) {y : List Nat} : ∀ {r : List Nat} {hprev cb : Nat},
    IsDigits bb y → IsDigits bb r → y.length < r.length → r.getD y.length 0 = 0 → cb ≤ 1 →
    hprev + cb ≤ xi →
    IsDigits bb (mulRowAt xi y r hprev cb) ∧
      (mulRowAt xi y r hprev cb).drop (y.length + 1) = r.drop (y.length + 1) ∧
      (mulRowAt xi y r hprev cb).length = r.length ∧
      val (mulRowAt xi y r hprev cb) = val r + xi * val y + hprev + cb := by
  have hB : bb = 10000000000000000000 := rfl
  induction y with
  | nil =>
    intro r hprev cb _ hr hlen hzero hcb hcarry
    cases r with
    | nil => exact absurd hlen (Nat.not_lt_zero 0)
    | cons x r =>
      have hx : x = 0 := hzero
      have hw : wrap 64 (hprev + cb) = hprev + cb := Nat.mod_eq_of_lt (by omega)
      rw [mulRowAt, hw]
      refine ⟨IsDigits.cons (by omega) hr.of_cons.2, rfl, rfl, ?_⟩
      rw [val_cons, val_cons, val_nil, hx]
      omega
  | cons y0 y ih =>
    intro r hprev cb hy hr hlen hzero hcb hcarry
    cases r with
    | nil => exact absurd hlen (Nat.not_lt_zero _)
    | cons x r =>
      obtain ⟨hy0, hy⟩ := hy.of_cons
      obtain ⟨hx, hr⟩ := hr.of_cons
      have hp : xi * y0 + x < bb * bb := by
        calc xi * y0 + x < xi * y0 + bb := Nat.add_lt_add_left hx _
          _ ≤ (bb - 1) * bb + bb := Nat.add_le_add_right (Nat.mul_le_mul (by omega) hy0.le) _
          _ = bb * bb := by rw [← Nat.succ_mul, Nat.succ_eq_add_one, Nat.sub_add_cancel bb_pos]
      have hmod := Nat.mod_lt (xi * y0 + x) bb_pos
      have hw : wrap 64 ((xi * y0 + x) % bb + cb) = (xi * y0 + x) % bb + cb :=
        Nat.mod_eq_of_lt (by omega)
      obtain ⟨hdigit, hout, hsum⟩ := mulRow_digit hxi hy0 hx hcarry
      unfold mulRowAt
      simp only [divB_eq hp, lowWord_eq, hw]
      generalize (if (xi * y0 + x) % bb + cb ≥ bb - hprev
        then (xi * y0 + x) % bb + cb - (bb - hprev) else (xi * y0 + x) % bb + cb + hprev) = digit
        at hdigit hsum ⊢
      have hbit : (if (xi * y0 + x) % bb + cb ≥ bb - hprev then 1 else 0) ≤ 1 := by
        split_ifs <;> omega
      generalize (if (xi * y0 + x) % bb + cb ≥ bb - hprev then 1 else 0) = bit
        at hbit hout hsum ⊢
      obtain ⟨h1, h2, h3, h4⟩ := @ih r ((xi * y0 + x) / bb) bit hy hr
        (Nat.lt_of_succ_lt_succ hlen) hzero hbit hout
      refine ⟨IsDigits.cons hdigit h1, ?_, congrArg (· + 1) h3, ?_⟩
      · rw [List.length_cons, List.drop_succ_cons, List.drop_succ_cons]
        exact h2
      · rw [val_cons, val_cons, val_cons, h4]
        calc digit + bb * (val r + xi * val y + (xi * y0 + x) / bb + bit)
            = digit + bb * ((xi * y0 + x) / bb + bit) + bb * (val r + xi * val y) := by ring
          _ = x + bb * val r + xi * (y0 + bb * val y) + hprev + cb := by
            rw [hsum]
            ring

/-! ## All rows -/

/-- The rows still to come add their product; above the limbs over `y` all is still zero. -/
theorem mulRows_add {x : List Nat} : ∀ {y r : List Nat}, IsDigits bb x → IsDigits bb y →
    IsDigits bb r → r.length = x.length + y.length → r.drop y.length = List.replicate x.length 0 →
    IsDigits bb (mulRows x y r) ∧ (mulRows x y r).length = r.length ∧
      val (mulRows x y r) = val r + val x * val y := by
  induction x with
  | nil =>
    intro y r _ _ hr _ _
    exact ⟨hr, rfl, by rw [mulRows, val_nil, Nat.zero_mul, Nat.add_zero]⟩
  | cons xi x ih =>
    intro y r hx hy hr hlen hzero
    obtain ⟨hxi, hx⟩ := hx.of_cons
    rw [List.length_cons] at hlen hzero
    have hover : r.getD y.length 0 = 0 := by
      have hat := congrArg (fun l => l[0]?) hzero
      simp only [List.getElem?_drop, Nat.add_zero, List.replicate_succ,
        List.getElem?_cons_zero] at hat
      rw [List.getD_eq_getElem?_getD, hat, Option.getD_some]
    have hnext : r.drop (y.length + 1) = List.replicate x.length 0 := by
      have hd := congrArg (List.drop 1) hzero
      rw [List.drop_drop, List.replicate_succ, List.drop_succ_cons, List.drop_zero] at hd
      exact hd
    obtain ⟨row, hrow⟩ : ∃ row, (if xi ≠ 0 then mulRow xi y r else r) = row := ⟨_, rfl⟩
    have hspec : IsDigits bb row ∧ row.drop (y.length + 1) = r.drop (y.length + 1) ∧
        row.length = r.length ∧ val row = val r + xi * val y := by
      rw [← hrow]
      by_cases h0 : xi ≠ 0
      · rw [if_pos h0]
        exact mulRowAt_spec hxi hy hr (by omega) hover (Nat.zero_le 1) (Nat.zero_le xi)
      · rw [if_neg h0, not_not.1 h0, Nat.zero_mul, Nat.add_zero]
        exact ⟨hr, rfl, rfl, rfl⟩
    obtain ⟨h1, h2, h3, h4⟩ := hspec
    unfold mulRows
    rw [hrow]
    cases row with
    | nil =>
      rw [List.length_nil] at h3
      omega
    | cons low rest =>
      obtain ⟨hlow, hrest⟩ := h1.of_cons
      rw [List.length_cons] at h3
      rw [List.drop_succ_cons, hnext] at h2
      obtain ⟨i1, i2, i3⟩ := ih hx hy hrest (by omega) h2
      refine ⟨IsDigits.cons hlow i1, ?_, ?_⟩
      · show (mulRows x y rest).length + 1 = r.length
        omega
      · show val (low :: mulRows x y rest) = _
        rw [val_cons] at h4
        rw [val_cons, val_cons, i3]
        calc low + bb * (val rest + val x * val y)
            = low + bb * val rest + bb * (val x * val y) := by ring
          _ = val r + (xi + bb * val x) * val y := by
            rw [h4]
            ring

/-- The rows of two coefficients of any lengths make their product, exactly. -/
theorem mulRows_spec {x y : List Nat} (hx : IsDigits bb x) (hy : IsDigits bb y) :
    IsDigits bb (mulRows x y (List.replicate (x.length + y.length) 0)) ∧
      (mulRows x y (List.replicate (x.length + y.length) 0)).length = x.length + y.length ∧
      val (mulRows x y (List.replicate (x.length + y.length) 0)) = val x * val y := by
  have hzeros : IsDigits bb (List.replicate (x.length + y.length) 0) := by
    intro d hd
    rw [List.eq_of_mem_replicate hd]
    exact bb_pos
  obtain ⟨h1, h2, h3⟩ := mulRows_add hx hy hzeros List.length_replicate (by
    rw [List.drop_replicate, Nat.add_sub_cancel])
  refine ⟨h1, by rw [h2, List.length_replicate], ?_⟩
  rw [h3]
  show Nat.ofDigits bb (List.replicate _ 0) + _ = _
  rw [Nat.ofDigits_replicate_zero, Nat.zero_add]

/-! ## The product of two values -/

theorem mulLimbs_spec {a b : List Nat} (ha : IsDigits bb a) (hb : IsDigits bb b) :
    IsDigits bb (mulLimbs a b) ∧ val (mulLimbs a b) = val a * val b := by
  have hone : ∀ l : List Nat, l.length = 1 → val l = l.getD 0 0 := by
    intro l hl
    obtain ⟨d, rfl⟩ := List.length_eq_one_iff.1 hl
    show val [d] = d
    rw [val_cons, val_nil, Nat.mul_zero, Nat.add_zero]
  unfold mulLimbs
  split_ifs with h1 h2
  · obtain ⟨hdig, -, hval⟩ := mul1_spec ha (hb.getD_lt bb_pos 0)
    rw [hone b h1]
    exact ⟨hdig, hval⟩
  · obtain ⟨hdig, -, hval⟩ := mul1_spec hb (ha.getD_lt bb_pos 0)
    rw [hone a h2, Nat.mul_comm]
    exact ⟨hdig, hval⟩
  · obtain ⟨hdig, -, hval⟩ := mulRows_spec ha hb
    exact ⟨hdig, hval⟩

theorem sign_product {sa sb : Int} (ha : sa = 1 ∨ sa = -1) (hb : sb = 1 ∨ sb = -1) :
    (((if sa = sb then 1 else -1 : Int) : ℚ) = (sa : ℚ) * sb) ∧
      ((if sa = sb then 1 else -1 : Int) = 1 ∨ (if sa = sb then 1 else -1 : Int) = -1) := by
  rcases ha with rfl | rfl <;> rcases hb with rfl | rfl <;> norm_num

/-- A product is the exact product, rounded once. -/
theorem mulV_rounds {a b : Block} (ha : a.Valid) (hb : b.Valid) (p : Prec) :
    Rounds p.val (a.value * b.value) (mulV a b p.val) := by
  unfold mulV
  by_cases hzero : a.sign = 0 ∨ b.sign = 0
  · have hvalue : a.value * b.value = 0 := by
      rcases hzero with h | h
      · rw [Block.Valid.value_zero h, zero_mul]
      · rw [Block.Valid.value_zero h, mul_zero]
    rw [if_pos hzero, hvalue]
    exact rounds_dzero p
  · rw [not_or] at hzero
    have hla := ha.length_lt
    have hlb := hb.length_lt
    have hcap : dalloc (a.limbs.length + b.limbs.length + 1) = .ok () := dalloc_of_le (by omega)
    obtain ⟨hsign, hs⟩ := sign_product (ha.sign_ne_zero hzero.1) (hb.sign_ne_zero hzero.2)
    obtain ⟨hdig, hval⟩ := mulLimbs_spec ha.normal.digits hb.normal.digits
    have hfin := finish_val_rounds hdig hs (a.exp + b.exp) p
    have hvalue : a.value * b.value = ((if a.sign = b.sign then 1 else -1 : Int) : ℚ) *
        (val (mulLimbs a.limbs b.limbs) : ℕ) * 10 ^ (a.exp + b.exp) := by
      rw [hval, hsign, Block.value, Block.value, zpow_add₀ ten_ne_zero']
      push_cast
      ring
    rw [if_neg (not_or.2 hzero), hvalue]
    simp only [hcap]
    exact hfin

/-- The places and distances a comparison computes fit a word. -/
theorem places_fit {a b : Block} (ha : a.Valid) (hb : b.Valid) :
    CheckedInt.Fits 64 (a.exp + a.nd) ∧ CheckedInt.Fits 64 (b.exp + b.nd) ∧
      CheckedInt.Fits 64 (a.exp - b.exp) ∧ CheckedInt.Fits 64 (b.exp - a.exp) := by
  obtain ⟨h1, h2⟩ := ha.exp_fits
  obtain ⟨h3, h4⟩ := hb.exp_fits
  have hna := ha.fits.trans ha.prec.2
  have hnb := hb.fits.trans hb.prec.2
  simp only [CheckedInt.fits_64]
  omega

/-- Values are ordered as the numbers they denote, and the rows of two coefficients are their
exact product, which is what is rounded. -/
theorem cmpV_mulLimbs {a b : Block} (ha : a.Valid) (hb : b.Valid) :
    (a.value < b.value ↔ cmpV a b = -1) ∧ (a.value = b.value ↔ cmpV a b = 0) ∧
      (b.value < a.value ↔ cmpV a b = 1) ∧
      (CheckedInt.Fits 64 (a.exp + a.nd) ∧ CheckedInt.Fits 64 (b.exp + b.nd) ∧
        CheckedInt.Fits 64 (a.exp - b.exp) ∧ CheckedInt.Fits 64 (b.exp - a.exp)) ∧
      val (mulRows a.limbs b.limbs (List.replicate (a.limbs.length + b.limbs.length) 0)) =
        val a.limbs * val b.limbs ∧
      val (mulLimbs a.limbs b.limbs) = val a.limbs * val b.limbs ∧
      ∀ p : Prec, Rounds p.val (a.value * b.value) (mulV a b p.val) := by
  have hcmp := cmpV_spec ha hb
  refine ⟨?_, ?_, ?_, places_fit ha hb, (mulRows_spec ha.normal.digits hb.normal.digits).2.2,
    (mulLimbs_spec ha.normal.digits hb.normal.digits).2, mulV_rounds ha hb⟩
  · rcases hcmp with ⟨hc, h⟩ | ⟨hc, h⟩ | ⟨hc, h⟩
    · exact iff_of_false (lt_asymm h) (by omega)
    · exact iff_of_false h.not_lt (by omega)
    · exact iff_of_true h hc
  · rcases hcmp with ⟨hc, h⟩ | ⟨hc, h⟩ | ⟨hc, h⟩
    · exact iff_of_false h.ne' (by omega)
    · exact iff_of_true h hc
    · exact iff_of_false h.ne (by omega)
  · rcases hcmp with ⟨hc, h⟩ | ⟨hc, h⟩ | ⟨hc, h⟩
    · exact iff_of_true h hc
    · exact iff_of_false h.not_gt (by omega)
    · exact iff_of_false (lt_asymm h) (by omega)

/-- `1.00` and `-0.3`. -/
theorem cmpV_mulLimbs_hundredths :
    let a := Block.mk 1 3 (-2) [100] (ndig [100])
    let b := Block.mk (-1) 1 (-1) [3] (ndig [3])
    (a.value < b.value ↔ cmpV a b = -1) ∧ (a.value = b.value ↔ cmpV a b = 0) ∧
      (b.value < a.value ↔ cmpV a b = 1) ∧
      (CheckedInt.Fits 64 (a.exp + a.nd) ∧ CheckedInt.Fits 64 (b.exp + b.nd) ∧
        CheckedInt.Fits 64 (a.exp - b.exp) ∧ CheckedInt.Fits 64 (b.exp - a.exp)) ∧
      val (mulRows a.limbs b.limbs (List.replicate (a.limbs.length + b.limbs.length) 0)) =
        val a.limbs * val b.limbs ∧
      val (mulLimbs a.limbs b.limbs) = val a.limbs * val b.limbs ∧
      ∀ p : Prec, Rounds p.val (a.value * b.value) (mulV a b p.val) :=
  cmpV_mulLimbs (valid_limb (.inl rfl) (by decide +kernel))
    (valid_limb (.inr rfl) (by decide +kernel))

end Decimals

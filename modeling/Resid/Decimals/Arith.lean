import Resid.Decimals.Limbs
import Resid.Lib.Positional
import Resid.Lib.Limbs
import Resid.Runtime.Dec

/-!
# Coefficients: digits, shifts, sums and differences

A coefficient is a list of limbs without a zero on top.  The routines below may leave zero
limbs on top; `trimTop` takes them off.

    val (trimTop l) = val l                                          (val_trimTop)
    ndig l = Runtime.ndig (val l)                                    (ndig_eq)
    val (dropLimbs l k) = val l / 10 ^ k                             (dropLimbs_spec)
    val (scale a k) = val a * 10 ^ k                                 (scale_spec)
    val (addN a b) = val a + val b                                   (addN_spec)
    val b ≤ val a → val (subN a b) = val a - val b                   (subN_spec)

## Algorithm

Loops over a coefficient run down the list; the low limb comes first.
-/

namespace Decimals

open FixedWidth Positional

def ndig64At (x d : Nat) : Nat := if d < 20 ∧ x ≥ p10 d then ndig64At x (d + 1) else d
termination_by 20 - d

def ndig64 (x : Nat) : Nat := ndig64At x 1

def ndig (l : List Nat) : Nat :=
  if l.length = 0 then 0 else ld * (l.length - 1) + ndig64 (l.getD (l.length - 1) 0)

/-- Without the low `k` digits. -/
def dropLimbs (l : List Nat) (k : Nat) : List Nat :=
  let q := k / ld
  let s := k % ld
  if s = 0 then l.drop q else shiftDown (p10 s) (p10 (ld - s)) (l.drop q)

/-- One more; a carry out grows the list. -/
def roundUp : List Nat → List Nat
  | [] => [1]
  | x :: l => if x + 1 < bb then (x + 1) :: l else 0 :: roundUp l

/-- `a * 10^k`. -/
def scale (a : List Nat) (k : Nat) : List Nat :=
  let q := k / ld
  let s := k % ld
  trimTop (List.replicate q 0 ++ if s = 0 then a ++ [0] else mul1 a (p10 s))

def cmpN (a b : List Nat) : Int :=
  let na := top a a.length
  let nb := top b b.length
  if na ≠ nb then if na > nb then 1 else -1 else cmpFrom a b na

/-- `|a| * 10^ea` against `|b| * 10^eb`. -/
def cmpMag (a : List Nat) (nda : Nat) (ea : Int) (b : List Nat) (ndb : Nat) (eb : Int) : Int :=
  let ma := ea + nda
  let mb := eb + ndb
  if ma ≠ mb then if ma > mb then 1 else -1
  else if ea = eb then cmpN a b
  else if ea > eb then cmpN (scale a (ea - eb).toNat) b
  else cmpN a (scale b (eb - ea).toNat)

/-- One limb of a sum and its carry; `x + b` can pass `2^64`, so `x` is compared with `B - b`. -/
def addDigit (x b : Nat) : Nat × Nat :=
  let t := bb - b
  let cc := x ≥ t
  (if cc then x - t else x + b, if cc then 1 else 0)

/-- One limb of a difference and its borrow. -/
def subDigit (x y : Nat) : Nat × Nat :=
  let bw := x < y
  (if bw then x + (bb - y) else x - y, if bw then 1 else 0)

/-- Walks `b`, two limbs per step. -/
def addLo : List Nat → List Nat → Nat → List Nat × Nat
  | a1 :: a2 :: a, b1 :: b2 :: b, c =>
    let d1 := addDigit (a1 + c) b1
    let d2 := addDigit (a2 + d1.2) b2
    let rest := addLo a b d2.2
    (d1.1 :: d2.1 :: rest.1, rest.2)
  | a1 :: _, [b1], c =>
    let d1 := addDigit (a1 + c) b1
    ([d1.1], d1.2)
  | _, _, c => ([], c)

def addCarry : List Nat → Nat → List Nat × Nat
  | [], c => ([], c)
  | x :: a, c =>
    if c = 0 then (x :: a, c)
    else
      let s := x + 1
      let full := s = bb
      let rest := addCarry a (if full then 1 else 0)
      ((if full then 0 else s) :: rest.1, rest.2)

/-- `a + b` for `a` at least as long as `b`. -/
def addN (a b : List Nat) : List Nat :=
  let r := addLo a b 0
  let s := addCarry (a.drop b.length) r.2
  r.1 ++ s.1 ++ [s.2]

/-- Walks `b`, two limbs per step. -/
def subLo : List Nat → List Nat → Nat → List Nat × Nat
  | a1 :: a2 :: a, b1 :: b2 :: b, br =>
    let d1 := subDigit a1 (b1 + br)
    let d2 := subDigit a2 (b2 + d1.2)
    let rest := subLo a b d2.2
    (d1.1 :: d2.1 :: rest.1, rest.2)
  | a1 :: _, [b1], br =>
    let d1 := subDigit a1 (b1 + br)
    ([d1.1], d1.2)
  | _, _, br => ([], br)

def subBorrow : List Nat → Nat → List Nat
  | [], _ => []
  | x :: a, br =>
    if br = 0 then x :: a
    else
      let z := x = 0
      (if z then bb - 1 else x - 1) :: subBorrow a (if z then 1 else 0)

/-- `a - b` for `a` at least `b`. -/
def subN (a b : List Nat) : List Nat :=
  let r := subLo a b 0
  r.1 ++ subBorrow (a.drop b.length) r.2

/-! ## The top limb -/

variable {a b l : List Nat} {br c x y : Nat}

theorem normal_trim (hl : IsDigits bb l) : Normal bb (trimTop l) :=
  normal_trimTop one_lt_bb hl

theorem val_trimTop (hl : IsDigits bb l) : val (trimTop l) = val l :=
  ofDigits_trimTop one_lt_bb hl

/-- A normal list is empty exactly when it denotes zero. -/
theorem val_eq_zero_iff (hl : Normal bb l) : val l = 0 ↔ l = [] :=
  hl.eq_zero_iff one_lt_bb

/-! ## Counting digits -/

theorem bb_pow (n : Nat) : bb ^ n = 10 ^ (19 * n) := by
  rw [show bb = 10 ^ 19 from rfl, ← Nat.pow_mul]

theorem ndig64At_spec {d : Nat} (hx : x < bb) (hd : d ≤ 19) (hlo : d = 1 ∨ 10 ^ (d - 1) ≤ x) :
    d ≤ ndig64At x d ∧ (ndig64At x d = 1 ∨ 10 ^ (ndig64At x d - 1) ≤ x) ∧
      x < 10 ^ ndig64At x d := by
  induction d using ndig64At.induct x with
  | case1 d hcond ih =>
    rw [ndig64At, if_pos hcond]
    have hle : 10 ^ d ≤ x := hcond.2
    have hd19 : d < 19 := by
      by_contra hge
      have hpow : 10 ^ 19 ≤ 10 ^ d := Nat.pow_le_pow_right (by decide) (by omega)
      have hB : bb = 10 ^ 19 := rfl
      omega
    obtain ⟨h1, h2, h3⟩ := ih (by omega) (.inr hle)
    exact ⟨by omega, h2, h3⟩
  | case2 d hcond =>
    rw [ndig64At, if_neg hcond]
    refine ⟨Nat.le_refl d, hlo, ?_⟩
    have hnot : ¬ 10 ^ d ≤ x := fun hge => hcond ⟨by omega, hge⟩
    omega

/-- The digits of a limb. -/
theorem ndig64_spec (hx : x < bb) (hpos : 0 < x) :
    1 ≤ ndig64 x ∧ 10 ^ (ndig64 x - 1) ≤ x ∧ x < 10 ^ ndig64 x := by
  obtain ⟨h1, h2, h3⟩ := ndig64At_spec hx (by decide : 1 ≤ 19) (.inl rfl)
  refine ⟨h1, ?_, h3⟩
  rcases h2 with h2 | h2
  · unfold ndig64
    rw [h2, Nat.sub_self, Nat.pow_zero]
    exact hpos
  · exact h2

theorem ndig_eq (hl : Normal bb l) : ndig l = Runtime.ndig (val l) := by
  by_cases hne : l = []
  · rw [hne]
    rfl
  obtain ⟨low, t, rfl, hlow, ht, htb⟩ := hl.split_top hne
  obtain ⟨h1, h2, h3⟩ := ndig64_spec htb ht
  have hlen : (low ++ [t]).length = low.length + 1 := by simp
  have htop : (low ++ [t]).getD low.length 0 = t := by simp
  have hcount : ndig (low ++ [t]) = 19 * low.length + ndig64 t := by
    rw [ndig, hlen, if_neg (by omega), Nat.add_sub_cancel, htop]
    rfl
  have hval : val (low ++ [t]) = val low + 10 ^ (19 * low.length) * t := by
    rw [val_append, bb_pow, val_cons, val_nil, Nat.mul_zero, Nat.add_zero]
  have hlt := val_lt hlow
  rw [bb_pow] at hlt
  rw [hcount, hval]
  symm
  apply Runtime.ndig_eq
  · rw [show 19 * low.length + ndig64 t - 1 = 19 * low.length + (ndig64 t - 1) by omega,
      Nat.pow_add]
    exact Nat.le_add_left_of_le (Nat.mul_le_mul_left _ h2)
  · calc val low + 10 ^ (19 * low.length) * t
        < 10 ^ (19 * low.length) + 10 ^ (19 * low.length) * t := Nat.add_lt_add_right hlt _
      _ = 10 ^ (19 * low.length) * (t + 1) := by ring
      _ ≤ 10 ^ (19 * low.length) * 10 ^ ndig64 t := Nat.mul_le_mul_left _ h3
      _ = 10 ^ (19 * low.length + ndig64 t) := (Nat.pow_add _ _ _).symm

/-- A digit of the number is a digit of the limb that holds it. -/
theorem digit_eq (hl : IsDigits bb l) (k : Nat) :
    l.getD (k / ld) 0 / p10 (k % ld) % 10 = val l / 10 ^ k % 10 := by
  rw [getD_eq_digit one_lt_bb hl]
  exact digit_of_digit_pow (c := 10) (m := 19) (by decide) (val l) k

/-! ## Dropping digits -/

theorem val_drop (hl : IsDigits bb l) (q : Nat) :
    val (l.drop q) = val l / bb ^ q := ofDigits_drop one_lt_bb hl q

theorem isDigits_drop (hl : IsDigits bb l) (q : Nat) : IsDigits bb (l.drop q) :=
  fun d hd => hl d (List.mem_of_mem_drop hd)

theorem dropLimbs_spec (hl : IsDigits bb l) (k : Nat) :
    IsDigits bb (dropLimbs l k) ∧ val (dropLimbs l k) = val l / 10 ^ k := by
  have hsplit : 10 ^ k = bb ^ (k / ld) * 10 ^ (k % ld) := by
    rw [bb_pow, ← Nat.pow_add]
    congr 1
    exact (Nat.div_add_mod k 19).symm
  have hquot : val l / 10 ^ k = val (l.drop (k / ld)) / 10 ^ (k % ld) := by
    rw [hsplit, ← Nat.div_div_eq_div_mul, val_drop hl]
  have hdrop := isDigits_drop hl (k / ld)
  unfold dropLimbs
  rw [hquot]
  by_cases hs : k % ld = 0
  · simp only [if_pos hs]
    rw [hs, Nat.pow_zero, Nat.div_one]
    exact ⟨hdrop, rfl⟩
  · have hlt : k % ld < 19 := Nat.mod_lt k (by decide)
    have hbase : p10 (k % ld) * p10 (ld - k % ld) = bb := by
      unfold p10
      rw [← Nat.pow_add, show k % ld + (ld - k % ld) = 19 from Nat.add_sub_cancel' hlt.le]
      rfl
    simp only [if_neg hs]
    exact shiftDown_spec one_lt_bb hbase hdrop

theorem roundUp_spec (hl : Normal bb l) : Normal bb (roundUp l) ∧ val (roundUp l) = val l + 1 := by
  obtain ⟨hdig, hlast⟩ := hl
  -- the list never ends in a zero: a limb that turns to zero is followed by one that does not
  have hall : IsDigits bb (roundUp l) ∧ val (roundUp l) = val l + 1 ∧ roundUp l ≠ [] ∧
      ∀ h : roundUp l ≠ [], (roundUp l).getLast h ≠ 0 := by
    induction l with
    | nil =>
      refine ⟨IsDigits.singleton one_lt_bb, by simp [roundUp], by simp [roundUp], fun h => ?_⟩
      simp [roundUp]
    | cons x l ih =>
      obtain ⟨hx, hl'⟩ := hdig.of_cons
      unfold roundUp
      by_cases hroom : x + 1 < bb
      · simp only [if_pos hroom]
        refine ⟨IsDigits.cons hroom hl', ?_, List.cons_ne_nil _ _, fun h => ?_⟩
        · rw [val_cons, val_cons]
          omega
        · cases l with
          | nil => simp
          | cons y l =>
            rw [List.getLast_cons (List.cons_ne_nil y l)]
            have := hlast (List.cons_ne_nil x (y :: l))
            rwa [List.getLast_cons (List.cons_ne_nil y l)] at this
      · simp only [if_neg hroom]
        have hlast' : ∀ h : l ≠ [], l.getLast h ≠ 0 := by
          intro h
          have := hlast (List.cons_ne_nil x l)
          rwa [List.getLast_cons h] at this
        obtain ⟨h1, h2, h3, h4⟩ := ih hl' hlast'
        refine ⟨IsDigits.cons bb_pos h1, ?_, List.cons_ne_nil _ _, fun h => ?_⟩
        · rw [val_cons, val_cons, h2, Nat.mul_add]
          omega
        · rw [List.getLast_cons h3]
          exact h4 h3
  exact ⟨⟨hall.1, hall.2.2.2⟩, hall.2.1⟩

/-! ## Scaling -/

theorem scale_spec (ha : IsDigits bb a) (k : Nat) :
    Normal bb (scale a k) ∧ val (scale a k) = val a * 10 ^ k := by
  have hlt : k % ld < 19 := Nat.mod_lt k (by decide)
  have hp : p10 (k % ld) < bb := Nat.pow_lt_pow_right (by decide) hlt
  obtain ⟨hdig, -, hval⟩ := mul1_spec ha hp
  have hinner : IsDigits bb (if k % ld = 0 then a ++ [0] else mul1 a (p10 (k % ld))) ∧
      val (if k % ld = 0 then a ++ [0] else mul1 a (p10 (k % ld))) = val a * 10 ^ (k % ld) := by
    by_cases hs : k % ld = 0
    · rw [if_pos hs, hs, val_append]
      exact ⟨ha.append (IsDigits.singleton bb_pos), by simp⟩
    · rw [if_neg hs]
      exact ⟨hdig, hval⟩
  have hzeros : IsDigits bb (List.replicate (k / ld) 0) := by
    intro d hd
    rw [List.eq_of_mem_replicate hd]
    exact bb_pos
  unfold scale
  refine ⟨normal_trim (hzeros.append hinner.1), ?_⟩
  rw [val_trimTop (hzeros.append hinner.1), val, ofDigits_replicate_append, ← val, hinner.2, bb_pow]
  calc 10 ^ (19 * (k / ld)) * (val a * 10 ^ (k % ld))
      = val a * (10 ^ (19 * (k / ld)) * 10 ^ (k % ld)) := by ring
    _ = val a * 10 ^ k := by rw [← Nat.pow_add]; congr 2; exact Nat.div_add_mod k 19

/-! ## Comparing -/

theorem val_take_succ (l : List Nat) {n : Nat} (h : n < l.length) :
    val (l.take (n + 1)) = val (l.take n) + bb ^ n * l.getD n 0 := ofDigits_take_succ l h

theorem val_take_top (hl : IsDigits bb l) : val (l.take (top l l.length)) = val l :=
  ofDigits_take_top one_lt_bb hl

theorem cmpN_spec (ha : IsDigits bb a) (hb : IsDigits bb b) :
    Compares (cmpN a b) (val a) (val b) := by
  unfold cmpN
  by_cases heq : top a a.length = top b b.length
  · have hfrom := cmpFrom_spec one_lt_bb ha hb (top a a.length) (top_le a _) (heq ▸ top_le b _)
    change Compares _ (val (a.take _)) (val (b.take _)) at hfrom
    simp only [heq, ne_eq, not_true_eq_false, if_false]
    rwa [val_take_top ha, heq, val_take_top hb] at hfrom
  · simp only [ne_eq, heq, not_false_eq_true, if_true]
    by_cases hgt : top a a.length > top b b.length
    · rw [if_pos hgt]
      exact .inl ⟨rfl, lt_of_top one_lt_bb hb ha hgt⟩
    · rw [if_neg hgt]
      exact .inr (.inr ⟨rfl, lt_of_top one_lt_bb ha hb (by omega)⟩)

/-! ## Sums -/

theorem addDigit_spec {b : Nat} (hx : x ≤ bb) (hb : b < bb) :
    (addDigit x b).1 < bb ∧ (addDigit x b).2 ≤ 1 ∧
      (addDigit x b).1 + bb * (addDigit x b).2 = x + b := by
  unfold addDigit
  by_cases hcc : x ≥ bb - b
  · simp only [if_pos hcc]
    omega
  · simp only [if_neg hcc]
    omega

/-- The limbs and the carry of a sum over the length of `b`. -/
def IsSum (a b : List Nat) (c : Nat) (r : List Nat × Nat) : Prop :=
  IsDigits bb r.1 ∧ r.1.length = b.length ∧ r.2 ≤ 1 ∧
    val r.1 + bb ^ b.length * r.2 = val (a.take b.length) + val b + c

theorem IsSum.nil (a : List Nat) (hc : c ≤ 1) : IsSum a [] c ([], c) :=
  ⟨IsDigits.nil bb, rfl, hc, by simp⟩

theorem IsSum.cons {r : List Nat × Nat} (hr : IsSum a b (addDigit (x + c) y).2 r) (hx : x < bb)
    (hy : y < bb) (hc : c ≤ 1) :
    IsSum (x :: a) (y :: b) c ((addDigit (x + c) y).1 :: r.1, r.2) := by
  obtain ⟨hdig, hlen, hle, hval⟩ := hr
  obtain ⟨h1, -, h3⟩ := addDigit_spec (show x + c ≤ bb by omega) hy
  refine ⟨IsDigits.cons h1 hdig, congrArg (· + 1) hlen, hle, ?_⟩
  rw [List.length_cons, List.take_succ_cons, val_cons, val_cons, val_cons, pow_succ]
  calc (addDigit (x + c) y).1 + bb * val r.1 + bb ^ b.length * bb * r.2
      = (addDigit (x + c) y).1 + bb * (val r.1 + bb ^ b.length * r.2) := by ring
    _ = (addDigit (x + c) y).1 + bb * (addDigit (x + c) y).2 +
        bb * (val (a.take b.length) + val b) := by rw [hval]; ring
    _ = x + bb * val (a.take b.length) + (y + bb * val b) + c := by rw [h3]; ring

theorem addLo_spec (ha : IsDigits bb a) (hb : IsDigits bb b) (hlen : b.length ≤ a.length)
    (hc : c ≤ 1) : IsSum a b c (addLo a b c) := by
  induction a, b, c using addLo.induct with
  | case1 a1 a2 a b1 b2 b c d1 d2 ih =>
    obtain ⟨ha1, ha'⟩ := ha.of_cons
    obtain ⟨ha2, ha⟩ := ha'.of_cons
    obtain ⟨hb1, hb'⟩ := hb.of_cons
    obtain ⟨hb2, hb⟩ := hb'.of_cons
    have hd1 : d1.2 ≤ 1 := (addDigit_spec (show a1 + c ≤ bb by omega) hb1).2.1
    have hd2 : d2.2 ≤ 1 := (addDigit_spec (show a2 + d1.2 ≤ bb by omega) hb2).2.1
    have hlow := ih ha hb (by simpa using hlen) hd2
    exact (hlow.cons ha2 hb2 hd1).cons ha1 hb1 hc
  | case2 a1 a b1 c =>
    obtain ⟨ha1, -⟩ := ha.of_cons
    obtain ⟨hb1, -⟩ := hb.of_cons
    have hd1 := (addDigit_spec (show a1 + c ≤ bb by omega) hb1).2.1
    rw [addLo]
    exact (IsSum.nil a hd1).cons ha1 hb1 hc
  | case3 a b c h2 h1 =>
    have hnil : b = [] := by
      match a, b with
      | _, [] => rfl
      | a1 :: a, [b1] => exact absurd rfl (h1 a1 a b1 rfl)
      | a1 :: a2 :: a, b1 :: b2 :: b => exact absurd rfl (h2 a1 a2 a b1 b2 b rfl)
      | [], b1 :: b => exact absurd hlen (by simp)
      | [a1], b1 :: b2 :: b => exact absurd hlen (by simp)
    subst hnil
    rw [addLo]
    · exact IsSum.nil a hc
    · exact fun _ _ _ _ _ _ _ h => nomatch h
    · exact fun _ _ _ _ h => nomatch h

theorem addCarry_spec (ha : IsDigits bb a) (hc : c ≤ 1) :
    IsDigits bb (addCarry a c).1 ∧ (addCarry a c).1.length = a.length ∧ (addCarry a c).2 ≤ 1 ∧
      val (addCarry a c).1 + bb ^ a.length * (addCarry a c).2 = val a + c := by
  induction a generalizing c with
  | nil => exact ⟨IsDigits.nil bb, rfl, hc, by simp [addCarry]⟩
  | cons x a ih =>
    obtain ⟨hx, ha'⟩ := ha.of_cons
    unfold addCarry
    by_cases hzero : c = 0
    · simp only [if_pos hzero]
      exact ⟨ha, trivial, hc, by rw [hzero]; simp⟩
    · simp only [if_neg hzero]
      by_cases hfull : x + 1 = bb
      · simp only [if_pos hfull]
        obtain ⟨h1, h2, h3, h4⟩ := ih ha' (Nat.le_refl 1)
        refine ⟨IsDigits.cons bb_pos h1, congrArg (· + 1) h2, h3, ?_⟩
        rw [val_cons, val_cons, List.length_cons, pow_succ]
        calc 0 + bb * val (addCarry a 1).1 + bb ^ a.length * bb * (addCarry a 1).2
            = bb * (val (addCarry a 1).1 + bb ^ a.length * (addCarry a 1).2) := by ring
          _ = (x + 1) + bb * val a := by rw [h4, hfull]; ring
          _ = x + bb * val a + c := by omega
      · simp only [if_neg hfull]
        obtain ⟨h1, h2, h3, h4⟩ := ih ha' (Nat.zero_le 1)
        refine ⟨IsDigits.cons (by omega) h1, congrArg (· + 1) h2, h3, ?_⟩
        rw [val_cons, val_cons, List.length_cons, pow_succ]
        calc x + 1 + bb * val (addCarry a 0).1 + bb ^ a.length * bb * (addCarry a 0).2
            = x + 1 + bb * (val (addCarry a 0).1 + bb ^ a.length * (addCarry a 0).2) := by ring
          _ = x + bb * val a + c := by rw [h4, Nat.add_zero (val a)]; omega

theorem val_take_add_drop (a : List Nat) {n : Nat} (h : n ≤ a.length) :
    val a = val (a.take n) + bb ^ n * val (a.drop n) := ofDigits_take_drop bb a n h

theorem addN_spec (ha : IsDigits bb a) (hb : IsDigits bb b) (hlen : b.length ≤ a.length) :
    IsDigits bb (addN a b) ∧
      (addN a b).length = a.length + 1 ∧ val (addN a b) = val a + val b := by
  obtain ⟨hl1, hl2, hl3, hl4⟩ := addLo_spec ha hb hlen (Nat.zero_le 1)
  obtain ⟨hc1, hc2, hc3, hc4⟩ := addCarry_spec (isDigits_drop ha b.length) hl3
  have hB := one_lt_bb
  unfold addN
  simp only []
  generalize addLo a b 0 = r at hl1 hl2 hl3 hl4 hc1 hc2 hc3 hc4 ⊢
  generalize addCarry (a.drop b.length) r.2 = t at hc1 hc2 hc3 hc4 ⊢
  have htop : t.2 < bb := by omega
  refine ⟨(hl1.append hc1).append (IsDigits.singleton htop), ?_, ?_⟩
  · rw [List.length_append, List.length_append, hl2, hc2, List.length_drop, List.length_singleton]
    omega
  · rw [List.append_assoc, val_append, val_append, hl2, hc2, val_cons, val_nil, Nat.mul_zero,
      Nat.add_zero, hc4, Nat.mul_add, val_take_add_drop a hlen]
    omega

/-! ## Differences -/

theorem subDigit_spec (hx : x < bb) (hy : y ≤ bb) : (subDigit x y).1 < bb ∧ (subDigit x y).2 ≤ 1 ∧
      x + bb * (subDigit x y).2 = (subDigit x y).1 + y := by
  unfold subDigit
  by_cases hbw : x < y
  · simp only [if_pos hbw]
    omega
  · simp only [if_neg hbw]
    omega

/-- The limbs and the borrow of a difference over the length of `b`. -/
def IsDiff (a b : List Nat) (br : Nat) (r : List Nat × Nat) : Prop :=
  IsDigits bb r.1 ∧ r.1.length = b.length ∧ r.2 ≤ 1 ∧
    val (a.take b.length) + bb ^ b.length * r.2 = val r.1 + val b + br

theorem IsDiff.nil (a : List Nat) (hbr : br ≤ 1) : IsDiff a [] br ([], br) :=
  ⟨IsDigits.nil bb, rfl, hbr, by simp⟩

theorem IsDiff.cons {r : List Nat × Nat} (hr : IsDiff a b (subDigit x (y + br)).2 r) (hx : x < bb)
    (hy : y < bb) (hbr : br ≤ 1) :
    IsDiff (x :: a) (y :: b) br ((subDigit x (y + br)).1 :: r.1, r.2) := by
  obtain ⟨hdig, hlen, hle, hval⟩ := hr
  obtain ⟨h1, -, h3⟩ := subDigit_spec hx (show y + br ≤ bb by omega)
  refine ⟨IsDigits.cons h1 hdig, congrArg (· + 1) hlen, hle, ?_⟩
  rw [List.length_cons, List.take_succ_cons, val_cons, val_cons, val_cons, pow_succ]
  calc x + bb * val (a.take b.length) + bb ^ b.length * bb * r.2
      = x + bb * (val (a.take b.length) + bb ^ b.length * r.2) := by ring
    _ = x + bb * (subDigit x (y + br)).2 + bb * (val r.1 + val b) := by rw [hval]; ring
    _ = (subDigit x (y + br)).1 + bb * val r.1 + (y + bb * val b) + br := by rw [h3]; ring

theorem subLo_spec (ha : IsDigits bb a) (hb : IsDigits bb b) (hlen : b.length ≤ a.length)
    (hbr : br ≤ 1) : IsDiff a b br (subLo a b br) := by
  induction a, b, br using subLo.induct with
  | case1 a1 a2 a b1 b2 b br d1 d2 ih =>
    obtain ⟨ha1, ha'⟩ := ha.of_cons
    obtain ⟨ha2, ha⟩ := ha'.of_cons
    obtain ⟨hb1, hb'⟩ := hb.of_cons
    obtain ⟨hb2, hb⟩ := hb'.of_cons
    have hd1 : d1.2 ≤ 1 := (subDigit_spec ha1 (show b1 + br ≤ bb by omega)).2.1
    have hd2 : d2.2 ≤ 1 := (subDigit_spec ha2 (show b2 + d1.2 ≤ bb by omega)).2.1
    have hlow := ih ha hb (by simpa using hlen) hd2
    exact (hlow.cons ha2 hb2 hd1).cons ha1 hb1 hbr
  | case2 a1 a b1 br =>
    obtain ⟨ha1, -⟩ := ha.of_cons
    obtain ⟨hb1, -⟩ := hb.of_cons
    have hd1 := (subDigit_spec ha1 (show b1 + br ≤ bb by omega)).2.1
    rw [subLo]
    exact (IsDiff.nil a hd1).cons ha1 hb1 hbr
  | case3 a b br h2 h1 =>
    have hnil : b = [] := by
      match a, b with
      | _, [] => rfl
      | a1 :: a, [b1] => exact absurd rfl (h1 a1 a b1 rfl)
      | a1 :: a2 :: a, b1 :: b2 :: b => exact absurd rfl (h2 a1 a2 a b1 b2 b rfl)
      | [], b1 :: b => exact absurd hlen (by simp)
      | [a1], b1 :: b2 :: b => exact absurd hlen (by simp)
    subst hnil
    rw [subLo]
    · exact IsDiff.nil a hbr
    · exact fun _ _ _ _ _ _ _ h => nomatch h
    · exact fun _ _ _ _ h => nomatch h

theorem subBorrow_spec (ha : IsDigits bb a) (hbr : br ≤ 1) (hle : br ≤ val a) :
    IsDigits bb (subBorrow a br) ∧ (subBorrow a br).length = a.length ∧
      val (subBorrow a br) + br = val a := by
  induction a generalizing br with
  | nil => exact ⟨IsDigits.nil bb, rfl, by simpa [subBorrow] using hle⟩
  | cons x a ih =>
    obtain ⟨hx, ha'⟩ := ha.of_cons
    have hB := one_lt_bb
    rw [val_cons] at hle
    unfold subBorrow
    by_cases hzero : br = 0
    · simp only [if_pos hzero]
      exact ⟨ha, trivial, by omega⟩
    · simp only [if_neg hzero]
      by_cases hz : x = 0
      · simp only [if_pos hz]
        have hpos : 1 ≤ val a := by
          rcases Nat.eq_zero_or_pos (val a) with h | h
          · rw [h] at hle
            omega
          · exact h
        obtain ⟨h1, h2, h3⟩ := ih ha' (Nat.le_refl 1) hpos
        refine ⟨IsDigits.cons (by omega) h1, congrArg (· + 1) h2, ?_⟩
        rw [val_cons, val_cons, ← h3, Nat.mul_add]
        omega
      · simp only [if_neg hz]
        obtain ⟨h1, h2, h3⟩ := ih ha' (Nat.zero_le 1) (Nat.zero_le _)
        refine ⟨IsDigits.cons (by omega) h1, congrArg (· + 1) h2, ?_⟩
        rw [val_cons, val_cons, ← h3, Nat.add_zero]
        omega

theorem subN_spec (ha : IsDigits bb a) (hb : IsDigits bb b) (hlen : b.length ≤ a.length)
    (hle : val b ≤ val a) : IsDigits bb (subN a b) ∧
      (subN a b).length = a.length ∧ val (subN a b) = val a - val b := by
  obtain ⟨hl1, hl2, hl3, hl4⟩ := subLo_spec ha hb hlen (Nat.zero_le 1)
  have hsplit := val_take_add_drop a hlen
  unfold subN
  simp only []
  generalize subLo a b 0 = r at hl1 hl2 hl3 hl4 ⊢
  -- a borrow out of the low limbs finds something above them
  have hroom : r.2 ≤ val (a.drop b.length) := by
    rcases Nat.eq_zero_or_pos (val (a.drop b.length)) with h | h
    · have hlt := val_lt hl1
      rw [hl2] at hlt
      rw [h, Nat.mul_zero, Nat.add_zero] at hsplit
      by_contra hgt
      rw [show r.2 = 1 by omega, Nat.mul_one] at hl4
      omega
    · omega
  obtain ⟨hs1, hs2, hs3⟩ := subBorrow_spec (isDigits_drop ha b.length) hl3 hroom
  refine ⟨hl1.append hs1, ?_, ?_⟩
  · rw [List.length_append, hl2, hs2, List.length_drop]
    omega
  · rw [val_append, hl2, hsplit, ← hs3, Nat.mul_add]
    omega

end Decimals

import Resid.Lib.Positional

/-!
# Long arithmetic on limb lists

Low limb first, base `b`.  What the routines of a big-number package share, whatever the
base: taking zero limbs off the top, comparing from the top, moving digits down, dividing by
one limb, and the run of a long division from a step that divides one window.

    trimTop l = Nat.digits b (ofDigits b l)                          (trimTop_eq)
    Compares (cmpFrom a b n) (a.take n) (b.take n)                   (cmpFrom_spec)
    dv * mu = b → shiftDown dv mu l = l / dv                         (shiftDown_spec)
    shortDiv b u d i 0 = u / d                                       (shortDiv_spec)
    subtracting qd V leaves no borrow → the step is done             (IsStep.of_exact)
    it leaves a borrow → adding V back gives the step                (IsStep.of_borrow)
    DividesBy b V n step → longSteps step j u divides by V           (longSteps_spec)
-/

namespace Positional

open Nat (ofDigits)

/-! ## Definitions -/

/-- The count without the zero limbs on top. -/
def top (l : List Nat) : Nat → Nat
  | 0 => 0
  | n + 1 => if l.getD n 0 = 0 then top l n else n + 1

def trimTop (l : List Nat) : List Nat := l.take (top l l.length)

/-- The sign of a comparison of the low `n` limbs, from the top. -/
def cmpFrom (a b : List Nat) : Nat → Int
  | 0 => 0
  | i + 1 =>
    let x := a.getD i 0
    let y := b.getD i 0
    if x ≠ y then if x > y then 1 else -1 else cmpFrom a b i

/-- The low digits of the next limb, moved up. -/
def lowAbove (dv mu : Nat) : List Nat → Nat
  | [] => 0
  | y :: _ => y % dv * mu

/-- Each limb without its low digits, with those of the limb above over it. -/
def shiftDown (dv mu : Nat) : List Nat → List Nat
  | [] => []
  | x :: l => (x / dv + lowAbove dv mu l) :: shiftDown dv mu l

/-- Division by one limb, from limb `i - 1` down. -/
def shortDiv (b : Nat) (u : List Nat) (d : Nat) : Nat → Nat → List Nat × Nat
  | 0, rem => ([], rem)
  | i + 1, rem =>
    let t := rem * b + u.getD i 0
    let q := t / d
    let rest := shortDiv b u d i (t - q * d)
    (rest.1 ++ [q], rest.2)

/-- Long division: a step at each index from `j - 1` down, on the limbs from there up. -/
def longSteps (step : List Nat → Nat × List Nat) : Nat → List Nat → List Nat × List Nat
  | 0, u => ([], u)
  | j + 1, u =>
    let s := step (u.drop j)
    let rest := longSteps step j (u.take j ++ s.2)
    (rest.1 ++ [s.1], rest.2)

/-- What the sign of a comparison says. -/
def Compares {α : Type} [LT α] (c : Int) (x y : α) : Prop :=
  (c = 1 ∧ y < x) ∨ (c = 0 ∧ x = y) ∨ (c = -1 ∧ x < y)

/-- What a step leaves of the numbers: the quotient limb and the rest. -/
structure IsStep (b V : Nat) (u : List Nat) (r : Nat × List Nat) : Prop where
  quot : r.1 = ofDigits b u / V
  limb : r.1 < b
  digits : IsDigits b r.2
  length : r.2.length = u.length
  rest : ofDigits b r.2 = ofDigits b u % V

/-- What a step works on: limbs that start with those of a dividend whose quotient is one limb. -/
structure IsWindow (b V n : Nat) (u : List Nat) : Prop where
  digits : IsDigits b u
  length : n + 1 ≤ u.length
  divisor : 0 < V
  divisor_lt : V < b ^ n
  bound : ofDigits b u < V * b

/-- A step divides every window of at least `n` limbs whose quotient is one limb. -/
def DividesBy (b V n : Nat) (step : List Nat → Nat × List Nat) : Prop :=
  ∀ u, IsDigits b u → n ≤ u.length → ofDigits b u < V * b → IsStep b V u (step u)

/-! ## The top limb -/

theorem top_le (l : List Nat) (n : Nat) : top l n ≤ n := by
  induction n with
  | zero => exact Nat.le_refl 0
  | succ n ih =>
    unfold top
    split_ifs <;> omega

theorem top_zero (l : List Nat) (n : Nat) : ∀ i, top l n ≤ i → i < n → l.getD i 0 = 0 := by
  induction n with
  | zero =>
    intro i _ hi
    omega
  | succ n ih =>
    intro i hle hi
    unfold top at hle
    split_ifs at hle with hzero
    · rcases Nat.lt_succ_iff_lt_or_eq.1 hi with hlt | rfl
      · exact ih i hle hlt
      · exact hzero
    · omega

theorem top_ne_zero (l : List Nat) (n : Nat) : ∀ j, top l n = j + 1 → l.getD j 0 ≠ 0 := by
  induction n with
  | zero =>
    intro j hj
    exact absurd hj (by simp [top])
  | succ n ih =>
    intro j hj
    unfold top at hj
    split_ifs at hj with hzero
    · exact ih j hj
    · rwa [show j = n by omega]

section Base

variable {b : Nat} (hb : 1 < b)

include hb

/-- Without its zero limbs on top a list is the normal numeral. -/
theorem trimTop_eq {l : List Nat} (hl : IsDigits b l) : trimTop l = Nat.digits b (ofDigits b l) := by
  refine digits_ofDigits_take hb hl (top_le l _) (fun i hi => ?_) (top_ne_zero l _)
  by_cases hlen : i < l.length
  · exact top_zero l _ i hi hlen
  · exact List.getD_eq_default _ _ (Nat.le_of_not_lt hlen)

theorem normal_trimTop {l : List Nat} (hl : IsDigits b l) : Normal b (trimTop l) := by
  rw [trimTop_eq hb hl]
  exact normal_digits hb _

theorem ofDigits_trimTop {l : List Nat} (hl : IsDigits b l) :
    ofDigits b (trimTop l) = ofDigits b l := by
  rw [trimTop_eq hb hl, Nat.ofDigits_digits]

/-- A normal list is empty exactly when it denotes zero. -/
theorem Normal.eq_zero_iff {l : List Nat} (hl : Normal b l) : ofDigits b l = 0 ↔ l = [] := by
  have hdigits := hl.digits_eq hb
  rw [← digits_eq_nil (b := b), hdigits]

omit hb in
/-- A nonempty normal list is its low limbs and a nonzero top limb. -/
theorem Normal.split_top {l : List Nat} (hl : Normal b l) (hne : l ≠ []) :
    ∃ low t, l = low ++ [t] ∧ IsDigits b low ∧ 0 < t ∧ t < b := by
  refine ⟨l.dropLast, l.getLast hne, (List.dropLast_append_getLast hne).symm, ?_,
    Nat.pos_of_ne_zero (hl.last hne), hl.digits _ (List.getLast_mem hne)⟩
  intro d hd
  exact hl.digits d (List.mem_of_mem_dropLast hd)

omit hb in
/-- A normal numeral reaches its top place. -/
theorem Normal.pow_le {l : List Nat} (hl : Normal b l) {n : Nat} (hn : l.length = n + 1) :
    b ^ n ≤ ofDigits b l := by
  obtain ⟨low, t, rfl, -, ht, -⟩ := hl.split_top (List.ne_nil_of_length_eq_add_one hn)
  have hlow : low.length = n := by simpa using hn
  rw [Nat.ofDigits_append, hlow, Nat.ofDigits_singleton]
  calc b ^ n ≤ b ^ n * t := Nat.le_mul_of_pos_right _ ht
    _ ≤ ofDigits b low + b ^ n * t := Nat.le_add_left _ _

theorem Normal.length_le {x y : List Nat} (hx : Normal b x) (hy : Normal b y)
    (h : ofDigits b x ≤ ofDigits b y) : x.length ≤ y.length := by
  have hlen := Nat.le_length_digits_le b _ _ h
  rwa [hx.digits_eq hb, hy.digits_eq hb] at hlen

theorem Normal.length_eq {l : List Nat} (hl : Normal b l) {n : Nat} (hlo : b ^ n ≤ ofDigits b l)
    (hhi : ofDigits b l < b ^ (n + 1)) : l.length = n + 1 := by
  have hlt := hl.digits.ofDigits_lt hb
  have hlow : n < l.length := (Nat.pow_lt_pow_iff_right hb).1 (hlo.trans_lt hlt)
  obtain ⟨k, hk⟩ : ∃ k, l.length = k + 1 := ⟨l.length - 1, by omega⟩
  have hhigh : k < n + 1 := (Nat.pow_lt_pow_iff_right hb).1 ((hl.pow_le hk).trans_lt hhi)
  omega

variable {l : List Nat}

omit hb in
theorem Normal.getD_top_ne (hl : Normal b l) {n : Nat} (hn : l.length = n + 1) :
    l.getD n 0 ≠ 0 := by
  obtain ⟨low, t, rfl, -, ht, -⟩ := hl.split_top (List.ne_nil_of_length_eq_add_one hn)
  have hlow : n = low.length := by simpa using hn.symm
  subst hlow
  simpa using ht.ne'

/-- Limbs that reach their top place are normal. -/
theorem normal_of_le (hl : IsDigits b l) (hge : ∀ n, l.length = n + 1 → b ^ n ≤ ofDigits b l) :
    Normal b l := by
  refine ⟨hl, fun hne hzero => ?_⟩
  obtain ⟨n, hn⟩ : ∃ n, l.length = n + 1 := ⟨l.length - 1, by
    have := List.length_pos_iff.2 hne
    omega⟩
  have hsplit := List.dropLast_append_getLast hne
  have hlow : IsDigits b l.dropLast := fun d hd => hl d (List.mem_of_mem_dropLast hd)
  have hlt := hlow.ofDigits_lt hb
  rw [List.length_dropLast, hn, Nat.add_sub_cancel] at hlt
  have hval : ofDigits b l = ofDigits b l.dropLast := by
    conv_lhs => rw [← hsplit, hzero]
    rw [Nat.ofDigits_append, Nat.ofDigits_singleton, Nat.mul_zero, Nat.add_zero]
  have := hge n hn
  omega

/-! ## Limbs and places -/

theorem ofDigits_drop (hl : IsDigits b l) (q : Nat) :
    ofDigits b (l.drop q) = ofDigits b l / b ^ q := by
  have hpos : 0 < b := by omega
  by_cases hq : q ≤ l.length
  · have hlow := (hl.take q).ofDigits_lt hb
    rw [List.length_take, Nat.min_eq_left hq] at hlow
    rw [ofDigits_take_drop b l q hq, Nat.add_mul_div_left _ _ (Nat.pow_pos hpos),
      Nat.div_eq_of_lt hlow, Nat.zero_add]
  · have hlt := hl.ofDigits_lt hb
    have hpow : b ^ l.length ≤ b ^ q := Nat.pow_le_pow_right hpos (by omega)
    rw [List.drop_of_length_le (by omega), Nat.ofDigits_nil, Nat.div_eq_of_lt (by omega)]

theorem ofDigits_take_of_lt (hl : IsDigits b l) {n : Nat} (hn : n ≤ l.length)
    (hlt : ofDigits b l < b ^ n) : ofDigits b (l.take n) = ofDigits b l := by
  have hsplit := ofDigits_take_drop b l n hn
  rw [ofDigits_drop hb hl, Nat.div_eq_of_lt hlt, Nat.mul_zero, Nat.add_zero] at hsplit
  exact hsplit.symm

/-- The top limb of a number that ends with it. -/
theorem getD_top (hl : IsDigits b l) {n : Nat} (hlt : ofDigits b l < b ^ (n + 1)) :
    l.getD n 0 = ofDigits b l / b ^ n := by
  have hquot : ofDigits b l / b ^ n < b := by
    rw [Nat.div_lt_iff_lt_mul (Nat.pow_pos (by omega)), ← pow_succ']
    exact hlt
  rw [getD_eq_digit hb hl, Nat.mod_eq_of_lt hquot]

/-- The two top limbs together. -/
theorem two_limbs (hl : IsDigits b l) {n : Nat} (hlt : ofDigits b l < b ^ (n + 2)) :
    l.getD (n + 1) 0 * b + l.getD n 0 = ofDigits b l / b ^ n := by
  rw [getD_top hb hl hlt, getD_eq_digit hb hl, pow_succ, ← Nat.div_div_eq_div_mul]
  exact Nat.div_add_mod' (ofDigits b l / b ^ n) b

omit hb in
theorem ofDigits_take_succ (l : List Nat) {n : Nat} (h : n < l.length) :
    ofDigits b (l.take (n + 1)) = ofDigits b (l.take n) + b ^ n * l.getD n 0 := by
  rw [List.take_succ_eq_append_getElem h, Nat.ofDigits_append, List.length_take,
    Nat.min_eq_left h.le, Nat.ofDigits_singleton, List.getD_eq_getElem _ _ h]

omit hb in
theorem ofDigits_replicate_append (q : Nat) (l : List Nat) :
    ofDigits b (List.replicate q 0 ++ l) = b ^ q * ofDigits b l := by
  rw [Nat.ofDigits_append, List.length_replicate, Nat.ofDigits_replicate_zero, Nat.zero_add]

/-! ## Comparing -/

omit hb in
/-- The first limbs that differ, from the top, decide. -/
theorem top_limb_lt {p x y lo hi : Nat} (hlo : lo < p) (hxy : x < y) : lo + p * x < hi + p * y := by
  calc lo + p * x < p + p * x := Nat.add_lt_add_right hlo _
    _ = p * (x + 1) := by ring
    _ ≤ p * y := Nat.mul_le_mul_left p hxy
    _ ≤ hi + p * y := Nat.le_add_left _ _

theorem cmpFrom_spec {x y : List Nat} (hx : IsDigits b x) (hy : IsDigits b y) (n : Nat) :
    n ≤ x.length → n ≤ y.length →
    Compares (cmpFrom x y n) (ofDigits b (x.take n)) (ofDigits b (y.take n)) := by
  induction n with
  | zero =>
    intro _ _
    exact .inr (.inl ⟨rfl, by simp⟩)
  | succ n ih =>
    intro hnx hny
    have hlx := (hx.take n).ofDigits_lt hb
    have hly := (hy.take n).ofDigits_lt hb
    rw [List.length_take, Nat.min_eq_left (by omega)] at hlx hly
    unfold cmpFrom
    rw [ofDigits_take_succ x hnx, ofDigits_take_succ y hny]
    by_cases hne : x.getD n 0 = y.getD n 0
    · simp only [hne, ne_eq, not_true_eq_false, if_false]
      rcases ih (by omega) (by omega) with ⟨hc, h⟩ | ⟨hc, h⟩ | ⟨hc, h⟩
      · exact .inl ⟨hc, Nat.add_lt_add_right h _⟩
      · exact .inr (.inl ⟨hc, by rw [h]⟩)
      · exact .inr (.inr ⟨hc, Nat.add_lt_add_right h _⟩)
    · simp only [ne_eq, hne, not_false_eq_true, if_true]
      by_cases hgt : x.getD n 0 > y.getD n 0
      · rw [if_pos hgt]
        exact .inl ⟨rfl, top_limb_lt hly hgt⟩
      · rw [if_neg hgt]
        exact .inr (.inr ⟨rfl, top_limb_lt hlx (by omega)⟩)

theorem ofDigits_take_top {l : List Nat} (hl : IsDigits b l) :
    ofDigits b (l.take (top l l.length)) = ofDigits b l := ofDigits_trimTop hb hl

/-- A list with fewer limbs below its zeros denotes less. -/
theorem lt_of_top {x y : List Nat} (hx : IsDigits b x) (hy : IsDigits b y)
    (h : top x x.length < top y y.length) : ofDigits b x < ofDigits b y := by
  obtain ⟨n, hn⟩ : ∃ n, top y y.length = n + 1 := ⟨top y y.length - 1, by omega⟩
  have hlen := top_le y y.length
  have hhigh := top_ne_zero y y.length n hn
  have hlow := (hx.take (top x x.length)).ofDigits_lt hb
  rw [List.length_take, Nat.min_eq_left (top_le x _), ofDigits_take_top hb hx] at hlow
  calc ofDigits b x < b ^ top x x.length := hlow
    _ ≤ b ^ n := Nat.pow_le_pow_right (by omega) (by omega)
    _ ≤ b ^ n * y.getD n 0 := Nat.le_mul_of_pos_right _ (by omega)
    _ ≤ ofDigits b (y.take (n + 1)) := by
      rw [ofDigits_take_succ y (by omega)]
      exact Nat.le_add_left _ _
    _ = ofDigits b y := by rw [← hn, ofDigits_take_top hb hy]

omit hb in
/-- A comparison survives what keeps order and equality. -/
theorem Compares.map {α β : Type} [LT α] [LT β] {c : Int} {x y : α} (h : Compares c x y) {f : α → β}
    (hf : ∀ {x y}, x < y → f x < f y) : Compares c (f x) (f y) := by
  rcases h with ⟨hc, h⟩ | ⟨hc, h⟩ | ⟨hc, h⟩
  · exact .inl ⟨hc, hf h⟩
  · exact .inr (.inl ⟨hc, congrArg f h⟩)
  · exact .inr (.inr ⟨hc, hf h⟩)

omit hb in
/-- What turns the order round turns the sign. -/
theorem Compares.anti {α β : Type} [LT α] [LT β] {c : Int} {x y : α} (h : Compares c x y) {f : α → β}
    (hf : ∀ {x y}, x < y → f y < f x) : Compares (-c) (f x) (f y) := by
  rcases h with ⟨rfl, h⟩ | ⟨rfl, h⟩ | ⟨rfl, h⟩
  · exact .inr (.inr ⟨rfl, hf h⟩)
  · exact .inr (.inl ⟨rfl, congrArg f h⟩)
  · exact .inl ⟨rfl, hf h⟩

omit hb in
theorem Compares.neg_iff {α : Type} [Preorder α] {c : Int} {x y : α} (h : Compares c x y) :
    c < 0 ↔ x < y := by
  rcases h with ⟨rfl, h⟩ | ⟨rfl, h⟩ | ⟨rfl, h⟩
  · exact iff_of_false (by decide) (lt_asymm h)
  · exact iff_of_false (by decide) (h ▸ lt_irrefl x)
  · exact iff_of_true (by decide) h

/-! ## Moving digits down -/

theorem shiftDown_spec {dv mu : Nat} (hbase : dv * mu = b) {l : List Nat} (hl : IsDigits b l) :
    IsDigits b (shiftDown dv mu l) ∧ ofDigits b (shiftDown dv mu l) = ofDigits b l / dv := by
  have hdv : 0 < dv := Nat.pos_of_mul_pos_right (hbase ▸ (by omega : 0 < b))
  induction l with
  | nil => exact ⟨IsDigits.nil b, by simp [shiftDown]⟩
  | cons x l ih =>
    obtain ⟨hx, hl'⟩ := hl.of_cons
    obtain ⟨hdig, hval⟩ := ih hl'
    -- the low digits of the limb above are those of all that lies above
    have hhi : lowAbove dv mu l = ofDigits b l % dv * mu := by
      cases l with
      | nil => simp [lowAbove]
      | cons y l =>
        rw [Nat.ofDigits_cons, lowAbove, ← hbase, Nat.mul_assoc, Nat.add_mul_mod_self_left]
    have hlow : x / dv < mu := by
      rw [Nat.div_lt_iff_lt_mul hdv, Nat.mul_comm, hbase]
      exact hx
    have hmod := Nat.mod_lt (ofDigits b l) hdv
    unfold shiftDown
    rw [hhi]
    constructor
    · refine IsDigits.cons ?_ hdig
      calc x / dv + ofDigits b l % dv * mu < mu + ofDigits b l % dv * mu :=
            Nat.add_lt_add_right hlow _
        _ = (ofDigits b l % dv + 1) * mu := by ring
        _ ≤ dv * mu := Nat.mul_le_mul_right mu hmod
        _ = b := hbase
    · have hquot : (x + b * ofDigits b l) / dv = x / dv + mu * ofDigits b l := by
        conv_lhs => rw [← hbase]
        rw [Nat.mul_assoc, Nat.add_mul_div_left _ _ hdv, hbase]
      rw [Nat.ofDigits_cons, Nat.ofDigits_cons, hval, hquot]
      calc x / dv + ofDigits b l % dv * mu + b * (ofDigits b l / dv)
          = x / dv + mu * (dv * (ofDigits b l / dv) + ofDigits b l % dv) := by
            conv_lhs => rw [show b * (ofDigits b l / dv) = dv * mu * (ofDigits b l / dv) by rw [hbase]]
            ring
        _ = x / dv + mu * ofDigits b l := by rw [Nat.div_add_mod]

/-! ## Division -/

theorem shortDiv_spec {u : List Nat} (hu : IsDigits b u) {d : Nat} (hd : 0 < d) (i : Nat) :
    i ≤ u.length → ∀ rem, rem < d →
    IsDigits b (shortDiv b u d i rem).1 ∧ (shortDiv b u d i rem).1.length = i ∧
      rem * b ^ i + ofDigits b (u.take i) =
        ofDigits b (shortDiv b u d i rem).1 * d + (shortDiv b u d i rem).2 ∧
      (shortDiv b u d i rem).2 < d := by
  induction i with
  | zero =>
    intro _ rem hrem
    exact ⟨IsDigits.nil b, rfl, by simp [shortDiv], hrem⟩
  | succ i ih =>
    intro hi rem hrem
    have hlimb : u.getD i 0 < b := hu.getD_lt (by omega) i
    have hdm := Nat.div_add_mod' (rem * b + u.getD i 0) d
    have hmod := Nat.mod_lt (rem * b + u.getD i 0) hd
    have hq : (rem * b + u.getD i 0) / d < b := by
      rw [Nat.div_lt_iff_lt_mul hd]
      calc rem * b + u.getD i 0 < rem * b + b := Nat.add_lt_add_left hlimb _
        _ = (rem + 1) * b := by ring
        _ ≤ d * b := Nat.mul_le_mul_right _ hrem
        _ = b * d := Nat.mul_comm _ _
    have hrest : rem * b + u.getD i 0 - (rem * b + u.getD i 0) / d * d =
        (rem * b + u.getD i 0) % d := by omega
    obtain ⟨h1, h2, h3, h4⟩ := ih (by omega) _ hmod
    unfold shortDiv
    simp only [hrest]
    refine ⟨h1.append (IsDigits.singleton hq), ?_, ?_, h4⟩
    · rw [List.length_append, h2, List.length_singleton]
    · rw [Nat.ofDigits_append, h2, Nat.ofDigits_singleton, ofDigits_take_succ u (by omega)]
      calc rem * b ^ (i + 1) + (ofDigits b (u.take i) + b ^ i * u.getD i 0)
          = (rem * b + u.getD i 0) * b ^ i + ofDigits b (u.take i) := by ring
        _ = (rem * b + u.getD i 0) / d * d * b ^ i +
            ((rem * b + u.getD i 0) % d * b ^ i + ofDigits b (u.take i)) := by
          conv_lhs => rw [← hdm]
          ring
        _ = _ := by
          rw [h3]
          ring

section Window

variable {V n : Nat} {u : List Nat} (w : IsWindow b V n u)

include w

omit hb in
theorem IsWindow.lt : ofDigits b u < b ^ (n + 1) := by
  calc ofDigits b u < V * b := w.bound
    _ ≤ b ^ n * b := Nat.mul_le_mul_right b w.divisor_lt.le
    _ = b ^ (n + 1) := (pow_succ b n).symm

/-- The limbs of a window with its low `n + 1` replaced. -/
theorem IsWindow.replaced {low : List Nat} {x : Nat} (hlow : IsDigits b low) (hlen : low.length = n)
    (hx : x < b) : IsDigits b (low ++ x :: u.drop (n + 1)) ∧
      (low ++ x :: u.drop (n + 1)).length = u.length ∧
      ofDigits b (low ++ x :: u.drop (n + 1)) = ofDigits b low + b ^ n * x := by
  have htail : IsDigits b (u.drop (n + 1)) := fun d hd => w.digits d (List.mem_of_mem_drop hd)
  have hzero : ofDigits b (u.drop (n + 1)) = 0 := by
    rw [ofDigits_drop hb w.digits, Nat.div_eq_of_lt w.lt]
  have hroom := w.length
  refine ⟨hlow.append (IsDigits.cons hx htail), ?_, ?_⟩
  · rw [List.length_append, List.length_cons, List.length_drop, hlen]
    omega
  · rw [Nat.ofDigits_append, Nat.ofDigits_cons, hzero, hlen, Nat.mul_zero, Nat.add_zero]

variable {low : List Nat} {qd x : Nat} (hlow : IsDigits b low) (hlen : low.length = n) (hx : x < b)
  (hge : ofDigits b u / V ≤ qd) (hqd : qd < b)

include hlow hlen hx hge hqd

/-- No borrow came out: the digit and the rest are right. -/
theorem IsStep.of_exact (h : ofDigits b u = ofDigits b low + b ^ n * x + qd * V) :
    IsStep b V u (qd, low ++ x :: u.drop (n + 1)) := by
  obtain ⟨hquot, hrest⟩ := QuotientDigit.digit_of_exact w.divisor hge h
  obtain ⟨h1, h2, h3⟩ := w.replaced hb hlow hlen hx
  exact ⟨hquot, hqd, h1, h2, h3.trans hrest⟩

/-- A borrow came out: the digit is one too big, and adding the divisor back carries it away. -/
theorem IsStep.of_borrow {sum : List Nat} {c : Nat} (hle : qd ≤ ofDigits b u / V + 1)
    (h : ofDigits b u + b ^ (n + 1) = ofDigits b low + b ^ n * x + qd * V)
    (hsum : IsDigits b sum) (hslen : sum.length = n)
    (hback : ofDigits b sum + b ^ n * c = ofDigits b low + V) :
    IsStep b V u (qd - 1, sum ++ ((x + c) % b) :: u.drop (n + 1)) := by
  have hlowlt := hlow.ofDigits_lt hb
  have hsumlt := hsum.ofDigits_lt hb
  rw [hlen] at hlowlt
  rw [hslen] at hsumlt
  have hout : ofDigits b low + b ^ n * x < b ^ (n + 1) := by
    calc ofDigits b low + b ^ n * x < b ^ n + b ^ n * x := Nat.add_lt_add_right hlowlt _
      _ = b ^ n * (x + 1) := by ring
      _ ≤ b ^ n * b := Nat.mul_le_mul_left _ hx
      _ = b ^ (n + 1) := (pow_succ b n).symm
  obtain ⟨hquot, hrest⟩ := QuotientDigit.digit_of_borrow hge hle hout h
  have hmod := Nat.mod_lt (ofDigits b u) w.divisor
  have hboth : ofDigits b u % V + b ^ n * b = ofDigits b sum + b ^ n * (x + c) := by
    rw [← pow_succ, Nat.mul_add]
    omega
  obtain ⟨hr, htop⟩ := QuotientDigit.low_high_unique (hmod.trans w.divisor_lt) hsumlt hboth
  obtain ⟨h1, h2, h3⟩ := w.replaced hb hsum hslen (show 0 < b by omega)
  rw [← htop, Nat.mod_self]
  refine ⟨by rw [hquot, Nat.add_sub_cancel], (Nat.sub_le qd 1).trans_lt hqd, h1, h2, ?_⟩
  rw [h3, hr, Nat.mul_zero, Nat.add_zero]

end Window

/-- The steps from index `j - 1` down divide, as long as the quotient has `j` limbs. -/
theorem longSteps_spec {V n : Nat} {step : List Nat → Nat × List Nat} (hstep : DividesBy b V n step)
    (j : Nat) : ∀ u, IsDigits b u → n ≤ u.length + 1 - j → j ≤ u.length → ofDigits b u < V * b ^ j →
    IsDigits b (longSteps step j u).1 ∧ (longSteps step j u).1.length = j ∧
      IsDigits b (longSteps step j u).2 ∧ (longSteps step j u).2.length = u.length ∧
      ofDigits b u = ofDigits b (longSteps step j u).1 * V + ofDigits b (longSteps step j u).2 ∧
      ofDigits b (longSteps step j u).2 < V := by
  have hpos : 0 < b := by omega
  induction j with
  | zero =>
    intro u hu _ _ hlt
    refine ⟨IsDigits.nil b, rfl, hu, rfl, by simp [longSteps], ?_⟩
    rwa [Nat.pow_zero, Nat.mul_one] at hlt
  | succ j ih =>
    intro u hu hlen hj hlt
    have hpow : 0 < b ^ j := Nat.pow_pos hpos
    have hsplit := ofDigits_take_drop b u j (by omega)
    have hwindow : ofDigits b (u.drop j) < V * b := by
      have hmul : b ^ j * ofDigits b (u.drop j) < b ^ j * (V * b) := by
        calc b ^ j * ofDigits b (u.drop j) ≤ ofDigits b u := by omega
          _ < V * b ^ (j + 1) := hlt
          _ = b ^ j * (V * b) := by rw [pow_succ]; ring
      exact Nat.lt_of_mul_lt_mul_left hmul
    have hone := hstep (u.drop j) (fun d hd => hu d (List.mem_of_mem_drop hd))
      (by rw [List.length_drop]; omega) hwindow
    unfold longSteps
    simp only []
    generalize step (u.drop j) = r at hone ⊢
    have htake : (u.take j).length = j := by
      rw [List.length_take]
      omega
    have hVpos : 0 < V := by
      by_contra h
      rw [show V = 0 by omega, Nat.zero_mul] at hwindow
      omega
    have hnext : ofDigits b (u.take j ++ r.2) =
        ofDigits b (u.take j) + b ^ j * (ofDigits b (u.drop j) % V) := by
      rw [Nat.ofDigits_append, htake, hone.rest]
    have hlow : ofDigits b (u.take j) < b ^ j := by
      have := (hu.take j).ofDigits_lt hb
      rwa [htake] at this
    have hlength : (u.take j ++ r.2).length = u.length := by
      rw [List.length_append, htake, hone.length, List.length_drop]
      omega
    have hbound : ofDigits b (u.take j ++ r.2) < V * b ^ j := by
      rw [hnext]
      calc ofDigits b (u.take j) + b ^ j * (ofDigits b (u.drop j) % V)
          < b ^ j + b ^ j * (ofDigits b (u.drop j) % V) := Nat.add_lt_add_right hlow _
        _ = b ^ j * (ofDigits b (u.drop j) % V + 1) := by ring
        _ ≤ b ^ j * V := Nat.mul_le_mul_left _ (Nat.mod_lt _ hVpos)
        _ = V * b ^ j := Nat.mul_comm _ _
    obtain ⟨h1, h2, h3, h4, h5, h6⟩ := ih (u.take j ++ r.2) ((hu.take j).append hone.digits)
      (by omega) (by omega) hbound
    rw [hlength] at h4
    refine ⟨h1.append (IsDigits.singleton hone.limb), ?_, h3, h4, ?_, h6⟩
    · rw [List.length_append, h2, List.length_singleton]
    · have hdm := Nat.div_add_mod' (ofDigits b (u.drop j)) V
      rw [Nat.ofDigits_append, h2, Nat.ofDigits_singleton, hone.quot]
      calc ofDigits b u = ofDigits b (u.take j) + b ^ j * ofDigits b (u.drop j) := hsplit
        _ = ofDigits b (u.take j) + b ^ j * (ofDigits b (u.drop j) % V) +
            b ^ j * (ofDigits b (u.drop j) / V) * V := by
          conv_lhs => rw [← hdm]
          ring
        _ = _ := by
          rw [← hnext, h5]
          ring

end Base

end Positional

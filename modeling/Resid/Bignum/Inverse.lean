import Mathlib.NumberTheory.LegendreSymbol.JacobiSymbol
import Resid.Bignum.Modexp
import Resid.Lib.Cofactors

/-!
# Greatest common divisor, inverse and Jacobi symbol

`bn_modinv` runs the binary extended algorithm on 4224-bit words for odd moduli of up to
64 limbs and extended Euclid on limb lists otherwise; `bn_jac` is the reciprocity loop.
The loops over lists take the number of rounds they may run: any number above the
argument that shrinks gives the same answer.

    bnGcd answers Nat.gcd                                           (bnGcd_limbs)
    bwInv answers the inverse, or 0 without one                     (bwInv_spec)
    bnInvLoop answers the inverse, or None without one              (bnInvLoop_inverts)
    bnJac answers the sign times the Jacobi symbol                  (bnJac_limbs)
    the exported functions on every normalized list                 (inverse_gcd_jacobi)
-/

namespace Bignum

open FixedWidth Positional Cofactors

/-! ## Algorithm -/

/-- `(a - b) mod m`, for `a`, `b` below `m`. -/
def bnModsub (a b m : List Nat) : Option (List Nat) := do
  if (← bnCmp a b) ≥ 0 then bnSub a b else bnSub (← bnAdd a m) b

def bnGcd : Nat → List Nat → List Nat → Option (List Nat)
  | 0, _, _ => none
  | fuel + 1, a, b => if b.length = 0 then some a else do bnGcd fuel b (← bnMod a b)

/-- Extended Euclid on `r0`, `r1`, with `t0`, `t1` modulo `m`.  The inner `none` is the
source's `None`. -/
def bnInvLoop : Nat → List Nat → List Nat → List Nat → List Nat → List Nat →
    Option (Option (List Nat))
  | 0, _, _, _, _, _ => none
  | fuel + 1, r0, r1, t0, t1, m =>
    if r1.length = 0 then do
      if (← bnCmp r0 [1]) ≠ 0 then some none else some (some t0)
    else do
      let d ← bnDivmod r0 r1
      let qt ← bnModmul d.q t1 m
      bnInvLoop fuel r1 d.r t1 (← bnModsub t0 qt m) m

/-- Halves `x` modulo an odd `m`, for `x < m`. -/
def bwHalf (c : TwoWordClass) (x m : Nat) : Option Nat :=
  if x &&& 1 = 0 then some (shr x 1) else do some (shr (← addChk c.wide x m) 1)

def bwSubMod (c : TwoWordClass) (x y m : Nat) : Option Nat :=
  if x ≥ y then some (x - y) else do subChk (← addChk c.wide x m) y

theorem shr_one_lt {u : Nat} (h : u ≠ 0) : shr u 1 < u := Nat.div_lt_self (by omega) (by decide)

def bwInvLoop (c : TwoWordClass) (u v x1 x2 m : Nat) : Option Nat :=
  if u = 0 ∨ v = 0 then some 0
  else if u = 1 then some x1
  else if v = 1 then some x2
  else if u &&& 1 = 0 then
    (bwHalf c x1 m).bind fun h => bwInvLoop c (shr u 1) v h x2 m
  else if v &&& 1 = 0 then
    (bwHalf c x2 m).bind fun h => bwInvLoop c u (shr v 1) x1 h m
  else if u ≥ v then
    (bwSubMod c x1 x2 m).bind fun d => bwInvLoop c (u - v) v d x2 m
  else
    (bwSubMod c x2 x1 m).bind fun d => bwInvLoop c u (v - u) x1 d m
termination_by u + v
decreasing_by
  · have := shr_one_lt (u := u) (by omega)
    omega
  · have := shr_one_lt (u := v) (by omega)
    omega
  all_goals omega

/-- The source's `v0` and `x2` are not read: the loop starts at `m` and 0. -/
def bwInv (c : TwoWordClass) (u _v0 x1 _x2 m : Nat) : Option Nat := bwInvLoop c u m x1 0 m

/-- The inner `none` is the source's `None`. -/
def bnModinv (fuel : Nat) (a m : List Nat) : Option (Option (List Nat)) := do
  let a0 ← bnMod a m
  if a0.length = 0 then some none
  else if bnIsOdd m ∧ m.length ≤ 64 ∧ (← bnCmp m [1]) > 0 then
    let mw ← bwOf bw m m.length 0
    let u ← bwOf bw a0 a0.length 0
    let r ← bwInv bw u mw 1 0 mw
    if r = 0 then some none else do some (some (← bwTo r m.length 0 []))
  else bnInvLoop fuel m a0 [] [1] m

def bnJac : Nat → List Nat → List Nat → Int → Option Int
  | 0, _, _, _ => none
  | fuel + 1, a, n, t =>
    if a.length = 0 then do some (if (← bnCmp n [1]) = 0 then t else 0)
    else if ¬ bnIsOdd a then do
      let n0 ← n[0]?
      let r := n0 &&& 7
      let t2 := if r = 3 ∨ r = 5 then 0 - t else t
      bnJac fuel (← bnShr a 1) n t2
    else do
      let a0 ← a[0]?
      let n0 ← n[0]?
      let t3 := if a0 &&& 3 = 3 ∧ n0 &&& 3 = 3 then 0 - t else t
      bnJac fuel (← bnMod n a) a t3

def bnJacobi (fuel : Nat) (a n : List Nat) : Option Int := do bnJac fuel (← bnMod a n) n 1

/-! ## Modular sums and differences -/

theorem bnModsub_limbs (x y m : Nat) (hy : y < m) :
    bnModsub (limbs x) (limbs y) (limbs m) = some (limbs (subMod m x y)) := by
  unfold bnModsub subMod
  simp only [bnCmp_limbs, bnAdd_limbs, Option.bind_eq_bind, Option.bind_some, ge_iff_le,
    order_nonneg]
  split
  · rename_i h
    exact bnSub_limbs h
  · exact bnSub_limbs (by omega)

/-! ## Greatest common divisor -/

theorem bnGcd_limbs : ∀ fuel (x y : Nat), y < fuel →
    bnGcd fuel (limbs x) (limbs y) = some (limbs (Nat.gcd x y)) := by
  intro fuel
  induction fuel with
  | zero =>
    intro x y h
    omega
  | succ fuel ih =>
    intro x y h
    rw [bnGcd]
    by_cases h0 : y = 0
    · rw [if_pos (length_limbs_eq_zero.2 h0), h0, Nat.gcd_zero_right]
    · have hlt : x % y < y := Nat.mod_lt x (by omega)
      rw [if_neg fun h => h0 (length_limbs_eq_zero.1 h), bnMod_limbs (by omega),
        Option.bind_eq_bind, Option.bind_some, ih y (x % y) (by omega), Nat.gcd_comm x y,
        Nat.gcd_rec y x, Nat.gcd_comm]

/-! ## Extended Euclid -/

/-- The answer is the inverse of `a` modulo `m` where there is one, and `None` otherwise. -/
def Inverts (r : Option (Option (List Nat))) (a m : Nat) : Prop :=
  (Nat.gcd a m = 1 → ∃ l, r = some (some l) ∧ Norm l ∧ val l < m ∧ a * val l % m = 1) ∧
    (Nat.gcd a m ≠ 1 → r = some none)

theorem inverts_some {a m x : Nat} (hm : 1 < m) (hx : Carries m a 1 x) (hg : Nat.gcd a m = 1) :
    Inverts (some (some (limbs x))) a m :=
  ⟨fun _ => ⟨limbs x, rfl, norm_limbs x, by rw [val_limbs]; exact hx.lt,
    by rw [val_limbs]; exact hx.inverse hm⟩, fun h => absurd hg h⟩

theorem inverts_none {a m : Nat} (hg : Nat.gcd a m ≠ 1) : Inverts (some none) a m :=
  ⟨fun h => absurd h hg, fun _ => rfl⟩

theorem order_eq_zero {x y : Nat} : order x y = 0 ↔ x = y := by
  unfold order
  split
  · omega
  · split <;> omega

theorem bnInvLoop_inverts {a m : Nat} (hm : 1 < m) (hshort : (limbs m).length < 2 ^ 63) :
    ∀ fuel (r0 r1 t0 t1 : Nat), r1 < fuel → r0 ≤ m → r1 ≤ m → Carries m a r0 t0 →
      Carries m a r1 t1 → Nat.gcd r0 r1 = Nat.gcd a m →
      Inverts (bnInvLoop fuel (limbs r0) (limbs r1) (limbs t0) (limbs t1) (limbs m)) a m := by
  intro fuel
  induction fuel with
  | zero =>
    intro r0 r1 t0 t1 h
    omega
  | succ fuel ih =>
    intro r0 r1 t0 t1 hfuel hle0 hle1 h0 h1 hg
    rw [bnInvLoop]
    by_cases hr : r1 = 0
    · rw [if_pos (length_limbs_eq_zero.2 hr), ← limbs_one, bnCmp_limbs, Option.bind_eq_bind,
        Option.bind_some]
      rw [hr, Nat.gcd_zero_right] at hg
      by_cases hone : r0 = 1
      · rw [if_neg (not_not.2 (order_eq_zero.2 hone))]
        rw [hone] at h0 hg
        exact inverts_some hm h0 hg.symm
      · rw [if_pos fun h => hone (order_eq_zero.1 h)]
        exact inverts_none (hg ▸ hone)
    · have hq : (limbs (r0 / r1)).length < 2 ^ 63 :=
        length_lt_of_le (le_trans (Nat.div_le_self r0 r1) hle0) hshort
      have hlt : r0 % r1 < r1 := Nat.mod_lt r0 (by omega)
      have hqt : r0 / r1 * t1 % m < m := Nat.mod_lt _ (by omega)
      rw [if_neg fun h => hr (length_limbs_eq_zero.1 h), bnDivmod_limbs (by omega)]
      simp only [Option.bind_eq_bind, Option.bind_some, bnModmul_limbs (show 0 < m by omega) hq,
        bnModsub_limbs _ _ _ hqt]
      refine ih r1 (r0 % r1) t1 _ (by omega) hle1 (by omega) h1 (h0.euclid h1) ?_
      rw [← hg, Nat.gcd_comm r0 r1, Nat.gcd_rec r1 r0, Nat.gcd_comm]

/-! ## The binary algorithm on words -/

section Words

variable {c : TwoWordClass} {a m : Nat} (hm : m % 2 = 1) (h1 : 1 < m) (hfit : m + m ≤ 2 ^ c.wide)

theorem shr_one (u : Nat) : shr u 1 = u / 2 := by rw [shr, pow_one]

include hfit

theorem bwHalf_eq {x : Nat} (hx : x < m) : bwHalf c x m = some (halfMod m x) := by
  unfold bwHalf halfMod
  rw [Nat.and_one_is_mod]
  split
  · rw [shr_one]
  · rw [addChk_of_lt (by omega), Option.bind_eq_bind, Option.bind_some, shr_one]

theorem bwSubMod_eq {x y : Nat} (hx : x < m) (hy : y < m) :
    bwSubMod c x y m = some (subMod m x y) := by
  unfold bwSubMod subMod
  split
  · rfl
  · rw [addChk_of_lt (by omega), Option.bind_eq_bind, Option.bind_some, subChk_of_le (by omega)]

include hm

/-- From any state of the algorithm the loop answers the inverse, or 0 where there is none. -/
theorem bwInvLoop_spec {u v x y : Nat} (h : Binary m a u v x y) :
    ∃ r, bwInvLoop c u v x y m = some r ∧ (Nat.gcd a m = 1 → Carries m a 1 r) ∧
      (Nat.gcd a m ≠ 1 → r = 0) := by
  induction hn : u + v using Nat.strongRecOn generalizing u v x y with
  | _ n ih =>
    have hpos := h.pos
    rw [bwInvLoop, Nat.and_one_is_mod, Nat.and_one_is_mod]
    by_cases hu0 : u = 0
    · exact ⟨0, if_pos (Or.inl hu0), fun hg => absurd hg (h.not_coprime_of_zero hu0),
        fun _ => rfl⟩
    rw [if_neg (by omega)]
    by_cases hu1 : u = 1
    · rw [if_pos hu1]
      exact ⟨x, rfl, fun _ => hu1 ▸ h.left, fun hg => absurd (h.coprime_of_left hu1) hg⟩
    rw [if_neg hu1]
    by_cases hv1 : v = 1
    · rw [if_pos hv1]
      exact ⟨y, rfl, fun _ => hv1 ▸ h.right, fun hg => absurd (h.coprime_of_right hv1) hg⟩
    rw [if_neg hv1]
    by_cases hu : u % 2 = 0
    · rw [if_pos hu, bwHalf_eq hfit h.left.lt, Option.bind_some, shr_one]
      exact ih _ (by omega) (h.halveLeft hm hu hu0) rfl
    rw [if_neg hu]
    by_cases hv : v % 2 = 0
    · rw [if_pos hv, bwHalf_eq hfit h.right.lt, Option.bind_some, shr_one]
      exact ih _ (by omega) (h.halveRight hm (by omega) hv) rfl
    rw [if_neg hv]
    by_cases hle : v ≤ u
    · rw [if_pos hle, bwSubMod_eq hfit h.left.lt h.right.lt, Option.bind_some]
      exact ih _ (by omega) (h.subLeft (by omega) hle hv1) rfl
    · rw [if_neg hle, bwSubMod_eq hfit h.right.lt h.left.lt, Option.bind_some]
      exact ih _ (by omega) (h.subRight (by omega) (by omega)) rfl

include h1

/-- Started on `a` and the modulus itself. -/
theorem bwInv_spec {u : Nat} (hu : u ≡ a [MOD m]) (hu0 : u ≠ 0) :
    ∃ r, bwInv c u m 1 0 m = some r ∧ (Nat.gcd a m = 1 → Carries m a 1 r) ∧
      (Nat.gcd a m ≠ 1 → r = 0) := by
  refine bwInvLoop_spec hm hfit ⟨⟨h1, ?_⟩, ⟨by omega, ?_⟩, ?_, Or.inr hm, by omega,
    fun h => absurd h hu0⟩
  · rw [Nat.one_mul]
    exact hu.symm
  · rw [Nat.zero_mul]
    exact (Nat.modEq_zero_iff_dvd.2 (dvd_refl m)).symm
  · rw [hu.gcd_eq]

end Words

/-! ## The inverse -/

variable {fuel n x : Nat}

theorem euclid_inverts {a m : Nat} (hm : 1 < m) (hshort : (limbs m).length < 2 ^ 63)
    (hfuel : m < fuel) :
    Inverts (bnInvLoop fuel (limbs m) (limbs (a % m)) [] [1] (limbs m)) a m := by
  have hlt : a % m < m := Nat.mod_lt a (by omega)
  rw [← limbs_one, ← limbs_zero]
  refine bnInvLoop_inverts hm hshort fuel m (a % m) 0 1 (by omega) (Nat.le_refl m) (by omega)
    ⟨by omega, ?_⟩ ⟨hm, ?_⟩ ?_
  · rw [Nat.zero_mul]
    exact (Nat.modEq_zero_iff_dvd.2 (dvd_refl m)).symm
  · rw [Nat.one_mul]
    exact (Nat.mod_modEq a m).symm
  · rw [Nat.gcd_comm, ← Nat.gcd_rec, Nat.gcd_comm]

theorem double_le_pow {m k w : Nat} (h : m < 2 ^ k) (hkw : k < w) : m + m ≤ 2 ^ w := by
  have hle : 2 ^ (k + 1) ≤ 2 ^ w := Nat.pow_le_pow_right (by decide) hkw
  rw [Nat.pow_succ] at hle
  omega

/-- The word path: what it reads, and what it answers. -/
theorem binary_inverts {a m : Nat} (hm : 1 < m) (hodd : m % 2 = 1)
    (hlen : (limbs m).length ≤ 64) (h0 : a % m ≠ 0) :
    bwOf bw (limbs m) (limbs m).length 0 = some m ∧
      bwOf bw (limbs (a % m)) (limbs (a % m)).length 0 = some (a % m) ∧
      ∃ r, bwInv bw (a % m) m 1 0 m = some r ∧ (Nat.gcd a m = 1 → Carries m a 1 r) ∧
        (Nat.gcd a m ≠ 1 → r = 0) := by
  have hlt : a % m < m := Nat.mod_lt a (by omega)
  have hw : m < 2 ^ 4096 := limbs_length_class (by omega)
  have hfit : m + m ≤ 2 ^ bw.wide := double_le_pow hw (by decide)
  have hmw : m < 2 ^ bw.wide := lt_of_lt_of_le (Nat.lt_add_of_pos_left (by omega)) hfit
  exact ⟨nkOf_limbs hmw, nkOf_limbs (lt_trans hlt hmw),
    bwInv_spec hodd hm hfit (Nat.mod_modEq a m) h0⟩

theorem bnModinv_inverts {a m : Nat} (hm : 1 < m) (hshort : (limbs m).length < 2 ^ 63)
    (hfuel : m < fuel) : Inverts (bnModinv fuel (limbs a) (limbs m)) a m := by
  have hcmp : bnCmp (limbs m) [1] = some (order m 1) := by rw [← limbs_one, bnCmp_limbs]
  have hgt : order m 1 > 0 := by
    unfold order
    rw [if_neg (by omega), if_neg (by omega)]
    decide
  rw [bnModinv, bnMod_limbs (by omega), Option.bind_eq_bind, Option.bind_some]
  by_cases h0 : a % m = 0
  · rw [if_pos (length_limbs_eq_zero.2 h0)]
    refine inverts_none ?_
    rw [Nat.gcd_comm, Nat.gcd_eq_left (Nat.dvd_of_mod_eq_zero h0)]
    omega
  rw [if_neg fun h => h0 (length_limbs_eq_zero.1 h), hcmp, Option.bind_eq_bind, Option.bind_some,
    bnIsOdd_limbs]
  by_cases hpath : m % 2 = 1 ∧ (limbs m).length ≤ 64
  · obtain ⟨hodd, hlen⟩ := hpath
    obtain ⟨hmw, hu, r, hr, hinv, hnone⟩ := binary_inverts hm hodd hlen h0
    rw [if_pos ⟨by simp [hodd], hlen, hgt⟩, hmw, hu]
    simp only [Option.bind_eq_bind, Option.bind_some, hr]
    by_cases hg : Nat.gcd a m = 1
    · have hc := hinv hg
      have hto : bwTo r (limbs m).length 0 [] = some (limbs r) :=
        nkTo_eq (lt_trans hc.lt (lt_pow_length m))
      rw [if_neg (hc.ne_zero hm), hto]
      exact inverts_some hm hc hg
    · rw [if_pos (hnone hg)]
      exact inverts_none hg
  · rw [if_neg fun h => hpath ⟨by simpa using h.1, h.2.1⟩]
    exact euclid_inverts hm hshort hfuel

/-! ## The Jacobi symbol -/

theorem getElem?_zero_limbs (h : n ≠ 0) : (limbs n)[0]? = some (n % 2 ^ 64) := by
  have hpos : 0 < (limbs n).length :=
    Nat.pos_of_ne_zero fun h0 => h (length_limbs_eq_zero.1 h0)
  rw [getElem?_limbs hpos, digit, pow_zero, Nat.div_one, bnBase_eq]

theorem and_seven (n : Nat) : n % 2 ^ 64 &&& 7 = n % 8 := by
  have h : ∀ x, x &&& 7 = x % 8 := fun x => Nat.and_two_pow_sub_one_eq_mod x 3
  rw [h, Nat.mod_mod_of_dvd n (by decide)]

theorem and_three (n : Nat) : n % 2 ^ 64 &&& 3 = n % 4 := by
  have h : ∀ x, x &&& 3 = x % 4 := fun x => Nat.and_two_pow_sub_one_eq_mod x 2
  rw [h, Nat.mod_mod_of_dvd n (by decide)]

/-- The symbol of zero is that of the empty product where `n` is one. -/
theorem bnJac_zero (t : Int) (hn : n % 2 = 1) :
    bnJac (fuel + 1) (limbs 0) (limbs n) t = some (t * jacobiSym 0 n) := by
  rw [bnJac, if_pos (length_limbs_eq_zero.2 rfl), ← limbs_one, bnCmp_limbs, Option.bind_eq_bind,
    Option.bind_some]
  by_cases h1 : n = 1
  · rw [if_pos (order_eq_zero.2 h1), h1, jacobiSym.one_right, mul_one]
  · rw [if_neg fun h => h1 (order_eq_zero.1 h), jacobiSym.zero_left (by omega), mul_zero]

theorem bnJac_even (t : Int) (hx : x ≠ 0) (h2 : x % 2 = 0) (hn : n % 2 = 1) :
    bnJac (fuel + 1) (limbs x) (limbs n) t =
      bnJac fuel (limbs (x / 2)) (limbs n) (if n % 8 = 3 ∨ n % 8 = 5 then 0 - t else t) := by
  rw [bnJac, if_neg fun h => hx (length_limbs_eq_zero.1 h), bnIsOdd_limbs, if_pos (by simp [h2]),
    getElem?_zero_limbs (by omega), bnShr_limbs, pow_one]
  simp only [Option.bind_eq_bind, Option.bind_some, and_seven]

theorem bnJac_odd (t : Int) (hx : x % 2 = 1) (hn : n % 2 = 1) :
    bnJac (fuel + 1) (limbs x) (limbs n) t =
      bnJac fuel (limbs (n % x)) (limbs x) (if x % 4 = 3 ∧ n % 4 = 3 then 0 - t else t) := by
  rw [bnJac, if_neg fun h => by rw [length_limbs_eq_zero] at h; omega, bnIsOdd_limbs,
    if_neg (by simp [hx]), getElem?_zero_limbs (by omega), getElem?_zero_limbs (by omega),
    bnMod_limbs (by omega)]
  simp only [Option.bind_eq_bind, Option.bind_some, and_three]

theorem bnJac_limbs : ∀ fuel (x n : Nat) (t : Int), x < fuel → n % 2 = 1 →
    bnJac fuel (limbs x) (limbs n) t = some (t * jacobiSym x n) := by
  intro fuel
  induction fuel with
  | zero =>
    intro x n t h
    omega
  | succ fuel ih =>
    intro x n t h hn
    by_cases hx : x = 0
    · rw [hx]
      exact bnJac_zero t hn
    by_cases h2 : x % 2 = 0
    · rw [bnJac_even t hx h2 hn, ih (x / 2) n _ (by omega) hn,
        ← jacobiSym.even_odd (a := x) (by omega) hn]
      split <;> simp
    · have hlt : n % x < x := Nat.mod_lt n (by omega)
      rw [bnJac_odd t (by omega) hn, ih (n % x) x _ (by omega) (by omega),
        ← jacobiSym.quadratic_reciprocity_if (show x % 2 = 1 by omega) hn, Int.natCast_mod,
        ← jacobiSym.mod_left]
      split <;> simp

theorem bnJacobi_limbs (hn : n % 2 = 1) (hfuel : n < fuel) :
    bnJacobi fuel (limbs x) (limbs n) = some (jacobiSym x n) := by
  have hlt : x % n < n := Nat.mod_lt x (by omega)
  rw [bnJacobi, bnMod_limbs (by omega), Option.bind_eq_bind, Option.bind_some,
    bnJac_limbs fuel (x % n) n 1 (by omega) hn, Int.one_mul, Int.natCast_mod,
    ← jacobiSym.mod_left]

/-! ## Every normalized list -/

/-- The inverse by either algorithm, the greatest common divisor and the Jacobi symbol. -/
theorem inverse_gcd_jacobi (a m : BnNat) {fuel : Nat} (hfuel : val m.list < fuel) :
    (1 < val m.list →
      Inverts (bnModinv fuel a.list m.list) (val a.list) (val m.list) ∧
        (∀ a0, bnMod a.list m.list = some a0 →
          Inverts (bnInvLoop fuel m.list a0 [] [1] m.list) (val a.list) (val m.list)) ∧
        (val m.list % 2 = 1 → m.list.length ≤ 64 → ∀ a0, bnMod a.list m.list = some a0 →
          a0 ≠ [] → ∃ mw u r, bwOf bw m.list m.list.length 0 = some mw ∧
            bwOf bw a0 a0.length 0 = some u ∧ bwInv bw u mw 1 0 mw = some r ∧
            (Nat.gcd (val a.list) (val m.list) = 1 →
              r < val m.list ∧ val a.list * r % val m.list = 1) ∧
            (Nat.gcd (val a.list) (val m.list) ≠ 1 → r = 0))) ∧
      Denotes (bnGcd fuel a.list m.list) (Nat.gcd (val a.list) (val m.list)) ∧
      (val m.list % 2 = 1 →
        bnJacobi fuel a.list m.list = some (jacobiSym (val a.list) (val m.list))) := by
  have hshort := m.short
  rw [m.eq_limbs] at hshort
  rw [a.eq_limbs, m.eq_limbs]
  simp only [val_limbs]
  generalize val a.list = x
  generalize val m.list = n at *
  refine ⟨fun hn => ⟨bnModinv_inverts hn hshort hfuel, fun a0 ha0 => ?_,
    fun hodd hlen a0 ha0 hne => ?_⟩, denotes_limbs (bnGcd_limbs fuel x n hfuel),
    fun hodd => bnJacobi_limbs hodd hfuel⟩
  · rw [bnMod_limbs (by omega), Option.some_inj] at ha0
    subst ha0
    exact euclid_inverts hn hshort hfuel
  · rw [bnMod_limbs (by omega), Option.some_inj] at ha0
    subst ha0
    obtain ⟨hmw, hu, r, hr, hinv, hnone⟩ := binary_inverts hn hodd hlen (mt limbs_eq_nil.2 hne)
    exact ⟨n, x % n, r, hmw, hu, hr, fun hg => ⟨(hinv hg).lt, (hinv hg).inverse hn⟩, hnone⟩

/-- 3 modulo 7. -/
theorem inverse_gcd_jacobi_three_seven :
    Inverts (bnModinv 8 [3] [7]) (val [3]) (val [7]) ∧
      Denotes (bnGcd 8 [3] [7]) (Nat.gcd (val [3]) (val [7])) ∧
      bnJacobi 8 [3] [7] = some (jacobiSym (val [3]) (val [7])) := by
  have h := inverse_gcd_jacobi
    ⟨[3], ⟨by simp [IsDigits, bnBase], by simp⟩, by simp⟩
    ⟨[7], ⟨by simp [IsDigits, bnBase], by simp⟩, by simp⟩ (show val [7] < 8 by decide)
  exact ⟨(h.1 (by decide)).1, h.2.1, h.2.2 (by decide)⟩

end Bignum

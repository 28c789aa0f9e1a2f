import Mathlib.Tactic.NormNum.Prime
import Resid.Lib.CheckedInt
import Resid.Lib.FixedWidth
import Resid.Lib.Interpolation
import Resid.Lib.Primality

/-!
# Shamir secret sharing

The shares of a secret are the values of a polynomial over the integers modulo the prime `scN`,
the order of the P-256 group; the secret is its value at zero.  Any parties, as many as there
are coefficients or more, weigh their shares to additive ones, which sum to the secret:

    coeffs.length ≤ ids.length → ids distinct and positive →
      shReconstruct ids (shares of ids) = some coeffs[0]                  (reconstruct_quorum)

## Algorithm

`shHorner` evaluates from the last coefficient down, `shLag` multiplies the weight of one party
up over the others, with the difference of two ids taken from the greater and negated where the
party's own is the greater.  A loop over `xs[k..]` is over the list itself.
-/

namespace Shamir

open CheckedInt FixedWidth

/-! ## Scalars -/

/-- The group order. -/
def scN : Nat := 115792089210356248762697446949407573529996955224135760342422259061068512044369

def scAdd (a b : Nat) : Nat := (a + b) % scN

def scNeg (a : Nat) : Nat := if a = 0 then 0 else scN - a

def scMul (a b : Nat) : Nat := a * b % scN

/-- `1 / a`, for `a` not zero. -/
def scInv (a : Nat) : Nat := ((a : ZMod scN)⁻¹).val

/-- A signed integer as an unsigned one of more bits. -/
def toUnsigned (n : Int) : Option Nat := if 0 ≤ n then some n.toNat else none

/-! ## Shares -/

def shHorner (c : List Nat) (x : Nat) : (i : Nat) → (acc : Nat) → Nat
  | 0, acc => acc
  | i + 1, acc => shHorner c x i (scAdd (scMul acc x) (c.getD i 0))

def shEval (coeffs : List Nat) (x : Nat) : Nat := shHorner coeffs x coeffs.length 0

/-! ## Reconstruction -/

/-- The weight of party `i`, the product of `j / (j - i)` over the other parties `j`. -/
def shLag (i : Int) : (ids : List Int) → (acc : Nat) → Option Nat
  | [], acc => some acc
  | j :: ids, acc =>
    if j = i then shLag i ids acc
    else do
      let num ← toUnsigned j
      let den ←
        (if j > i then do toUnsigned (← sub 64 j i)
        else do some (scNeg (← toUnsigned (← sub 64 i j))))
      shLag i ids (scMul acc (scMul num (scInv den)))

def shLagrange0 (ids : List Int) (i : Int) : Option Nat := do castChk 256 (← shLag i ids 1)

/-- The additive share of party `i` among the parties `ids`. -/
def shToAdditive (ids : List Int) (i : Int) (share : Nat) : Option Nat := do
  castChk 256 (scMul (← shLagrange0 ids i) share)

def shRec (ids : List Int) : (rest : List Int) → (shares : List Nat) → (acc : Nat) → Option Nat
  | [], _, acc => castChk 256 acc
  | _ :: _, [], _ => none
  | i :: rest, share :: shares, acc => do
    let part ← shToAdditive ids i share
    shRec ids rest shares (scAdd acc part)

/-- The secret from the shares of the parties `ids`, in the same order. -/
def shReconstruct (ids : List Int) (shares : List Nat) : Option Nat := shRec ids ids shares 0

/-! ## The field of scalars -/

def smallPrimes : List Nat :=
  [2, 3, 5, 7, 11, 17, 19, 29, 31, 41, 43, 71, 97, 127, 131, 229, 263, 311, 337, 373, 727, 1201,
    1297, 3023, 3407, 9547]

/-- A root of each prime that `scN - 1` and its factors lead to. -/
def scSteps : List Primality.Step :=
  [⟨17449, 14, [2, 2, 2, 3, 727]⟩, ⟨38189, 2, [2, 2, 9547]⟩, ⟨155317, 5, [2, 2, 3, 7, 43, 43]⟩,
    ⟨126241, 7, [2, 2, 2, 2, 2, 3, 5, 263]⟩, ⟨104471, 11, [2, 5, 31, 337]⟩,
    ⟨3969899, 2, [2, 19, 104471]⟩, ⟨16879, 3, [2, 3, 29, 97]⟩,
    ⟨191039911, 3, [2, 3, 5, 41, 155317]⟩,
    ⟨208150935158385979, 2, [2, 3, 11, 43, 127, 3023, 191039911]⟩,
    ⟨9350987, 2, [2, 17, 229, 1201]⟩, ⟨187019741, 2, [2, 2, 5, 9350987]⟩,
    ⟨311245691, 2, [2, 5, 7, 17, 29, 29, 311]⟩, ⟨622491383, 5, [2, 311245691]⟩,
    ⟨1002328039319, 19, [2, 126241, 3969899]⟩,
    ⟨2624747550333869278416773953, 7,
      [2, 2, 2, 2, 2, 2, 3, 3, 1297, 16879, 208150935158385979]⟩,
    ⟨scN, 7, [2, 2, 2, 2, 3, 71, 131, 373, 3407, 17449, 38189, 187019741, 622491383,
      1002328039319, 2624747550333869278416773953]⟩]

theorem scN_prime : scN.Prime := by
  have hsmall : ∀ q ∈ smallPrimes, q.Prime := by
    unfold smallPrimes
    norm_num
  have hsteps : Primality.certified 256 smallPrimes scSteps = true := by decide +kernel
  have hlast : (⟨scN, 7, [2, 2, 2, 2, 3, 71, 131, 373, 3407, 17449, 38189, 187019741, 622491383,
      1002328039319, 2624747550333869278416773953]⟩ : Primality.Step) ∈ scSteps := by
    simp [scSteps]
  exact Primality.certified_prime hsmall hsteps _ hlast

instance : Fact scN.Prime := ⟨scN_prime⟩

theorem scN_lt : scN < 2 ^ 256 := by decide

theorem int_lt_scN {n : Int} (h : Fits 64 n) : n < scN := by
  unfold scN
  have := h.2
  omega

/-- A scalar is determined by its element of the field. -/
theorem eq_of_cast {a b : Nat} (ha : a < scN) (hb : b < scN) (h : (a : ZMod scN) = b) : a = b := by
  rw [ZMod.natCast_eq_natCast_iff, Nat.ModEq, Nat.mod_eq_of_lt ha, Nat.mod_eq_of_lt hb] at h
  exact h

theorem scAdd_lt (a b : Nat) : scAdd a b < scN := Nat.mod_lt _ scN_prime.pos

theorem scMul_lt (a b : Nat) : scMul a b < scN := Nat.mod_lt _ scN_prime.pos

@[simp] theorem scAdd_cast (a b : Nat) : (scAdd a b : ZMod scN) = a + b := by
  rw [scAdd, ZMod.natCast_mod, Nat.cast_add]

@[simp] theorem scMul_cast (a b : Nat) : (scMul a b : ZMod scN) = a * b := by
  rw [scMul, ZMod.natCast_mod, Nat.cast_mul]

@[simp] theorem scInv_cast (a : Nat) : (scInv a : ZMod scN) = (a : ZMod scN)⁻¹ := by
  rw [scInv, ZMod.natCast_zmod_val]

theorem scNeg_cast {a : Nat} (ha : a < scN) : (scNeg a : ZMod scN) = -a := by
  rw [scNeg]
  split_ifs with hzero
  · rw [hzero, Nat.cast_zero, neg_zero]
  · rw [Nat.cast_sub (Nat.le_of_lt ha), ZMod.natCast_self, zero_sub]

theorem castChk_scalar {a : Nat} (ha : a < scN) : castChk 256 a = some a :=
  castChk_of_lt (Nat.lt_trans ha scN_lt)

/-! ## Evaluation -/

theorem shHorner_cast (c : List Nat) (x i acc : Nat) (hi : i ≤ c.length) :
    (shHorner c x i acc : ZMod scN) =
      ((c.take i).map Nat.cast).foldr (fun a s => s * (x : ZMod scN) + a) acc := by
  induction i generalizing acc with
  | zero => rfl
  | succ i ih =>
    have hlt : i < c.length := hi
    rw [shHorner, ih _ (Nat.le_of_succ_le hi), List.take_add_one, List.getElem?_eq_getElem hlt,
      List.map_append, List.foldr_append, List.getD_eq_getElem _ _ hlt, scAdd_cast, scMul_cast]
    rfl

theorem shEval_cast (coeffs : List Nat) (x : Nat) :
    (shEval coeffs x : ZMod scN) = Interpolation.horner (coeffs.map Nat.cast) (x : ZMod scN) := by
  rw [shEval, shHorner_cast coeffs x _ 0 (Nat.le_refl _), List.take_length, Nat.cast_zero]
  rfl

/-! ## Weights -/

/-- A party's number in the field. -/
def node (i : Int) : ZMod scN := (i.toNat : ZMod scN)

/-- Party numbers: positive values of 64 bits. -/
def Party (i : Int) : Prop := 0 < i ∧ Fits 64 i

theorem Party.lt {i : Int} (h : Party i) : i.toNat < scN := by
  have := int_lt_scN h.2
  have := h.1
  omega

theorem node_inj {i j : Int} (hi : Party i) (hj : Party j) (h : node i = node j) : i = j := by
  have hsame := eq_of_cast hi.lt hj.lt h
  have := hj.1
  omega

/-- The difference of two numbers, whichever is the greater. -/
theorem difference {i j : Int} (hi : Party i) (hj : Party j) :
    ∃ d, (if j > i then do toUnsigned (← sub 64 j i)
        else do some (scNeg (← toUnsigned (← sub 64 i j)))) = some d ∧
      (d : ZMod scN) = node j - node i := by
  obtain ⟨hi0, hifits⟩ := hi
  obtain ⟨hj0, hjfits⟩ := hj
  have hi64 := fits_64.1 hifits
  have hj64 := fits_64.1 hjfits
  unfold node
  split_ifs with hlt
  · have hfits : Fits 64 (j - i) := fits_64.2 (by omega)
    refine ⟨(j - i).toNat, ?_, ?_⟩
    · rw [sub_of_fits hfits, Option.bind_eq_bind, Option.bind_some, toUnsigned, if_pos (by omega)]
    · rw [show (j - i).toNat = j.toNat - i.toNat by omega, Nat.cast_sub (by omega)]
  · have hfits : Fits 64 (i - j) := fits_64.2 (by omega)
    have hsmall : (i - j).toNat < scN := by
      have := int_lt_scN hfits
      omega
    refine ⟨scNeg (i - j).toNat, ?_, ?_⟩
    · rw [sub_of_fits hfits, Option.bind_eq_bind, Option.bind_some, toUnsigned, if_pos (by omega)]
      rfl
    · rw [scNeg_cast hsmall, show (i - j).toNat = i.toNat - j.toNat by omega,
        Nat.cast_sub (by omega), neg_sub]

theorem shLag_spec {i : Int} (hi : Party i) (ids : List Int) (hids : ∀ j ∈ ids, Party j)
    {acc : Nat} (hacc : acc < scN) :
    ∃ w, shLag i ids acc = some w ∧ w < scN ∧
      (w : ZMod scN) = acc * Interpolation.weight (ids.map node) (node i) := by
  induction ids generalizing acc with
  | nil => exact ⟨acc, rfl, hacc, by simp [Interpolation.weight]⟩
  | cons j ids ih =>
    obtain ⟨hj, hrest⟩ := List.forall_mem_cons.1 hids
    rw [shLag]
    by_cases hji : j = i
    · obtain ⟨w, hw, hlt, hcast⟩ := ih hrest hacc
      refine ⟨w, by rw [if_pos hji, hw], hlt, ?_⟩
      rw [hcast, Interpolation.weight, Interpolation.weight, List.map_cons,
        List.filter_cons_of_neg (by simp [hji])]
    · obtain ⟨d, hd, hdcast⟩ := difference hi hj
      obtain ⟨w, hw, hlt, hcast⟩ := ih hrest (scMul_lt acc (scMul j.toNat (scInv d)))
      refine ⟨w, ?_, hlt, ?_⟩
      · have hnum : toUnsigned j = some j.toNat := if_pos (Int.le_of_lt hj.1)
        rw [if_neg hji, hnum, hd]
        exact hw
      · have hne : node j ≠ node i := fun h => hji (node_inj hj hi h)
        rw [hcast, Interpolation.weight, Interpolation.weight, List.map_cons,
          List.filter_cons_of_pos (by simp [hne]), List.map_cons, List.prod_cons, scMul_cast,
          scMul_cast, scInv_cast, hdcast, mul_assoc]
        rfl

/-- An additive share is the share weighed. -/
theorem shToAdditive_spec {ids : List Int} (hids : ∀ j ∈ ids, Party j) {i : Int} (hi : Party i)
    (share : Nat) :
    ∃ part, shToAdditive ids i share = some part ∧ part < scN ∧
      (part : ZMod scN) = Interpolation.weight (ids.map node) (node i) * share := by
  obtain ⟨w, hw, hlt, hcast⟩ := shLag_spec hi ids hids scN_prime.one_lt
  refine ⟨scMul w share, ?_, scMul_lt w share, ?_⟩
  · rw [shToAdditive, shLagrange0, hw]
    show (castChk 256 w).bind _ = _
    rw [castChk_scalar hlt, Option.bind_some, castChk_scalar (scMul_lt w share)]
  · rw [scMul_cast, hcast, Nat.cast_one, one_mul]

/-! ## Quorums -/

theorem foldl_scAdd (parts : List Nat) {acc : Nat} (hacc : acc < scN) :
    parts.foldl scAdd acc < scN ∧
      ((parts.foldl scAdd acc : Nat) : ZMod scN) = acc + (parts.sum : Nat) := by
  induction parts generalizing acc with
  | nil => exact ⟨hacc, by simp⟩
  | cons p parts ih =>
    obtain ⟨hlt, hcast⟩ := ih (scAdd_lt acc p)
    refine ⟨hlt, ?_⟩
    rw [List.foldl_cons, hcast, scAdd_cast, List.sum_cons, Nat.cast_add, add_assoc]

/-- The additive shares of some of the parties, and the loop that adds them up. -/
theorem additive_parts {ids : List Int} (hids : ∀ j ∈ ids, Party j) (f : Int → Nat)
    (rest : List Int) (hrest : ∀ j ∈ rest, Party j) :
    ∃ parts, rest.mapM (fun i => shToAdditive ids i (f i)) = some parts ∧
      ((parts.sum : Nat) : ZMod scN) =
        (rest.map fun i => Interpolation.weight (ids.map node) (node i) * f i).sum ∧
      ∀ acc < scN, shRec ids rest (rest.map f) acc = some (parts.foldl scAdd acc) := by
  induction rest with
  | nil => exact ⟨[], rfl, rfl, fun acc hacc => castChk_scalar hacc⟩
  | cons i rest ih =>
    obtain ⟨hi, hrest⟩ := List.forall_mem_cons.1 hrest
    obtain ⟨part, hpart, -, hcast⟩ := shToAdditive_spec hids hi (f i)
    obtain ⟨parts, hparts, hsum, hrec⟩ := ih hrest
    refine ⟨part :: parts, ?_, ?_, ?_⟩
    · rw [List.mapM_cons, hpart, hparts]
      rfl
    · rw [List.sum_cons, Nat.cast_add, hcast, hsum, List.map_cons, List.sum_cons]
    · intro acc hacc
      rw [List.map_cons, shRec, hpart, List.foldl_cons]
      exact hrec _ (scAdd_lt acc part)

/-- Any parties, as many as there are coefficients or more, in any order: their shares give the
secret, and their additive shares sum to it. -/
theorem reconstruct_quorum {secret : Nat} {others : List Nat} {ids : List Int}
    (hcoeffs : ∀ c ∈ secret :: others, c < scN) (hids : ∀ i ∈ ids, Party i) (hnd : ids.Nodup)
    (hquorum : (secret :: others).length ≤ ids.length) :
    shReconstruct ids (ids.map fun i => shEval (secret :: others) i.toNat) = some secret ∧
      ∃ parts, ids.mapM (fun i => shToAdditive ids i (shEval (secret :: others) i.toNat)) =
        some parts ∧ parts.sum % scN = secret := by
  have hsecret : secret < scN := hcoeffs secret List.mem_cons_self
  obtain ⟨parts, hparts, hsum, hrec⟩ :=
    additive_parts hids (fun i => shEval (secret :: others) i.toNat) ids hids
  have hnodes : (ids.map node).Nodup :=
    List.Nodup.map_on (fun i hi j hj h => node_inj (hids i hi) (hids j hj) h) hnd
  have htotal : ((parts.sum : Nat) : ZMod scN) = secret := by
    have hweights := Interpolation.sum_weights hnodes ((secret :: others).map Nat.cast)
      (by rw [List.length_map, List.length_map]; exact hquorum)
    rw [List.map_map] at hweights
    rw [hsum]
    refine Eq.trans ?_ hweights
    congr 1
    apply List.map_congr_left
    intro i _
    rw [shEval_cast]
    rfl
  refine ⟨?_, parts, hparts, ?_⟩
  · obtain ⟨hlt, hcast⟩ := foldl_scAdd parts scN_prime.pos
    rw [shReconstruct, hrec 0 scN_prime.pos]
    congr 1
    refine eq_of_cast hlt hsecret ?_
    rw [hcast, htotal, Nat.cast_zero, zero_add]
  · refine eq_of_cast (Nat.mod_lt _ scN_prime.pos) hsecret ?_
    rw [ZMod.natCast_mod, htotal]

/-- Parties 3 and 1 of a secret of two coefficients. -/
theorem reconstruct_quorum_two :
    shReconstruct [3, 1] (([3, 1] : List Int).map fun i => shEval [7, 5] i.toNat) = some 7 ∧
      ∃ parts, ([3, 1] : List Int).mapM
        (fun i => shToAdditive [3, 1] i (shEval [7, 5] i.toNat)) = some parts ∧
          parts.sum % scN = 7 := by
  refine reconstruct_quorum ?_ ?_ (by decide) (by decide)
  · intro c hc
    have : c < 8 := by
      simp only [List.mem_cons, List.not_mem_nil, or_false] at hc
      omega
    unfold scN
    omega
  · intro i hi
    simp only [List.mem_cons, List.not_mem_nil, or_false] at hi
    constructor
    · omega
    · exact fits_64.2 (by omega)

end Shamir

import Mathlib.Algebra.BigOperators.Group.Finset.Basic
import Mathlib.Data.List.GetD
import Mathlib.LinearAlgebra.Lagrange
import Mathlib.Tactic.Ring

/-!
# Interpolation at zero

A polynomial is its list of coefficients, the constant one first.  Its value at zero is a
weighted sum of its values at any nodes, as many as it has coefficients or more:

    weight xs x = the product of y / (y - x) over the nodes y other than x
    xs.Nodup → cs.length ≤ xs.length →
      (xs.map fun x => weight xs x * horner cs x).sum = cs.headD 0          (sum_weights)

As many coefficients as nodes are determined by the values, which may be any:

    xs.Nodup → ys.length = xs.length →
      ∃! cs, cs.length = xs.length ∧ xs.map (horner cs) = ys            (existsUnique_coeffs)
-/

namespace Interpolation

open Polynomial

variable {F : Type*} [Field F]

/-- Horner's rule. -/
def horner (cs : List F) (x : F) : F := cs.foldr (fun c acc => acc * x + c) 0

theorem horner_zero (cs : List F) : horner cs 0 = cs.headD 0 := by
  cases cs with
  | nil => rfl
  | cons c cs =>
    show horner cs 0 * 0 + c = c
    rw [mul_zero, zero_add]

theorem horner_append (as bs : List F) (x : F) :
    horner (as ++ bs) x = horner as x + x ^ as.length * horner bs x := by
  induction as with
  | nil => simp [horner]
  | cons a as ih =>
    show horner (as ++ bs) x * x + a = horner as x * x + a + _
    rw [ih, List.length_cons]
    ring

noncomputable def ofCoeffs (cs : List F) : F[X] := cs.foldr (fun c f => f * X + C c) 0

theorem coeff_ofCoeffs (cs : List F) (i : Nat) : (ofCoeffs cs).coeff i = cs.getD i 0 := by
  induction cs generalizing i with
  | nil => simp [ofCoeffs]
  | cons c cs ih =>
    show (ofCoeffs cs * X + C c).coeff i = _
    cases i with
    | zero => simp
    | succ i => rw [coeff_add, coeff_mul_X, coeff_C_succ, add_zero, ih, List.getD_cons_succ]

theorem eval_ofCoeffs (cs : List F) (x : F) : (ofCoeffs cs).eval x = horner cs x := by
  induction cs with
  | nil => simp [ofCoeffs, horner]
  | cons c cs ih =>
    show (ofCoeffs cs * X + C c).eval x = horner cs x * x + c
    rw [eval_add, eval_mul, eval_X, eval_C, ih]

theorem degree_ofCoeffs_lt (cs : List F) : (ofCoeffs cs).degree < cs.length := by
  rw [degree_lt_iff_coeff_zero]
  intro i hi
  rw [coeff_ofCoeffs, List.getD_eq_default _ _ hi]

/-- The polynomial of degree below the number of coefficients. -/
theorem exists_polynomial (cs : List F) :
    ∃ f : F[X], f.degree < cs.length ∧ ∀ x, f.eval x = horner cs x :=
  ⟨ofCoeffs cs, degree_ofCoeffs_lt cs, eval_ofCoeffs cs⟩

variable [DecidableEq F]

def weight (xs : List F) (x : F) : F := ((xs.filter (· ≠ x)).map fun y => y / (y - x)).prod

theorem eval_basis_zero {xs : List F} (hnd : xs.Nodup) (x : F) :
    (Lagrange.basis xs.toFinset id x).eval 0 = weight xs x := by
  have hfilter : (xs.filter (· ≠ x)).toFinset = xs.toFinset.erase x := by
    ext y
    simp [and_comm]
  rw [Lagrange.basis, eval_prod, weight, ← List.prod_toFinset _ (hnd.filter _), hfilter]
  refine Finset.prod_congr rfl ?_
  intro y hy
  rw [Lagrange.basisDivisor, eval_mul, eval_C, eval_sub, eval_X, eval_C, id, id, zero_sub,
    div_eq_mul_inv, mul_comm, ← neg_sub y x, inv_neg, neg_mul_neg]

theorem sum_weights {xs : List F} (hnd : xs.Nodup) (cs : List F) (hlen : cs.length ≤ xs.length) :
    (xs.map fun x => weight xs x * horner cs x).sum = cs.headD 0 := by
  obtain ⟨f, hdeg, heval⟩ := exists_polynomial cs
  have hcard : xs.toFinset.card = xs.length := List.toFinset_card_of_nodup hnd
  have hf : f = Lagrange.interpolate xs.toFinset id fun x => f.eval x := by
    refine Lagrange.eq_interpolate (Set.injOn_id _) (lt_of_lt_of_le hdeg ?_)
    rw [hcard]
    exact_mod_cast hlen
  have hzero : f.eval 0 = ∑ x ∈ xs.toFinset, f.eval x * weight xs x := by
    conv_lhs => rw [hf, Lagrange.interpolate_apply, eval_finsetSum]
    refine Finset.sum_congr rfl ?_
    intro x _
    rw [eval_mul, eval_C, eval_basis_zero hnd]
  rw [← horner_zero cs, ← heval, hzero, List.sum_toFinset _ hnd]
  congr 1
  apply List.map_congr_left
  intro x _
  rw [heval, mul_comm]

/-! ## Coefficients through given values -/

theorem existsUnique_values {xs : List F} (hnd : xs.Nodup) (z : F → F) :
    ∃! cs : List F, cs.length = xs.length ∧ ∀ x ∈ xs, horner cs x = z x := by
  have hcard : xs.toFinset.card = xs.length := List.toFinset_card_of_nodup hnd
  refine ⟨(List.range xs.length).map (Lagrange.interpolate xs.toFinset id z).coeff,
    ⟨by simp, fun x hx => ?_⟩, fun cs h => ?_⟩
  · have hsame : ofCoeffs ((List.range xs.length).map
        (Lagrange.interpolate xs.toFinset id z).coeff) =
          Lagrange.interpolate xs.toFinset id z := by
      ext i
      rw [coeff_ofCoeffs]
      by_cases hi : i < xs.length
      · rw [List.getD_eq_getElem _ _ (by simpa using hi), List.getElem_map, List.getElem_range]
      · rw [List.getD_eq_default _ _ (by simpa using hi)]
        have hdeg := Lagrange.degree_interpolate_lt z (Set.injOn_id (xs.toFinset : Set F))
        rw [hcard, degree_lt_iff_coeff_zero] at hdeg
        exact (hdeg i (by omega)).symm
    rw [← eval_ofCoeffs, hsame]
    exact Lagrange.eval_interpolate_at_node z (Set.injOn_id _) (List.mem_toFinset.2 hx)
  · obtain ⟨hlen, hvalues⟩ := h
    have hinterp : ofCoeffs cs = Lagrange.interpolate xs.toFinset id z := by
      refine Lagrange.eq_interpolate_of_eval_eq z (Set.injOn_id _) ?_ fun x hx => ?_
      · rw [hcard, ← hlen]
        exact degree_ofCoeffs_lt cs
      · rw [id, eval_ofCoeffs, hvalues x (List.mem_toFinset.1 hx)]
    refine List.ext_getElem (by simpa using hlen) fun i hi _ => ?_
    rw [List.getElem_map, List.getElem_range, ← hinterp, coeff_ofCoeffs,
      List.getD_eq_getElem _ _ hi]

theorem existsUnique_coeffs {xs ys : List F} (hnd : xs.Nodup) (hlen : ys.length = xs.length) :
    ∃! cs : List F, cs.length = xs.length ∧ xs.map (horner cs) = ys := by
  have hys : ys = xs.map fun x => ys.getD (xs.idxOf x) 0 := by
    refine List.ext_getElem (by simp [hlen]) fun i hi hx => ?_
    rw [List.getElem_map, hnd.idxOf_getElem, List.getD_eq_getElem _ _ hi]
  have h := existsUnique_values hnd fun x => ys.getD (xs.idxOf x) 0
  simp only [← List.map_inj_left] at h
  rwa [← hys] at h

end Interpolation

import Mathlib.Order.Nat
import Mathlib.Data.Nat.Init

/-!
# Halving an interval

A search that halves `[lo, hi)` for the end of the indices where a predicate holds, the
predicate given by its cut: it holds exactly below `k`.

    p holds exactly below k → lo ≤ k ≤ hi →
      search lo hi r = end r, or end (k - 1) when the cut is above lo          (eq_of_cut)
    key increases → search lo hi tells whether an index of [lo, hi) has the key   (hit_cases)

The searches are any functions with these equations, so that a search of a program is an
instance whatever it returns.
-/

namespace Bisect

/-- The middle of an interval, as halving computes it. -/
def mid (lo hi : Nat) : Nat := lo + (hi - lo) / 2

theorem mid_bounds {lo hi : Nat} (h : lo < hi) : lo ≤ mid lo hi ∧ mid lo hi < hi := by
  unfold mid
  omega

/-- A predicate that holds exactly below `k` among the indices under `n`. -/
def Cut (p : Nat → Prop) (n k : Nat) : Prop := k ≤ n ∧ ∀ i, i < n → (p i ↔ i < k)

/-- A predicate that what is below inherits has a cut. -/
theorem exists_cut {p : Nat → Prop} [DecidablePred p] {n : Nat}
    (h : ∀ i j, i < j → j < n → p j → p i) : ∃ k, Cut p n k := by
  induction n with
  | zero => exact ⟨0, Nat.le_refl 0, fun i hi => absurd hi (Nat.not_lt_zero i)⟩
  | succ n ih =>
    obtain ⟨k, hk, hcut⟩ := ih (fun i j hij hj => h i j hij (by omega))
    by_cases hn : p n
    · refine ⟨n + 1, Nat.le_refl _, fun i hi => ⟨fun _ => hi, fun _ => ?_⟩⟩
      rcases Nat.lt_or_ge i n with hin | hin
      · exact h i n hin (by omega) hn
      · have hi' : i = n := by omega
        rw [hi']
        exact hn
    · refine ⟨k, by omega, fun i hi => ?_⟩
      rcases Nat.lt_or_ge i n with hin | hin
      · exact hcut i hin
      · have hi' : i = n := by omega
        rw [hi']
        exact iff_of_false hn (by omega)

section
variable {ρ σ : Type} {p : Nat → Prop} {f : Nat → Nat → ρ → σ} {g : Nat → ρ} {stop : ρ → σ}

/-- **The rule.**  The search ends with the last index below the cut, or with what it was
given when the cut is where it starts. -/
theorem eq_of_cut {n k : Nat} (hcut : Cut p n k)
    (hstop : ∀ lo hi r, hi ≤ lo → f lo hi r = stop r)
    (hyes : ∀ lo hi r, lo < hi → hi ≤ n → p (mid lo hi) →
      f lo hi r = f (mid lo hi + 1) hi (g (mid lo hi)))
    (hno : ∀ lo hi r, lo < hi → hi ≤ n → ¬ p (mid lo hi) → f lo hi r = f lo (mid lo hi) r)
    {lo hi : Nat} (r : ρ) (hlo : lo ≤ k) (hhi : k ≤ hi) (hn : hi ≤ n) :
    f lo hi r = stop (if k ≤ lo then r else g (k - 1)) := by
  induction hd : hi - lo using Nat.strong_induction_on generalizing lo hi r with
  | _ d ih =>
    rcases Nat.lt_or_ge lo hi with hlt | hge
    · obtain ⟨hm0, hm1⟩ := mid_bounds hlt
      have hiff := hcut.2 (mid lo hi) (by omega)
      by_cases hp : p (mid lo hi)
      · have hmk := hiff.1 hp
        rw [hyes lo hi r hlt hn hp, ih (hi - (mid lo hi + 1)) (by omega) _ hmk hhi hn rfl,
          if_neg (show ¬ k ≤ lo by omega)]
        by_cases hend : k ≤ mid lo hi + 1
        · have hlast : k - 1 = mid lo hi := by omega
          rw [if_pos hend, hlast]
        · rw [if_neg hend]
      · have hkm : k ≤ mid lo hi := by
          rw [hiff] at hp
          omega
        rw [hno lo hi r hlt hn hp, ih (mid lo hi - lo) (by omega) r hlo hkm (by omega) rfl]
    · rw [hstop lo hi r hge, if_pos (by omega)]

end

section
variable {σ : Type} {f : Nat → Nat → σ} {key : Nat → Int} {yes no : σ}

/-- A search for a key, to the left of the middle when the middle's key is larger. -/
theorem hit_cases {n : Nat} {t : Int} (hkey : ∀ i j, i < j → j < n → key i < key j)
    (hstop : ∀ lo hi, hi ≤ lo → f lo hi = no)
    (hhit : ∀ lo hi, lo < hi → hi ≤ n → t = key (mid lo hi) → f lo hi = yes)
    (hleft : ∀ lo hi, lo < hi → hi ≤ n → t < key (mid lo hi) → f lo hi = f lo (mid lo hi))
    (hright : ∀ lo hi, lo < hi → hi ≤ n → key (mid lo hi) < t →
      f lo hi = f (mid lo hi + 1) hi)
    {lo hi : Nat} (hn : hi ≤ n) :
    ((∃ i, lo ≤ i ∧ i < hi ∧ t = key i) ∧ f lo hi = yes) ∨
      ((∀ i, lo ≤ i → i < hi → t ≠ key i) ∧ f lo hi = no) := by
  induction hd : hi - lo using Nat.strong_induction_on generalizing lo hi with
  | _ d ih =>
    rcases Nat.lt_or_ge lo hi with hlt | hge
    · obtain ⟨hm0, hm1⟩ := mid_bounds hlt
      rcases Int.lt_trichotomy t (key (mid lo hi)) with hl | he | hr
      · rw [hleft lo hi hlt hn hl]
        rcases ih (mid lo hi - lo) (by omega) (by omega) rfl with ⟨⟨i, h1, h2, h3⟩, h⟩ | ⟨h0, h⟩
        · exact Or.inl ⟨⟨i, h1, by omega, h3⟩, h⟩
        · refine Or.inr ⟨fun i h1 h2 h3 => ?_, h⟩
          rcases Nat.lt_trichotomy i (mid lo hi) with hi' | rfl | hi'
          · exact h0 i h1 hi' h3
          · omega
          · have := hkey _ _ hi' (by omega)
            omega
      · exact Or.inl ⟨⟨mid lo hi, hm0, hm1, he⟩, hhit lo hi hlt hn he⟩
      · rw [hright lo hi hlt hn hr]
        rcases ih (hi - (mid lo hi + 1)) (by omega) hn rfl with ⟨⟨i, h1, h2, h3⟩, h⟩ | ⟨h0, h⟩
        · exact Or.inl ⟨⟨i, by omega, h2, h3⟩, h⟩
        · refine Or.inr ⟨fun i h1 h2 h3 => ?_, h⟩
          rcases Nat.lt_trichotomy i (mid lo hi) with hi' | rfl | hi'
          · have := hkey _ _ hi' (by omega)
            omega
          · omega
          · exact h0 i (by omega) h2 h3
    · refine Or.inr ⟨fun i h1 h2 _ => ?_, hstop lo hi hge⟩
      omega

end

end Bisect

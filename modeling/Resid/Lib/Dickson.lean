import Mathlib.Data.Nat.Nth
import Mathlib.Data.Set.Finite.Lattice
import Mathlib.Order.WellQuasiOrder

/-!
# Chains that a well-quasi-order cuts

Tuples ordered place by place, and sequences in which an entry that is not new is below an
entry before it.

    every r t a wqo → in a sequence of tuples one is below a later one  (Pointwise.exists_lt)
    x fresh, or below an earlier x; finitely many below each → finite  (finite_of_fresh_or_below)

## Algorithm

`Pointwise.exists_lt` is Dickson's lemma for lists: a sequence of tuples has a subsequence whose
heads only go up, and the tails of that subsequence have two that are related.
-/

namespace Dickson

variable {α β τ : Type*}

/-! ## Signed integers by magnitude -/

/-- The same sign, the second no smaller in magnitude. -/
def Grows (x y : Int) : Prop := (0 ≤ x ∧ x ≤ y) ∨ (x < 0 ∧ y ≤ x)

instance : IsPreorder Int Grows where
  refl x := by unfold Grows; omega
  trans x y z := by unfold Grows; omega

theorem wqo_grows : WellQuasiOrdered Grows := by
  intro f
  have hsign : WellQuasiOrdered fun a b : Bool => a = b := Finite.wellQuasiOrdered _
  have hprod := hsign.prod (wellQuasiOrdered_le (α := ℕ))
  obtain ⟨m, n, hmn, hs, hle⟩ := hprod fun n => (decide (0 ≤ f n), (f n).natAbs)
  refine ⟨m, n, hmn, ?_⟩
  simp only [decide_eq_decide] at hs hle
  unfold Grows
  omega

theorem wqo_comap {r : β → β → Prop} (h : WellQuasiOrdered r) (f : α → β) :
    WellQuasiOrdered fun a b => r (f a) (f b) := fun s => h (f ∘ s)

/-! ## Tuples, place by place -/

/-- `as` and `bs` have a value for each of `ts`, related at each. -/
inductive Pointwise (r : τ → α → α → Prop) : List τ → List α → List α → Prop
  | nil : Pointwise r [] [] []
  | cons {t ts a as b bs} : r t a b → Pointwise r ts as bs →
      Pointwise r (t :: ts) (a :: as) (b :: bs)

namespace Pointwise

variable {r : τ → α → α → Prop}

theorem refl (h : ∀ t a, r t a a) :
    ∀ (ts : List τ) (as : List α), as.length = ts.length → Pointwise r ts as as
  | [], [], _ => nil
  | t :: ts, a :: as, hl => cons (h t a) (refl h ts as (Nat.succ.inj hl))

theorem trans (h : ∀ t a b c, r t a b → r t b c → r t a c) {ts : List τ} {as bs cs : List α}
    (hab : Pointwise r ts as bs) (hbc : Pointwise r ts bs cs) : Pointwise r ts as cs := by
  induction hab generalizing cs with
  | nil => exact hbc
  | cons hr _ ih =>
    cases hbc with
    | cons hr' hrest => exact cons (h _ _ _ _ hr hr') (ih hrest)

/-- Dickson's lemma: in a sequence of tuples one is below a later one. -/
theorem exists_lt [∀ t, IsPreorder α (r t)] {ts : List τ}
    (hr : ∀ t ∈ ts, WellQuasiOrdered (r t)) (s : ℕ → List α)
    (hs : ∀ n, (s n).length = ts.length) : ∃ m n, m < n ∧ Pointwise r ts (s m) (s n) := by
  induction ts generalizing s with
  | nil =>
    have hnil : ∀ n, s n = [] := fun n => List.eq_nil_of_length_eq_zero (hs n)
    refine ⟨0, 1, Nat.zero_lt_one, ?_⟩
    rw [hnil 0, hnil 1]
    exact nil
  | cons t ts ih =>
    have hsplit : ∀ n, ∃ a as, s n = a :: as ∧ as.length = ts.length := by
      intro n
      obtain ⟨a, as, has⟩ := List.exists_of_length_succ (s n) (hs n)
      exact ⟨a, as, has, by simpa [has] using hs n⟩
    choose a as hcons hlen using hsplit
    obtain ⟨g, hg⟩ := (hr t List.mem_cons_self).exists_monotone_subseq a
    obtain ⟨m, n, hmn, htail⟩ := ih (fun t ht => hr t (List.mem_cons_of_mem _ ht))
      (fun n => as (g n)) fun n => hlen (g n)
    refine ⟨g m, g n, g.strictMono hmn, ?_⟩
    rw [hcons, hcons]
    exact cons (hg m n hmn.le) htail

end Pointwise

/-! ## Sequences with few new entries -/

/-- Two places of an infinite set of places are related. -/
theorem exists_mem_lt {r : α → α → Prop} (h : WellQuasiOrdered r) {S : Set ℕ} (hS : S.Infinite)
    (x : ℕ → α) : ∃ m ∈ S, ∃ n ∈ S, m < n ∧ r (x m) (x n) := by
  obtain ⟨m, n, hmn, hr⟩ := h fun k => x (Nat.nth (· ∈ S) k)
  exact ⟨_, Nat.nth_mem_of_infinite hS m, _, Nat.nth_mem_of_infinite hS n,
    Nat.nth_strictMono hS hmn, hr⟩

/-- A sequence without repeats is finite when each entry has no earlier one below it in a
well-quasi-order, or is itself `le` an earlier one, with finitely many `le` each. -/
theorem finite_of_fresh_or_below {r le : α → α → Prop} (hr : WellQuasiOrdered r)
    (hrefl : ∀ a, le a a) (htrans : ∀ a b c, le a b → le b c → le a c)
    (hdown : ∀ a, {b | le b a}.Finite) {S : Set ℕ} {x : ℕ → α} (hinj : Set.InjOn x S)
    (h : ∀ n ∈ S, (∀ m ∈ S, m < n → ¬ r (x m) (x n)) ∨ ∃ m ∈ S, m < n ∧ le (x n) (x m)) :
    S.Finite := by
  -- the fresh entries are finitely many, and every entry is below one of them
  let F := {n | n ∈ S ∧ ∀ m ∈ S, m < n → ¬ r (x m) (x n)}
  have hF : F.Finite := by
    by_contra hinf
    obtain ⟨m, hm, n, hn, hmn, hrel⟩ := exists_mem_lt hr hinf x
    exact hn.2 m hm.1 hmn hrel
  have hbelow : ∀ n, n ∈ S → ∃ m ∈ F, le (x n) (x m) := by
    intro n
    induction n using Nat.strong_induction_on with
    | _ n ih =>
      intro hn
      rcases h n hn with hfresh | ⟨m, hm, hmn, hle⟩
      · exact ⟨n, ⟨hn, hfresh⟩, hrefl _⟩
      · obtain ⟨k, hk, hmk⟩ := ih m hmn hm
        exact ⟨k, hk, htrans _ _ _ hle hmk⟩
  have hsub : x '' S ⊆ ⋃ m ∈ F, {b | le b (x m)} := by
    rintro _ ⟨n, hn, rfl⟩
    obtain ⟨m, hm, hle⟩ := hbelow n hn
    exact Set.mem_biUnion hm hle
  exact Set.Finite.of_finite_image ((hF.biUnion fun m _ => hdown (x m)).subset hsub) hinj

end Dickson

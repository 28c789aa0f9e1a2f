import Mathlib.Data.Nat.Find

/-!
# General recursion

A procedure that may run for ever is the least solution of its equation.  Its body is given
the procedure and may call it; `depth step n` answers with at most `n` nested calls, and
`fix step` is what some depth answers, `none` where none does.

    fix step x = some v ↔ ∃ n, depth step n x = some v               (fix_eq_some_iff)
    fix step x = step (fix step) x                                   (fix_eq)
    fixM step a = step (fixM step) a, with a state                   (fixM_eq)
-/

namespace Recursion

variable {ι β γ δ : Type}

/-- What looks at a procedure only by calling it. -/
inductive Calling {ι β γ : Type} : ((ι → Option β) → Option γ) → Prop
  | const (x : Option γ) : Calling fun _ => x
  | call (i : ι) {k : β → (ι → Option β) → Option γ} (h : ∀ b, Calling (k b)) :
    Calling fun f => (f i).bind fun b => k b f

namespace Calling

theorem tail (i : ι) : Calling fun f : ι → Option β => f i := by
  have h : Calling fun f : ι → Option β => (f i).bind fun b => some b :=
    call i fun b => const (some b)
  simpa using h

theorem ite {c : Prop} [Decidable c] {x y : (ι → Option β) → Option γ} (hx : Calling x)
    (hy : Calling y) : Calling fun f => if c then x f else y f := by
  split
  · exact hx
  · exact hy

theorem bind (x : Option δ) {k : δ → (ι → Option β) → Option γ} (h : ∀ a, Calling (k a)) :
    Calling fun f => x.bind fun a => k a f := by
  cases x with
  | none => exact const none
  | some a => exact h a

/-- A procedure that answers more makes the body answer more. -/
theorem mono {g : (ι → Option β) → Option γ} (hg : Calling g) {f f' : ι → Option β}
    (h : ∀ i b, f i = some b → f' i = some b) {v : γ} : g f = some v → g f' = some v := by
  induction hg with
  | const x => exact id
  | call i _ ih =>
    intro hv
    obtain ⟨b, hb, hk⟩ := Option.bind_eq_some_iff.1 hv
    exact Option.bind_eq_some_iff.2 ⟨b, h i b hb, ih b hk⟩

end Calling

variable {step : (ι → Option β) → ι → Option β}

def depth (step : (ι → Option β) → ι → Option β) : Nat → ι → Option β
  | 0, _ => none
  | n + 1, x => step (depth step n) x

open Classical in
noncomputable def fix (step : (ι → Option β) → ι → Option β) (x : ι) : Option β :=
  if h : ∃ n, (depth step n x).isSome then depth step (Nat.find h) x else none

section Equation

variable (hstep : ∀ x, Calling fun f => step f x)

include hstep

theorem depth_le {m n : Nat} (hmn : m ≤ n) :
    ∀ x v, depth step m x = some v → depth step n x = some v := by
  induction m generalizing n with
  | zero =>
    intro x v h
    exact nomatch h
  | succ m ih =>
    intro x v h
    obtain ⟨k, rfl⟩ : ∃ k, n = k + 1 := ⟨n - 1, by omega⟩
    exact (hstep x).mono (fun i b => ih (by omega) i b) h

theorem fix_eq_some_iff {x : ι} {v : β} : fix step x = some v ↔ ∃ n, depth step n x = some v := by
  unfold fix
  split_ifs with h
  · refine ⟨fun hv => ⟨_, hv⟩, ?_⟩
    rintro ⟨n, hn⟩
    obtain ⟨u, hu⟩ := Option.isSome_iff_exists.1 (Nat.find_spec h)
    -- two depths with an answer have the same one
    rcases Nat.le_total n (Nat.find h) with hle | hle
    · exact depth_le hstep hle x v hn
    · rw [hu, ← hn]
      exact (depth_le hstep hle x u hu).symm
  · constructor
    · intro hv
      cases hv
    · rintro ⟨n, hn⟩
      exact absurd ⟨n, by rw [hn]; rfl⟩ h

/-- A body that answers has made finitely many calls, which some depth answers. -/
theorem exists_depth {g : (ι → Option β) → Option γ} (hg : Calling g) {v : γ} :
    g (fix step) = some v → ∃ n, g (depth step n) = some v := by
  induction hg with
  | const x => exact fun h => ⟨0, h⟩
  | call i hk ih =>
    intro hv
    obtain ⟨b, hb, hv⟩ := Option.bind_eq_some_iff.1 hv
    obtain ⟨m, hm⟩ := (fix_eq_some_iff hstep).1 hb
    obtain ⟨n, hn⟩ := ih b hv
    refine ⟨max m n, Option.bind_eq_some_iff.2 ⟨b, ?_, ?_⟩⟩
    · exact depth_le hstep (Nat.le_max_left m n) i b hm
    · exact (hk b).mono (depth_le hstep (Nat.le_max_right m n)) hn

theorem fix_eq (x : ι) : fix step x = step (fix step) x := by
  ext v
  rw [fix_eq_some_iff hstep]
  constructor
  · rintro ⟨n, hn⟩
    cases n with
    | zero => exact nomatch hn
    | succ n =>
      exact (hstep x).mono (fun i b h => (fix_eq_some_iff hstep).2 ⟨n, h⟩) hn
  · intro h
    obtain ⟨n, hn⟩ := exists_depth hstep (hstep x) h
    exact ⟨n + 1, hn⟩

end Equation

/-! ## With a state -/

variable {σ A R : Type}

noncomputable def fixM (step : (A → StateT σ Option R) → A → StateT σ Option R) (a : A) :
    StateT σ Option R :=
  fun w => fix (fun f x => step (fun a w => f (a, w)) x.1 x.2) (a, w)

theorem fixM_eq {step : (A → StateT σ Option R) → A → StateT σ Option R}
    (h : ∀ a w, Calling fun f : A × σ → Option (R × σ) => step (fun a w => f (a, w)) a w) (a : A) :
    fixM step a = step (fixM step) a := by
  funext w
  exact @fix_eq _ _ (fun f x => step (fun a w => f (a, w)) x.1 x.2) (fun x => h x.1 x.2) (a, w)

/-- A step of the state that is not a call, and what follows it. -/
theorem Calling.run (x : StateT σ Option δ) {k : δ → (ι → Option β) → StateT σ Option γ}
    (h : ∀ a w, Calling fun f => k a f w) (w : σ) : Calling fun f => (x >>= fun a => k a f) w :=
  Calling.bind (x w) fun p => h p.1 p.2

theorem Calling.iteM {c : Prop} [Decidable c] {x y : (ι → Option β) → StateT σ Option γ} {w : σ}
    (hx : Calling fun f => x f w) (hy : Calling fun f => y f w) :
    Calling fun f => (if c then x f else y f) w := by
  split
  · exact hx
  · exact hy

end Recursion

import Mathlib.Data.List.Perm.Subperm
import Mathlib.Data.List.Nodup

/-!
# Climbing by the first link

A ladder says which element may stand above which, depending on how many stand below, and
where a climb may end.  `climb` takes the first element of a pool that may stand above the
last one, and never turns back.

    climb d a pool n → ∃ l, l.length ≤ d ∧ l <+~ pool ∧ Leads n a l              (climb_reaches)
    Reaches d a pool n → (climb d a pool n ↔ NoDeadEnd d a pool n)                   (climb_iff)
    Leads n a l → ∃ l', l' <+ l ∧ l'.Nodup ∧ Leads n a l'   when lower is easier  (Leads.nodup)
-/

namespace Climb

variable {α : Type}

/-- `link n a b`: `b` may stand above `a` with `n` below; `top n a`: nothing has to. -/
structure Ladder (α : Type) where
  link : Nat → α → α → Bool
  top : Nat → α → Bool

/-- The first element with `f`, and the others. -/
def pick (f : α → Bool) : List α → Option (α × List α)
  | [] => none
  | x :: xs => if f x then some (x, xs) else (pick f xs).map fun p => (p.1, x :: p.2)

variable (L : Ladder α)

def climb : (depth : Nat) → α → List α → (n : Nat) → Bool
  | 0, a, _, n => L.top n a
  | depth + 1, a, pool, n =>
    if L.top n a then true
    else
      match pick (L.link n a) pool with
      | none => false
      | some (b, rest) => climb depth b rest (n + 1)

/-- The elements of `l` lead from `a` to where a climb may end. -/
def Leads : Nat → α → List α → Prop
  | n, a, [] => L.top n a = true
  | n, a, b :: l => L.link n a b = true ∧ Leads (n + 1) b l

/-- At most `depth` elements of the pool lead up from `a`. -/
def Reaches (depth : Nat) (a : α) (pool : List α) (n : Nat) : Prop :=
  ∃ l : List α, l.length ≤ depth ∧ l.Subperm pool ∧ Leads L n a l

/-- Wherever the climb stands, if a way up is left then there is one through the element it
takes next. -/
def NoDeadEnd : (depth : Nat) → α → List α → (n : Nat) → Prop
  | 0, _, _, _ => True
  | depth + 1, a, pool, n =>
    Reaches L (depth + 1) a pool n → L.top n a = false →
      ∀ b rest, pick (L.link n a) pool = some (b, rest) →
        Reaches L depth b rest (n + 1) ∧ NoDeadEnd depth b rest (n + 1)

variable {L}

/-! ## Picking -/

theorem pick_cons (f : α → Bool) (x : α) (xs : List α) :
    pick f (x :: xs) = if f x then some (x, xs) else (pick f xs).map fun p => (p.1, x :: p.2) := rfl

theorem climb_succ (depth : Nat) (a : α) (pool : List α) (n : Nat) :
    climb L (depth + 1) a pool n =
      if L.top n a then true
      else match pick (L.link n a) pool with
        | none => false
        | some (b, rest) => climb L depth b rest (n + 1) := rfl

variable {f : α → Bool} {l pool xs : List α} {a b : α} {depth n : Nat}

theorem of_pick {rest : List α} (h : pick f xs = some (b, rest)) :
    f b = true ∧ (b :: rest).Perm xs := by
  induction xs generalizing rest with
  | nil => cases h
  | cons x xs ih =>
    rw [pick_cons] at h
    by_cases hf : f x = true
    · rw [if_pos hf] at h
      cases h
      exact ⟨hf, List.Perm.refl _⟩
    · rw [if_neg hf] at h
      obtain ⟨⟨c, ys⟩, hp, hc⟩ := Option.map_eq_some_iff.1 h
      cases hc
      obtain ⟨hb, hperm⟩ := ih hp
      refine ⟨hb, ?_⟩
      exact (List.Perm.swap x c ys).trans (hperm.cons x)

theorem pick_of_mem (hb : b ∈ xs) (hf : f b = true) : ∃ c rest, pick f xs = some (c, rest) := by
  induction xs with
  | nil => cases hb
  | cons x xs ih =>
    rw [pick_cons]
    by_cases hx : f x = true
    · rw [if_pos hx]
      exact ⟨x, xs, rfl⟩
    · rw [if_neg hx]
      rcases List.mem_cons.1 hb with rfl | hb
      · exact absurd hf hx
      · obtain ⟨c, rest, hc⟩ := ih hb
        exact ⟨c, x :: rest, by rw [hc]; rfl⟩

/-- Picking is finding an index and taking that element out. -/
theorem pick_eq_findIdx? (d : α) :
    pick f xs = (xs.findIdx? f).map fun i => (xs.getD i d, xs.eraseIdx i) := by
  induction xs with
  | nil => rfl
  | cons x xs ih =>
    rw [pick_cons, List.findIdx?_cons]
    by_cases hx : f x = true
    · rw [if_pos hx, if_pos hx]
      rfl
    · rw [if_neg hx, if_neg hx, ih, Option.map_map, Option.map_map]
      rfl

/-! ## Where a climb gets -/

theorem climb_reaches (h : climb L depth a pool n = true) : Reaches L depth a pool n := by
  induction depth generalizing a pool n with
  | zero => exact ⟨[], Nat.le_refl 0, List.nil_subperm, h⟩
  | succ depth ih =>
    rw [climb_succ] at h
    by_cases htop : L.top n a = true
    · exact ⟨[], Nat.zero_le _, List.nil_subperm, htop⟩
    rw [if_neg htop] at h
    cases hp : pick (L.link n a) pool with
    | none =>
      rw [hp] at h
      cases h
    | some p =>
      obtain ⟨b, rest⟩ := p
      rw [hp] at h
      obtain ⟨l, hlen, hsub, hleads⟩ := ih h
      obtain ⟨hlink, hperm⟩ := of_pick hp
      refine ⟨b :: l, Nat.succ_le_succ hlen, ?_, hlink, hleads⟩
      exact ((List.subperm_cons b).2 hsub).trans hperm.subperm

/-- Where there is a way up, the climb finds one exactly if it runs into no dead end. -/
theorem climb_iff (h : Reaches L depth a pool n) :
    climb L depth a pool n = true ↔ NoDeadEnd L depth a pool n := by
  induction depth generalizing a pool n with
  | zero =>
    obtain ⟨l, hlen, -, hleads⟩ := h
    have hl : l = [] := List.eq_nil_of_length_eq_zero (Nat.le_zero.1 hlen)
    subst hl
    exact ⟨fun _ => trivial, fun _ => hleads⟩
  | succ depth ih =>
    rw [climb_succ]
    by_cases htop : L.top n a = true
    · rw [if_pos htop]
      refine ⟨fun _ _ hno => ?_, fun _ => rfl⟩
      rw [htop] at hno
      cases hno
    rw [if_neg htop]
    have hfirst : ∃ b rest, pick (L.link n a) pool = some (b, rest) := by
      obtain ⟨l, -, hsub, hleads⟩ := h
      cases l with
      | nil => exact absurd hleads htop
      | cons b l => exact pick_of_mem (hsub.subset List.mem_cons_self) hleads.1
    obtain ⟨b, rest, hp⟩ := hfirst
    rw [hp]
    constructor
    · intro hc _ _ b' rest' hp'
      rw [hp] at hp'
      cases hp'
      have hr := climb_reaches hc
      exact ⟨hr, (ih hr).1 hc⟩
    · intro hno
      obtain ⟨hr, hrest⟩ := hno h (Bool.eq_false_iff.2 htop) b rest hp
      exact (ih hr).2 hrest

theorem Reaches.mono {pool' : List α} (h : Reaches L depth a pool n) (hsub : pool.Subperm pool') :
    Reaches L depth a pool' n := by
  obtain ⟨l, hlen, hl, hleads⟩ := h
  exact ⟨l, hlen, hl.trans hsub, hleads⟩

/-! ## A way without repetition -/

/-- What may stand above `n + 1` others may stand above `n`. -/
structure Lowers (L : Ladder α) : Prop where
  link : ∀ n a b, L.link (n + 1) a b = true → L.link n a b = true
  top : ∀ n a, L.top (n + 1) a = true → L.top n a = true

theorem Leads.lower (h : Lowers L) (hl : Leads L (n + 1) a l) : Leads L n a l := by
  induction l generalizing n a with
  | nil => exact h.top n a hl
  | cons b l ih => exact ⟨h.link n a b hl.1, ih hl.2⟩

theorem Leads.drop (h : Lowers L) {m : List α} (hl : Leads L n a (l ++ b :: m)) :
    Leads L n b m := by
  induction l generalizing n a with
  | nil => exact Leads.lower h hl.2
  | cons c l ih => exact Leads.lower h (ih hl.2)

theorem Leads.nodup [DecidableEq α] (h : Lowers L) (hl : Leads L n a l) :
    ∃ l', l'.Sublist l ∧ l'.Nodup ∧ Leads L n a l' := by
  induction l generalizing n a with
  | nil => exact ⟨[], List.Sublist.refl _, List.nodup_nil, hl⟩
  | cons b l ih =>
    obtain ⟨m, hsub, hnd, hm⟩ := ih hl.2
    by_cases hb : b ∈ m
    · -- the way passes `b` twice: go on from its later place
      obtain ⟨m1, m2, rfl⟩ := List.append_of_mem hb
      have hsuf : (b :: m2).Sublist (m1 ++ b :: m2) := List.sublist_append_right m1 _
      refine ⟨b :: m2, (hsuf.trans hsub).trans (List.sublist_cons_self b l), hnd.sublist hsuf, ?_⟩
      exact ⟨hl.1, Leads.drop h hm⟩
    · exact ⟨b :: m, hsub.cons_cons b, List.nodup_cons.2 ⟨hb, hnd⟩, hl.1, hm⟩

end Climb

import Mathlib.Data.List.Sort
import Mathlib.Data.List.Forall2
import Mathlib.Data.List.Perm.Basic

/-!
# Orders of a list

What sorting rests on: elements put into an ordered list one by one, what a stable sort
keeps, and merging from the bottom up with any comparator.

## Insertion one by one

Elements put into an ordered list, each before the first it is less than.

    (insertAll r es acc).Perm (acc ++ es)                                   (insertAll_perm)
    acc.Pairwise s → (insertAll r es acc).Pairwise s   for `s` the weak order of `r`   (insertAll_pairwise)
-/

namespace Insertion

variable {α : Type} (r : α → α → Prop) [DecidableRel r]

def insertAll (es acc : List α) : List α := es.foldl (fun acc e => acc.orderedInsert r e) acc

theorem insertAll_perm (es acc : List α) : (insertAll r es acc).Perm (acc ++ es) := by
  induction es generalizing acc with
  | nil =>
    rw [List.append_nil]
    exact List.Perm.refl acc
  | cons e es ih =>
    have hinsert : (acc.orderedInsert r e ++ es).Perm (e :: acc ++ es) :=
      (List.perm_orderedInsert r e acc).append_right es
    exact (ih _).trans (hinsert.trans List.perm_middle.symm)

variable {r} {s : α → α → Prop}

theorem orderedInsert_pairwise (hweak : ∀ a b, r a b → s a b) (htotal : ∀ a b, ¬ r a b → s b a)
    (htrans : ∀ a b c, s a b → s b c → s a c) {acc : List α} (h : acc.Pairwise s) (e : α) :
    (acc.orderedInsert r e).Pairwise s := by
  induction acc with
  | nil => exact List.pairwise_singleton s e
  | cons a acc ih =>
    obtain ⟨hhead, htail⟩ := List.pairwise_cons.1 h
    rw [List.orderedInsert_cons]
    split_ifs with hlt
    · refine List.pairwise_cons.2 ⟨?_, h⟩
      intro b hb
      rcases List.mem_cons.1 hb with rfl | hb
      · exact hweak e b hlt
      · exact htrans e a b (hweak e a hlt) (hhead b hb)
    · refine List.pairwise_cons.2 ⟨?_, ih htail⟩
      intro b hb
      rcases (List.mem_orderedInsert r).1 hb with rfl | hb
      · exact htotal b a hlt
      · exact hhead b hb

theorem insertAll_pairwise (hweak : ∀ a b, r a b → s a b) (htotal : ∀ a b, ¬ r a b → s b a)
    (htrans : ∀ a b c, s a b → s b c → s a c) (es : List α) {acc : List α} (h : acc.Pairwise s) :
    (insertAll r es acc).Pairwise s := by
  induction es generalizing acc with
  | nil => exact h
  | cons e es ih => exact ih (orderedInsert_pairwise hweak htotal htrans h e)

end Insertion

/-!
## Stable sorting

A list's groups are its elements of one rank, in order.  Sorting stably keeps every group, and
a sorted list is determined by its groups:

    (∀ r, group rank r l related to group rank r l') → l related to l'          (forall₂_of_groups)

### Algorithm

Bottom-up merging: runs of `w` elements are sorted, and merging them two by two leaves runs
of `2 * w`.
-/

namespace Stable

variable {α : Type} (rank : α → Nat)

/-- The elements of one rank. -/
def group (r : Nat) (l : List α) : List α := l.filter fun a => rank a == r

def Sorted (l : List α) : Prop := l.Pairwise fun a b => rank a ≤ rank b

/-- Every run of `w` elements is sorted. -/
def Runs (w : Nat) (l : List α) : Prop := ∀ j, Sorted rank ((l.drop (j * w)).take w)

variable {rank}

/-! ## Groups -/

@[simp] theorem group_nil (r : Nat) : group rank r ([] : List α) = [] := rfl

theorem group_append (r : Nat) (l m : List α) :
    group rank r (l ++ m) = group rank r l ++ group rank r m := List.filter_append ..

theorem group_cons_self (a : α) (l : List α) :
    group rank (rank a) (a :: l) = a :: group rank (rank a) l := by
  unfold group
  rw [List.filter_cons_of_pos]
  exact beq_self_eq_true _

variable {a : α} {l m : List α} {R : α → α → Prop} {w : Nat}

theorem group_cons_of_ne {r : Nat} (h : rank a ≠ r) (l : List α) :
    group rank r (a :: l) = group rank r l := by
  unfold group
  rw [List.filter_cons_of_neg]
  rw [beq_iff_eq]
  exact h

theorem mem_group {r : Nat} : a ∈ group rank r l ↔ a ∈ l ∧ rank a = r := by
  unfold group
  rw [List.mem_filter, beq_iff_eq]

theorem group_eq_nil {r : Nat} (h : ∀ a ∈ l, rank a ≠ r) : group rank r l = [] := by
  apply List.eq_nil_iff_forall_not_mem.2
  intro a ha
  obtain ⟨hl, hr⟩ := mem_group.1 ha
  exact h a hl hr

theorem mem_of_groups {l' : List α} (h : ∀ r, group rank r l = group rank r l') :
    a ∈ l ↔ a ∈ l' := by
  have ha := h (rank a)
  constructor
  · intro hl
    have hg : a ∈ group rank (rank a) l' := ha ▸ mem_group.2 ⟨hl, rfl⟩
    exact (mem_group.1 hg).1
  · intro hl
    have hg : a ∈ group rank (rank a) l := ha ▸ mem_group.2 ⟨hl, rfl⟩
    exact (mem_group.1 hg).1

theorem group_map {f : α → α} (h : ∀ a, rank (f a) = rank a) (r : Nat) (l : List α) :
    group rank r (l.map f) = (group rank r l).map f := by
  unfold group
  rw [List.filter_map]
  congr 1
  apply List.filter_congr
  intro a _
  simp only [Function.comp, h a]

theorem group_filter (p : α → Bool) (r : Nat) (l : List α) :
    group rank r (l.filter p) = (group rank r l).filter p := by
  unfold group
  rw [List.filter_filter, List.filter_filter]
  apply List.filter_congr
  intro a _
  exact Bool.and_comm _ _

/-! ## Related lists -/

theorem exists_right (h : List.Forall₂ R l m) (ha : a ∈ l) : ∃ b ∈ m, R a b := by
  induction h with
  | nil => cases ha
  | cons hab _ ih =>
    rcases List.mem_cons.1 ha with rfl | ha
    · exact ⟨_, List.mem_cons_self, hab⟩
    · obtain ⟨b, hb, hR⟩ := ih ha
      exact ⟨b, List.mem_cons_of_mem _ hb, hR⟩

theorem exists_left (h : List.Forall₂ R l m) {b : α} (hb : b ∈ m) :
    ∃ a ∈ l, R a b := exists_right (List.Forall₂.flip (R := fun x y => R y x) h) hb

/-! ## A sorted list and its groups -/

/-- The head of a sorted list ranks no higher than what a related group starts with. -/
theorem rank_le_of_groups {b : α} (h : Sorted rank (a :: l))
    (hg : ∀ r, List.Forall₂ R (group rank r (a :: l)) (group rank r (b :: m))) :
    rank a ≤ rank b := by
  have hb := hg (rank b)
  rw [group_cons_self] at hb
  obtain ⟨c, _, -, -, hc⟩ := List.forall₂_cons_right_iff.1 hb
  have hmem : c ∈ group rank (rank b) (a :: l) := by
    rw [hc]
    exact List.mem_cons_self
  obtain ⟨hin, hrank⟩ := mem_group.1 hmem
  rw [← hrank]
  rcases List.mem_cons.1 hin with rfl | hin
  · exact Nat.le_refl _
  · exact (List.pairwise_cons.1 h).1 c hin

theorem forall₂_of_groups (hl : Sorted rank l) (hm : Sorted rank m)
    (hg : ∀ r, List.Forall₂ R (group rank r l) (group rank r m)) : List.Forall₂ R l m := by
  induction l generalizing m with
  | nil =>
    cases m with
    | nil => exact .nil
    | cons b m =>
      have hb := hg (rank b)
      rw [group_cons_self, group_nil] at hb
      cases hb
  | cons a l ih =>
    cases m with
    | nil =>
      have ha := hg (rank a)
      rw [group_cons_self, group_nil] at ha
      cases ha
    | cons b m =>
      have hgr : ∀ r, List.Forall₂ (fun x y => R y x) (group rank r (b :: m))
          (group rank r (a :: l)) := fun r => List.Forall₂.flip (hg r)
      have hab : rank a = rank b :=
        Nat.le_antisymm (rank_le_of_groups hl hg) (rank_le_of_groups hm hgr)
      have hhead := hg (rank a)
      rw [group_cons_self, hab, group_cons_self] at hhead
      obtain ⟨hR, htail⟩ := List.forall₂_cons.1 hhead
      refine .cons hR (ih (List.pairwise_cons.1 hl).2 (List.pairwise_cons.1 hm).2 ?_)
      intro r
      by_cases hr : rank b = r
      · rw [← hr]
        exact htail
      · have h := hg r
        rw [group_cons_of_ne (by rw [hab]; exact hr), group_cons_of_ne hr] at h
        exact h

/-! ## Runs -/

theorem runs_one (l : List α) : Runs rank 1 l := by
  intro j
  have hlen : ((l.drop (j * 1)).take 1).length ≤ 1 := by
    rw [List.length_take]
    exact Nat.min_le_left _ _
  unfold Sorted
  match (l.drop (j * 1)).take 1, hlen with
  | [], _ => exact List.Pairwise.nil
  | [a], _ => exact List.pairwise_singleton _ _

theorem Runs.first (h : Runs rank w l) : Sorted rank (l.take w) := by
  have h0 := h 0
  rw [Nat.zero_mul, List.drop_zero] at h0
  exact h0

theorem Runs.rest (h : Runs rank w l) : Runs rank w (l.drop w) := by
  intro j
  have hj := h (j + 1)
  rw [List.drop_drop, Nat.add_comm w]
  rw [Nat.succ_mul] at hj
  exact hj

theorem Runs.sorted (h : Runs rank w l) (hw : l.length ≤ w) : Sorted rank l := by
  have h0 := h.first
  rw [List.take_of_length_le hw] at h0
  exact h0

/-- A run before runs; a shorter one only before nothing. -/
theorem runs_append (hl : Sorted rank l) (hm : Runs rank w m)
    (hlen : l.length = w ∨ l.length ≤ w ∧ m = []) : Runs rank w (l ++ m) := by
  intro j
  rcases hlen with hw | ⟨hw, rfl⟩
  · cases j with
    | zero =>
      rw [Nat.zero_mul, List.drop_zero, List.take_left' hw]
      exact hl
    | succ j =>
      rw [Nat.succ_mul, Nat.add_comm, ← List.drop_drop, List.drop_left' hw]
      exact hm j
  · rw [List.append_nil]
    exact hl.sublist ((List.take_sublist _ _).trans (List.drop_sublist _ _))

end Stable

/-!
## Bottom-up merging with any comparator

Each question is put to a comparator that may remember what it was asked: it answers whether the
first element may stand first, and goes to a next state.

    sort cmp n w s l is a permutation of l, whatever is answered                     (sort_perm)
    answers by rank, runs of w sorted → sorted, and every group as it was            (sort_ranked)
    a total preorder on a list's elements is a rank                                  (rank_le_iff)
-/

namespace Merging

open Stable

variable {σ α : Type} (cmp : σ → α → α → Bool × σ)

/-- Two runs merged: the left run's element first when the answer is yes. -/
def merge (s : σ) : List α → List α → List α × σ
  | [], ys => (ys, s)
  | x :: xs, [] => (x :: xs, s)
  | x :: xs, y :: ys =>
    if (cmp s x y).1 = true then
      let m := merge (cmp s x y).2 xs (y :: ys)
      (x :: m.1, m.2)
    else
      let m := merge (cmp s x y).2 (x :: xs) ys
      (y :: m.1, m.2)
termination_by xs ys => xs.length + ys.length

/-- The runs of `w` elements merged two by two. -/
def pass (w : Nat) (s : σ) (l : List α) : List α × σ :=
  if _h : l = [] ∨ w = 0 then (l, s)
  else
    let m := merge cmp s (l.take w) ((l.drop w).take w)
    let p := pass w m.2 (l.drop (2 * w))
    (m.1 ++ p.1, p.2)
termination_by l.length
decreasing_by
  have hpos := List.length_pos_iff.2 fun h0 => _h (.inl h0)
  have hw : w ≠ 0 := fun h0 => _h (.inr h0)
  rw [List.length_drop]
  omega

@[simp] theorem pass_nil (w : Nat) (s : σ) : pass cmp w s [] = ([], s) := by
  rw [pass, dif_pos (Or.inl rfl)]

theorem pass_eq {w : Nat} (hw : 0 < w) (s : σ) {l : List α} (h : l ≠ []) :
    pass cmp w s l =
      ((merge cmp s (l.take w) ((l.drop w).take w)).1 ++
          (pass cmp w (merge cmp s (l.take w) ((l.drop w).take w)).2 (l.drop (2 * w))).1,
        (pass cmp w (merge cmp s (l.take w) ((l.drop w).take w)).2 (l.drop (2 * w))).2) := by
  rw [pass, dif_neg (not_or.2 ⟨h, by omega⟩)]

/-- Passes over `n` elements, the runs twice as long each time. -/
def sort (n w : Nat) (s : σ) (l : List α) : List α × σ :=
  if _h : w ≥ n ∨ w = 0 then (l, s)
  else
    let p := pass cmp w s l
    sort n (w * 2) p.2 p.1
termination_by n - w

/-! ## Permutations -/

theorem merge_perm (s : σ) (xs ys : List α) : (merge cmp s xs ys).1.Perm (xs ++ ys) := by
  fun_induction merge cmp s xs ys with
  | case1 s ys => exact List.Perm.refl _
  | case2 s x xs => rw [List.append_nil]
  | case3 s x xs y ys _ m ih => exact List.Perm.cons x ih
  | case4 s x xs y ys _ m ih => exact (List.Perm.cons y ih).trans List.perm_middle.symm

theorem take_drop_drop (w : Nat) (l : List α) :
    l.take w ++ (l.drop w).take w ++ l.drop (2 * w) = l := by
  rw [List.append_assoc, Nat.two_mul, ← List.drop_drop, List.take_append_drop,
    List.take_append_drop]

theorem pass_perm (w : Nat) (s : σ) (l : List α) : (pass cmp w s l).1.Perm l := by
  fun_induction pass cmp w s l with
  | case1 s l _ => exact List.Perm.refl l
  | case2 s l _ m p ih =>
    have happ := (merge_perm cmp s (l.take w) ((l.drop w).take w)).append ih
    rw [take_drop_drop] at happ
    exact happ

theorem sort_perm (n w : Nat) (s : σ) (l : List α) : (sort cmp n w s l).1.Perm l := by
  fun_induction sort cmp n w s l with
  | case1 w s l _ => exact List.Perm.refl l
  | case2 w s l _ p ih => exact ih.trans (pass_perm cmp w s l)

/-! ## Answers by rank -/

variable {cmp} {rank : α → Nat}

/-- Whatever its state, the comparator answers by the rank of the elements of `l`. -/
def Ranks (cmp : σ → α → α → Bool × σ) (rank : α → Nat) (l : List α) : Prop :=
  ∀ s, ∀ x ∈ l, ∀ y ∈ l, (cmp s x y).1 = true ↔ rank x ≤ rank y

theorem Ranks.subset {l m : List α} (h : Ranks cmp rank l) (hm : m ⊆ l) : Ranks cmp rank m :=
  fun s x hx y hy => h s x (hm hx) y (hm hy)

theorem merge_sorted {s : σ} {xs ys : List α} (h : Ranks cmp rank (xs ++ ys))
    (hx : Sorted rank xs) (hy : Sorted rank ys) : Sorted rank (merge cmp s xs ys).1 := by
  fun_induction merge cmp s xs ys with
  | case1 s ys => exact hy
  | case2 s x xs => exact hx
  | case3 s x xs y ys hyes m ih =>
    obtain ⟨hhead, htail⟩ := List.pairwise_cons.1 hx
    have hle := (h s x (by simp) y (by simp)).1 hyes
    refine List.pairwise_cons.2 ⟨?_, ih (h.subset (by simp)) htail hy⟩
    intro e he
    rcases List.mem_append.1 ((merge_perm cmp _ _ _).mem_iff.1 he) with he | he
    · exact hhead e he
    · rcases List.mem_cons.1 he with rfl | he
      · exact hle
      · exact Nat.le_trans hle ((List.pairwise_cons.1 hy).1 e he)
  | case4 s x xs y ys hno m ih =>
    obtain ⟨hhead, htail⟩ := List.pairwise_cons.1 hy
    have hlt : ¬ rank x ≤ rank y := fun hle => hno ((h s x (by simp) y (by simp)).2 hle)
    refine List.pairwise_cons.2 ⟨?_, ih (h.subset ?_) hx htail⟩
    · intro e he
      rcases List.mem_append.1 ((merge_perm cmp _ _ _).mem_iff.1 he) with he | he
      · rcases List.mem_cons.1 he with rfl | he
        · omega
        · have := (List.pairwise_cons.1 hx).1 e he
          omega
      · exact hhead e he
    · intro e he
      simp only [List.cons_append, List.mem_cons, List.mem_append] at he ⊢
      tauto

/-- Of equal ranks the left run's come first. -/
theorem merge_group {s : σ} {xs ys : List α} (h : Ranks cmp rank (xs ++ ys))
    (hx : Sorted rank xs) (r : Nat) :
    group rank r (merge cmp s xs ys).1 = group rank r xs ++ group rank r ys := by
  fun_induction merge cmp s xs ys with
  | case1 s ys => rfl
  | case2 s x xs => rw [group_nil, List.append_nil]
  | case3 s x xs y ys _ m ih =>
    have hrest := ih (h.subset (by simp)) (List.pairwise_cons.1 hx).2
    by_cases hr : rank x = r
    · subst hr
      rw [group_cons_self, group_cons_self, hrest]
      rfl
    · rw [group_cons_of_ne hr, group_cons_of_ne hr, hrest]
  | case4 s x xs y ys hno m ih =>
    have hlt : ¬ rank x ≤ rank y := fun hle => hno ((h s x (by simp) y (by simp)).2 hle)
    have hrest := ih (h.subset (by
      intro e he
      simp only [List.cons_append, List.mem_cons, List.mem_append] at he ⊢
      tauto)) hx
    by_cases hr : rank y = r
    · have hnone : group rank r (x :: xs) = [] := by
        apply group_eq_nil
        intro e he
        rcases List.mem_cons.1 he with rfl | he
        · omega
        · have := (List.pairwise_cons.1 hx).1 e he
          omega
      rw [hnone] at hrest ⊢
      subst hr
      rw [group_cons_self, group_cons_self, hrest]
      rfl
    · rw [group_cons_of_ne hr, group_cons_of_ne hr, hrest]

theorem pass_ranked {w : Nat} (hw : 0 < w) {s : σ} {l : List α} (h : Ranks cmp rank l)
    (hruns : Runs rank w l) :
    Runs rank (w * 2) (pass cmp w s l).1 ∧
      ∀ r, group rank r (pass cmp w s l).1 = group rank r l := by
  fun_induction pass cmp w s l with
  | case1 s l hstop =>
    have hnil : l = [] := hstop.resolve_right (by omega)
    subst hnil
    refine ⟨?_, fun r => rfl⟩
    intro j
    rw [List.drop_nil, List.take_nil]
    exact List.Pairwise.nil
  | case2 s l _ m p ih =>
    have hrest : Runs rank w (l.drop (2 * w)) := by
      have htwice := hruns.rest.rest
      rw [List.drop_drop, ← Nat.two_mul] at htwice
      exact htwice
    obtain ⟨hlater, hgroups⟩ := ih (h.subset (List.drop_subset _ _)) hrest
    have hpair : Ranks cmp rank (l.take w ++ (l.drop w).take w) := by
      refine h.subset (List.append_subset_of_subset_of_subset (List.take_subset _ _) ?_)
      exact List.Subset.trans (List.take_subset _ _) (List.drop_subset _ _)
    have hmlen : m.1.length = min w l.length + min w (l.length - w) := by
      rw [(merge_perm cmp s _ _).length_eq, List.length_append, List.length_take,
        List.length_take, List.length_drop]
    have hplen : p.1.length = l.length - 2 * w := by
      rw [(pass_perm cmp w m.2 _).length_eq, List.length_drop]
    refine ⟨?_, ?_⟩
    · refine runs_append (merge_sorted hpair hruns.first hruns.rest.first) hlater ?_
      show m.1.length = w * 2 ∨ m.1.length ≤ w * 2 ∧ p.1 = []
      rcases Nat.lt_or_ge l.length (2 * w) with hshort | hlong
      · exact Or.inr ⟨by omega, List.eq_nil_of_length_eq_zero (by omega)⟩
      · exact Or.inl (by omega)
    · intro r
      show group rank r (m.1 ++ p.1) = _
      rw [group_append, merge_group hpair hruns.first, hgroups r, ← group_append, ← group_append,
        take_drop_drop]

theorem sort_ranked {n w : Nat} (hw : 0 < w) {s : σ} {l : List α} (hn : l.length = n)
    (h : Ranks cmp rank l) (hruns : Runs rank w l) :
    Sorted rank (sort cmp n w s l).1 ∧
      ∀ r, group rank r (sort cmp n w s l).1 = group rank r l := by
  fun_induction sort cmp n w s l with
  | case1 w s l hstop => exact ⟨hruns.sorted (by omega), fun r => rfl⟩
  | case2 w s l _ p ih =>
    have hperm := pass_perm cmp w s l
    obtain ⟨hnext, hgroups⟩ := pass_ranked hw h hruns
    obtain ⟨hsorted, hsame⟩ := ih (by omega) (hperm.length_eq.trans hn) (h.subset hperm.subset)
      hnext
    exact ⟨hsorted, fun r => (hsame r).trans (hgroups r)⟩

/-! ## A total preorder as a rank -/

/-- How many elements of `l` are strictly below `a`. -/
def rankIn (le : α → α → Bool) (l : List α) (a : α) : Nat := l.countP fun b => !le a b

structure TotalOn (le : α → α → Bool) (l : List α) : Prop where
  total : ∀ a ∈ l, ∀ b ∈ l, le a b = true ∨ le b a = true
  trans : ∀ a ∈ l, ∀ b ∈ l, ∀ c ∈ l, le a b = true → le b c = true → le a c = true

theorem TotalOn.refl {le : α → α → Bool} {l : List α} (h : TotalOn le l) {a : α} (ha : a ∈ l) :
    le a a = true := (h.total a ha a ha).elim id id

theorem countP_lt {p q : α → Bool} {l : List α} (h : ∀ c ∈ l, p c = true → q c = true) {b : α}
    (hb : b ∈ l) (hp : p b = false) (hq : q b = true) : l.countP p < l.countP q := by
  obtain ⟨A, B, rfl⟩ := List.append_of_mem hb
  have hA := List.countP_mono_left (l := A) fun c hc => h c (List.mem_append_left _ hc)
  have hB := List.countP_mono_left (l := B) fun c hc =>
    h c (List.mem_append_right _ (List.mem_cons_of_mem b hc))
  rw [List.countP_append, List.countP_append, List.countP_cons_of_neg (by simp [hp]),
    List.countP_cons_of_pos hq]
  omega

theorem rank_le_iff {le : α → α → Bool} {l : List α} (h : TotalOn le l) {a b : α} (ha : a ∈ l)
    (hb : b ∈ l) : rankIn le l a ≤ rankIn le l b ↔ le a b = true := by
  constructor
  · -- otherwise `b` is strictly below `a`, and so is all that is strictly below `b`
    intro hle
    by_contra hab
    have hba : le b a = true := (h.total a ha b hb).resolve_left hab
    have hbelow : ∀ c ∈ l, (!le b c) = true → (!le a c) = true := by
      intro c hc hbc
      rw [Bool.not_eq_true'] at hbc ⊢
      rw [Bool.eq_false_iff] at hbc ⊢
      exact fun hac => hbc (h.trans b hb a ha c hc hba hac)
    have hlt := countP_lt hbelow hb (by simp [h.refl hb]) (by simp [hab])
    unfold rankIn at hle
    omega
  · intro hab
    refine List.countP_mono_left ?_
    intro c hc hac
    rw [Bool.not_eq_true'] at hac ⊢
    rw [Bool.eq_false_iff] at hac ⊢
    exact fun hbc => hac (h.trans a ha b hb c hc hab hbc)

end Merging

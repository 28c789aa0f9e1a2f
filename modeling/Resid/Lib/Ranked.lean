import Mathlib.Data.List.Basic
import Resid.Lib.Sorting

/-!
# Entries by rank

A finite map kept as a list of entries, ascending by a rank of their keys and, among keys
of one rank, in the order they came.  Keys are compared by a test that need not be `=`.

    find x (put k v l) = if eq k x then some v else find x l                          (find_put)
    find x (del k l) = if eq k x then none else find x l                              (find_del)
    put k v (A ++ S ++ B) = A ++ put k v S ++ B   for A below k's rank, B above it  (put_between)
-/

namespace Ranked

open Stable

variable {κ υ : Type}

/-- A key test and a rank that fit each other. -/
structure Keyed (κ : Type) where
  eq : κ → κ → Bool
  rank : κ → Nat
  refl : ∀ a, eq a a = true
  symm : ∀ a b, eq a b = true → eq b a = true
  trans : ∀ a b c, eq a b = true → eq b c = true → eq a c = true
  rank_eq : ∀ a b, eq a b = true → rank a = rank b

variable (K : Keyed κ)

def find (x : κ) (l : List (κ × υ)) : Option υ := (l.find? fun e => K.eq e.1 x).map Prod.snd

/-- `v` at `k`: in the place of an equal key, else behind every key of `k`'s rank. -/
def put (k : κ) (v : υ) : List (κ × υ) → List (κ × υ)
  | [] => [(k, v)]
  | e :: l =>
    if K.eq e.1 k then (k, v) :: l
    else if K.rank k < K.rank e.1 then (k, v) :: e :: l else e :: put k v l

def del (k : κ) (l : List (κ × υ)) : List (κ × υ) := l.eraseP fun e => K.eq e.1 k

/-- Ascending by rank, no two keys equal. -/
def Ordered (l : List (κ × υ)) : Prop :=
  l.Pairwise fun a b => K.rank a.1 ≤ K.rank b.1 ∧ K.eq a.1 b.1 = false

/-- An entry by another name for its key. -/
def Same (a b : κ × υ) : Prop := K.eq a.1 b.1 = true ∧ a.2 = b.2

variable {K}

/-! ## The key test -/

theorem Keyed.eq_comm (a b : κ) : K.eq a b = K.eq b a := by
  rw [Bool.eq_iff_iff]
  exact ⟨K.symm a b, K.symm b a⟩

variable {a b k x : κ} {A B l : List (κ × υ)} {e : κ × υ} {v : υ}

/-- Equal keys are told apart from nothing. -/
theorem Keyed.eq_congr (h : K.eq a b = true) (x : κ) : K.eq a x = K.eq b x := by
  rw [Bool.eq_iff_iff]
  exact ⟨K.trans b a x (K.symm a b h), K.trans a b x h⟩

theorem Keyed.eq_of_rank (h : K.rank a ≠ K.rank b) : K.eq a b = false :=
  Bool.eq_false_iff.2 fun he => h (K.rank_eq a b he)

/-! ## Finding -/

@[simp] theorem find_nil (x : κ) : find K x ([] : List (κ × υ)) = none := rfl

theorem find_cons (x : κ) (e : κ × υ) (l : List (κ × υ)) :
    find K x (e :: l) = if K.eq e.1 x then some e.2 else find K x l := by
  unfold find
  rw [List.find?_cons]
  cases K.eq e.1 x <;> rfl

theorem find_none (h : ∀ e ∈ l, K.eq e.1 x = false) : find K x l = none := by
  unfold find
  rw [Option.map_eq_none_iff, List.find?_eq_none]
  intro e he
  rw [h e he]
  exact Bool.false_ne_true

theorem find_ne_none (he : e ∈ l) (hx : K.eq e.1 x = true) : find K x l ≠ none := by
  unfold find
  rw [Ne, Option.map_eq_none_iff, List.find?_eq_none]
  exact fun h => h e he hx

theorem find_append (x : κ) (l m : List (κ × υ)) :
    find K x (l ++ m) = (find K x l).or (find K x m) := by
  unfold find
  rw [List.find?_append]
  cases l.find? fun e => K.eq e.1 x <;> rfl

theorem find_congr (h : K.eq a b = true) (l : List (κ × υ)) : find K a l = find K b l := by
  unfold find
  congr 2
  funext e
  rw [Keyed.eq_comm, Keyed.eq_congr h, Keyed.eq_comm]

/-- An entry is what its key finds. -/
theorem find_of_mem (h : Ordered K l) (he : e ∈ l) : find K e.1 l = some e.2 := by
  induction l with
  | nil => cases he
  | cons a l ih =>
    rw [find_cons]
    obtain ⟨hhead, htail⟩ := List.pairwise_cons.1 h
    rcases List.mem_cons.1 he with rfl | he
    · rw [if_pos (K.refl e.1)]
    · rw [(hhead e he).2, if_neg Bool.false_ne_true]
      exact ih htail he

theorem exists_of_find (h : find K x l = some v) : ∃ e ∈ l, K.eq e.1 x = true ∧ e.2 = v := by
  obtain ⟨e, hf, rfl⟩ := Option.map_eq_some_iff.1 h
  have he := List.find?_some hf
  exact ⟨e, List.mem_of_find?_eq_some hf, he, rfl⟩

@[simp] theorem del_nil (k : κ) : del K k ([] : List (κ × υ)) = [] := rfl

theorem del_cons (k : κ) (e : κ × υ) (l : List (κ × υ)) :
    del K k (e :: l) = if K.eq e.1 k then l else e :: del K k l := by
  unfold del
  rw [List.eraseP_cons]
  cases K.eq e.1 k <;> rfl

theorem find_put (k x : κ) (v : υ) (l : List (κ × υ)) :
    find K x (put K k v l) = if K.eq k x then some v else find K x l := by
  induction l with
  | nil =>
    rw [put, find_cons]
  | cons e l ih =>
    rw [put]
    by_cases he : K.eq e.1 k = true
    · rw [if_pos he, find_cons, find_cons, Keyed.eq_congr he]
      cases K.eq k x <;> rfl
    rw [if_neg he]
    by_cases hr : K.rank k < K.rank e.1
    · rw [if_pos hr, find_cons]
    · rw [if_neg hr, find_cons, ih, find_cons]
      by_cases hx : K.eq e.1 x = true
      · rw [if_pos hx, if_pos hx, if_neg]
        intro hkx
        exact he (K.trans _ _ _ hx (K.symm _ _ hkx))
      · rw [if_neg hx, if_neg hx]

theorem find_del (h : Ordered K l) (k x : κ) :
    find K x (del K k l) = if K.eq k x then none else find K x l := by
  induction l with
  | nil => cases K.eq k x <;> rfl
  | cons e l ih =>
    obtain ⟨hhead, htail⟩ := List.pairwise_cons.1 h
    by_cases he : K.eq e.1 k = true
    · rw [del_cons, if_pos he, find_cons, Keyed.eq_congr he]
      cases hkx : K.eq k x with
      | false => rfl
      | true =>
        apply find_none
        intro a ha
        rw [Keyed.eq_comm, ← Keyed.eq_congr (K.trans _ _ _ he hkx)]
        exact (hhead a ha).2
    · rw [del_cons, if_neg he, find_cons, ih htail, find_cons]
      by_cases hx : K.eq e.1 x = true
      · rw [if_pos hx, if_pos hx, if_neg]
        intro hkx
        exact he (K.trans _ _ _ hx (K.symm _ _ hkx))
      · rw [if_neg hx, if_neg hx]

/-! ## What stays -/

theorem mem_put (h : e ∈ put K k v l) : e = (k, v) ∨ e ∈ l := by
  induction l with
  | nil => exact .inl (List.mem_singleton.1 h)
  | cons a l ih =>
    rw [put] at h
    split_ifs at h with he hr
    · rcases List.mem_cons.1 h with h | h
      · exact .inl h
      · exact .inr (List.mem_cons_of_mem a h)
    · exact List.mem_cons.1 h
    · rcases List.mem_cons.1 h with rfl | h
      · exact .inr List.mem_cons_self
      · exact (ih h).imp_right (List.mem_cons_of_mem a)

theorem put_ne_nil (k : κ) (v : υ) (l : List (κ × υ)) : put K k v l ≠ [] := by
  cases l with
  | nil => exact List.cons_ne_nil _ _
  | cons e l =>
    rw [put]
    split_ifs <;> exact List.cons_ne_nil _ _

theorem put_ordered (h : Ordered K l) (k : κ) (v : υ) : Ordered K (put K k v l) := by
  induction l with
  | nil => exact List.pairwise_singleton _ _
  | cons e l ih =>
    obtain ⟨hhead, htail⟩ := List.pairwise_cons.1 h
    rw [put]
    by_cases he : K.eq e.1 k = true
    · rw [if_pos he]
      refine List.pairwise_cons.2 ⟨fun b hb => ?_, htail⟩
      obtain ⟨hle, hne⟩ := hhead b hb
      rw [← K.rank_eq _ _ he, ← Keyed.eq_congr he]
      exact ⟨hle, hne⟩
    rw [if_neg he]
    by_cases hr : K.rank k < K.rank e.1
    · rw [if_pos hr]
      refine List.pairwise_cons.2 ⟨fun b hb => ?_, h⟩
      have hlt : K.rank k < K.rank b.1 := by
        rcases List.mem_cons.1 hb with rfl | hb
        · exact hr
        · exact Nat.lt_of_lt_of_le hr (hhead b hb).1
      exact ⟨Nat.le_of_lt hlt, Keyed.eq_of_rank (Nat.ne_of_lt hlt)⟩
    · rw [if_neg hr]
      refine List.pairwise_cons.2 ⟨fun b hb => ?_, ih htail⟩
      rcases mem_put hb with rfl | hb
      · exact ⟨Nat.le_of_not_lt hr, Bool.eq_false_iff.2 he⟩
      · exact hhead b hb

theorem del_sublist (k : κ) (l : List (κ × υ)) : (del K k l).Sublist l :=
  List.eraseP_sublist

theorem del_ordered (h : Ordered K l) (k : κ) : Ordered K (del K k l) :=
  List.Pairwise.sublist (del_sublist k l) h

theorem length_put (h : Ordered K l) (k : κ) (v : υ) :
    (put K k v l).length = l.length + if (find K k l).isNone then 1 else 0 := by
  induction l with
  | nil => rfl
  | cons e l ih =>
    obtain ⟨hhead, htail⟩ := List.pairwise_cons.1 h
    rw [put, find_cons]
    by_cases he : K.eq e.1 k = true
    · rw [if_pos he, if_pos he]
      rfl
    rw [if_neg he, if_neg he]
    by_cases hr : K.rank k < K.rank e.1
    · have hno : find K k l = none := by
        apply find_none
        intro b hb
        apply Keyed.eq_of_rank
        have := (hhead b hb).1
        omega
      rw [if_pos hr, hno]
      rfl
    · rw [if_neg hr, List.length_cons, ih htail, List.length_cons]
      omega

theorem length_del (k : κ) (l : List (κ × υ)) :
    (del K k l).length + (if (find K k l).isSome then 1 else 0) = l.length := by
  induction l with
  | nil => rfl
  | cons e l ih =>
    rw [find_cons]
    by_cases he : K.eq e.1 k = true
    · rw [del_cons, if_pos he, if_pos he]
      rfl
    · rw [del_cons, if_neg he, if_neg he, List.length_cons, List.length_cons, ← ih]
      omega

theorem del_absent (h : find K k l = none) : del K k l = l := by
  induction l with
  | nil => rfl
  | cons e l ih =>
    rw [find_cons] at h
    by_cases he : K.eq e.1 k = true
    · rw [if_pos he] at h
      cases h
    · rw [if_neg he] at h
      rw [del_cons, if_neg he, ih h]

theorem del_ne_nil (h : 2 ≤ l.length) : del K k l ≠ [] := by
  have hlen := length_del (K := K) k l
  intro h0
  rw [h0, List.length_nil] at hlen
  split_ifs at hlen <;> omega

/-- A key that is there keeps its place. -/
theorem put_present (h : Ordered K l) (hk : find K k l ≠ none) (v : υ) :
    put K k v l = l.map fun e => if K.eq e.1 k then (k, v) else e := by
  induction l with
  | nil => exact absurd rfl hk
  | cons e l ih =>
    obtain ⟨hhead, htail⟩ := List.pairwise_cons.1 h
    rw [find_cons] at hk
    rw [put, List.map_cons]
    by_cases he : K.eq e.1 k = true
    · have hrest : l.map (fun e => if K.eq e.1 k then (k, v) else e) = l := by
        refine (List.map_congr_left ?_).trans (List.map_id l)
        intro a ha
        have hne : K.eq a.1 k = false := by
          rw [Keyed.eq_comm, ← Keyed.eq_congr he]
          exact (hhead a ha).2
        rw [hne, if_neg Bool.false_ne_true]
        rfl
      rw [if_pos he, if_pos he, hrest]
    · rw [if_neg he] at hk
      have hr : ¬ K.rank k < K.rank e.1 := by
        intro hlt
        apply hk
        apply find_none
        intro a ha
        apply Keyed.eq_of_rank
        have := (hhead a ha).1
        omega
      rw [if_neg he, if_neg hr, if_neg he, ih htail hk]

theorem del_eq_filter (h : Ordered K l) (k : κ) : del K k l = l.filter fun e => !K.eq e.1 k := by
  induction l with
  | nil => rfl
  | cons e l ih =>
    obtain ⟨hhead, htail⟩ := List.pairwise_cons.1 h
    by_cases he : K.eq e.1 k = true
    · rw [del_cons, if_pos he, List.filter_cons_of_neg (by rw [he]; decide)]
      symm
      apply List.filter_eq_self.2
      intro a ha
      rw [Keyed.eq_comm, ← Keyed.eq_congr he, (hhead a ha).2]
      rfl
    · have hne := Bool.eq_false_iff.2 he
      rw [del_cons, if_neg he, List.filter_cons_of_pos (by rw [hne]; rfl), ih htail]

/-- A new key goes behind every key of its rank. -/
theorem group_put_absent (h : Ordered K l) (hk : find K k l = none) (v : υ) (r : Nat) :
    group (fun e : κ × υ => K.rank e.1) r (put K k v l) =
      group (fun e : κ × υ => K.rank e.1) r (l ++ [(k, v)]) := by
  induction l with
  | nil => rfl
  | cons e l ih =>
    obtain ⟨hhead, htail⟩ := List.pairwise_cons.1 h
    rw [find_cons] at hk
    by_cases he : K.eq e.1 k = true
    · rw [if_pos he] at hk
      cases hk
    rw [if_neg he] at hk
    rw [put, if_neg he]
    by_cases hr : K.rank k < K.rank e.1
    · rw [if_pos hr, group_append]
      by_cases hkr : K.rank k = r
      · -- every entry ranks above `k`
        have habove : group (fun e : κ × υ => K.rank e.1) r (e :: l) = [] := by
          apply group_eq_nil
          intro a ha
          rcases List.mem_cons.1 ha with rfl | ha
          · omega
          · have := (hhead a ha).1
            omega
        subst hkr
        have hself : ∀ m : List (κ × υ), group (fun e : κ × υ => K.rank e.1) (K.rank k) ((k, v) :: m) =
            (k, v) :: group (fun e : κ × υ => K.rank e.1) (K.rank k) m :=
          fun m => group_cons_self (k, v) m
        rw [hself (e :: l), hself [], habove]
        rfl
      · have hne : ∀ m : List (κ × υ), group (fun e : κ × υ => K.rank e.1) r ((k, v) :: m) =
            group (fun e : κ × υ => K.rank e.1) r m := fun m =>
          @group_cons_of_ne (κ × υ) (fun e => K.rank e.1) (k, v) r hkr m
        rw [hne (e :: l), hne [], group_nil, List.append_nil]
    · have hsame := ih htail hk
      rw [if_neg hr, List.cons_append]
      by_cases her : K.rank e.1 = r
      · subst her
        have hself : ∀ m : List (κ × υ), group (fun e : κ × υ => K.rank e.1) (K.rank e.1) (e :: m) =
            e :: group (fun e : κ × υ => K.rank e.1) (K.rank e.1) m := fun m => group_cons_self e m
        rw [hself, hself, hsame]
      · have hne : ∀ m : List (κ × υ), group (fun e : κ × υ => K.rank e.1) r (e :: m) =
            group (fun e : κ × υ => K.rank e.1) r m := fun m =>
          @group_cons_of_ne (κ × υ) (fun e => K.rank e.1) e r her m
        rw [hne, hne, hsame]

/-! ## Between other ranks -/

theorem put_below (h : ∀ a ∈ A, K.rank a.1 < K.rank k) (v : υ) (l : List (κ × υ)) :
    put K k v (A ++ l) = A ++ put K k v l := by
  induction A with
  | nil => rfl
  | cons a A ih =>
    have ha := h a List.mem_cons_self
    rw [List.cons_append, put, if_neg, if_neg (Nat.lt_asymm ha), ih]
    · rfl
    · exact fun b hb => h b (List.mem_cons_of_mem a hb)
    · rw [Keyed.eq_of_rank (Nat.ne_of_lt ha)]
      exact Bool.false_ne_true

theorem put_above (h : ∀ b ∈ B, K.rank k < K.rank b.1) (v : υ) (l : List (κ × υ)) :
    put K k v (l ++ B) = put K k v l ++ B := by
  induction l with
  | nil =>
    cases B with
    | nil => rfl
    | cons b B =>
      have hb := h b List.mem_cons_self
      have hne : ¬ K.eq b.1 k = true := by
        rw [Keyed.eq_of_rank (Nat.ne_of_gt hb)]
        exact Bool.false_ne_true
      show put K k v (b :: B) = (k, v) :: b :: B
      rw [put, if_neg hne, if_pos hb]
  | cons e l ih =>
    rw [List.cons_append, put, put, ih]
    split_ifs <;> rfl

theorem put_between (hA : ∀ a ∈ A, K.rank a.1 < K.rank k) (hB : ∀ b ∈ B, K.rank k < K.rank b.1)
    (v : υ) (l : List (κ × υ)) : put K k v (A ++ (l ++ B)) = A ++ (put K k v l ++ B) := by
  rw [put_below hA, put_above hB]

theorem find_between (hA : ∀ a ∈ A, K.rank a.1 < K.rank k) (hB : ∀ b ∈ B, K.rank k < K.rank b.1)
    (l : List (κ × υ)) : find K k (A ++ (l ++ B)) = find K k l := by
  rw [find_append, find_append, find_none fun a ha => Keyed.eq_of_rank (Nat.ne_of_lt (hA a ha)),
    find_none fun b hb => Keyed.eq_of_rank (Nat.ne_of_gt (hB b hb)), Option.none_or, Option.or_none]

theorem del_between (hA : ∀ a ∈ A, K.rank a.1 < K.rank k) (hB : ∀ b ∈ B, K.rank k < K.rank b.1)
    (l : List (κ × υ)) : del K k (A ++ (l ++ B)) = A ++ (del K k l ++ B) := by
  have hne : ∀ m : List (κ × υ), (∀ e ∈ m, K.rank e.1 ≠ K.rank k) → ∀ e ∈ m, K.eq e.1 k = false :=
    fun m h e he => Keyed.eq_of_rank (h e he)
  have hskip : ∀ m n : List (κ × υ), (∀ e ∈ m, K.eq e.1 k = false) →
      del K k (m ++ n) = m ++ del K k n := by
    intro m n h
    induction m with
    | nil => rfl
    | cons e m ih =>
      rw [List.cons_append, del_cons, h e List.mem_cons_self, if_neg Bool.false_ne_true,
        ih fun b hb => h b (List.mem_cons_of_mem e hb)]
      rfl
  rw [hskip A _ (hne A fun a ha => Nat.ne_of_lt (hA a ha))]
  congr 1
  have hB' : del K k B = B := by
    have := hskip B [] (hne B fun b hb => Nat.ne_of_gt (hB b hb))
    rw [List.append_nil, del_nil, List.append_nil] at this
    exact this
  induction l with
  | nil => exact hB'
  | cons e l ih =>
    rw [List.cons_append, del_cons, del_cons, ih]
    split_ifs <;> rfl

/-! ## One list for one map -/

theorem find_tail (h : (e :: l).Pairwise fun a b => K.rank a.1 < K.rank b.1)
    (hx : find K x l = some v) : K.rank e.1 < K.rank x := by
  obtain ⟨a, ha, hax, -⟩ := exists_of_find hx
  rw [← K.rank_eq _ _ hax]
  exact (List.pairwise_cons.1 h).1 a ha

/-- The first entries of two lists, strictly ascending, of the same map. -/
theorem head_same {e' : κ × υ} {l' : List (κ × υ)}
    (h : (e :: l).Pairwise fun a b => K.rank a.1 < K.rank b.1)
    (h' : (e' :: l').Pairwise fun a b => K.rank a.1 < K.rank b.1)
    (hfind : ∀ x, find K x (e :: l) = find K x (e' :: l')) : Same K e e' := by
  have hone := hfind e.1
  have hother := hfind e'.1
  rw [find_cons, find_cons, if_pos (K.refl e.1)] at hone
  rw [find_cons, find_cons, if_pos (K.refl e'.1)] at hother
  by_cases he : K.eq e.1 e'.1 = true
  · rw [if_pos (K.symm _ _ he)] at hone
    exact ⟨he, Option.some.inj hone⟩
  · have he' : ¬ K.eq e'.1 e.1 = true := fun h0 => he (K.symm _ _ h0)
    rw [if_neg he'] at hone
    rw [if_neg he] at hother
    exact absurd (find_tail h' hone.symm) (Nat.lt_asymm (find_tail h hother))

/-- A map has one list of entries strictly ascending by rank. -/
theorem same_of_find {l' : List (κ × υ)} (h : l.Pairwise fun a b => K.rank a.1 < K.rank b.1)
    (h' : l'.Pairwise fun a b => K.rank a.1 < K.rank b.1) (hfind : ∀ x, find K x l = find K x l') :
    List.Forall₂ (Same K) l l' := by
  induction l generalizing l' with
  | nil =>
    cases l' with
    | nil => exact .nil
    | cons e' l' =>
      have h0 := hfind e'.1
      rw [find_nil, find_cons, if_pos (K.refl e'.1)] at h0
      cases h0
  | cons e l ih =>
    cases l' with
    | nil =>
      have h0 := hfind e.1
      rw [find_nil, find_cons, if_pos (K.refl e.1)] at h0
      cases h0
    | cons e' l' =>
      have hhead := head_same h h' hfind
      refine .cons hhead (ih (List.pairwise_cons.1 h).2 (List.pairwise_cons.1 h').2 ?_)
      intro x
      have hx := hfind x
      rw [find_cons, find_cons, Keyed.eq_congr hhead.1] at hx
      by_cases hex : K.eq e'.1 x = true
      · have hnone : ∀ {a : κ × υ} {m : List (κ × υ)},
            (a :: m).Pairwise (fun a b => K.rank a.1 < K.rank b.1) → K.eq a.1 x = true →
              find K x m = none := by
          intro a m hp hax
          by_contra hne
          obtain ⟨v, hv⟩ := Option.ne_none_iff_exists'.1 hne
          have hlt := find_tail hp hv
          rw [K.rank_eq _ _ hax] at hlt
          exact Nat.lt_irrefl _ hlt
        rw [hnone h' hex, hnone h (K.trans _ _ _ hhead.1 hex)]
      · rw [if_neg hex, if_neg hex] at hx
        exact hx

end Ranked

import Mathlib.Algebra.Order.Group.Nat
import Mathlib.Data.Nat.Find
import Mathlib.Tactic.Common

/-!
# Sparse arrays

Of the slots `0, …, w - 1` only those marked in a bitmap hold something.  What they hold
stands in a list, in slot order: a slot's element is where as many elements stand before it
as there are marks below it.

    get (m ||| bit s) (xs.insertIdx (popc (m &&& (bit s - 1))) x) = get m xs with x at s
    get (m &&& ~~~bit s) (xs.eraseIdx (popc (m &&& (bit s - 1)))) = get m xs with nothing at s
    xs.length = popc m → xs = (List.range w).filterMap (get m xs)                  (eq_flat)
-/

namespace Sparse

variable {w : Nat} {α : Type}

/-- The marks below slot `s`. -/
def rank (m : BitVec w) : Nat → Nat
  | 0 => 0
  | s + 1 => rank m s + (m.getLsbD s).toNat

theorem rank_succ (m : BitVec w) (s : Nat) :
    rank m (s + 1) = rank m s + (m.getLsbD s).toNat := rfl

/-- The marks. -/
def popc (m : BitVec w) : Nat := rank m w

/-- What slot `s` holds. -/
def get (m : BitVec w) (xs : List α) (s : Nat) : Option α :=
  if m.getLsbD s then xs[rank m s]? else none

/-- The slots' elements in order. -/
def flat (m : BitVec w) (xs : List α) : List α := (List.range w).filterMap (get m xs)

/-! ## Marks -/

variable {m : BitVec w} {s : Nat} {xs : List α}

theorem rank_congr {m' : BitVec w} (h : ∀ i < s, m.getLsbD i = m'.getLsbD i) :
    rank m s = rank m' s := by
  induction s with
  | zero => rfl
  | succ s ih =>
    rw [rank_succ, rank_succ, h s (Nat.lt_succ_self s), ih fun i hi => h i (Nat.lt_succ_of_lt hi)]

theorem rank_mono (m : BitVec w) {t : Nat} (h : s ≤ t) : rank m s ≤ rank m t := by
  induction t with
  | zero => exact (congrArg (rank m) (Nat.le_zero.1 h)).le
  | succ t ih =>
    rcases Nat.lt_or_ge t s with hlt | hge
    · exact (congrArg (rank m) (show s = t + 1 by omega)).le
    · exact (ih hge).trans (Nat.le_add_right _ _)

theorem rank_lt (m : BitVec w) {t : Nat} (hs : m.getLsbD s = true) (h : s < t) :
    rank m s < rank m t := by
  have hstep : rank m (s + 1) = rank m s + 1 := by
    rw [rank_succ, hs]
    rfl
  have hmono : rank m (s + 1) ≤ rank m t := rank_mono m h
  omega

theorem rank_lt_popc (m : BitVec w) (hs : m.getLsbD s = true) : rank m s < popc m :=
  rank_lt m hs (BitVec.lt_of_getLsbD hs)

theorem getLsbD_pred (m : BitVec w) (i : Nat) :
    (m - 1#w).getLsbD i =
      (decide (i < w) && !(m.getLsbD i ^^ decide (∃ j < i, m.getLsbD j = true))) := by
  rw [← BitVec.not_neg, BitVec.getLsbD_not, BitVec.getLsbD_neg]
  by_cases hi : i < w
  · rw [decide_eq_true hi, Bool.true_and, Bool.true_and, Bool.true_and]
  · rw [decide_eq_false hi, Bool.false_and, Bool.false_and]

theorem getLsbD_bit_pred (hs : s < w) (i : Nat) :
    (BitVec.twoPow w s - 1#w).getLsbD i = decide (i < s) := by
  have hbit : ∀ j, (BitVec.twoPow w s).getLsbD j = decide (s = j) := by
    intro j
    rw [BitVec.getLsbD_twoPow, decide_eq_true hs, Bool.true_and]
  rw [getLsbD_pred, hbit]
  have hex : (∃ j < i, (BitVec.twoPow w s).getLsbD j = true) ↔ s < i := by
    constructor
    · rintro ⟨j, hj, hb⟩
      rw [hbit, decide_eq_true_eq] at hb
      omega
    · intro h
      refine ⟨s, h, ?_⟩
      rw [hbit, decide_eq_true_eq]
  have hdec : decide (∃ j < i, (BitVec.twoPow w s).getLsbD j = true) = decide (s < i) :=
    decide_eq_decide.2 hex
  rw [hdec]
  rcases Nat.lt_trichotomy i s with h | h | h
  · simp [h, show i < w by omega, show ¬ s = i by omega, show ¬ s < i by omega]
  · simp [h]
  · simp [show ¬ i < s by omega, show ¬ s = i by omega, h]

/-- Where slot `s` finds its element, as a count of masked marks. -/
theorem popc_below (m : BitVec w) (hs : s < w) :
    popc (m &&& (BitVec.twoPow w s - 1#w)) = rank m s := by
  have hle : ∀ t ≤ s, rank (m &&& (BitVec.twoPow w s - 1#w)) t = rank m t := by
    intro t ht
    apply rank_congr
    intro i hi
    rw [BitVec.getLsbD_and, getLsbD_bit_pred hs, decide_eq_true (by omega), Bool.and_true]
  have hge : ∀ t, s ≤ t → rank (m &&& (BitVec.twoPow w s - 1#w)) t = rank m s := by
    intro t ht
    induction t, ht using Nat.le_induction with
    | base => exact hle s (Nat.le_refl s)
    | succ t ht ih =>
      rw [rank_succ, ih, BitVec.getLsbD_and, getLsbD_bit_pred hs, decide_eq_false (by omega),
        Bool.and_false]
      rfl
  exact hge w hs.le

theorem getLsbD_mark (m : BitVec w) (hs : s < w) (t : Nat) :
    (m ||| BitVec.twoPow w s).getLsbD t = (decide (s = t) || m.getLsbD t) := by
  rw [BitVec.getLsbD_or, BitVec.getLsbD_twoPow, decide_eq_true hs, Bool.true_and, Bool.or_comm]

theorem getLsbD_clear (m : BitVec w) (hs : s < w) (t : Nat) :
    (m &&& ~~~BitVec.twoPow w s).getLsbD t = (decide (s ≠ t) && m.getLsbD t) := by
  rw [BitVec.getLsbD_and, BitVec.getLsbD_not, BitVec.getLsbD_twoPow, decide_eq_true hs,
    Bool.true_and]
  by_cases ht : t < w
  · rw [decide_eq_true ht, Bool.true_and, Bool.and_comm, decide_not]
  · rw [BitVec.getLsbD_of_ge m t (by omega), Bool.false_and, Bool.and_false]

theorem rank_mark (m : BitVec w) (hs : s < w) (hfree : m.getLsbD s = false) (t : Nat) :
    rank (m ||| BitVec.twoPow w s) t = rank m t + if s < t then 1 else 0 := by
  induction t with
  | zero => rfl
  | succ t ih =>
    rw [rank_succ, rank_succ, ih, getLsbD_mark m hs]
    rcases Nat.lt_trichotomy s t with h | h | h
    · rw [if_pos h, if_pos (by omega), decide_eq_false (by omega), Bool.false_or]
      omega
    · subst h
      rw [if_neg (by omega), if_pos (by omega), decide_eq_true rfl, hfree]
      rfl
    · rw [if_neg (by omega), if_neg (by omega), decide_eq_false (by omega), Bool.false_or]
      omega

theorem rank_clear (m : BitVec w) (hs : s < w) (hset : m.getLsbD s = true) (t : Nat) :
    rank m t = rank (m &&& ~~~BitVec.twoPow w s) t + if s < t then 1 else 0 := by
  induction t with
  | zero => rfl
  | succ t ih =>
    rw [rank_succ, rank_succ, ih, getLsbD_clear m hs]
    rcases Nat.lt_trichotomy s t with h | h | h
    · rw [if_pos h, if_pos (by omega), decide_eq_true (by omega), Bool.true_and]
      omega
    · subst h
      rw [if_neg (by omega), if_pos (by omega), decide_eq_false (by omega), hset]
      rfl
    · rw [if_neg (by omega), if_neg (by omega), decide_eq_true (by omega), Bool.true_and]
      omega

/-! ## Slots -/

theorem get_of_unmarked (h : m.getLsbD s = false) : get m xs s = none := by
  unfold get
  rw [h]
  rfl

theorem marked_of_get {x : α} (h : get m xs s = some x) : m.getLsbD s = true := by
  by_contra hno
  rw [get_of_unmarked (Bool.eq_false_iff.2 hno)] at h
  cases h

theorem get_of_marked (h : m.getLsbD s = true) : get m xs s = xs[rank m s]? := by
  unfold get
  rw [if_pos h]

theorem exists_get (h : m.getLsbD s = true) (hlen : xs.length = popc m) :
    ∃ x, get m xs s = some x := by
  rw [get_of_marked h]
  have hlt : rank m s < xs.length := by
    rw [hlen]
    exact rank_lt_popc m h
  exact ⟨_, List.getElem?_eq_getElem hlt⟩

theorem get_mark {m : BitVec w} {xs : List α} {s : Nat} (hs : s < w) (hfree : m.getLsbD s = false)
    (hlen : xs.length = popc m) (x : α) (t : Nat) :
    get (m ||| BitVec.twoPow w s) (xs.insertIdx (rank m s) x) t =
      if t = s then some x else get m xs t := by
  unfold get
  rw [getLsbD_mark m hs, rank_mark m hs hfree]
  have hle : rank m s ≤ xs.length := by
    rw [hlen]
    exact rank_mono m hs.le
  by_cases hts : t = s
  · subst hts
    rw [if_neg (Nat.lt_irrefl t), if_pos rfl, decide_eq_true rfl, Bool.true_or, if_pos rfl,
      Nat.add_zero, List.getElem?_insertIdx_self, if_pos hle]
  · rw [if_neg hts, decide_eq_false (by omega), Bool.false_or]
    by_cases hm : m.getLsbD t = true
    · rw [if_pos hm, if_pos hm]
      rcases Nat.lt_or_ge s t with h | h
      · have := rank_mono m h.le
        rw [if_pos h, List.getElem?_insertIdx_of_gt (by omega), Nat.add_sub_cancel]
      · have := rank_lt m hm (show t < s by omega)
        rw [if_neg (by omega), Nat.add_zero, List.getElem?_insertIdx_of_lt this]
    · rw [if_neg hm, if_neg hm]

theorem get_set (hset : m.getLsbD s = true) (hlen : xs.length = popc m) (x : α) (t : Nat) :
    get m (xs.set (rank m s) x) t = if t = s then some x else get m xs t := by
  unfold get
  have hlt : rank m s < xs.length := by
    rw [hlen]
    exact rank_lt_popc m hset
  by_cases hts : t = s
  · subst hts
    rw [if_pos hset, if_pos rfl, List.getElem?_set_self hlt]
  · rw [if_neg hts]
    by_cases hm : m.getLsbD t = true
    · rw [if_pos hm, if_pos hm, List.getElem?_set_ne]
      rcases Nat.lt_or_ge s t with h | h
      · exact (rank_lt m hset h).ne
      · exact (rank_lt m hm (show t < s by omega)).ne'
    · rw [if_neg hm, if_neg hm]

theorem get_clear (hset : m.getLsbD s = true) (t : Nat) :
    get (m &&& ~~~BitVec.twoPow w s) (xs.eraseIdx (rank m s)) t =
      if t = s then none else get m xs t := by
  have hs := BitVec.lt_of_getLsbD hset
  unfold get
  rw [getLsbD_clear m hs]
  by_cases hts : t = s
  · subst hts
    rw [if_pos rfl, decide_eq_false (by simp), Bool.false_and]
    rfl
  · have hr := rank_clear m hs hset t
    rw [if_neg hts, decide_eq_true (by omega), Bool.true_and]
    by_cases hm : m.getLsbD t = true
    · rw [if_pos hm, if_pos hm]
      rcases Nat.lt_or_ge s t with h | h
      · have := rank_lt m hset h
        rw [if_pos h] at hr
        rw [List.getElem?_eraseIdx_of_ge (by omega), hr]
      · have := rank_lt m hm (show t < s by omega)
        rw [if_neg (by omega), Nat.add_zero] at hr
        rw [← hr, List.getElem?_eraseIdx_of_lt this]
    · rw [if_neg hm, if_neg hm]

theorem length_mark (hs : s < w) (hfree : m.getLsbD s = false) (hlen : xs.length = popc m) (x : α) :
    (xs.insertIdx (rank m s) x).length = popc (m ||| BitVec.twoPow w s) := by
  have hle : rank m s ≤ xs.length := by
    rw [hlen]
    exact rank_mono m hs.le
  rw [List.length_insertIdx, if_pos hle, hlen]
  unfold popc
  rw [rank_mark m hs hfree, if_pos hs]

theorem length_clear (hset : m.getLsbD s = true) (hlen : xs.length = popc m) :
    (xs.eraseIdx (rank m s)).length = popc (m &&& ~~~BitVec.twoPow w s) := by
  have hs := BitVec.lt_of_getLsbD hset
  have hr := rank_clear m hs hset w
  have hlt := rank_lt_popc m hset
  rw [if_pos hs] at hr
  rw [List.length_eraseIdx, if_pos (by omega), hlen]
  unfold popc
  omega

theorem rank_none (s : Nat) : rank (0#w) s = 0 := by
  induction s with
  | zero => rfl
  | succ s ih =>
    rw [rank_succ, ih, BitVec.getLsbD_zero]
    rfl

theorem rank_single (hs : s < w) (t : Nat) :
    rank (BitVec.twoPow w s) t = if s < t then 1 else 0 := by
  have h := rank_mark (0#w) hs BitVec.getLsbD_zero t
  rw [rank_none, Nat.zero_add, BitVec.zero_or] at h
  exact h

theorem popc_single (hs : s < w) : popc (BitVec.twoPow w s) = 1 := by
  unfold popc
  rw [rank_single hs, if_pos hs]

theorem get_single (hs : s < w) (x : α) (t : Nat) :
    get (BitVec.twoPow w s) [x] t = if t = s then some x else none := by
  have h := @get_mark w α (0#w) [] s hs BitVec.getLsbD_zero (rank_none w).symm x t
  rw [BitVec.zero_or, rank_none, get_of_unmarked BitVec.getLsbD_zero] at h
  exact h

/-- A slot whose mark is the only one. -/
theorem eq_single (hset : m.getLsbD s = true) (hclear : m &&& ~~~BitVec.twoPow w s = 0#w) :
    m = BitVec.twoPow w s := by
  have hs := BitVec.lt_of_getLsbD hset
  apply BitVec.eq_of_getLsbD_eq
  intro t ht
  have h := getLsbD_clear m hs t
  rw [hclear, BitVec.getLsbD_zero] at h
  rw [BitVec.getLsbD_twoPow, decide_eq_true hs, Bool.true_and]
  by_cases hts : s = t
  · rw [← hts, hset, decide_eq_true rfl]
  · rw [decide_eq_true hts, Bool.true_and] at h
    rw [← h, decide_eq_false hts]

/-! ## All of the slots -/

theorem take_rank (m : BitVec w) (xs : List α) (hlen : xs.length = popc m) (hs : s ≤ w) :
    (List.range s).filterMap (get m xs) = xs.take (rank m s) := by
  induction s with
  | zero => rfl
  | succ s ih =>
    rw [List.range_succ, List.filterMap_append, ih (by omega), rank_succ]
    cases hm : m.getLsbD s with
    | false =>
      rw [List.filterMap_cons_none (get_of_unmarked hm)]
      exact List.append_nil _
    | true =>
      have hlt : rank m s < xs.length := by
        rw [hlen]
        exact rank_lt_popc m hm
      have hget : get m xs s = some xs[rank m s] := by
        rw [get_of_marked hm]
        exact List.getElem?_eq_getElem hlt
      rw [List.filterMap_cons_some hget, List.filterMap_nil, Bool.toNat_true,
        List.take_succ_eq_append_getElem hlt]

theorem eq_flat (hlen : xs.length = popc m) : flat m xs = xs := by
  unfold flat
  rw [take_rank m xs hlen (Nat.le_refl w)]
  exact List.take_of_length_le hlen.le

/-! ## The lowest mark -/

/-- Taking the lowest mark away leaves the slots above it. -/
theorem filter_range_lowest (m : BitVec w) (hne : m ≠ 0#w) :
    ∃ s < w, m &&& -m = BitVec.twoPow w s ∧ m.getLsbD s = true ∧
      (List.range w).filter m.getLsbD = s :: (List.range w).filter (m &&& (m - 1#w)).getLsbD := by
  have hex : ∃ s, m.getLsbD s = true := by
    by_contra hno
    apply hne
    apply BitVec.eq_of_getLsbD_eq
    intro i _
    rw [BitVec.getLsbD_zero, Bool.eq_false_iff]
    exact fun hi => hno ⟨i, hi⟩
  obtain ⟨s, hset, hlow⟩ : ∃ s, m.getLsbD s = true ∧ ∀ j < s, m.getLsbD j = false :=
    ⟨Nat.find hex, Nat.find_spec hex, fun j hj => Bool.eq_false_iff.2 (Nat.find_min hex hj)⟩
  have hs := BitVec.lt_of_getLsbD hset
  have hbelow : ∀ i, decide (∃ j < i, m.getLsbD j = true) = decide (s < i) := by
    intro i
    rw [decide_eq_decide]
    constructor
    · rintro ⟨j, hj, hb⟩
      by_contra hle
      rw [hlow j (by omega)] at hb
      cases hb
    · exact fun h => ⟨s, h, hset⟩
  refine ⟨s, hs, ?_, hset, ?_⟩
  · apply BitVec.eq_of_getLsbD_eq
    intro i hi
    rw [BitVec.getLsbD_and, BitVec.getLsbD_neg, BitVec.getLsbD_twoPow, hbelow i,
      decide_eq_true hs, decide_eq_true hi, Bool.true_and, Bool.true_and]
    rcases Nat.lt_trichotomy i s with h | h | h
    · simp [hlow i h, show ¬ s = i by omega]
    · simp [h, hset]
    · cases hm : m.getLsbD i <;> simp [h, show ¬ s = i by omega]
  · have hrest : ∀ i, (m &&& (m - 1#w)).getLsbD i = (decide (s < i) && m.getLsbD i) := by
      intro i
      rw [BitVec.getLsbD_and, getLsbD_pred, hbelow i]
      by_cases hi : i < w
      · cases hm : m.getLsbD i <;> simp [hi]
      · simp [BitVec.getLsbD_of_ge m i (by omega)]
    obtain ⟨r, hr⟩ : ∃ r, w = s + 1 + r := ⟨w - (s + 1), by omega⟩
    have hsplit : List.range w = List.range s ++ s :: (List.range r).map (s + 1 + ·) := by
      rw [hr, List.range_add, List.range_succ, List.append_assoc]
      rfl
    have hnone : ∀ f : Nat → Bool, (∀ i < s, f i = false) → (List.range s).filter f = [] := by
      intro f hf
      rw [List.filter_eq_nil_iff]
      intro i hi
      rw [hf i (List.mem_range.1 hi)]
      exact Bool.false_ne_true
    rw [hsplit, List.filter_append, List.filter_append, hnone _ hlow, List.filter_cons_of_pos hset,
      hnone _ fun i hi => by rw [hrest, decide_eq_false (by omega), Bool.false_and],
      List.filter_cons_of_neg (by rw [hrest, decide_eq_false (Nat.lt_irrefl s)]; exact
        Bool.false_ne_true), List.nil_append, List.nil_append]
    congr 1
    apply List.filter_congr
    intro i hi
    obtain ⟨j, -, rfl⟩ := List.mem_map.1 hi
    rw [hrest, decide_eq_true (by omega), Bool.true_and]

end Sparse

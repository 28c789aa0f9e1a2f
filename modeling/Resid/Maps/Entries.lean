import Resid.Lib.Ranked
import Resid.Maps.Trie

/-!
# What a trie node holds

    Wf K level p n: the representation invariant of a node at `level` under which every key's
      hash agrees with `p` below that level
    Wf K level p n → hnCollect n is ascending by rank, its keys distinct             (Wf.ordered)
    Wf.update: changing one slot of a node changes that slot's entries only

## Algorithm

An index node's entries are its slots' entries in slot order.  The keys of the slots below a
key's own rank below it and those of the slots above it rank above it, so what an update
does to one slot it does to the whole list of entries.
-/

namespace Maps

open Sparse Ranked

variable {κ υ : Type} {K : Keys κ}

/-- Keys under the canonical order. -/
def Keys.keyed (K : Keys κ) : Keyed κ where
  eq := K.eq
  rank k := canonRank (K.hash k)
  refl := K.refl
  symm := K.symm
  trans := K.trans
  rank_eq a b h := by rw [K.hash_eq a b h]

/-! ## Marks and bits -/

variable {dmap m nmap : BitVec 32} {level p s : Nat} {data : List (κ × υ)} {subs : List (Node κ υ)}

theorem and_bit_ne_zero (hs : s < 32) : m &&& BitVec.twoPow 32 s ≠ 0#32 ↔ m.getLsbD s = true := by
  constructor
  · intro h
    by_contra hno
    apply h
    apply BitVec.eq_of_getLsbD_eq
    intro i _
    rw [BitVec.getLsbD_and, BitVec.getLsbD_twoPow, BitVec.getLsbD_zero]
    by_cases hsi : s = i
    · rw [← hsi, Bool.eq_false_iff.2 hno, Bool.false_and]
    · rw [decide_eq_false hsi, Bool.and_false, Bool.and_false]
  · intro h h0
    have hbit : (m &&& BitVec.twoPow 32 s).getLsbD s = true := by
      rw [BitVec.getLsbD_and, BitVec.getLsbD_twoPow, h, decide_eq_true hs, decide_eq_true rfl]
      rfl
    rw [h0, BitVec.getLsbD_zero] at hbit
    cases hbit

theorem and_eq_zero {m' : BitVec 32} :
    m &&& m' = 0#32 ↔ ∀ s, m.getLsbD s = true → m'.getLsbD s = false := by
  constructor
  · intro h s hs
    have hb : (m &&& m').getLsbD s = false := by
      rw [h]
      exact BitVec.getLsbD_zero
    rw [BitVec.getLsbD_and, hs, Bool.true_and] at hb
    exact hb
  · intro h
    apply BitVec.eq_of_getLsbD_eq
    intro i _
    rw [BitVec.getLsbD_and, BitVec.getLsbD_zero]
    cases hm : m.getLsbD i with
    | false => rfl
    | true => rw [h i hm, Bool.true_and]

/-! ## A node's slots -/

/-- What one slot holds, as entries. -/
def slotEntries (d : Option (κ × υ)) (c : Option (Node κ υ)) : List (κ × υ) :=
  match d, c with
  | some e, _ => [e]
  | none, some n => hnCollect n
  | none, none => []

theorem slotsCollect_eq (hdata : data.length = popc dmap) {all : BitVec 32}
    (hall : ∀ s, all.getLsbD s = true → dmap.getLsbD s = true ∨ nmap.getLsbD s = true) :
    slotsCollect dmap nmap data subs all =
      ((List.range 32).filter all.getLsbD).flatMap fun s =>
        slotEntries (get dmap data s) (get nmap subs s) := by
  induction hn : all.toNat using Nat.strong_induction_on generalizing all with
  | _ N ih =>
    subst hn
    by_cases hz : all = 0#32
    · subst hz
      rw [slotsCollect, dif_pos rfl]
      have hnil : (List.range 32).filter (0#32 : BitVec 32).getLsbD = [] := by
        rw [List.filter_eq_nil_iff]
        intro i _
        rw [BitVec.getLsbD_zero]
        exact Bool.false_ne_true
      rfl
    · obtain ⟨s, hs, hbit, hmark, hfilter⟩ := filter_range_lowest all hz
      have hrest : ∀ t, (all &&& (all - 1#32)).getLsbD t = true →
          dmap.getLsbD t = true ∨ nmap.getLsbD t = true := by
        intro t ht
        rw [BitVec.getLsbD_and, Bool.and_eq_true] at ht
        exact hall t ht.1
      rw [slotsCollect, dif_neg hz]
      simp only
      rw [hbit, popc_below dmap hs, popc_below nmap hs, hfilter, List.flatMap_cons,
        ← ih _ (toNat_and_pred_lt hz) hrest rfl]
      by_cases hd : dmap.getLsbD s = true
      · rw [if_pos ((and_bit_ne_zero hs).2 hd)]
        obtain ⟨e, he⟩ := exists_get hd hdata
        rw [he, ← get_of_marked hd, he]
        rfl
      · rw [if_neg fun h => hd ((and_bit_ne_zero hs).1 h),
          get_of_unmarked (Bool.eq_false_iff.2 hd)]
        have hnm : nmap.getLsbD s = true := (hall s hmark).resolve_left hd
        rw [get_of_marked hnm]
        split
        · rename_i c hc
          rw [hc]
          rfl
        · rename_i hc
          rw [hc]
          rfl

theorem hnCollect_index (hdata : data.length = popc dmap) : hnCollect (.index dmap nmap data subs) =
      (List.range 32).flatMap fun s => slotEntries (get dmap data s) (get nmap subs s) := by
  have hmarks : ∀ s, (dmap ||| nmap).getLsbD s = true →
      dmap.getLsbD s = true ∨ nmap.getLsbD s = true := by
    intro s hs
    rw [BitVec.getLsbD_or, Bool.or_eq_true] at hs
    exact hs
  rw [hnCollect, slotsCollect_eq hdata hmarks]
  have hskip : ∀ l : List Nat, (l.filter (dmap ||| nmap).getLsbD).flatMap
      (fun s => slotEntries (get dmap data s) (get nmap subs s)) =
        l.flatMap fun s => slotEntries (get dmap data s) (get nmap subs s) := by
    intro l
    induction l with
    | nil => rfl
    | cons s l ih =>
      by_cases hs : (dmap ||| nmap).getLsbD s = true
      · rw [List.filter_cons_of_pos hs, List.flatMap_cons, List.flatMap_cons, ih]
      · rw [List.filter_cons_of_neg hs, List.flatMap_cons, ih]
        rw [BitVec.getLsbD_or, Bool.or_eq_true, not_or] at hs
        rw [get_of_unmarked (Bool.eq_false_iff.2 hs.1), get_of_unmarked (Bool.eq_false_iff.2 hs.2)]
        rfl
  exact hskip _

/-- Two rows of slots that differ in slot `s` only, around it. -/
theorem flatMap_split {α : Type} {f g : Nat → List α} (hs : s < 32) (h : ∀ t, t ≠ s → g t = f t) :
    ∃ low high, (List.range 32).flatMap f = low ++ (f s ++ high) ∧
      (List.range 32).flatMap g = low ++ (g s ++ high) ∧
      (∀ e ∈ low, ∃ t < s, e ∈ f t) ∧ (∀ e ∈ high, ∃ t, s < t ∧ e ∈ f t) := by
  obtain ⟨r, hr⟩ : ∃ r, 32 = s + 1 + r := ⟨32 - (s + 1), by omega⟩
  have hrange : List.range 32 = List.range s ++ s :: (List.range r).map (s + 1 + ·) := by
    rw [hr, List.range_add, List.range_succ, List.append_assoc]
    rfl
  refine ⟨(List.range s).flatMap f, ((List.range r).map (s + 1 + ·)).flatMap f, ?_, ?_, ?_, ?_⟩
  · rw [hrange, List.flatMap_append, List.flatMap_cons]
  · rw [hrange, List.flatMap_append, List.flatMap_cons]
    congr 1
    · apply List.flatMap_congr
      intro t ht
      have := List.mem_range.1 ht
      exact h t (by omega)
    · congr 1
      apply List.flatMap_congr
      intro t ht
      obtain ⟨j, -, rfl⟩ := List.mem_map.1 ht
      exact h _ (by omega)
  · intro e he
    obtain ⟨t, ht, hin⟩ := List.mem_flatMap.1 he
    exact ⟨t, List.mem_range.1 ht, hin⟩
  · intro e he
    obtain ⟨t, ht, hin⟩ := List.mem_flatMap.1 he
    obtain ⟨j, -, rfl⟩ := List.mem_map.1 ht
    exact ⟨s + 1 + j, by omega, hin⟩

/-! ## The invariant -/

/-- A node at `level`, every key's hash agreeing with `p` below it. -/
inductive Wf (K : Keys κ) : (level p : Nat) → Node κ υ → Prop
  | index {level p : Nat} {dmap nmap : BitVec 32} {data : List (κ × υ)} {subs : List (Node κ υ)}
      (deep : level ≤ 12)
      (disjoint : dmap &&& nmap = 0#32)
      (data_count : data.length = popc dmap)
      (sub_count : subs.length = popc nmap)
      (data_slot : ∀ s e, get dmap data s = some e →
        K.hash e.1 % 2 ^ (5 * level) = p ∧ slotOf (K.hash e.1) level = s)
      (sub_wf : ∀ s c, get nmap subs s = some c → Wf K (level + 1) (p + s * 2 ^ (5 * level)) c)
      (sub_two : ∀ s c, get nmap subs s = some c → 2 ≤ (hnCollect c).length) :
      Wf K level p (.index dmap nmap data subs)
  | coll {p : Nat} {ents : List (κ × υ)}
      (hash_all : ∀ e ∈ ents, K.hash e.1 = p)
      (distinct : ents.Pairwise fun a b => K.eq a.1 b.1 = false) :
      Wf K 13 p (.coll ents)

/-- A slot's entries have that slot's hash. -/
def SlotOk (K : Keys κ) (level p s : Nat) (l : List (κ × υ)) : Prop :=
  ∀ e ∈ l, K.hash e.1 % 2 ^ (5 * level) = p ∧ slotOf (K.hash e.1) level = s

theorem slotOk_of_next {l : List (κ × υ)} (hp : p < 2 ^ (5 * level))
    (h : ∀ e ∈ l, K.hash e.1 % 2 ^ (5 * (level + 1)) = p + s * 2 ^ (5 * level)) :
    SlotOk K level p s l := by
  intro e he
  have hnext := h e he
  have hlow : K.hash e.1 % 2 ^ (5 * level) = p := by
    have hdvd : 2 ^ (5 * level) ∣ 2 ^ (5 * (level + 1)) := Nat.pow_dvd_pow 2 (by omega)
    rw [← Nat.mod_mod_of_dvd _ hdvd, hnext, Nat.add_mul_mod_self_right, Nat.mod_eq_of_lt hp]
  refine ⟨hlow, ?_⟩
  rw [mod_succ, hlow] at hnext
  exact Nat.eq_of_mul_eq_mul_right (Nat.pow_pos (by decide)) (Nat.add_left_cancel hnext)

theorem prefix_lt {h : Nat} (hk : h % 2 ^ (5 * level) = p) : p < 2 ^ (5 * level) := by
  rw [← hk]
  exact Nat.mod_lt _ (Nat.pow_pos (by decide))

theorem next_of_slot {h : Nat} (hp : h % 2 ^ (5 * level) = p) (hs : slotOf h level = s) :
    h % 2 ^ (5 * (level + 1)) = p + s * 2 ^ (5 * level) := by
  rw [mod_succ, hp, hs]

theorem next_lt (hp : p < 2 ^ (5 * level)) (hs : s < 32) :
    p + s * 2 ^ (5 * level) < 2 ^ (5 * (level + 1)) := by
  have hpow : 2 ^ (5 * (level + 1)) = 32 * 2 ^ (5 * level) := by
    rw [Nat.mul_succ, Nat.add_comm, Nat.pow_add]
  have hmul : s * 2 ^ (5 * level) ≤ 31 * 2 ^ (5 * level) := Nat.mul_le_mul_right _ (by omega)
  omega

theorem slot_lt {α : Type} {xs : List α} {x : α} (h : get m xs s = some x) :
    s < 32 := BitVec.lt_of_getLsbD (marked_of_get h)

/-- What stands in a slot has that slot's hash, if what stands under a node has its prefix. -/
theorem slotEntries_ok {d : Option (κ × υ)} {c : Option (Node κ υ)} (hp : p < 2 ^ (5 * level))
    (hd : ∀ e, d = some e → K.hash e.1 % 2 ^ (5 * level) = p ∧ slotOf (K.hash e.1) level = s)
    (hc : ∀ n, c = some n → ∀ e ∈ hnCollect n,
      K.hash e.1 % 2 ^ (5 * (level + 1)) = p + s * 2 ^ (5 * level)) :
    SlotOk K level p s (slotEntries d c) := by
  cases d with
  | some e =>
    intro e' he'
    rw [List.mem_singleton.1 he']
    exact hd e rfl
  | none =>
    cases c with
    | some n => exact slotOk_of_next hp (hc n rfl)
    | none =>
      intro e he
      cases he

/-- Every key under a node has its prefix. -/
theorem Wf.hash_low {n : Node κ υ} (h : Wf K level p n) (hp : p < 2 ^ (5 * level)) :
    ∀ e ∈ hnCollect n, K.hash e.1 % 2 ^ (5 * level) = p := by
  induction h with
  | index deep disjoint data_count sub_count data_slot sub_wf sub_two ih =>
    intro e he
    rw [hnCollect_index data_count] at he
    obtain ⟨s, hs, he⟩ := List.mem_flatMap.1 he
    have hs32 := List.mem_range.1 hs
    exact (slotEntries_ok hp (data_slot s)
      (fun c hc => ih s c hc (next_lt hp hs32)) e he).1
  | coll hash_all distinct =>
    intro e he
    rw [hnCollect] at he
    rw [← hash_all e he]
    apply Nat.mod_eq_of_lt
    exact Nat.lt_of_lt_of_le (K.hash_lt e.1) (Nat.pow_le_pow_right (by decide) (by decide))

theorem Wf.slotOk (h : Wf K level p (.index dmap nmap data subs)) (hp : p < 2 ^ (5 * level))
    (s : Nat) : SlotOk K level p s (slotEntries (get dmap data s) (get nmap subs s)) := by
  cases h with
  | index deep disjoint data_count sub_count data_slot sub_wf sub_two =>
    rcases Nat.lt_or_ge s 32 with hs | hs
    · exact slotEntries_ok hp (data_slot s)
        fun c hc => (sub_wf s c hc).hash_low (next_lt hp hs)
    · intro e he
      rw [get_of_unmarked (BitVec.getLsbD_of_ge _ _ hs),
        get_of_unmarked (BitVec.getLsbD_of_ge _ _ hs)] at he
      cases he

theorem rank_lt_of_slots {t : Nat} {a b : κ} (deep : level ≤ 12)
    (ha : K.hash a % 2 ^ (5 * level) = p ∧ slotOf (K.hash a) level = s)
    (hb : K.hash b % 2 ^ (5 * level) = p ∧ slotOf (K.hash b) level = t) (hst : s < t) :
    K.keyed.rank a < K.keyed.rank b := by
  apply rank_lt_of_slot (K.hash_lt a) deep (ha.1.trans hb.1.symm) (K.hash_lt b)
  rw [ha.2, hb.2]
  exact hst

/-- A node's entries ascend by rank and no two of its keys are equal. -/
theorem Wf.ordered {n : Node κ υ} (h : Wf K level p n) (hp : p < 2 ^ (5 * level)) :
    Ordered K.keyed (hnCollect n) := by
  induction h with
  | index deep disjoint data_count sub_count data_slot sub_wf sub_two ih =>
    rename_i level p dmap nmap data subs
    have hwf : Wf K level p (.index dmap nmap data subs) :=
      .index deep disjoint data_count sub_count data_slot sub_wf sub_two
    rw [hnCollect_index data_count]
    apply List.pairwise_flatMap.2
    constructor
    · intro s hs
      cases hd : get dmap data s with
      | some e => exact List.pairwise_singleton _ _
      | none =>
        cases hc : get nmap subs s with
        | some c => exact ih s c hc (next_lt hp (List.mem_range.1 hs))
        | none => exact List.Pairwise.nil
    · have hlt : (List.range 32).Pairwise (· < ·) := List.pairwise_lt_range
      refine hlt.imp ?_
      intro s t hst a ha b hb
      have hrank := rank_lt_of_slots deep (hwf.slotOk hp s a ha) (hwf.slotOk hp t b hb) hst
      exact ⟨Nat.le_of_lt hrank, Keyed.eq_of_rank (Nat.ne_of_lt hrank)⟩
  | coll hash_all distinct =>
    rw [hnCollect]
    refine List.Pairwise.imp_of_mem ?_ distinct
    intro a b ha hb hne
    refine ⟨?_, hne⟩
    show canonRank (K.hash a.1) ≤ canonRank (K.hash b.1)
    rw [hash_all a ha, hash_all b hb]

/-! ## Changing one slot -/

/-- A node with slot `s` changed to hold `d` or `c` is one again, and around that slot its
entries are what they were. -/
theorem Wf.update {dmap' nmap' : BitVec 32} {data' : List (κ × υ)} {subs' : List (Node κ υ)}
    {d : Option (κ × υ)} {c : Option (Node κ υ)} (h : Wf K level p (.index dmap nmap data subs))
    (hp : p < 2 ^ (5 * level)) (hs : s < 32) (hdata : data'.length = popc dmap')
    (hsubs : subs'.length = popc nmap')
    (hd : ∀ t, get dmap' data' t = if t = s then d else get dmap data t)
    (hc : ∀ t, get nmap' subs' t = if t = s then c else get nmap subs t)
    (hone : d = none ∨ c = none)
    (hdok : ∀ e, d = some e → K.hash e.1 % 2 ^ (5 * level) = p ∧ slotOf (K.hash e.1) level = s)
    (hcok : ∀ n, c = some n → Wf K (level + 1) (p + s * 2 ^ (5 * level)) n ∧
      2 ≤ (hnCollect n).length) :
    Wf K level p (.index dmap' nmap' data' subs') ∧
      ∃ low high, hnCollect (.index dmap nmap data subs) =
          low ++ (slotEntries (get dmap data s) (get nmap subs s) ++ high) ∧
        hnCollect (.index dmap' nmap' data' subs') = low ++ (slotEntries d c ++ high) ∧
        (∀ k, K.hash k % 2 ^ (5 * level) = p → slotOf (K.hash k) level = s →
          (∀ a ∈ low, K.keyed.rank a.1 < K.keyed.rank k) ∧
            ∀ b ∈ high, K.keyed.rank k < K.keyed.rank b.1) := by
  have hslot := h.slotOk hp
  cases h with
  | index deep disjoint data_count sub_count data_slot sub_wf sub_two =>
    refine ⟨?_, ?_⟩
    · refine .index deep (and_eq_zero.2 ?_) hdata hsubs ?_ ?_ ?_
      · intro t ht
        obtain ⟨e, he⟩ := exists_get ht hdata
        by_contra hno
        rw [Bool.not_eq_false] at hno
        obtain ⟨n, hn⟩ := exists_get hno hsubs
        rw [hd t] at he
        rw [hc t] at hn
        by_cases hts : t = s
        · rw [if_pos hts] at he hn
          rcases hone with h0 | h0
          · rw [h0] at he
            cases he
          · rw [h0] at hn
            cases hn
        · rw [if_neg hts] at he hn
          have := and_eq_zero.1 disjoint t (marked_of_get he)
          rw [marked_of_get hn] at this
          cases this
      · intro t e he
        rw [hd t] at he
        by_cases hts : t = s
        · rw [if_pos hts] at he
          rw [hts]
          exact hdok e he
        · rw [if_neg hts] at he
          exact data_slot t e he
      · intro t n hn
        rw [hc t] at hn
        by_cases hts : t = s
        · rw [if_pos hts] at hn
          rw [hts]
          exact (hcok n hn).1
        · rw [if_neg hts] at hn
          exact sub_wf t n hn
      · intro t n hn
        rw [hc t] at hn
        by_cases hts : t = s
        · rw [if_pos hts] at hn
          exact (hcok n hn).2
        · rw [if_neg hts] at hn
          exact sub_two t n hn
    · have hsame : ∀ t, t ≠ s → slotEntries (get dmap' data' t) (get nmap' subs' t) =
          slotEntries (get dmap data t) (get nmap subs t) := by
        intro t hts
        rw [hd t, hc t, if_neg hts, if_neg hts]
      obtain ⟨low, high, hold, hnew, hlow, hhigh⟩ := flatMap_split hs hsame
      refine ⟨low, high, ?_, ?_, ?_⟩
      · rw [hnCollect_index data_count]
        exact hold
      · rw [hnCollect_index hdata, hnew, hd s, hc s, if_pos rfl, if_pos rfl]
      · intro k hk hks
        constructor
        · intro a ha
          obtain ⟨t, ht, hin⟩ := hlow a ha
          exact rank_lt_of_slots deep (hslot t a hin) ⟨hk, hks⟩ ht
        · intro b hb
          obtain ⟨t, ht, hin⟩ := hhigh b hb
          exact rank_lt_of_slots deep ⟨hk, hks⟩ (hslot t b hin) ht

end Maps

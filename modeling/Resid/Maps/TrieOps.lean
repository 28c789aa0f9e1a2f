import Resid.Maps.Entries

/-!
# Finding, inserting and removing do to the entries what they should

    hnFind K (some n) (K.hash k) k level = find k (hnCollect n)                      (hnFind_eq)
    hnCollect (hnInsert … k v) = put k v (hnCollect n), its flag: k was not there   (hnInsert_spec)
    hnCollect (hnRemove … k) = del k (hnCollect n), its flag: k was there           (hnRemove_spec)

and both keep `Wf`.
-/

namespace Maps

open Sparse Ranked

variable {κ υ : Type} {K : Keys κ}

/-! ## Collision nodes -/

theorem collFind_eq (k : κ) (ents : List (κ × υ)) : collFind K k ents = find K.keyed k ents := by
  induction ents with
  | nil => rfl
  | cons e ents ih =>
    rw [collFind, find_cons, ih]
    rfl

variable {k : κ} {level p s : Nat} {dmap nmap : BitVec 32} {data : List (κ × υ)}
  {subs : List (Node κ υ)} {n : Node κ υ}

theorem collInsert_eq (v : υ) {ents : List (κ × υ)} (h : ∀ e ∈ ents, K.hash e.1 = K.hash k) :
    collInsert K k v ents = (put K.keyed k v ents, (find K.keyed k ents).isNone) := by
  induction ents with
  | nil => rfl
  | cons e ents ih =>
    have hrank : ¬ K.keyed.rank k < K.keyed.rank e.1 := by
      show ¬ canonRank (K.hash k) < canonRank (K.hash e.1)
      rw [h e List.mem_cons_self]
      exact Nat.lt_irrefl _
    rw [collInsert, put, find_cons, ih fun a ha => h a (List.mem_cons_of_mem e ha)]
    by_cases he : K.eq e.1 k = true
    · have he' : K.keyed.eq e.1 k = true := he
      rw [if_pos he, if_pos he', if_pos he']
      rfl
    · have he' : ¬ K.keyed.eq e.1 k = true := he
      rw [if_neg he, if_neg he', if_neg hrank, if_neg he']

theorem collRemove_eq (k : κ) (ents : List (κ × υ)) :
    collRemove K k ents = (del K.keyed k ents, (find K.keyed k ents).isSome) := by
  induction ents with
  | nil => rfl
  | cons e ents ih =>
    rw [collRemove, del_cons, find_cons, ih]
    by_cases he : K.eq e.1 k = true
    · have he' : K.keyed.eq e.1 k = true := he
      rw [if_pos he, if_pos he', if_pos he']
      rfl
    · have he' : ¬ K.keyed.eq e.1 k = true := he
      rw [if_neg he, if_neg he', if_neg he']

theorem coll_of_ordered {ents : List (κ × υ)} (hash_all : ∀ e ∈ ents, K.hash e.1 = p)
    (h : Ordered K.keyed ents) : Wf K 13 p (.coll ents) :=
  .coll hash_all (h.imp fun hab => hab.2)

/-! ## New nodes -/

theorem get_none {α : Type} (s : Nat) : get (0#32 : BitVec 32) ([] : List α) s = none :=
  get_of_unmarked BitVec.getLsbD_zero

/-- A node with nothing in it, to put the first entries of a new node into. -/
theorem wf_empty (deep : level ≤ 12) : Wf K level p (.index 0#32 0#32 ([] : List (κ × υ)) []) := by
  refine .index deep (and_eq_zero.2 ?_) (rank_none 32).symm (rank_none 32).symm ?_ ?_ ?_
  · intro s hs
    rw [BitVec.getLsbD_zero] at hs
    cases hs
  · intro s e he
    rw [get_none] at he
    cases he
  · intro s c hc
    rw [get_none] at hc
    cases hc
  · intro s c hc
    rw [get_none] at hc
    cases hc

theorem hnCollect_empty : hnCollect (.index 0#32 0#32 ([] : List (κ × υ)) []) = [] := by
  rw [hnCollect, slotsCollect, dif_pos (by decide)]

/-- An entry in a free slot. -/
theorem nodeInsData_spec (h : Wf K level p (.index dmap nmap data subs))
    (hk : K.hash k % 2 ^ (5 * level) = p) (hd : dmap.getLsbD (slotOf (K.hash k) level) = false)
    (hn : nmap.getLsbD (slotOf (K.hash k) level) = false) (v : υ) :
    Wf K level p (nodeInsData dmap nmap data subs (slotBit (K.hash k) level) k v) ∧
      hnCollect (nodeInsData dmap nmap data subs (slotBit (K.hash k) level) k v) =
        put K.keyed k v (hnCollect (.index dmap nmap data subs)) := by
  have hs := slotOf_lt (K.hash k) level
  have hp := prefix_lt hk
  have hcounts : data.length = popc dmap ∧ subs.length = popc nmap := by
    cases h
    exact ⟨‹_›, ‹_›⟩
  unfold nodeInsData slotBit
  rw [popc_below dmap hs]
  obtain ⟨hwf, low, high, hold, hnew, hbetween⟩ := h.update (d := some (k, v)) (c := none) hp hs
    (length_mark hs hd hcounts.1 (k, v)) hcounts.2 (get_mark hs hd hcounts.1 (k, v))
    (fun t => by
      by_cases hts : t = slotOf (K.hash k) level
      · rw [if_pos hts, hts, get_of_unmarked hn]
      · rw [if_neg hts])
    (.inr rfl)
    (fun e he => by
      cases he
      exact ⟨hk, rfl⟩)
    (fun n h0 => by cases h0)
  refine ⟨hwf, ?_⟩
  obtain ⟨hlow, hhigh⟩ := hbetween k hk rfl
  rw [hold, hnew, get_of_unmarked hd, get_of_unmarked hn, put_between hlow hhigh]
  rfl

/-- A sub-node in a free slot of a node with nothing in it. -/
theorem wf_chain {c : Node κ υ} (deep : level ≤ 12) (hp : p < 2 ^ (5 * level)) (hs : s < 32)
    (hc : Wf K (level + 1) (p + s * 2 ^ (5 * level)) c) (htwo : 2 ≤ (hnCollect c).length) :
    Wf K level p (.index 0#32 (BitVec.twoPow 32 s) [] [c]) ∧
      hnCollect (.index 0#32 (BitVec.twoPow 32 s) [] [c]) = hnCollect c := by
  have h0 : ([] : List (κ × υ)).length = popc (0#32 : BitVec 32) := (rank_none 32).symm
  have h1 : [c].length = popc (BitVec.twoPow 32 s) := (popc_single hs).symm
  obtain ⟨hwf, low, high, hold, hnew, -⟩ := (wf_empty deep).update (d := none) (c := some c) hp hs
    h0 h1
    (fun t => by rw [get_none, ite_self])
    (fun t => by rw [get_single hs, get_none])
    (.inl rfl) (fun e h0 => by cases h0)
    (fun n hn => by
      cases hn
      exact ⟨hc, htwo⟩)
  refine ⟨hwf, ?_⟩
  rw [hnCollect_empty, get_none, get_none] at hold
  have hnil := (List.append_eq_nil_iff.1 hold.symm)
  rw [hnew, hnil.1, (List.append_eq_nil_iff.1 hnil.2).2, List.append_nil]
  rfl

theorem nodeLeaf_spec (deep : level ≤ 12) (hk : K.hash k % 2 ^ (5 * level) = p) (v : υ) :
    Wf K level p (nodeLeaf level (K.hash k) k v) ∧
      hnCollect (nodeLeaf level (K.hash k) k v) = [(k, v)] := by
  have h := nodeInsData_spec (v := v) (wf_empty deep) hk BitVec.getLsbD_zero BitVec.getLsbD_zero
  have heq : nodeInsData 0#32 0#32 [] [] (slotBit (K.hash k) level) k v =
      nodeLeaf level (K.hash k) k v := by
    unfold nodeInsData nodeLeaf
    rw [BitVec.zero_and, BitVec.zero_or]
    rfl
  rw [heq, hnCollect_empty] at h
  exact h

theorem slotBit_inj {h1 h2 : Nat} (h : slotBit h1 level = slotBit h2 level) :
    slotOf h1 level = slotOf h2 level := by
  have hb : (slotBit h1 level).getLsbD (slotOf h2 level) = true := by
    rw [h]
    unfold slotBit
    rw [BitVec.getLsbD_twoPow, decide_eq_true (slotOf_lt h2 level), decide_eq_true rfl]
    rfl
  unfold slotBit at hb
  rw [BitVec.getLsbD_twoPow, Bool.and_eq_true, decide_eq_true_eq, decide_eq_true_eq] at hb
  exact hb.2

theorem slotBit_lt {h1 h2 : Nat} :
    slotBit h1 level < slotBit h2 level ↔ slotOf h1 level < slotOf h2 level := by
  unfold slotBit
  rw [BitVec.lt_def, BitVec.toNat_twoPow_of_lt (slotOf_lt h1 level),
    BitVec.toNat_twoPow_of_lt (slotOf_lt h2 level)]
  exact Nat.pow_lt_pow_iff_right (by decide)

/-- Two keys of one prefix, the first the older, pushed down until their slots differ. -/
theorem nodePair_spec {k1 k2 : κ} (v1 v2 : υ) (hne : K.eq k1 k2 = false) (d : Nat) :
    ∀ level p, level + d = 13 → K.hash k1 % 2 ^ (5 * level) = p →
      K.hash k2 % 2 ^ (5 * level) = p →
      Wf K level p (nodePair level (K.hash k1) k1 v1 (K.hash k2) k2 v2) ∧
        hnCollect (nodePair level (K.hash k1) k1 v1 (K.hash k2) k2 v2) =
          put K.keyed k2 v2 [(k1, v1)] := by
  have hput : ∀ h : ¬ K.keyed.rank k2 < K.keyed.rank k1,
      put K.keyed k2 v2 [(k1, v1)] = [(k1, v1), (k2, v2)] := by
    intro h
    have hne' : ¬ K.keyed.eq k1 k2 = true := by
      intro h0
      have hkey : K.keyed.eq k1 k2 = K.eq k1 k2 := rfl
      rw [hkey, hne] at h0
      cases h0
    rw [put, if_neg hne', if_neg h]
    rfl
  induction d with
  | zero =>
    intro level p hl h1 h2
    have h13 : level = 13 := by omega
    subst h13
    have hbig : ∀ k, K.hash k % 2 ^ (5 * 13) = K.hash k := by
      intro k
      apply Nat.mod_eq_of_lt
      exact Nat.lt_of_lt_of_le (K.hash_lt k) (Nat.pow_le_pow_right (by decide) (by decide))
    rw [hbig] at h1 h2
    have hrank : ¬ K.keyed.rank k2 < K.keyed.rank k1 := by
      show ¬ canonRank (K.hash k2) < canonRank (K.hash k1)
      rw [h1, h2]
      exact Nat.lt_irrefl _
    rw [nodePair, if_pos (by decide), hput hrank]
    refine ⟨.coll ?_ ?_, by rw [nodeColl2, hnCollect]⟩
    · intro e he
      rcases List.mem_cons.1 he with rfl | he
      · exact h1
      · rw [List.mem_singleton.1 he]
        exact h2
    · refine List.pairwise_cons.2 ⟨?_, List.pairwise_singleton _ _⟩
      intro e he
      rw [List.mem_singleton.1 he]
      exact hne
  | succ d ih =>
    intro level p hl h1 h2
    have deep : level ≤ 12 := by omega
    have hp := prefix_lt h1
    rw [nodePair, if_neg (by omega)]
    by_cases hb : slotBit (K.hash k1) level = slotBit (K.hash k2) level
    · have hslot := slotBit_inj hb
      obtain ⟨hsub, hents⟩ := ih (level + 1) (p + slotOf (K.hash k1) level * 2 ^ (5 * level))
        (by omega) (next_of_slot h1 rfl) (next_of_slot h2 hslot.symm)
      have htwo : 2 ≤ (hnCollect (nodePair (level + 1) (K.hash k1) k1 v1 (K.hash k2) k2 v2)).length := by
        have hfind : find K.keyed k2 [(k1, v1)] = none := by
          apply find_none
          intro e he
          rw [List.mem_singleton.1 he]
          exact hne
        rw [hents, length_put (List.pairwise_singleton _ _), hfind]
        exact Nat.le_refl 2
      rw [if_pos hb, ← hents]
      exact wf_chain deep hp (slotOf_lt _ _) hsub htwo
    · have hslot : slotOf (K.hash k1) level ≠ slotOf (K.hash k2) level := by
        intro h
        apply hb
        unfold slotBit
        rw [h]
      obtain ⟨hleaf, hents⟩ := nodeLeaf_spec deep h1 v1
      have hfree : (slotBit (K.hash k1) level).getLsbD (slotOf (K.hash k2) level) = false := by
        unfold slotBit
        rw [BitVec.getLsbD_twoPow, decide_eq_false hslot, Bool.and_false]
      obtain ⟨hwf, hcol⟩ := nodeInsData_spec (v := v2) hleaf h2 hfree BitVec.getLsbD_zero
      have heq : nodeInsData (slotBit (K.hash k1) level) 0#32 [(k1, v1)] []
          (slotBit (K.hash k2) level) k2 v2 =
          .index (slotBit (K.hash k1) level ||| slotBit (K.hash k2) level) 0#32
            (if slotBit (K.hash k1) level < slotBit (K.hash k2) level then [(k1, v1), (k2, v2)]
              else [(k2, v2), (k1, v1)]) [] := by
        unfold nodeInsData
        have hrank : popc (slotBit (K.hash k1) level &&& (slotBit (K.hash k2) level - 1#32)) =
            if slotOf (K.hash k1) level < slotOf (K.hash k2) level then 1 else 0 := by
          have hbelow := popc_below (slotBit (K.hash k1) level) (slotOf_lt (K.hash k2) level)
          have hsingle := rank_single (slotOf_lt (K.hash k1) level) (slotOf (K.hash k2) level)
          exact hbelow.trans hsingle
        rw [hrank]
        by_cases hlt : slotOf (K.hash k1) level < slotOf (K.hash k2) level
        · rw [if_pos hlt, if_pos (slotBit_lt.2 hlt)]
          rfl
        · rw [if_neg hlt, if_neg fun h => hlt (slotBit_lt.1 h)]
          rfl
      rw [heq] at hwf hcol
      have hleafnode : hnCollect (.index (slotBit (K.hash k1) level) 0#32 [(k1, v1)] []) =
          [(k1, v1)] := hents
      rw [hleafnode] at hcol
      rw [if_neg hb]
      exact ⟨hwf, hcol⟩

/-! ## Finding -/

/-- A node's entries around the slot of a key. -/
theorem Wf.around (h : Wf K level p (.index dmap nmap data subs))
    (hk : K.hash k % 2 ^ (5 * level) = p) : ∃ low high, hnCollect (.index dmap nmap data subs) =
        low ++ (slotEntries (get dmap data (slotOf (K.hash k) level))
          (get nmap subs (slotOf (K.hash k) level)) ++ high) ∧
      (∀ a ∈ low, K.keyed.rank a.1 < K.keyed.rank k) ∧
        ∀ b ∈ high, K.keyed.rank k < K.keyed.rank b.1 := by
  have hslot := h.slotOk (prefix_lt hk)
  cases h with
  | index deep disjoint data_count sub_count data_slot sub_wf sub_two =>
    obtain ⟨low, high, hold, -, hlow, hhigh⟩ := flatMap_split (slotOf_lt (K.hash k) level)
      (f := fun s => slotEntries (get dmap data s) (get nmap subs s)) fun t _ => rfl
    refine ⟨low, high, (hnCollect_index data_count).trans hold, ?_, ?_⟩
    · intro a ha
      obtain ⟨t, ht, hin⟩ := hlow a ha
      exact rank_lt_of_slots deep (hslot t a hin) ⟨hk, rfl⟩ ht
    · intro b hb
      obtain ⟨t, ht, hin⟩ := hhigh b hb
      exact rank_lt_of_slots deep ⟨hk, rfl⟩ (hslot t b hin) ht

theorem bit_marked {m : BitVec 32} {h : Nat} :
    m &&& slotBit h level ≠ 0#32 ↔ m.getLsbD (slotOf h level) = true :=
  and_bit_ne_zero (slotOf_lt h level)

theorem popc_slot (m : BitVec 32) (h level : Nat) :
    popc (m &&& (slotBit h level - 1#32)) = rank m (slotOf h level) :=
  popc_below m (slotOf_lt h level)

theorem find_single (k : κ) (e : κ × υ) :
    find K.keyed k [e] = if K.eq e.1 k then some e.2 else none := by
  rw [find_cons, find_nil]
  rfl

/-- Finding in a node is finding among its entries. -/
theorem hnFind_eq (h : Wf K level p n) (hk : K.hash k % 2 ^ (5 * level) = p) :
    hnFind K (some n) (K.hash k) k level = find K.keyed k (hnCollect n) := by
  induction h with
  | coll hash_all distinct => rw [hnFind, hnCollect, collFind_eq]
  | index deep disjoint data_count sub_count data_slot sub_wf sub_two ih =>
    rename_i level p dmap nmap data subs
    have hwf : Wf K level p (.index dmap nmap data subs) :=
      .index deep disjoint data_count sub_count data_slot sub_wf sub_two
    obtain ⟨low, high, hents, hlow, hhigh⟩ := hwf.around hk
    rw [hents, find_between hlow hhigh, hnFind, popc_slot, popc_slot]
    by_cases hd : dmap.getLsbD (slotOf (K.hash k) level) = true
    · obtain ⟨e, he⟩ := exists_get hd data_count
      rw [if_pos (bit_marked.2 hd), ← get_of_marked hd, he]
      exact (find_single k e).symm
    rw [if_neg fun h => hd (bit_marked.1 h), get_of_unmarked (Bool.eq_false_iff.2 hd)]
    by_cases hn : nmap.getLsbD (slotOf (K.hash k) level) = true
    · obtain ⟨c, hc⟩ := exists_get hn sub_count
      rw [if_neg (bit_marked.2 hn), hc]
      split
      · rename_i c' hc'
        rw [← get_of_marked hn, hc] at hc'
        cases hc'
        exact ih _ c hc (next_of_slot hk rfl)
      · rename_i hc'
        rw [← get_of_marked hn, hc] at hc'
        cases hc'
    · rw [if_pos (not_not.1 fun h => hn (bit_marked.1 h)),
        get_of_unmarked (Bool.eq_false_iff.2 hn)]
      rfl

/-! ## Inserting -/

/-- What an update does to the entries of one slot, it does to all of them. -/
theorem Wf.change {dmap' nmap' : BitVec 32} {data' : List (κ × υ)} {subs' : List (Node κ υ)}
    {d : Option (κ × υ)} {c : Option (Node κ υ)} {F : List (κ × υ) → List (κ × υ)}
    (h : Wf K level p (.index dmap nmap data subs)) (hk : K.hash k % 2 ^ (5 * level) = p)
    (hF : ∀ A l B, (∀ a ∈ A, K.keyed.rank a.1 < K.keyed.rank k) →
      (∀ b ∈ B, K.keyed.rank k < K.keyed.rank b.1) → F (A ++ (l ++ B)) = A ++ (F l ++ B))
    (hdata : data'.length = popc dmap') (hsubs : subs'.length = popc nmap')
    (hd : ∀ t, get dmap' data' t = if t = slotOf (K.hash k) level then d else get dmap data t)
    (hc : ∀ t, get nmap' subs' t = if t = slotOf (K.hash k) level then c else get nmap subs t)
    (hone : d = none ∨ c = none)
    (hdok : ∀ e, d = some e → K.hash e.1 % 2 ^ (5 * level) = p ∧
      slotOf (K.hash e.1) level = slotOf (K.hash k) level)
    (hcok : ∀ n, c = some n →
      Wf K (level + 1) (p + slotOf (K.hash k) level * 2 ^ (5 * level)) n ∧
        2 ≤ (hnCollect n).length)
    (hslot : slotEntries d c = F (slotEntries (get dmap data (slotOf (K.hash k) level))
      (get nmap subs (slotOf (K.hash k) level)))) :
    Wf K level p (.index dmap' nmap' data' subs') ∧
      hnCollect (.index dmap' nmap' data' subs') = F (hnCollect (.index dmap nmap data subs)) := by
  obtain ⟨hwf, low, high, hold, hnew, hbetween⟩ :=
    h.update (prefix_lt hk) (slotOf_lt _ _) hdata hsubs hd hc hone hdok hcok
  obtain ⟨hlow, hhigh⟩ := hbetween k hk rfl
  refine ⟨hwf, ?_⟩
  rw [hold, hnew, hF _ _ _ hlow hhigh, hslot]

theorem free_of_sub (disjoint : dmap &&& nmap = 0#32) (hn : nmap.getLsbD s = true) :
    dmap.getLsbD s = false := by
  by_contra hd
  rw [Bool.not_eq_false] at hd
  rw [and_eq_zero.1 disjoint s hd] at hn
  cases hn

theorem get_unless {α : Type} {m : BitVec 32} (xs : List α) (h : m.getLsbD s = false) (t : Nat) :
    get m xs t = if t = s then none else get m xs t := by
  by_cases hts : t = s
  · rw [if_pos hts, hts, get_of_unmarked h]
  · rw [if_neg hts]

theorem put_two {l : List (κ × υ)} (h : Ordered K.keyed l) (htwo : 2 ≤ l.length) (k : κ) (v : υ) :
    2 ≤ (put K.keyed k v l).length := by
  rw [length_put h]
  omega

/-- Inserting puts the entry among the node's, and says whether its key was new. -/
theorem hnInsert_spec (h : Wf K level p n) (hk : K.hash k % 2 ^ (5 * level) = p) (v : υ) :
    Wf K level p (hnInsert K (some n) level (K.hash k) k v).1 ∧
      hnCollect (hnInsert K (some n) level (K.hash k) k v).1 = put K.keyed k v (hnCollect n) ∧
      (hnInsert K (some n) level (K.hash k) k v).2 = (find K.keyed k (hnCollect n)).isNone := by
  induction h with
  | coll hash_all distinct =>
    rename_i p ents
    have hp := prefix_lt hk
    have hkp : K.hash k = p := by
      rw [← hk]
      symm
      apply Nat.mod_eq_of_lt
      exact Nat.lt_of_lt_of_le (K.hash_lt k) (Nat.pow_le_pow_right (by decide) (by decide))
    have hall : ∀ e ∈ ents, K.hash e.1 = K.hash k := fun e he => (hash_all e he).trans hkp.symm
    have hord := (Wf.coll hash_all distinct).ordered hp
    rw [hnCollect] at hord
    rw [hnInsert, hnCollect, collInsert_eq v hall]
    refine ⟨coll_of_ordered ?_ (put_ordered hord k v), by rw [hnCollect], by rw [hnCollect]⟩
    intro e he
    rcases mem_put he with rfl | he
    · exact hkp
    · exact hash_all e he
  | index deep disjoint data_count sub_count data_slot sub_wf sub_two ih =>
    rename_i level p dmap nmap data subs
    have hwf : Wf K level p (.index dmap nmap data subs) :=
      .index deep disjoint data_count sub_count data_slot sub_wf sub_two
    obtain ⟨low, high, hents, hlow, hhigh⟩ := hwf.around hk
    have hfind : find K.keyed k (hnCollect (.index dmap nmap data subs)) =
        find K.keyed k (slotEntries (get dmap data (slotOf (K.hash k) level))
          (get nmap subs (slotOf (K.hash k) level))) := by
      rw [hents, find_between hlow hhigh]
    rw [hfind, hnInsert]
    simp only
    rw [popc_slot, popc_slot]
    have hput : ∀ A l B, (∀ a ∈ A, K.keyed.rank a.1 < K.keyed.rank k) →
        (∀ b ∈ B, K.keyed.rank k < K.keyed.rank b.1) →
          put K.keyed k v (A ++ (l ++ B)) = A ++ (put K.keyed k v l ++ B) :=
      fun A l B hA hB => put_between hA hB v l
    have hnext := next_of_slot hk rfl
    by_cases hn : nmap.getLsbD (slotOf (K.hash k) level) = true
    · -- the slot holds a sub-node: insert into it
      have hd := free_of_sub disjoint hn
      obtain ⟨c, hc⟩ := exists_get hn sub_count
      obtain ⟨hcwf, hcents, hcflag⟩ := ih _ c hc hnext
      have hord := (sub_wf _ c hc).ordered (prefix_lt hnext)
      rw [if_pos (bit_marked.2 hn), get_of_unmarked hd, hc]
      split
      · rename_i c' hc'
        rw [← get_of_marked hn, hc] at hc'
        cases hc'
        have hlen : (subs.set (rank nmap (slotOf (K.hash k) level))
            (hnInsert K (some c) (level + 1) (K.hash k) k v).1).length = popc nmap := by
          rw [List.length_set, sub_count]
        obtain ⟨h1, h2⟩ := hwf.change (d := none) hk hput data_count hlen (get_unless data hd)
          (get_set hn sub_count _) (.inl rfl) (fun e h0 => by cases h0)
          (fun n h0 => by
            cases h0
            refine ⟨hcwf, ?_⟩
            rw [hcents]
            exact put_two hord (sub_two _ c hc) k v)
          (by
            rw [get_of_unmarked hd, hc]
            exact hcents)
        exact ⟨h1, h2, hcflag⟩
      · rename_i hc'
        rw [← get_of_marked hn, hc] at hc'
        cases hc'
    rw [if_neg fun h => hn (bit_marked.1 h)]
    have hn' := Bool.eq_false_iff.2 hn
    by_cases hd : dmap.getLsbD (slotOf (K.hash k) level) = true
    · obtain ⟨⟨ok, ov⟩, he⟩ := exists_get hd data_count
      have hprefix := data_slot _ _ he
      rw [if_pos (bit_marked.2 hd), ← get_of_marked hd, he, get_of_unmarked hn']
      simp only
      have hold : slotEntries (some (ok, ov)) (none : Option (Node κ υ)) = [(ok, ov)] := rfl
      rw [hold, find_single]
      by_cases hkeq : K.eq ok k = true
      · -- the slot holds the key: replace its entry
        have hkeq' : K.keyed.eq ok k = true := hkeq
        have hlen : (data.set (rank dmap (slotOf (K.hash k) level)) (k, v)).length = popc dmap := by
          rw [List.length_set, data_count]
        obtain ⟨h1, h2⟩ := hwf.change (c := none) hk hput hlen sub_count
          (get_set hd data_count (k, v)) (get_unless subs hn') (.inr rfl)
          (fun e h0 => by
            cases h0
            exact ⟨hk, rfl⟩)
          (fun n h0 => by cases h0)
          (by
            rw [he, get_of_unmarked hn', hold, put, if_pos hkeq']
            rfl)
        rw [if_pos hkeq, if_pos hkeq]
        exact ⟨h1, h2, rfl⟩
      · -- it holds another: push both down
        have hne := Bool.eq_false_iff.2 hkeq
        have hnext' := next_of_slot hprefix.1 hprefix.2
        have hsub : (if level ≥ 12 then nodeColl2 ok ov k v
            else nodePair (level + 1) (K.hash ok) ok ov (K.hash k) k v) =
              nodePair (level + 1) (K.hash ok) ok ov (K.hash k) k v := by
          by_cases h12 : level ≥ 12
          · rw [if_pos h12, nodePair, if_pos (by omega)]
          · rw [if_neg h12]
        obtain ⟨hswf, hsents⟩ := nodePair_spec ov v hne (12 - level) (level + 1) _ (by omega) hnext'
          hnext
        rw [if_neg hkeq, if_neg hkeq, hsub]
        unfold nodeDataToSub
        rw [popc_slot, popc_slot]
        obtain ⟨h1, h2⟩ := hwf.change (d := none)
          (c := some (nodePair (level + 1) (K.hash ok) ok ov (K.hash k) k v)) hk hput
          (length_clear hd data_count) (length_mark (slotOf_lt _ _) hn' sub_count _)
          (get_clear hd) (get_mark (slotOf_lt _ _) hn' sub_count _) (.inl rfl)
          (fun e h0 => by cases h0)
          (fun n h0 => by
            cases h0
            refine ⟨hswf, ?_⟩
            have hnone : find K.keyed k [(ok, ov)] = none := by
              rw [find_single, if_neg hkeq]
            rw [hsents, length_put (List.pairwise_singleton _ _), hnone]
            exact Nat.le_refl 2)
          (by
            rw [he, get_of_unmarked hn', hold]
            exact hsents)
        exact ⟨h1, h2, rfl⟩
    · have hd' := Bool.eq_false_iff.2 hd
      obtain ⟨h1, h2⟩ := nodeInsData_spec hwf hk hd' hn' v
      rw [if_neg fun h => hd (bit_marked.1 h), get_of_unmarked hd', get_of_unmarked hn']
      exact ⟨h1, h2, rfl⟩

/-! ## Removing -/

/-- A node without sub-nodes lists its own entries. -/
theorem hnCollect_data (data_count : data.length = popc dmap) :
    hnCollect (.index dmap 0#32 data subs) = data := by
  rw [hnCollect_index data_count]
  have hslot : (fun s => slotEntries (get dmap data s) (get 0#32 subs s)) =
      fun s => (get dmap data s).toList := by
    funext s
    rw [get_of_unmarked BitVec.getLsbD_zero]
    cases get dmap data s <;> rfl
  rw [hslot, ← List.filterMap_eq_flatMap_toList]
  exact eq_flat data_count

theorem slot_sublist {dmap nmap : BitVec 32} {data : List (κ × υ)} {subs : List (Node κ υ)} {s : Nat}
    (data_count : data.length = popc dmap) (hs : s < 32) :
    (slotEntries (get dmap data s) (get nmap subs s)).Sublist
      (hnCollect (.index dmap nmap data subs)) := by
  rw [hnCollect_index data_count, List.flatMap_def]
  apply List.sublist_flatten_of_mem
  exact List.mem_map_of_mem (List.mem_range.2 hs)

/-- A marked sub-node's entries are two or more of the node's. -/
theorem Wf.two_of_sub (h : Wf K level p (.index dmap nmap data subs)) (hn : nmap.getLsbD s = true) :
    2 ≤ (hnCollect (.index dmap nmap data subs)).length := by
  cases h with
  | index deep disjoint data_count sub_count data_slot sub_wf sub_two =>
    obtain ⟨c, hc⟩ := exists_get hn sub_count
    have hsub := @slot_sublist κ υ dmap nmap data subs s data_count (slot_lt hc)
    rw [get_of_unmarked (free_of_sub disjoint hn), hc] at hsub
    exact (sub_two s c hc).trans hsub.length_le

theorem Wf.empty_maps (h : Wf K level p (.index dmap nmap data subs))
    (hents : hnCollect (.index dmap nmap data subs) = []) : dmap = 0#32 ∧ nmap = 0#32 := by
  have hnmap : nmap = 0#32 := by
    apply BitVec.eq_of_getLsbD_eq
    intro s hs
    rw [BitVec.getLsbD_zero, Bool.eq_false_iff]
    intro hn
    have htwo := h.two_of_sub hn
    rw [hents] at htwo
    cases htwo
  refine ⟨?_, hnmap⟩
  subst hnmap
  cases h with
  | index deep disjoint data_count sub_count data_slot sub_wf sub_two =>
    rw [hnCollect_data data_count] at hents
    rw [hents] at data_count
    apply BitVec.eq_of_getLsbD_eq
    intro s hs
    rw [BitVec.getLsbD_zero, Bool.eq_false_iff]
    intro hd
    have hlt := rank_lt_popc dmap hd
    rw [← data_count] at hlt
    cases hlt

/-- What folds into its parent's slot is one entry, a node's first. -/
theorem single_entries (h : Wf K level p n) (hsingle : nodeSingle n = true) :
    ∃ e, nodeFirst n = some e ∧ hnCollect n = [e] := by
  cases h with
  | coll hash_all distinct =>
    obtain ⟨e, rfl⟩ := List.length_eq_one_iff.1 (eq_of_beq hsingle)
    exact ⟨e, rfl, by rw [hnCollect]⟩
  | index deep disjoint data_count sub_count data_slot sub_wf sub_two =>
    rw [nodeSingle, Bool.and_eq_true, beq_iff_eq, beq_iff_eq] at hsingle
    obtain ⟨rfl, hone⟩ := hsingle
    obtain ⟨e, rfl⟩ := List.length_eq_one_iff.1 (data_count.trans hone)
    exact ⟨e, rfl, hnCollect_data data_count⟩

/-- What does not holds two or more, or nothing. -/
theorem two_of_not_single (h : Wf K level p n) (hsingle : ¬ nodeSingle n = true)
    (hne : hnCollect n ≠ []) : 2 ≤ (hnCollect n).length := by
  have hpos := List.length_pos_iff.2 hne
  cases n with
  | coll ents =>
    rw [hnCollect] at hpos ⊢
    have hone : ents.length ≠ 1 := fun h1 => hsingle (beq_iff_eq.2 h1)
    omega
  | index dmap nmap data subs =>
    by_cases hz : nmap = 0#32
    · subst hz
      cases h with
      | index deep disjoint data_count sub_count data_slot sub_wf sub_two =>
        rw [hnCollect_data data_count] at hpos ⊢
        have hone : popc dmap ≠ 1 := by
          intro h1
          apply hsingle
          rw [nodeSingle, h1]
          rfl
        omega
    · obtain ⟨s, hn⟩ : ∃ s, nmap.getLsbD s = true := by
        by_contra hno
        apply hz
        apply BitVec.eq_of_getLsbD_eq
        intro s hs
        rw [BitVec.getLsbD_zero, Bool.eq_false_iff]
        exact fun hn => hno ⟨s, hn⟩
      exact h.two_of_sub hn

/-- What is left of `n` without `k`. -/
def Removed (K : Keys κ) (level p : Nat) (k : κ) (n : Node κ υ) : Option (Node κ υ) → Prop
  | none => del K.keyed k (hnCollect n) = []
  | some m => Wf K level p m ∧ hnCollect m = del K.keyed k (hnCollect n) ∧
      (hnCollect n ≠ [] → hnCollect m ≠ [])

theorem removed_absent (h : Wf K level p n) (hk : find K.keyed k (hnCollect n) = none) :
    Removed K level p k n (some n) :=
  ⟨h, (del_absent hk).symm, id⟩

/-- Removing takes the key's entry away, and says whether there was one. -/
theorem hnRemove_spec (h : Wf K level p n) (hk : K.hash k % 2 ^ (5 * level) = p) :
    (hnRemove K (some n) level (K.hash k) k).2 = (find K.keyed k (hnCollect n)).isSome ∧
      Removed K level p k n (hnRemove K (some n) level (K.hash k) k).1 := by
  induction h with
  | coll hash_all distinct =>
    rename_i p ents
    have hord := (Wf.coll hash_all distinct).ordered (prefix_lt hk)
    rw [hnCollect] at hord
    have hlen := length_del (K := K.keyed) k ents
    rw [hnRemove, collRemove_eq]
    simp only
    by_cases hlast : ((find K.keyed k ents).isSome && ents.length == 1) = true
    · rw [if_pos hlast, hnCollect]
      rw [Bool.and_eq_true, beq_iff_eq] at hlast
      rw [if_pos hlast.1] at hlen
      refine ⟨hlast.1.symm, ?_⟩
      show del K.keyed k (hnCollect (.coll ents)) = []
      rw [hnCollect]
      exact List.eq_nil_of_length_eq_zero (by omega)
    · rw [if_neg hlast]
      refine ⟨by rw [hnCollect], coll_of_ordered ?_ (del_ordered hord k), ?_, ?_⟩
      · exact fun e he => hash_all e ((del_sublist k ents).subset he)
      · rw [hnCollect, hnCollect]
      · rw [hnCollect, hnCollect]
        intro hne h0
        rw [h0] at hlen
        have hpos := List.length_pos_iff.2 hne
        apply hlast
        rw [Bool.and_eq_true, beq_iff_eq]
        by_cases hs : (find K.keyed k ents).isSome = true
        · rw [if_pos hs, List.length_nil] at hlen
          exact ⟨hs, hlen.symm⟩
        · rw [if_neg hs, List.length_nil] at hlen
          omega
  | index deep disjoint data_count sub_count data_slot sub_wf sub_two ih =>
    rename_i level p dmap nmap data subs
    have hwf : Wf K level p (.index dmap nmap data subs) :=
      .index deep disjoint data_count sub_count data_slot sub_wf sub_two
    obtain ⟨low, high, hents, hlow, hhigh⟩ := hwf.around hk
    have hfind : find K.keyed k (hnCollect (.index dmap nmap data subs)) =
        find K.keyed k (slotEntries (get dmap data (slotOf (K.hash k) level))
          (get nmap subs (slotOf (K.hash k) level))) := by
      rw [hents, find_between hlow hhigh]
    have hdel : ∀ A l B, (∀ a ∈ A, K.keyed.rank a.1 < K.keyed.rank k) →
        (∀ b ∈ B, K.keyed.rank k < K.keyed.rank b.1) →
          del K.keyed k (A ++ (l ++ B)) = A ++ (del K.keyed k l ++ (B : List (κ × υ))) :=
      fun A l B hA hB => del_between hA hB l
    have hnext := next_of_slot hk rfl
    rw [hnRemove]
    simp only
    rw [popc_slot, popc_slot]
    by_cases hn : nmap.getLsbD (slotOf (K.hash k) level) = true
    · -- the slot holds a sub-node: remove from it
      have hd := free_of_sub disjoint hn
      obtain ⟨c, hc⟩ := exists_get hn sub_count
      obtain ⟨hcflag, hcrem⟩ := ih _ c hc hnext
      rw [get_of_unmarked hd, hc] at hfind
      have hslot : slotEntries (none : Option (κ × υ)) (some c) = hnCollect c := rfl
      rw [hslot] at hfind
      rw [if_pos (bit_marked.2 hn)]
      split
      · rename_i c' hc'
        rw [← get_of_marked hn, hc] at hc'
        cases hc'
        rw [hfind]
        rw [hcflag]
        cases hsome : find K.keyed k (hnCollect c) with
        | none => exact ⟨rfl, removed_absent hwf (hfind.trans hsome)⟩
        | some v =>
          have hkeep : del K.keyed k (hnCollect c) ≠ [] := del_ne_nil (sub_two _ c hc)
          have hkeepn := del_ne_nil (K := K.keyed) (k := k) (hwf.two_of_sub hn)
          cases hr : (hnRemove K (some c) (level + 1) (K.hash k) k).1 with
          | none =>
            -- a sub-node holds two entries and keeps one
            rw [hr] at hcrem
            exact absurd hcrem hkeep
          | some m =>
            rw [hr] at hcrem
            obtain ⟨hmwf, hments, -⟩ := hcrem
            have hmne : hnCollect m ≠ [] := by
              rw [hments]
              exact hkeep
            simp only
            by_cases hsingle : nodeSingle m = true
            · obtain ⟨e, hfirst, hme⟩ := single_entries hmwf hsingle
              have heok : K.hash e.1 % 2 ^ (5 * level) = p ∧
                  slotOf (K.hash e.1) level = slotOf (K.hash k) level := by
                apply slotOk_of_next (prefix_lt hk) (hmwf.hash_low (prefix_lt hnext)) e
                rw [hme]
                exact List.mem_singleton_self e
              obtain ⟨h1, h2⟩ := hwf.change (c := none) hk hdel
                (length_mark (slotOf_lt _ _) hd data_count e) (length_clear hn sub_count)
                (get_mark (slotOf_lt _ _) hd data_count e) (get_clear hn) (.inr rfl)
                (fun e' h0 => by
                  cases h0
                  exact heok)
                (fun n h0 => by cases h0)
                (by
                  rw [get_of_unmarked hd, hc, hslot, ← hments, hme]
                  rfl)
              rw [if_pos hsingle, hfirst]
              unfold nodeSubToData
              rw [popc_slot, popc_slot]
              refine ⟨rfl, h1, h2, ?_⟩
              intro _ h0
              exact hkeepn (h2.symm.trans h0)
            · obtain ⟨h1, h2⟩ := hwf.change (d := none) hk hdel data_count
                (by rw [List.length_set, sub_count]) (get_unless data hd)
                (get_set hn sub_count m) (.inl rfl) (fun e h0 => by cases h0)
                (fun n h0 => by
                  cases h0
                  exact ⟨hmwf, two_of_not_single hmwf hsingle hmne⟩)
                (by
                  rw [get_of_unmarked hd, hc]
                  exact hments)
              rw [if_neg hsingle]
              refine ⟨rfl, h1, h2, ?_⟩
              intro _ h0
              exact hkeepn (h2.symm.trans h0)
      · rename_i hc'
        rw [← get_of_marked hn, hc] at hc'
        cases hc'
    rw [if_neg fun h => hn (bit_marked.1 h)]
    have hn' := Bool.eq_false_iff.2 hn
    rw [get_of_unmarked hn'] at hfind
    by_cases hd : dmap.getLsbD (slotOf (K.hash k) level) = true
    · obtain ⟨e, he⟩ := exists_get hd data_count
      have hslot : slotEntries (some e) (none : Option (Node κ υ)) = [e] := rfl
      rw [he, hslot, find_single] at hfind
      rw [if_pos (bit_marked.2 hd), ← get_of_marked hd, he, hfind]
      simp only
      by_cases hkeq : K.eq e.1 k = true
      · have hkeq' : K.keyed.eq e.1 k = true := hkeq
        obtain ⟨h1, h2⟩ := hwf.change (d := none) (c := none) hk hdel (length_clear hd data_count)
          sub_count (get_clear hd) (get_unless subs hn') (.inl rfl) (fun e h0 => by cases h0)
          (fun n h0 => by cases h0)
          (by
            rw [he, get_of_unmarked hn', hslot, del_cons, if_pos hkeq']
            rfl)
        rw [if_neg (by rw [hkeq]; decide), if_pos hkeq]
        by_cases hlast : dmap = slotBit (K.hash k) level ∧ nmap = 0#32
        · rw [if_pos hlast]
          refine ⟨rfl, ?_⟩
          show del K.keyed k (hnCollect (.index dmap nmap data subs)) = []
          rw [← h2, hnCollect, slotsCollect, dif_pos]
          rw [hlast.1, hlast.2]
          exact BitVec.or_eq_zero_iff.2 ⟨BitVec.and_not_self _, rfl⟩
        · rw [if_neg hlast]
          refine ⟨rfl, h1, h2, ?_⟩
          intro _ h0
          obtain ⟨hd0, hn0⟩ := h1.empty_maps h0
          apply hlast
          exact ⟨eq_single hd hd0, hn0⟩
      · have hne := Bool.eq_false_iff.2 hkeq
        rw [if_neg hkeq] at hfind ⊢
        rw [if_pos (by rw [hne]; rfl)]
        exact ⟨rfl, removed_absent hwf hfind⟩
    · have hd' := Bool.eq_false_iff.2 hd
      rw [get_of_unmarked hd'] at hfind
      rw [if_neg fun h => hd (bit_marked.1 h), hfind]
      exact ⟨rfl, removed_absent hwf hfind⟩

end Maps

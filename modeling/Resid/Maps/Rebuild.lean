import Mathlib.Data.List.Forall2
import Resid.Maps.TableOps
import Resid.Maps.TrieRuns

/-!
# Rebuilding a table

A rebuild inserts a table's entries, in the order they are met, into empty slots.  It always
succeeds and keeps the entries; where each of its insertions goes behind the entries of its
hash, it keeps every group (`rebuild_spec`).  With it an absent key is inserted whatever the
table's load (`insertNew_spec`).
-/

namespace Maps

open Ranked Stable

variable {κ υ : Type} {K : TableKeys κ}

/-! ## Insertions that keep the order of a hash's entries -/

/-- Whether each of the steps `es` from `t` meets `keeps`. -/
def allKeep {σ ε : Type} (step : σ → ε → Option σ) (keeps : σ → ε → Bool) : σ → List ε → Bool
  | _, [] => true
  | t, e :: es =>
    keeps t e && match step t e with
      | some t => allKeep step keeps t es
      | none => true

/-- Whether a new key, and before it every key of a rebuild for it, goes behind the entries of
its hash. -/
def insertBehind (K : TableKeys κ) (depth : Nat) (t : Table κ υ) (k : κ) : Bool :=
  match tOob K t.kind k with
  | some _ => behind K t k
  | none =>
    if tOver (t.live + t.tombs + 1) t.cap then
      match depth with
      | 0 => true
      | depth + 1 =>
        allKeep (fun t e => tInsertNew K depth t e.1 e.2) (fun t e => insertBehind K depth t e.1)
            (tAlloc (tGrown t) t.kind) (tScan t) &&
          match tRebuild (tInsertNew K depth) t (tGrown t) t.kind with
          | some t => behind K t k
          | none => true
    else behind K t k

theorem allKeep_cons {σ ε : Type} {step : σ → ε → Option σ} {keeps : σ → ε → Bool} {t t' : σ}
    {e : ε} {es : List ε} (hstep : step t e = some t') (h : allKeep step keeps t (e :: es) = true) :
    keeps t e = true ∧ allKeep step keeps t' es = true := by
  rw [allKeep, hstep, Bool.and_eq_true] at h
  exact h

/-! ## A run of insertions -/

theorem tAlloc_scan (cap : Nat) (kind : Kind) : tScan (tAlloc cap kind : Table κ υ) = [] := by
  have hnone : ∀ n, (List.replicate n (Slot.empty : Slot κ υ)).filterMap Slot.item = [] := by
    intro n
    rw [List.filterMap_replicate]
    rfl
  show (List.replicate cap (Slot.empty : Slot κ υ) ++ List.replicate 2 Slot.empty).filterMap
    Slot.item = []
  rw [List.filterMap_append, hnone, hnone]
  rfl

variable {t : Table κ υ} {cap n : Nat} {kind : Kind} {k : κ}

theorem tAlloc_ok (hn : 4 ≤ n) (hcap : cap = 2 ^ n) (kind : Kind) :
    TableOk K (tAlloc cap kind : Table κ υ) := by
  have hnone : ∀ (i : Nat) k v, (tAlloc cap kind : Table κ υ).cells[i]? ≠ some (Slot.entry k v) := by
    intro i k v h
    have hmem : (k, v) ∈ tScan (tAlloc cap kind : Table κ υ) := mem_scan.2 ⟨i, h⟩
    rw [tAlloc_scan] at hmem
    cases hmem
  have hcount : (List.replicate cap (Slot.empty : Slot κ υ)).countP Slot.used = 0 := by
    rw [List.countP_eq_zero]
    intro c hc
    rw [List.eq_of_mem_replicate hc]
    exact Bool.false_ne_true
  refine ⟨⟨n, hn, ?_⟩, rfl, ?_, ?_, ?_, ?_, ?_⟩
  · exact List.length_replicate.trans hcap
  · rw [tAlloc_scan]
    rfl
  · show (List.replicate cap (Slot.empty : Slot κ υ)).countP Slot.used +
      ((List.replicate 2 (Slot.empty : Slot κ υ)).filterMap Slot.item).length = 0
    rw [hcount]
    rfl
  · show (List.replicate cap (Slot.empty : Slot κ υ)).countP Slot.used * 2 ≤ _
    rw [hcount]
    exact Nat.zero_le _
  · exact fun i k v h => absurd h (hnone i k v)
  · exact fun i j a b v w h => absurd h (hnone i a v)

/-- Entries of distinct keys inserted one by one: all of them stand in the table, in order where
each insertion keeps it. -/
theorem insert_all {ins : Table κ υ → κ → υ → Option (Table κ υ)}
    {keeps : Table κ υ → κ × υ → Bool} {bound : Nat} {I : Table κ υ → Prop}
    (hins : ∀ t k v, I t → TableOk K t → t.kind = kind → t.live + 1 ≤ bound →
      K.fits kind k = true → Absent K k t →
        ∃ t', ins t k v = some t' ∧ Stored K (keeps t (k, v)) t k v t' ∧ I t')
    (es : List (κ × υ)) (t : Table κ υ) (hI : I t) (hok : TableOk K t) (hkind : t.kind = kind)
    (hbound : t.live + es.length ≤ bound) (hfits : ∀ e ∈ es, K.fits kind e.1 = true)
    (hdist : es.Pairwise fun a b => K.eq a.1 b.1 = false) (habs : ∀ e ∈ es, Absent K e.1 t) :
    ∃ t', es.foldlM (fun t e => ins t e.1 e.2) t = some t' ∧ TableOk K t' ∧ I t' ∧
      t'.kind = kind ∧ t'.live = t.live + es.length ∧ (tScan t').Perm (tScan t ++ es) ∧
      (allKeep (fun t e => ins t e.1 e.2) keeps t es = true →
        ∀ r, group (entRank K) r (tScan t') = group (entRank K) r (tScan t ++ es)) := by
  induction es generalizing t with
  | nil =>
    have hnil : tScan t ++ [] = tScan t := List.append_nil _
    exact ⟨t, rfl, hok, hI, hkind, rfl, by rw [hnil], fun _ r => by rw [hnil]⟩
  | cons e es ih =>
    obtain ⟨hhead, htail⟩ := List.pairwise_cons.1 hdist
    rw [List.length_cons] at hbound
    obtain ⟨t1, hstep, hstored, hI1⟩ := hins t e.1 e.2 hI hok hkind (by omega)
      (hfits e List.mem_cons_self) (habs e List.mem_cons_self)
    have hlive1 := hstored.live_eq
    have habs1 : ∀ a ∈ es, Absent K a.1 t1 := by
      intro a ha b hb
      rcases hstored.mem.1 hb with hb | rfl
      · exact habs a (List.mem_cons_of_mem e ha) b hb
      · exact hhead a ha
    obtain ⟨t', hfold, hok', hI', hkind', hlive', hperm, hgroups⟩ := ih t1 hI1 hstored.ok
      (hstored.kind_eq.trans hkind) (by omega) (fun a ha => hfits a (List.mem_cons_of_mem e ha))
      htail habs1
    have happ : tScan t ++ e :: es = tScan t ++ [(e.1, e.2)] ++ es := by
      rw [List.append_assoc]
      rfl
    refine ⟨t', ?_, hok', hI', hkind', ?_, ?_, ?_⟩
    · rw [List.foldlM_cons, hstep]
      exact hfold
    · rw [hlive', hlive1, List.length_cons]
      omega
    · rw [happ]
      exact hperm.trans (hstored.perm.append_right es)
    · intro hkeeps r
      have hkeep : keeps t (e.1, e.2) = true := by
        rw [allKeep, Bool.and_eq_true] at hkeeps
        exact hkeeps.1
      rw [hgroups (allKeep_cons hstep hkeeps).2 r, group_append, hstored.order hkeep r,
        ← group_append, happ]

theorem scan_distinct (h : TableOk K t) : (tScan t).Pairwise fun a b => K.eq a.1 b.1 = false := by
  unfold tScan
  rw [List.pairwise_filterMap, List.pairwise_iff_getElem]
  intro i j hi hj hij a ha b hb
  rw [Bool.eq_false_iff]
  intro hab
  have hcell : ∀ (n : Nat) (hn : n < t.cells.length) (e : κ × υ), t.cells[n].item = some e →
      t.cells[n]? = some (Slot.entry e.1 e.2) := by
    intro n hn e he
    rw [List.getElem?_eq_getElem hn]
    cases hc : t.cells[n] with
    | entry k v =>
      rw [hc] at he
      cases he
      rfl
    | empty =>
      rw [hc] at he
      cases he
    | tomb =>
      rw [hc] at he
      cases he
  have hsame := h.distinct i j a.1 b.1 a.2 b.2 (hcell i hi a ha) (hcell j hj b hb) hab
  omega

/-- The entries of a table inserted into `cap` empty slots. -/
theorem rebuild_all {ins : Table κ υ → κ → υ → Option (Table κ υ)}
    {keeps : Table κ υ → κ × υ → Bool} {I : Table κ υ → Prop} (hn : 4 ≤ n) (hcap : cap = 2 ^ n)
    (hins : ∀ u k v, I u → TableOk K u → u.kind = kind → u.live + 1 ≤ t.live →
      K.fits kind k = true → Absent K k u →
        ∃ u', ins u k v = some u' ∧ Stored K (keeps u (k, v)) u k v u' ∧ I u')
    (hok : TableOk K t) (hI : I (tAlloc cap kind)) (hfits : ∀ e ∈ tScan t, K.fits kind e.1 = true) :
    ∃ t', tRebuild ins t cap kind = some t' ∧ TableOk K t' ∧ I t' ∧ t'.kind = kind ∧
      t'.live = t.live ∧ (tScan t').Perm (tScan t) ∧
      (allKeep (fun t e => ins t e.1 e.2) keeps (tAlloc cap kind) (tScan t) = true →
        ∀ r, group (entRank K) r (tScan t') = group (entRank K) r (tScan t)) := by
  have hlive : (tAlloc cap kind : Table κ υ).live = 0 := rfl
  have hempty : tScan (tAlloc cap kind : Table κ υ) ++ tScan t = tScan t := by
    rw [tAlloc_scan, List.nil_append]
  obtain ⟨t', hfold, hok', hI', hkind', hlive', hperm, hgroups⟩ := insert_all hins (tScan t)
    (tAlloc cap kind) hI (tAlloc_ok hn hcap kind) rfl (by rw [hlive, ← hok.live_eq]; omega) hfits
    (scan_distinct hok)
    (fun e _ a ha => by
      rw [tAlloc_scan] at ha
      cases ha)
  rw [hempty] at hperm hgroups
  refine ⟨t', hfold, hok', hI', hkind', ?_, hperm, hgroups⟩
  rw [hlive', hlive, ← hok.live_eq, Nat.zero_add]

/-! ## Inserting a new key -/

theorem insertNew_room (h : TableOk K t) (depth : Nat) (hfits : K.fits t.kind k = true)
    (habs : Absent K k t) (hroom : (t.live + t.tombs + 1) * 2 ≤ t.cap) (v : υ) :
    ∃ t', tInsertNew K depth t k v = some t' ∧ Stored K (insertBehind K depth t k) t k v t' ∧
      t'.cap = t.cap ∧ t'.tombs = t.tombs := by
  have hover : ¬ tOver (t.live + t.tombs + 1) t.cap = true := by
    unfold tOver
    rw [decide_eq_true_eq]
    omega
  rw [insertBehind.eq_def]
  rw [tInsertNew.eq_def]
  cases hoob : tOob K t.kind k with
  | some o =>
    have hset := setCell_oob t o (Slot.entry k v)
    refine ⟨_, rfl, tStore_oob h hfits hoob habs v, ?_, ?_⟩
    · show (t.setCell (t.slots.length + o) (.entry k v)).slots.length = t.slots.length
      rw [hset]
    · show (t.setCell (t.slots.length + o) (.entry k v)).tombs = t.tombs
      rw [hset]
  | none =>
    simp only
    rw [if_neg hover, if_neg hover]
    exact tStore_spec h hfits hoob habs hroom v

/-- A rebuild that leaves room succeeds. -/
theorem rebuild_spec (h : TableOk K t) (depth : Nat) (hn : 4 ≤ n) (hcap : cap = 2 ^ n)
    (hroom : t.live * 2 ≤ cap) (hfits : ∀ e ∈ tScan t, K.fits kind e.1 = true) :
    ∃ t', tRebuild (tInsertNew K depth) t cap kind = some t' ∧ TableOk K t' ∧
      (t'.cap = cap ∧ t'.tombs = 0) ∧ t'.kind = kind ∧ t'.live = t.live ∧
      (tScan t').Perm (tScan t) ∧
      (allKeep (fun t e => tInsertNew K depth t e.1 e.2) (fun t e => insertBehind K depth t e.1)
          (tAlloc cap kind) (tScan t) = true →
        ∀ r, group (entRank K) r (tScan t') = group (entRank K) r (tScan t)) := by
  refine rebuild_all (I := fun u => u.cap = cap ∧ u.tombs = 0) hn hcap ?_ h ?_ hfits
  · rintro u k v ⟨hucap, hutombs⟩ hok hkind hlive hkfits habs
    rw [← hkind] at hkfits
    obtain ⟨u', hu', hstored, hcap', htombs'⟩ :=
      insertNew_room hok depth hkfits habs (by omega) v
    exact ⟨u', hu', hstored, hcap'.trans hucap, htombs'.trans hutombs⟩
  · exact ⟨List.length_replicate, rfl⟩

theorem live_le (h : TableOk K t) : t.live * 2 ≤ t.cap + 4 := by
  have hused := h.used_eq
  have hhalf := h.half
  have hoob : (t.oob.filterMap Slot.item).length ≤ 2 := by
    rw [← h.oob_two]
    exact List.length_filterMap_le _ _
  unfold Table.cap
  omega

theorem scan_fits (h : TableOk K t) {e : κ × υ} (he : e ∈ tScan t) : K.fits t.kind e.1 = true := by
  obtain ⟨i, hi⟩ := mem_scan.1 he
  exact (h.placed i e.1 e.2 hi).1

theorem grown_sized (h : TableOk K t) :
    (∃ n, 4 ≤ n ∧ tGrown t = 2 ^ n) ∧ (t.live + 1) * 2 ≤ tGrown t := by
  obtain ⟨n, hn, hcap⟩ := h.sized
  have hcap' : t.cap = 2 ^ n := hcap
  have hlive := live_le h
  have h16 : 16 ≤ t.cap := by
    rw [hcap']
    exact Nat.pow_le_pow_right (show 0 < 2 by decide) hn
  unfold tGrown
  by_cases hbig : t.live * 4 > t.cap
  · rw [if_pos hbig]
    refine ⟨⟨n + 1, by omega, ?_⟩, by omega⟩
    rw [hcap', Nat.pow_succ]
  · rw [if_neg hbig]
    exact ⟨⟨n, hn, hcap'⟩, by omega⟩

theorem Absent.perm {t' : Table κ υ} (h : Absent K k t) (hperm : (tScan t').Perm (tScan t)) :
    Absent K k t' := fun e he => h e (hperm.mem_iff.1 he)

/-- Inserting an absent key. -/
theorem insertNew_spec (h : TableOk K t) (depth : Nat) (hfits : K.fits t.kind k = true)
    (habs : Absent K k t) (v : υ) : ∃ t', tInsertNew K (depth + 1) t k v = some t' ∧
      Stored K (insertBehind K (depth + 1) t k) t k v t' := by
  by_cases hover : tOver (t.live + t.tombs + 1) t.cap = true
  · rw [insertBehind, tInsertNew]
    cases hoob : tOob K t.kind k with
    | some o => exact ⟨_, rfl, tStore_oob h hfits hoob habs v⟩
    | none =>
      simp only
      rw [if_pos hover, if_pos hover]
      obtain ⟨⟨n, hn, hcap⟩, hroom⟩ := grown_sized h
      obtain ⟨t1, ht1, hok1, ⟨hcap1, htombs1⟩, hkind1, hlive1, hperm1, hgroups1⟩ :=
        rebuild_spec h depth hn hcap (by omega) fun e he => scan_fits h he
      rw [ht1]
      rw [← hkind1] at hfits hoob
      obtain ⟨t', ht', hstored, -, -⟩ :=
        tStore_spec hok1 hfits hoob (habs.perm hperm1) (by omega) v
      refine ⟨t', ht', hstored.ok, hstored.kind_eq.trans hkind1, ?_, ?_, ?_⟩
      · rw [hstored.live_eq, hlive1]
      · exact hstored.perm.trans (hperm1.append_right _)
      · intro hkeeps r
        rw [Bool.and_eq_true] at hkeeps
        rw [hstored.order hkeeps.2 r, group_append, hgroups1 hkeeps.1 r, ← group_append]
  · have hroom : (t.live + t.tombs + 1) * 2 ≤ t.cap := by
      unfold tOver at hover
      rw [decide_eq_true_eq] at hover
      omega
    obtain ⟨t', ht', hstored, -, -⟩ := insertNew_room h (depth + 1) hfits habs hroom v
    exact ⟨t', ht', hstored⟩

end Maps

/-!
## A trie's shape depends on its map alone

Two well-formed tries with the same entries have the same nodes, slot by slot: a slot holds
nothing, an entry or a sub-node as none, one or more of the entries hash into it
(`Wf.sameShape`).  When no two keys share a hash the entries ascend strictly by rank, so the
map determines them (`same_of_find`).
-/

namespace Maps

open Sparse Ranked

variable {κ υ : Type}

/-- The same slots marked, with the same entries and sub-nodes of the same shape. -/
inductive SameShape (K : Keys κ) : Node κ υ → Node κ υ → Prop
  | index {dmap nmap : BitVec 32} {data data' : List (κ × υ)} {subs subs' : List (Node κ υ)}
      (data_same : List.Forall₂ (Same K.keyed) data data')
      (sub_same : List.Forall₂ (SameShape K) subs subs') :
      SameShape K (.index dmap nmap data subs) (.index dmap nmap data' subs')
  | coll {ents ents' : List (κ × υ)} (same : List.Forall₂ (Same K.keyed) ents ents') :
      SameShape K (.coll ents) (.coll ents')

variable {K : Keys κ}

/-! ## Slots -/

/-- The entries of one slot, by their hash. -/
theorem filter_slots {f : Nat → List (κ × υ)} {g : κ × υ → Nat} (h : ∀ t, ∀ e ∈ f t, g e = t)
    {n s : Nat} (hs : s < n) :
    ((List.range n).flatMap f).filter (fun e => g e == s) = f s := by
  induction n with
  | zero => cases hs
  | succ n ih =>
    have hlast : (f n).filter (fun e => g e == s) = if n = s then f n else [] := by
      by_cases hns : n = s
      · rw [if_pos hns]
        apply List.filter_eq_self.2
        intro e he
        rw [h n e he, hns]
        exact beq_self_eq_true s
      · rw [if_neg hns]
        apply List.filter_eq_nil_iff.2
        intro e he
        rw [h n e he]
        exact fun h0 => hns (eq_of_beq h0)
    rw [List.range_succ, List.flatMap_append, List.filter_append, List.flatMap_singleton, hlast]
    by_cases hns : n = s
    · subst hns
      rw [if_pos rfl, List.filter_eq_nil_iff.2, List.nil_append]
      intro e he h0
      obtain ⟨t, ht, het⟩ := List.mem_flatMap.1 he
      have hlt := List.mem_range.1 ht
      rw [h t e het] at h0
      have := eq_of_beq h0
      omega
    · rw [if_neg hns, List.append_nil]
      exact ih (by omega)

variable {level p : Nat} {dmap nmap : BitVec 32} {data : List (κ × υ)} {subs : List (Node κ υ)}
  {ops : List (Op κ υ)}

/-- What a slot holds is told by how many entries hash into it. -/
theorem Wf.slot_count (h : Wf K level p (.index dmap nmap data subs)) (s : Nat) :
    dmap.getLsbD s = ((slotEntries (get dmap data s) (get nmap subs s)).length == 1) ∧
      nmap.getLsbD s = decide (2 ≤ (slotEntries (get dmap data s) (get nmap subs s)).length) := by
  cases h with
  | index deep disjoint data_count sub_count data_slot sub_wf sub_two =>
    cases hn : nmap.getLsbD s with
    | true =>
      have hd := free_of_sub disjoint hn
      obtain ⟨c, hc⟩ := exists_get hn sub_count
      have htwo := sub_two s c hc
      rw [get_of_unmarked hd, hc, hd]
      have hslot : slotEntries (none : Option (κ × υ)) (some c) = hnCollect c := rfl
      rw [hslot, decide_eq_true htwo]
      refine ⟨?_, rfl⟩
      symm
      rw [beq_eq_false_iff_ne]
      omega
    | false =>
      have hnone : get nmap subs s = none := get_of_unmarked hn
      rw [hnone]
      cases hd : dmap.getLsbD s with
      | true =>
        obtain ⟨e, he⟩ := exists_get hd data_count
        rw [he]
        exact ⟨rfl, rfl⟩
      | false =>
        have hfree : get dmap data s = none := get_of_unmarked hd
        rw [hfree]
        exact ⟨rfl, rfl⟩

/-- The slots of two nodes with the same entries hold the same entries. -/
theorem slots_same {dmap' nmap' : BitVec 32} {data' : List (κ × υ)} {subs' : List (Node κ υ)}
    (h : Wf K level p (.index dmap nmap data subs))
    (h' : Wf K level p (.index dmap' nmap' data' subs')) (hp : p < 2 ^ (5 * level))
    (hsame : List.Forall₂ (Same K.keyed) (hnCollect (.index dmap nmap data subs))
      (hnCollect (.index dmap' nmap' data' subs')))
    (s : Nat) : List.Forall₂ (Same K.keyed) (slotEntries (get dmap data s) (get nmap subs s))
      (slotEntries (get dmap' data' s) (get nmap' subs' s)) := by
  have hok := h.slotOk hp
  have hok' := h'.slotOk hp
  rcases Nat.lt_or_ge s 32 with hs | hs
  · have hcount : data.length = popc dmap := by cases h; assumption
    have hcount' : data'.length = popc dmap' := by cases h'; assumption
    rw [hnCollect_index hcount, hnCollect_index hcount'] at hsame
    have hslot := fun t e he => (hok t e he).2
    have hslot' := fun t e he => (hok' t e he).2
    rw [← filter_slots hslot hs, ← filter_slots hslot' hs]
    refine List.rel_filter ?_ hsame
    intro a b hab
    have heq : slotOf (K.hash a.1) level = slotOf (K.hash b.1) level := by
      rw [K.hash_eq _ _ hab.1]
    simp only
    rw [heq]
  · have hz : ∀ m : BitVec 32, m.getLsbD s = false := fun m => BitVec.getLsbD_of_ge m s hs
    rw [get_of_unmarked (hz dmap), get_of_unmarked (hz nmap), get_of_unmarked (hz dmap'),
      get_of_unmarked (hz nmap')]
    exact .nil

theorem maps_eq {dmap' nmap' : BitVec 32} {data' : List (κ × υ)} {subs' : List (Node κ υ)}
    (h : Wf K level p (.index dmap nmap data subs))
    (h' : Wf K level p (.index dmap' nmap' data' subs'))
    (hslots : ∀ s, List.Forall₂ (Same K.keyed) (slotEntries (get dmap data s) (get nmap subs s))
      (slotEntries (get dmap' data' s) (get nmap' subs' s))) :
    dmap = dmap' ∧ nmap = nmap' := by
  constructor
  · apply BitVec.eq_of_getLsbD_eq
    intro s _
    rw [(h.slot_count s).1, (h'.slot_count s).1, (hslots s).length_eq]
  · apply BitVec.eq_of_getLsbD_eq
    intro s _
    rw [(h.slot_count s).2, (h'.slot_count s).2, (hslots s).length_eq]

theorem forall₂_flat {α : Type} {R : α → α → Prop} {m : BitVec 32} {xs ys : List α}
    (hx : xs.length = popc m) (hy : ys.length = popc m)
    (h : ∀ s x y, get m xs s = some x → get m ys s = some y → R x y) : List.Forall₂ R xs ys := by
  rw [← eq_flat hx, ← eq_flat hy]
  refine List.rel_filterMap (R := Eq) ?_ (List.forall₂_eq_eq_eq ▸ rfl)
  rintro s _ rfl
  by_cases hm : m.getLsbD s = true
  · obtain ⟨x, hxs⟩ := exists_get hm hx
    obtain ⟨y, hys⟩ := exists_get hm hy
    rw [hxs, hys]
    exact .some (h s x y hxs hys)
  · rw [get_of_unmarked (Bool.eq_false_iff.2 hm), get_of_unmarked (Bool.eq_false_iff.2 hm)]
    exact .none

/-- Well-formed nodes with the same entries have the same shape. -/
theorem Wf.sameShape {n n' : Node κ υ} (h : Wf K level p n) (h' : Wf K level p n')
    (hp : p < 2 ^ (5 * level)) (hsame : List.Forall₂ (Same K.keyed) (hnCollect n) (hnCollect n')) :
    SameShape K n n' := by
  induction h generalizing n' with
  | coll hash_all distinct =>
    cases h' with
    | coll hash_all' distinct' =>
      rw [hnCollect, hnCollect] at hsame
      exact .coll hsame
    | index deep => omega
  | index deep disjoint data_count sub_count data_slot sub_wf sub_two ih =>
    rename_i level p dmap nmap data subs
    have hwf : Wf K level p (.index dmap nmap data subs) :=
      .index deep disjoint data_count sub_count data_slot sub_wf sub_two
    cases n' with
    | coll ents =>
      cases h'
      omega
    | index dmap' nmap' data' subs' =>
      have hslots := slots_same hwf h' hp hsame
      obtain ⟨rfl, rfl⟩ := maps_eq hwf h' hslots
      cases h' with
      | index deep' disjoint' data_count' sub_count' data_slot' sub_wf' sub_two' =>
        refine .index (forall₂_flat data_count data_count' ?_) (forall₂_flat sub_count sub_count' ?_)
        · intro s x y hx hy
          have hs := hslots s
          rw [hx, hy] at hs
          cases hs with
          | cons hxy _ => exact hxy
        · intro s c c' hc hc'
          have hs := hslots s
          have hd := free_of_sub disjoint (marked_of_get hc)
          rw [hc, hc', get_of_unmarked hd, get_of_unmarked hd] at hs
          exact ih s c hc (sub_wf' s c' hc') (next_lt hp (slot_lt hc)) hs

/-! ## Histories -/

theorem key_of_listed {e : κ × υ} (he : e ∈ listed K ops) : e.1 ∈ ops.map Op.key := by
  induction ops using List.reverseRecOn with
  | nil => cases he
  | append_singleton ops op ih =>
    have hlist : listed K (ops ++ [op]) = listedAfter K (listed K ops) op :=
      List.foldl_concat _ _ op ops
    rw [hlist] at he
    rw [List.map_append]
    cases op with
    | insert k v =>
      rcases mem_put he with rfl | he
      · exact List.mem_append_right _ List.mem_cons_self
      · exact List.mem_append_left _ (ih he)
    | remove k => exact List.mem_append_left _ (ih ((del_sublist k _).subset he))

/-- Unequal keys of a history have distinct hashes. -/
def HashesDistinct (K : Keys κ) (ops : List (Op κ υ)) : Prop :=
  ∀ a ∈ ops.map Op.key, ∀ b ∈ ops.map Op.key, K.hash a = K.hash b → K.eq a b = true

theorem listed_ascending (h : HashesDistinct K ops) :
    (listed K ops).Pairwise fun a b => canonRank (K.hash a.1) < canonRank (K.hash b.1) := by
  refine List.Pairwise.imp_of_mem ?_ (listed_ordered ops)
  rintro a b ha hb ⟨hle, hne⟩
  refine Nat.lt_of_le_of_ne hle ?_
  intro heq
  have hhash := canonRank_inj (K.hash_lt a.1) (K.hash_lt b.1) heq
  have hab : K.eq a.1 b.1 = true := h _ (key_of_listed ha) _ (key_of_listed hb) hhash
  have hne' : K.eq a.1 b.1 = false := hne
  rw [hab] at hne'
  cases hne'

theorem HashesDistinct.left {ops' : List (Op κ υ)} (h : HashesDistinct K (ops ++ ops')) :
    HashesDistinct K ops := by
  intro a ha b hb
  rw [HashesDistinct, List.map_append] at h
  exact h a (List.mem_append_left _ ha) b (List.mem_append_left _ hb)

theorem HashesDistinct.right {ops' : List (Op κ υ)} (h : HashesDistinct K (ops ++ ops')) :
    HashesDistinct K ops' := by
  intro a ha b hb
  rw [HashesDistinct, List.map_append] at h
  exact h a (List.mem_append_right _ ha) b (List.mem_append_right _ hb)

theorem wordEq_refl (a : BitVec 64) : (a == a) = true := beq_self_eq_true a

theorem wordEq_symm (a b : BitVec 64) (h : (a == b) = true) : (b == a) = true := by
  rw [eq_of_beq h]
  exact beq_self_eq_true b

theorem wordEq_trans (a b c : BitVec 64) (h : (a == b) = true) (h' : (b == c) = true) :
    (a == c) = true := by
  rw [eq_of_beq h]
  exact h'

/-- Keys that are their own hash. -/
def plainKeys : Keys (BitVec 64) where
  hash k := k.toNat
  eq a b := a == b
  hash_lt k := k.isLt
  refl := wordEq_refl
  symm := wordEq_symm
  trans := wordEq_trans
  hash_eq a b h := by rw [eq_of_beq h]

end Maps

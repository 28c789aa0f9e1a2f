import Mathlib.Data.List.Induction
import Resid.Maps.TrieOps

/-!
# A trie refines a finite map over every run

A history is a list of insertions and removals; `lastValue` reads a key's value off it, and
`listed` the entries the trie must show:

    mapEntries (run K ops) = listed K ops                    (run_entries)
    mapFind K (run K ops) k = lastValue K k ops              (run_find)

The invariant carried along a run is `MapOk`: the root is `Wf` with an entry or more, and
the count is the number of entries.
-/

namespace Maps

open Sparse Ranked

variable {κ υ : Type}

inductive Op (κ υ : Type)
  | insert (k : κ) (v : υ)
  | remove (k : κ)

def Op.key : Op κ υ → κ
  | .insert k _ => k
  | .remove k => k

variable (K : Keys κ)

/-- One update, and the flag it reports. -/
def step (m : TrieMap κ υ) : Op κ υ → TrieMap κ υ × Bool
  | .insert k v => mapInsert K m k v
  | .remove k => mapRemove K m k

def run (ops : List (Op κ υ)) : TrieMap κ υ :=
  ops.foldl (fun m op => (step K m op).1) ⟨0, none⟩

/-! ## What a history leaves -/

def valueAfter (k : κ) (old : Option υ) : Op κ υ → Option υ
  | .insert k' v => if K.eq k' k then some v else old
  | .remove k' => if K.eq k' k then none else old

/-- The value last inserted for `k` and not removed since. -/
def lastValue (k : κ) (ops : List (Op κ υ)) : Option υ := ops.foldl (valueAfter K k) none

/-- What an update reports: an insertion that its key was new, a removal that it was there. -/
def flagOf (ops : List (Op κ υ)) : Op κ υ → Bool
  | .insert k _ => (lastValue K k ops).isNone
  | .remove k => (lastValue K k ops).isSome

def listedAfter (l : List (κ × υ)) : Op κ υ → List (κ × υ)
  | .insert k v => put K.keyed k v l
  | .remove k => del K.keyed k l

def listed (ops : List (Op κ υ)) : List (κ × υ) := ops.foldl (listedAfter K) []

/-! ## The invariant at every node -/

/-- The nodes of a trie and their levels. -/
inductive Under (root : Node κ υ) : Nat → Node κ υ → Prop
  | root : Under root 0 root
  | sub {level s : Nat} {dmap nmap : BitVec 32} {data : List (κ × υ)} {subs : List (Node κ υ)}
      {c : Node κ υ} (h : Under root level (.index dmap nmap data subs))
      (hc : get nmap subs s = some c) : Under root (level + 1) c

/-- What holds of one node: the bitmaps are disjoint and count what is stored, every key
stands in or under its slot, and a sub-node or a collision node holds two keys or more. -/
def NodeOk (level : Nat) : Node κ υ → Prop
  | .index dmap nmap data subs =>
    level ≤ 12 ∧ dmap &&& nmap = 0#32 ∧ data.length = popc dmap ∧ subs.length = popc nmap ∧
      (∀ s e, get dmap data s = some e → slotOf (K.hash e.1) level = s) ∧
      (∀ s c, get nmap subs s = some c → 2 ≤ (hnCollect c).length ∧
        ∀ e ∈ hnCollect c, slotOf (K.hash e.1) level = s)
  | .coll ents =>
    level = 13 ∧ 2 ≤ ents.length ∧ (∃ h, ∀ e ∈ ents, K.hash e.1 = h) ∧
      ents.Pairwise fun a b => K.eq a.1 b.1 = false

variable {K}

theorem nodeOk_of_wf {level p : Nat} {n : Node κ υ} (h : Wf K level p n) (hp : p < 2 ^ (5 * level))
    (htwo : level = 13 → 2 ≤ (hnCollect n).length) : NodeOk K level n := by
  cases h with
  | index deep disjoint data_count sub_count data_slot sub_wf sub_two =>
    refine ⟨deep, disjoint, data_count, sub_count, fun s e he => (data_slot s e he).2, ?_⟩
    intro s c hc
    refine ⟨sub_two s c hc, ?_⟩
    intro e he
    have hnext := (sub_wf s c hc).hash_low (next_lt hp (slot_lt hc))
    exact (slotOk_of_next hp hnext e he).2
  | coll hash_all distinct =>
    rw [hnCollect] at htwo
    exact ⟨rfl, htwo rfl, ⟨p, hash_all⟩, distinct⟩

/-- Every node of a trie is well formed, and but for the root holds two entries. -/
theorem Under.wf {root : Node κ υ} (h : Wf K 0 0 root) {level : Nat} {n : Node κ υ}
    (hn : Under root level n) : ∃ p, p < 2 ^ (5 * level) ∧ Wf K level p n ∧
      (level ≠ 0 → 2 ≤ (hnCollect n).length) := by
  induction hn with
  | root => exact ⟨0, by decide, h, fun h0 => absurd rfl h0⟩
  | sub hpar hc ih =>
    obtain ⟨p, hp, hwf, -⟩ := ih
    cases hwf with
    | index deep disjoint data_count sub_count data_slot sub_wf sub_two =>
      exact ⟨_, next_lt hp (slot_lt hc), sub_wf _ _ hc, fun _ => sub_two _ _ hc⟩

theorem Under.ok {root : Node κ υ} (h : Wf K 0 0 root) {level : Nat} {n : Node κ υ}
    (hn : Under root level n) : NodeOk K level n := by
  obtain ⟨p, hp, hwf, htwo⟩ := hn.wf h
  apply nodeOk_of_wf hwf hp
  rintro rfl
  exact htwo (by decide)

/-! ## A step keeps it -/

/-- A map's root is well formed with an entry or more, and its count is exact. -/
structure MapOk (K : Keys κ) (m : TrieMap κ υ) : Prop where
  root_wf : ∀ n, m.root = some n → Wf K 0 0 n ∧ hnCollect n ≠ []
  count_eq : m.count = (mapEntries m).length

theorem hash_root (k : κ) : K.hash k % 2 ^ (5 * 0) = 0 := Nat.mod_one _

theorem mapOk_empty : MapOk K (⟨0, none⟩ : TrieMap κ υ) :=
  ⟨fun n hn => (by cases hn), rfl⟩

theorem MapOk.ordered {m : TrieMap κ υ} (h : MapOk K m) : Ordered K.keyed (mapEntries m) := by
  unfold mapEntries
  split
  · exact List.Pairwise.nil
  · rename_i n hn
    exact (h.root_wf n hn).1.ordered (by decide)

theorem MapOk.find_eq {m : TrieMap κ υ} (h : MapOk K m) (k : κ) :
    mapFind K m k = find K.keyed k (mapEntries m) := by
  unfold mapFind mapEntries
  cases hroot : m.root with
  | none => rw [hnFind, find_nil]
  | some n => exact hnFind_eq (h.root_wf n hroot).1 (hash_root k)

/-- Inserting puts the entry among the map's. -/
theorem mapInsert_spec {m : TrieMap κ υ} (h : MapOk K m) (k : κ) (v : υ) :
    MapOk K (mapInsert K m k v).1 ∧
      mapEntries (mapInsert K m k v).1 = put K.keyed k v (mapEntries m) ∧
      (mapInsert K m k v).2 = (find K.keyed k (mapEntries m)).isNone := by
  have hnode : Wf K 0 0 (hnInsert K m.root 0 (K.hash k) k v).1 ∧
      hnCollect (hnInsert K m.root 0 (K.hash k) k v).1 = put K.keyed k v (mapEntries m) ∧
      (hnInsert K m.root 0 (K.hash k) k v).2 = (find K.keyed k (mapEntries m)).isNone := by
    unfold mapEntries
    cases hroot : m.root with
    | none =>
      rw [hnInsert]
      obtain ⟨h1, h2⟩ := nodeLeaf_spec (K := K) (by decide : 0 ≤ 12) (hash_root k) v
      exact ⟨h1, h2, rfl⟩
    | some n => exact hnInsert_spec (h.root_wf n hroot).1 (hash_root k) v
  obtain ⟨hwf, hents, hflag⟩ := hnode
  have hcount := h.count_eq
  have hlen := length_put h.ordered k v
  refine ⟨⟨?_, ?_⟩, hents, hflag⟩
  · intro n hn
    cases hn
    refine ⟨hwf, ?_⟩
    rw [hents]
    exact put_ne_nil k v _
  · show m.count + (if (hnInsert K m.root 0 (K.hash k) k v).2 then 1 else 0) =
      ((hnCollect (hnInsert K m.root 0 (K.hash k) k v).1).length : Int)
    rw [hents, hflag, hlen, hcount]
    split_ifs <;> rfl

/-- Removing takes the key's entry away. -/
theorem mapRemove_spec {m : TrieMap κ υ} (h : MapOk K m) (k : κ) :
    MapOk K (mapRemove K m k).1 ∧
      mapEntries (mapRemove K m k).1 = del K.keyed k (mapEntries m) ∧
      (mapRemove K m k).2 = (find K.keyed k (mapEntries m)).isSome := by
  have hlen := length_del (K := K.keyed) k (mapEntries m)
  have hcount := h.count_eq
  have hnode : (hnRemove K m.root 0 (K.hash k) k).2 = (find K.keyed k (mapEntries m)).isSome ∧
      (∀ n, (hnRemove K m.root 0 (K.hash k) k).1 = some n → Wf K 0 0 n ∧ hnCollect n ≠ []) ∧
      mapEntries ⟨m.count - 1, (hnRemove K m.root 0 (K.hash k) k).1⟩ =
        del K.keyed k (mapEntries m) := by
    unfold mapEntries
    cases hroot : m.root with
    | none =>
      rw [hnRemove]
      exact ⟨rfl, fun n hn => (by cases hn), rfl⟩
    | some n =>
      obtain ⟨hwf, hne⟩ := h.root_wf n hroot
      obtain ⟨hflag, hrem⟩ := hnRemove_spec hwf (hash_root k)
      refine ⟨hflag, ?_⟩
      cases hr : (hnRemove K (some n) 0 (K.hash k) k).1 with
      | none =>
        rw [hr] at hrem
        exact ⟨fun n hn => (by cases hn), hrem.symm⟩
      | some m' =>
        rw [hr] at hrem
        refine ⟨?_, hrem.2.1⟩
        intro n' hn'
        cases hn'
        exact ⟨hrem.1, hrem.2.2 hne⟩
  obtain ⟨hflag, hwf, hents⟩ := hnode
  unfold mapRemove
  by_cases hr : (hnRemove K m.root 0 (K.hash k) k).2 = true
  · rw [if_pos hr]
    have hsome := hflag.symm.trans hr
    rw [if_pos hsome] at hlen
    refine ⟨⟨hwf, ?_⟩, hents, hsome.symm⟩
    rw [hents]
    show m.count - 1 = _
    omega
  · rw [if_neg hr]
    have hnone : find K.keyed k (mapEntries m) = none := by
      rw [← Option.not_isSome_iff_eq_none, ← hflag]
      exact hr
    refine ⟨h, (del_absent hnone).symm, ?_⟩
    rw [hnone]
    rfl

theorem step_ok {m : TrieMap κ υ} (h : MapOk K m) (op : Op κ υ) : MapOk K (step K m op).1 := by
  cases op with
  | insert k v => exact (mapInsert_spec h k v).1
  | remove k => exact (mapRemove_spec h k).1

theorem step_entries {m : TrieMap κ υ} (h : MapOk K m) (op : Op κ υ) :
    mapEntries (step K m op).1 = listedAfter K (mapEntries m) op := by
  cases op with
  | insert k v => exact (mapInsert_spec h k v).2.1
  | remove k => exact (mapRemove_spec h k).2.1

/-! ## Every run -/

theorem run_append (ops : List (Op κ υ)) (op : Op κ υ) :
    run K (ops ++ [op]) = (step K (run K ops) op).1 := List.foldl_concat _ _ op ops

theorem run_ok (ops : List (Op κ υ)) : MapOk K (run K ops) := by
  induction ops using List.reverseRecOn with
  | nil => exact mapOk_empty
  | append_singleton ops op ih =>
    rw [run_append]
    exact step_ok ih op

theorem run_entries (ops : List (Op κ υ)) : mapEntries (run K ops) = listed K ops := by
  induction ops using List.reverseRecOn with
  | nil => rfl
  | append_singleton ops op ih =>
    rw [run_append, step_entries (run_ok ops), ih]
    exact (List.foldl_concat _ _ op ops).symm

theorem listed_ordered (ops : List (Op κ υ)) : Ordered K.keyed (listed K ops) := by
  rw [← run_entries]
  exact (run_ok ops).ordered

theorem find_listedAfter {l : List (κ × υ)} (h : Ordered K.keyed l) (op : Op κ υ) (k : κ) :
    find K.keyed k (listedAfter K l op) = valueAfter K k (find K.keyed k l) op := by
  cases op with
  | insert k' v => exact find_put k' k v l
  | remove k' => exact find_del h k' k

theorem find_listed (ops : List (Op κ υ)) (k : κ) :
    find K.keyed k (listed K ops) = lastValue K k ops := by
  induction ops using List.reverseRecOn with
  | nil => rfl
  | append_singleton ops op ih =>
    have hord := listed_ordered (K := K) ops
    have hlast : lastValue K k (ops ++ [op]) = valueAfter K k (lastValue K k ops) op :=
      List.foldl_concat _ _ op ops
    have hlist : listed K (ops ++ [op]) = listedAfter K (listed K ops) op :=
      List.foldl_concat _ _ op ops
    rw [hlast, hlist, find_listedAfter hord, ih]

theorem run_find (ops : List (Op κ υ)) (k : κ) : mapFind K (run K ops) k = lastValue K k ops := by
  rw [(run_ok ops).find_eq, run_entries, find_listed]

/-- The flag of an update after a run. -/
theorem run_flag (ops : List (Op κ υ)) (op : Op κ υ) :
    (step K (run K ops) op).2 = flagOf K ops op := by
  cases op with
  | insert k v =>
    have h := (mapInsert_spec (run_ok (K := K) ops) k v).2.2
    rw [run_entries, find_listed] at h
    exact h
  | remove k =>
    have h := (mapRemove_spec (run_ok (K := K) ops) k).2.2
    rw [run_entries, find_listed] at h
    exact h

theorem valueAfter_other {k : κ} {op : Op κ υ} (h : K.eq op.key k = false) (old : Option υ) :
    valueAfter K k old op = old := by
  cases op with
  | insert k' v => exact if_neg (Bool.eq_false_iff.1 h)
  | remove k' => exact if_neg (Bool.eq_false_iff.1 h)

/-- Over every run a trie finds what was last inserted and not removed since, reports and
counts exactly, and is well formed at every node. -/
theorem trie_refines (K : Keys κ) (ops : List (Op κ υ)) :
    (∀ k, mapFind K (run K ops) k = lastValue K k ops) ∧
    (∀ op, (step K (run K ops) op).2 = flagOf K ops op) ∧
    (∀ op k, K.eq op.key k = false →
      mapFind K (step K (run K ops) op).1 k = mapFind K (run K ops) k) ∧
    (∃ keys : List κ, keys.Pairwise (fun a b => K.eq a b = false) ∧
      (∀ k, (lastValue K k ops).isSome ↔ ∃ k' ∈ keys, K.eq k' k = true) ∧
      (run K ops).count = keys.length) ∧
    (∀ root, (run K ops).root = some root →
      ∀ level n, Under root level n → NodeOk K level n) := by
  refine ⟨run_find ops, run_flag ops, ?_, ?_, ?_⟩
  · intro op k hne
    rw [← run_append, run_find, run_find]
    have hlast : lastValue K k (ops ++ [op]) = valueAfter K k (lastValue K k ops) op :=
      List.foldl_concat _ _ op ops
    rw [hlast, valueAfter_other hne]
  · have hok := run_ok (K := K) ops
    have hord := listed_ordered (K := K) ops
    have hcount := hok.count_eq
    rw [run_entries] at hcount
    refine ⟨(listed K ops).map Prod.fst, ?_, ?_, ?_⟩
    · exact List.pairwise_map.2 (hord.imp fun h => h.2)
    · intro k
      rw [← find_listed]
      constructor
      · intro hsome
        obtain ⟨v, hv⟩ := Option.isSome_iff_exists.1 hsome
        obtain ⟨e, he, hek, -⟩ := exists_of_find hv
        exact ⟨e.1, List.mem_map_of_mem he, hek⟩
      · rintro ⟨k', hk', hkk⟩
        obtain ⟨e, he, rfl⟩ := List.mem_map.1 hk'
        have hfind := find_of_mem hord he
        rw [find_congr hkk] at hfind
        rw [hfind]
        rfl
    · rw [List.length_map, hcount]
  · intro root hroot level n hn
    exact hn.ok ((run_ok ops).root_wf root hroot).1

end Maps

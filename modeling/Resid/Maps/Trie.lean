import Mathlib.Tactic.Ring
import Resid.Lib.Sparse

/-!
# The hash trie under a map

An index node has 32 slots, each empty, an entry or a sub-node; two bitmaps say which, and
the entries and the sub-nodes stand in slot order.  A key's slot at a level is the five bits
of its hash there.  Below the last level a collision node lists the keys of one full hash.

## Algorithm

Inserting into a slot that holds another key pushes both down until their slots differ;
removing folds a sub-node left with one entry back into its parent's slot.  Updates here
copy: a node the map owns alone is written in place by the program, with the same contents.
-/

namespace Maps

open Sparse

/-- How a map hashes its keys and tells them apart. -/
structure Keys (κ : Type) where
  hash : κ → Nat
  eq : κ → κ → Bool
  hash_lt : ∀ k, hash k < 2 ^ 64
  refl : ∀ a, eq a a = true
  symm : ∀ a b, eq a b = true → eq b a = true
  trans : ∀ a b c, eq a b = true → eq b c = true → eq a c = true
  hash_eq : ∀ a b, eq a b = true → hash a = hash b

inductive Node (κ υ : Type)
  | index (dmap nmap : BitVec 32) (data : List (κ × υ)) (subs : List (Node κ υ))
  | coll (ents : List (κ × υ))

variable {κ υ : Type}

def slotOf (h level : Nat) : Nat := (h >>> (level * 5)) &&& 31

def slotBit (h level : Nat) : BitVec 32 := BitVec.twoPow 32 (slotOf h level)

/-! ## Nodes -/

def nodeLeaf (level h : Nat) (k : κ) (v : υ) : Node κ υ :=
  .index (slotBit h level) 0#32 [(k, v)] []

def nodeColl2 (k1 : κ) (v1 : υ) (k2 : κ) (v2 : υ) : Node κ υ := .coll [(k1, v1), (k2, v2)]

/-- A node at `level` holding two keys; the first is the older. -/
def nodePair (level h1 : Nat) (k1 : κ) (v1 : υ) (h2 : Nat) (k2 : κ) (v2 : υ) : Node κ υ :=
  if level > 12 then nodeColl2 k1 v1 k2 v2
  else
    let b1 := slotBit h1 level
    let b2 := slotBit h2 level
    if b1 = b2 then .index 0#32 b1 [] [nodePair (level + 1) h1 k1 v1 h2 k2 v2]
    else .index (b1 ||| b2) 0#32 (if b1 < b2 then [(k1, v1), (k2, v2)] else [(k2, v2), (k1, v1)]) []
termination_by 13 - level

def nodeInsData (dmap nmap : BitVec 32) (data : List (κ × υ)) (subs : List (Node κ υ))
    (bit : BitVec 32) (k : κ) (v : υ) : Node κ υ :=
  let di := popc (dmap &&& (bit - 1#32))
  .index (dmap ||| bit) nmap (data.insertIdx di (k, v)) subs

def nodeDataToSub (dmap nmap : BitVec 32) (data : List (κ × υ)) (subs : List (Node κ υ))
    (bit : BitVec 32) (sub : Node κ υ) : Node κ υ :=
  let di := popc (dmap &&& (bit - 1#32))
  let ni := popc (nmap &&& (bit - 1#32))
  .index (dmap &&& ~~~bit) (nmap ||| bit) (data.eraseIdx di) (subs.insertIdx ni sub)

def nodeSubToData (dmap nmap : BitVec 32) (data : List (κ × υ)) (subs : List (Node κ υ))
    (bit : BitVec 32) (k : κ) (v : υ) : Node κ υ :=
  let di := popc (dmap &&& (bit - 1#32))
  let ni := popc (nmap &&& (bit - 1#32))
  .index (dmap ||| bit) (nmap &&& ~~~bit) (data.insertIdx di (k, v)) (subs.eraseIdx ni)

variable (K : Keys κ)

/-! ## Inserting -/

/-- Insert into a collision node's entries; whether the key was new. -/
def collInsert (k : κ) (v : υ) : List (κ × υ) → List (κ × υ) × Bool
  | [] => ([(k, v)], true)
  | e :: ents =>
    if K.eq e.1 k then ((k, v) :: ents, false)
    else
      let r := collInsert k v ents
      (e :: r.1, r.2)

/-- Insert into `n` at `level`; whether the key was new. -/
def hnInsert (n : Option (Node κ υ)) (level h : Nat) (k : κ) (v : υ) : Node κ υ × Bool :=
  match n with
  | none => (nodeLeaf level h k v, true)
  | some (.coll ents) =>
    let r := collInsert K k v ents
    (.coll r.1, r.2)
  | some (.index dmap nmap data subs) =>
    let bit := slotBit h level
    if nmap &&& bit ≠ 0#32 then
      let ni := popc (nmap &&& (bit - 1#32))
      match _hc : subs[ni]? with
      | some c =>
        let r := hnInsert (some c) (level + 1) h k v
        (.index dmap nmap data (subs.set ni r.1), r.2)
      | none => (.index dmap nmap data subs, false)
    else if dmap &&& bit ≠ 0#32 then
      let di := popc (dmap &&& (bit - 1#32))
      match data[di]? with
      | some (ok, ov) =>
        if K.eq ok k then (.index dmap nmap (data.set di (k, v)) subs, false)
        else
          let sub :=
            if level ≥ 12 then nodeColl2 ok ov k v
            else nodePair (level + 1) (K.hash ok) ok ov h k v
          (nodeDataToSub dmap nmap data subs bit sub, true)
      | none => (.index dmap nmap data subs, false)
    else (nodeInsData dmap nmap data subs bit k v, true)
termination_by sizeOf n
decreasing_by
  have := List.sizeOf_lt_of_mem (List.mem_of_getElem? _hc)
  simp only [Option.some.sizeOf_spec, Node.index.sizeOf_spec]
  omega

/-! ## Finding -/

def collFind (k : κ) : List (κ × υ) → Option υ
  | [] => none
  | e :: ents => if K.eq e.1 k then some e.2 else collFind k ents

/-- Key `k`'s value. -/
def hnFind (n : Option (Node κ υ)) (h : Nat) (k : κ) (level : Nat) : Option υ :=
  match n with
  | none => none
  | some (.coll ents) => collFind K k ents
  | some (.index dmap nmap data subs) =>
    let bit := slotBit h level
    if dmap &&& bit ≠ 0#32 then
      match data[popc (dmap &&& (bit - 1#32))]? with
      | some e => if K.eq e.1 k then some e.2 else none
      | none => none
    else if nmap &&& bit = 0#32 then none
    else
      match _hc : subs[popc (nmap &&& (bit - 1#32))]? with
      | some c => hnFind (some c) h k (level + 1)
      | none => none
termination_by sizeOf n
decreasing_by
  have := List.sizeOf_lt_of_mem (List.mem_of_getElem? _hc)
  simp only [Option.some.sizeOf_spec, Node.index.sizeOf_spec]
  omega

/-! ## Removing -/

/-- One entry and no sub-nodes: it folds into its parent's slot. -/
def nodeSingle : Node κ υ → Bool
  | .coll ents => ents.length == 1
  | .index dmap nmap _ _ => nmap == 0#32 && popc dmap == 1

/-- A node's first words. -/
def nodeFirst : Node κ υ → Option (κ × υ)
  | .coll ents => ents.head?
  | .index _ _ data _ => data.head?

/-- Remove from a collision node's entries; whether the key was there. -/
def collRemove (k : κ) : List (κ × υ) → List (κ × υ) × Bool
  | [] => ([], false)
  | e :: ents =>
    if K.eq e.1 k then (ents, true)
    else
      let r := collRemove k ents
      (e :: r.1, r.2)

/-- Remove `k` from `n`; none when the node empties, and whether the key was there. -/
def hnRemove (n : Option (Node κ υ)) (level h : Nat) (k : κ) : Option (Node κ υ) × Bool :=
  match n with
  | none => (none, false)
  | some (.coll ents) =>
    let r := collRemove K k ents
    if r.2 && ents.length == 1 then (none, true) else (some (.coll r.1), r.2)
  | some (.index dmap nmap data subs) =>
    let bit := slotBit h level
    if nmap &&& bit ≠ 0#32 then
      let ni := popc (nmap &&& (bit - 1#32))
      match _hc : subs[ni]? with
      | some c =>
        let r := hnRemove (some c) (level + 1) h k
        if !r.2 then (some (.index dmap nmap data subs), false)
        else
          match r.1 with
          | none =>
            if popc dmap = 0 ∧ popc nmap = 1 then (none, true)
            else (some (.index dmap (nmap &&& ~~~bit) data (subs.eraseIdx ni)), true)
          | some c2 =>
            match if nodeSingle c2 then nodeFirst c2 else none with
            | some e => (some (nodeSubToData dmap nmap data subs bit e.1 e.2), true)
            | none => (some (.index dmap nmap data (subs.set ni c2)), true)
      | none => (some (.index dmap nmap data subs), false)
    else if dmap &&& bit ≠ 0#32 then
      let di := popc (dmap &&& (bit - 1#32))
      match data[di]? with
      | some e =>
        if !K.eq e.1 k then (some (.index dmap nmap data subs), false)
        else if dmap = bit ∧ nmap = 0#32 then (none, true)
        else (some (.index (dmap &&& ~~~bit) nmap (data.eraseIdx di) subs), true)
      | none => (some (.index dmap nmap data subs), false)
    else (some (.index dmap nmap data subs), false)
termination_by sizeOf n
decreasing_by
  have := List.sizeOf_lt_of_mem (List.mem_of_getElem? _hc)
  simp only [Option.some.sizeOf_spec, Node.index.sizeOf_spec]
  omega

/-! ## Listing -/

theorem toNat_and_pred_lt {all : BitVec 32} (h : all ≠ 0#32) :
    (all &&& (all - 1#32)).toNat < all.toNat := by
  have hpos : all.toNat ≠ 0 := fun h0 => h (BitVec.eq_of_toNat_eq h0)
  have hle : (all &&& (all - 1#32)).toNat ≤ (all - 1#32).toNat := by
    exact Nat.and_le_right
  have hpred : (all - 1#32).toNat = all.toNat - 1 := by
    rw [BitVec.toNat_sub]
    have h1 : (1#32).toNat = 1 := rfl
    omega
  omega

mutual

/-- A node's entries, slot by slot. -/
def hnCollect (n : Node κ υ) : List (κ × υ) :=
  match n with
  | .coll ents => ents
  | .index dmap nmap data subs => slotsCollect dmap nmap data subs (dmap ||| nmap)
termination_by (sizeOf n, 1, 0)
decreasing_by
  apply Prod.Lex.left
  simp only [Node.index.sizeOf_spec]
  omega

/-- The entries of the slots marked in `all`, lowest first. -/
def slotsCollect (dmap nmap : BitVec 32) (data : List (κ × υ)) (subs : List (Node κ υ))
    (all : BitVec 32) : List (κ × υ) :=
  if _hz : all = 0#32 then []
  else
    let bit := all &&& -all
    if dmap &&& bit ≠ 0#32 then
      (data[popc (dmap &&& (bit - 1#32))]?).toList ++
        slotsCollect dmap nmap data subs (all &&& (all - 1#32))
    else
      (match _hc : subs[popc (nmap &&& (bit - 1#32))]? with
        | some c => hnCollect c
        | none => []) ++ slotsCollect dmap nmap data subs (all &&& (all - 1#32))
termination_by (sizeOf subs, 0, all.toNat)
decreasing_by
  · exact Prod.Lex.right _ (Prod.Lex.right _ (toNat_and_pred_lt _hz))
  · exact Prod.Lex.left _ _ (List.sizeOf_lt_of_mem (List.mem_of_getElem? _hc))
  · exact Prod.Lex.right _ (Prod.Lex.right _ (toNat_and_pred_lt _hz))

end

/-! ## Maps -/

/-- A map in trie mode: how many entries, and the root, none when empty. -/
structure TrieMap (κ υ : Type) where
  count : Int
  root : Option (Node κ υ)

/-- The map with `v` at `k`, and whether `k` was new. -/
def mapInsert (m : TrieMap κ υ) (k : κ) (v : υ) : TrieMap κ υ × Bool :=
  let r := hnInsert K m.root 0 (K.hash k) k v
  (⟨m.count + (if r.2 then 1 else 0), some r.1⟩, r.2)

/-- The map without `k`, and whether `k` was there. -/
def mapRemove (m : TrieMap κ υ) (k : κ) : TrieMap κ υ × Bool :=
  let r := hnRemove K m.root 0 (K.hash k) k
  if r.2 then (⟨m.count - 1, r.1⟩, true) else (m, false)

def mapFind (m : TrieMap κ υ) (k : κ) : Option υ := hnFind K m.root (K.hash k) k 0

/-- The entries in the order a map shows them. -/
def mapEntries (m : TrieMap κ υ) : List (κ × υ) :=
  match m.root with
  | none => []
  | some n => hnCollect n

end Maps

/-!
## The canonical order

A hash as a number that is ordered by its five-bit chunks, the lowest chunk most
significant.  Of two hashes that agree below a level, the one with the lower slot at that
level comes first.

    h ≡ h' below level l, slotOf h l < slotOf h' l → canonRank h < canonRank h'    (rank_lt_of_slot)
    canonRank h = canonRank h' → h = h'                                          (canonRank_inj)
-/

namespace Maps

def rankAt (h l r : Nat) : Nat :=
  if l ≥ 12 then r else rankAt h (l + 1) ((r <<< 5) ||| ((h >>> (l * 5)) &&& 31))
termination_by 12 - l

/-- A hash as a number ordered canonically. -/
def canonRank (h : Nat) : Nat := (rankAt h 0 0 <<< 4) ||| (h >>> 60)

/-! ## Slots -/

theorem slotOf_eq (h l : Nat) : slotOf h l = h / 2 ^ (5 * l) % 32 := by
  unfold slotOf
  rw [Nat.shiftRight_eq_div_pow, Nat.mul_comm l 5]
  exact Nat.and_two_pow_sub_one_eq_mod _ 5

theorem slotOf_lt (h l : Nat) : slotOf h l < 32 := by
  rw [slotOf_eq]
  exact Nat.mod_lt _ (by decide)

/-- Agreeing below the next level is agreeing below this one and in its slot. -/
theorem mod_succ (h l : Nat) :
    h % 2 ^ (5 * (l + 1)) = h % 2 ^ (5 * l) + slotOf h l * 2 ^ (5 * l) := by
  have hpow : 2 ^ (5 * (l + 1)) = 2 ^ (5 * l) * 32 := by
    rw [Nat.mul_succ, Nat.pow_add]
  rw [hpow, Nat.mod_mul, slotOf_eq, Nat.mul_comm (2 ^ (5 * l))]

theorem slotOf_top {h : Nat} (hh : h < 2 ^ 64) : slotOf h 12 = h / 2 ^ 60 := by
  rw [slotOf_eq]
  omega

/-! ## The rank of what is left -/

/-- The rank of the chunks of the last `d` levels and the top bits. -/
def restRank (h : Nat) : Nat → Nat
  | 0 => slotOf h 12
  | d + 1 => slotOf h (11 - d) * 2 ^ (5 * d + 4) + restRank h d

theorem restRank_lt {h : Nat} (hh : h < 2 ^ 64) (d : Nat) : restRank h d < 2 ^ (5 * d + 4) := by
  induction d with
  | zero =>
    rw [restRank, slotOf_top hh]
    omega
  | succ d ih =>
    have hs := slotOf_lt h (11 - d)
    have hpow : 2 ^ (5 * (d + 1) + 4) = 32 * 2 ^ (5 * d + 4) := by
      rw [show 5 * (d + 1) + 4 = 5 + (5 * d + 4) by omega, Nat.pow_add]
    rw [restRank, hpow]
    have hmul : slotOf h (11 - d) * 2 ^ (5 * d + 4) ≤ 31 * 2 ^ (5 * d + 4) :=
      Nat.mul_le_mul_right _ (by omega)
    omega

theorem rankAt_eq {h : Nat} (hh : h < 2 ^ 64) (d : Nat) (hd : d ≤ 12) (r : Nat) :
    (rankAt h (12 - d) r <<< 4) ||| (h >>> 60) = r * 2 ^ (5 * d + 4) + restRank h d := by
  induction d generalizing r with
  | zero =>
    have htop : h >>> 60 < 2 ^ 4 := by
      omega
    rw [rankAt, if_pos (Nat.le_refl 12), ← Nat.shiftLeft_add_eq_or_of_lt htop, Nat.shiftLeft_eq,
      restRank, slotOf_top hh, Nat.shiftRight_eq_div_pow]
  | succ d ih =>
    have hlevel : 12 - (d + 1) + 1 = 12 - d := by omega
    have hchunk : (h >>> ((12 - (d + 1)) * 5)) &&& 31 = slotOf h (11 - d) := by
      unfold slotOf
      rw [show 12 - (d + 1) = 11 - d by omega]
    have hs : slotOf h (11 - d) < 2 ^ 5 := slotOf_lt h (11 - d)
    rw [rankAt, if_neg (by omega), hlevel, ih (by omega), hchunk,
      ← Nat.shiftLeft_add_eq_or_of_lt hs, Nat.shiftLeft_eq, restRank]
    ring

theorem canonRank_eq {h : Nat} (hh : h < 2 ^ 64) : canonRank h = restRank h 12 := by
  have := rankAt_eq hh 12 (Nat.le_refl 12) 0
  rw [Nat.zero_mul, Nat.zero_add] at this
  exact this

/-- Hashes that agree below a level rank as what is left of them does. -/
theorem restRank_split {h h' l : Nat} (hl : l ≤ 12) (hp : h % 2 ^ (5 * l) = h' % 2 ^ (5 * l)) :
    ∃ c, restRank h 12 = c + restRank h (12 - l) ∧ restRank h' 12 = c + restRank h' (12 - l) := by
  induction l with
  | zero => exact ⟨0, (Nat.zero_add _).symm, (Nat.zero_add _).symm⟩
  | succ l ih =>
    have hlow : h % 2 ^ (5 * l) = h' % 2 ^ (5 * l) := by
      have hdvd : 2 ^ (5 * l) ∣ 2 ^ (5 * (l + 1)) := Nat.pow_dvd_pow 2 (by omega)
      rw [← Nat.mod_mod_of_dvd h hdvd, hp, Nat.mod_mod_of_dvd h' hdvd]
    have hslot : slotOf h l = slotOf h' l := by
      rw [mod_succ, mod_succ, hlow] at hp
      exact Nat.eq_of_mul_eq_mul_right (Nat.pow_pos (by decide)) (Nat.add_left_cancel hp)
    obtain ⟨c, hc, hc'⟩ := ih (by omega) hlow
    have hstep : ∀ x, restRank x (12 - l) =
        slotOf x l * 2 ^ (5 * (11 - l) + 4) + restRank x (12 - (l + 1)) := by
      intro x
      rw [show 12 - l = (11 - l) + 1 by omega, restRank, show 11 - (11 - l) = l by omega,
        show 12 - (l + 1) = 11 - l by omega]
    refine ⟨c + slotOf h l * 2 ^ (5 * (11 - l) + 4), ?_, ?_⟩
    · rw [hc, hstep, Nat.add_assoc]
    · rw [hc', hstep, hslot, Nat.add_assoc]

theorem rank_lt_of_slot {h h' l : Nat} (hh : h < 2 ^ 64) (hl : l ≤ 12)
    (hp : h % 2 ^ (5 * l) = h' % 2 ^ (5 * l)) (hh' : h' < 2 ^ 64)
    (hs : slotOf h l < slotOf h' l) : canonRank h < canonRank h' := by
  rw [canonRank_eq hh, canonRank_eq hh']
  obtain ⟨c, hc, hc'⟩ := restRank_split hl hp
  rw [hc, hc']
  apply Nat.add_lt_add_left
  rcases Nat.lt_or_ge l 12 with hlt | hge
  · have hd : 12 - l = (11 - l) + 1 := by omega
    have h11 : 11 - (11 - l) = l := by omega
    rw [hd, restRank, restRank, h11]
    have hbound := restRank_lt hh (11 - l)
    have hmul : (slotOf h l + 1) * 2 ^ (5 * (11 - l) + 4) ≤
        slotOf h' l * 2 ^ (5 * (11 - l) + 4) := Nat.mul_le_mul_right _ hs
    rw [Nat.succ_mul] at hmul
    omega
  · have h12 : l = 12 := by omega
    subst h12
    exact hs

theorem canonRank_inj {h h' : Nat} (hh : h < 2 ^ 64) (hh' : h' < 2 ^ 64)
    (heq : canonRank h = canonRank h') : h = h' := by
  have hall : ∀ l ≤ 13, h % 2 ^ (5 * l) = h' % 2 ^ (5 * l) := by
    intro l
    induction l with
    | zero =>
      intro _
      rw [Nat.mul_zero, Nat.pow_zero, Nat.mod_one, Nat.mod_one]
    | succ l ih =>
      intro hl
      have hp := ih (by omega)
      rw [mod_succ, mod_succ, hp]
      congr 2
      rcases Nat.lt_trichotomy (slotOf h l) (slotOf h' l) with hs | hs | hs
      · have := rank_lt_of_slot hh (by omega) hp hh' hs
        omega
      · exact hs
      · have := rank_lt_of_slot hh' (by omega) hp.symm hh hs
        omega
  have h65 := hall 13 (Nat.le_refl 13)
  have hbig : ∀ x < 2 ^ 64, x % 2 ^ (5 * 13) = x := by
    intro x hx
    apply Nat.mod_eq_of_lt
    exact Nat.lt_of_lt_of_le hx (Nat.pow_le_pow_right (by decide) (by decide))
  rw [hbig h hh, hbig h' hh'] at h65
  exact h65

end Maps

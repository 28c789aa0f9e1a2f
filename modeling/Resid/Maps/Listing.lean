import Resid.Maps.Order

/-!
# Listing a map

`tEntries` sorts what a table holds, stably (`tEntries_sorted`, `tEntries_group`), so a table
lists the entries the trie of its history lists, keys of one hash in the order they came:

    runBehind K kind ops → tEntries of the table after ops = mapEntries of the trie after ops

up to which of two equal keys is shown (`table_lists_trie`).  The condition is needed: in a
table of 16 slots a key whose search starts at the last slot and wraps around is listed before
the older key of its hash (`table_lists_wrapped`).
-/

namespace Maps

open Ranked Stable

variable {κ υ : Type} {K : TableKeys κ}

/-! ## Merging by rank -/

/-- The left run's entry may stand first unless the right one's rank is lower. -/
def entFirst (K : TableKeys κ) (s : Unit) (x y : κ × υ) : Bool × Unit :=
  (!decide (entRank K y < entRank K x), s)

theorem entFirst_iff (s : Unit) (x y : κ × υ) :
    (entFirst K s x y).1 = true ↔ entRank K x ≤ entRank K y := by
  rw [entFirst, Bool.not_eq_true', decide_eq_false_iff_not, Nat.not_lt]

theorem entFirst_ranks (l : List (κ × υ)) : Merging.Ranks (entFirst K) (entRank K) l :=
  fun s x _ y _ => entFirst_iff s x y

theorem entMerge_eq (xs ys : List (κ × υ)) :
    entMerge K xs ys = (Merging.merge (entFirst K) () xs ys).1 := by
  fun_induction entMerge K xs ys with
  | case1 ys => rw [Merging.merge]
  | case2 xs hxs =>
    cases xs with
    | nil => exact (hxs rfl).elim
    | cons x xs => rw [Merging.merge]
  | case3 x xs y ys hlt ih =>
    rw [Merging.merge, if_neg (mt (entFirst_iff () x y).1 (Nat.not_le_of_lt hlt)), ih]
  | case4 x xs y ys hge ih =>
    rw [Merging.merge, if_pos ((entFirst_iff () x y).2 (Nat.le_of_not_lt hge)), ih]

theorem entPass_eq (w : Nat) (l : List (κ × υ)) :
    entPass K w l = (Merging.pass (entFirst K) w () l).1 := by
  fun_induction entPass K w l with
  | case1 l hstop => rw [Merging.pass, dif_pos hstop]
  | case2 l hgo ih => rw [Merging.pass, dif_neg hgo, ih, entMerge_eq]

theorem entSort_eq (n w : Nat) (l : List (κ × υ)) :
    entSort K n w l = (Merging.sort (entFirst K) n w () l).1 := by
  fun_induction entSort K n w l with
  | case1 w l hstop => rw [Merging.sort, dif_pos hstop]
  | case2 w l hgo ih => rw [Merging.sort, dif_neg hgo, ih, entPass_eq]

theorem tEntries_ranked {t : Table κ υ} (h : TableOk K t) :
    Sorted (entRank K) (tEntries K t) ∧
      ∀ r, group (entRank K) r (tEntries K t) = group (entRank K) r (tScan t) := by
  rw [tEntries, entSort_eq]
  exact Merging.sort_ranked (by decide) h.live_eq.symm (entFirst_ranks _) (runs_one _)

theorem tEntries_sorted {t : Table κ υ} (h : TableOk K t) : Sorted (entRank K) (tEntries K t) :=
  (tEntries_ranked h).1

theorem tEntries_group {t : Table κ υ} (h : TableOk K t) (r : Nat) :
    group (entRank K) r (tEntries K t) = group (entRank K) r (tScan t) :=
  (tEntries_ranked h).2 r

/-! ## Runs -/

theorem steps_inOrder (ops : List (Op κ υ)) {t : Table κ υ} {l : List (κ × υ)} (h : TableOk K t)
    (hin : InOrder K t l) (hl : Ordered K.keyed l)
    (hbehind : allKeep (tStep K) (stepBehind K) t ops = true) :
    ∃ t', ops.foldlM (tStep K) t = some t' ∧ TableOk K t' ∧
      InOrder K t' (ops.foldl (listedAfter K.toKeys) l) := by
  induction ops generalizing t l with
  | nil => exact ⟨t, rfl, h, hin⟩
  | cons op ops ih =>
    have hkeep : stepBehind K t op = true := by
      rw [allKeep, Bool.and_eq_true] at hbehind
      exact hbehind.1
    obtain ⟨t1, ht1, hok1, hin1⟩ := tStep_inOrder h hin hl op hkeep
    have hl1 : Ordered K.keyed (listedAfter K.toKeys l op) := by
      cases op with
      | insert k v => exact put_ordered hl k v
      | remove k => exact del_ordered hl k
    obtain ⟨t', ht', hok', hin'⟩ := ih hok1 hin1 hl1 (allKeep_cons ht1 hbehind).2
    refine ⟨t', ?_, hok', hin'⟩
    rw [List.foldlM_cons, ht1]
    exact ht'

theorem run_inOrder {kind : Kind} {ops : List (Op κ υ)} (h : runBehind K kind ops = true) :
    ∃ t, tRun K kind ops = some t ∧ TableOk K t ∧ InOrder K t (listed K.toKeys ops) := by
  refine steps_inOrder ops (tAlloc_ok (n := 4) (Nat.le_refl 4) rfl kind) ?_ List.Pairwise.nil h
  intro r
  show List.Forall₂ _ (group (entRank K) r (tScan (tAlloc 16 kind))) _
  exact .nil

/-! ## The order keys came in -/

def arrivedAfter (K : Keys κ) (l : List (κ × υ)) : Op κ υ → List (κ × υ)
  | .insert k v =>
    if (find K.keyed k l).isSome then l.map fun e => if K.eq e.1 k then (k, v) else e
    else l ++ [(k, v)]
  | .remove k => l.filter fun e => !K.eq e.1 k

/-- The entries a history leaves, in the order their keys were inserted. -/
def arrived (K : Keys κ) (ops : List (Op κ υ)) : List (κ × υ) := ops.foldl (arrivedAfter K) []

/-- The trie's list keeps, rank by rank, the order keys came in. -/
theorem listed_group (ops : List (Op κ υ)) (r : Nat) :
    group (entRank K) r (listed K.toKeys ops) = group (entRank K) r (arrived K.toKeys ops) := by
  induction ops using List.reverseRecOn generalizing r with
  | nil => rfl
  | append_singleton ops op ih =>
    have hord := listed_ordered (K := K.toKeys) ops
    have hlist : listed K.toKeys (ops ++ [op]) = listedAfter K.toKeys (listed K.toKeys ops) op :=
      List.foldl_concat _ _ op ops
    have harr : arrived K.toKeys (ops ++ [op]) =
        arrivedAfter K.toKeys (arrived K.toKeys ops) op := List.foldl_concat _ _ op ops
    rw [hlist, harr]
    cases op with
    | insert k v =>
      have hsame : (find K.keyed k (arrived K.toKeys ops)).isSome =
          (find K.keyed k (listed K.toKeys ops)).isSome := by
        have hmem := fun e => mem_of_groups ih (a := e)
        rw [Bool.eq_iff_iff]
        constructor
        · intro h
          obtain ⟨u, hu⟩ := Option.isSome_iff_exists.1 h
          obtain ⟨e, he, hek, -⟩ := exists_of_find hu
          exact Option.isSome_iff_ne_none.2 (find_ne_none ((hmem e).2 he) hek)
        · intro h
          obtain ⟨u, hu⟩ := Option.isSome_iff_exists.1 h
          obtain ⟨e, he, hek, -⟩ := exists_of_find hu
          exact Option.isSome_iff_ne_none.2 (find_ne_none ((hmem e).1 he) hek)
      have hrank : ∀ a : κ × υ, entRank K (if K.eq a.1 k then (k, v) else a) = entRank K a := by
        intro a
        split_ifs with hak
        · exact (K.keyed.rank_eq _ _ hak).symm
        · rfl
      show group (entRank K) r (put K.keyed k v (listed K.toKeys ops)) = group (entRank K) r
        (if (find K.keyed k (arrived K.toKeys ops)).isSome then _ else _)
      rw [hsame]
      cases hfind : find K.keyed k (listed K.toKeys ops) with
      | none =>
        have hput : group (entRank K) r (put K.keyed k v (listed K.toKeys ops)) =
          group (entRank K) r (listed K.toKeys ops ++ [(k, v)]) := group_put_absent hord hfind v r
        refine hput.trans ?_
        rw [group_append, ih, ← group_append]
        rfl
      | some u =>
        rw [put_present hord (by rw [hfind]; exact Option.some_ne_none u)]
        refine (group_map hrank r _).trans ?_
        rw [ih, ← group_map hrank r]
        rfl
    | remove k =>
      show group (entRank K) r (del K.keyed k (listed K.toKeys ops)) =
        group (entRank K) r ((arrived K.toKeys ops).filter fun e => !K.eq e.1 k)
      rw [del_eq_filter hord]
      refine (group_filter _ r _).trans ?_
      rw [ih, ← group_filter]
      rfl

/-- Where every new key is placed behind the entries of its hash, a table lists what the trie
of its history lists, keys of one hash in the order they came. -/
theorem table_lists_trie (K : TableKeys κ) (kind : Kind) (ops : List (Op κ υ))
    (keeps : runBehind K kind ops = true) :
    ∃ t, tRun K kind ops = some t ∧
      List.Forall₂ (Same K.keyed) (tEntries K t) (mapEntries (run K.toKeys ops)) ∧
      ∀ r, group (entRank K) r (mapEntries (run K.toKeys ops)) =
        group (entRank K) r (arrived K.toKeys ops) := by
  obtain ⟨t, ht, hok, hin⟩ := run_inOrder keeps
  rw [run_entries]
  refine ⟨t, ht, ?_, listed_group ops⟩
  refine forall₂_of_groups (tEntries_sorted hok) ?_ ?_
  · exact (listed_ordered ops).imp fun hab => hab.1
  · intro r
    rw [tEntries_group hok]
    exact hin r

/-! ## Wide Ints: a hash of the low word -/

def fnvOff : BitVec 64 := 0#64 - 3750763034362895579#64

def fnvP : BitVec 64 := 1099511628211#64

/-- The digits of `mag`, the highest first; `digits` of them at most. -/
def fnvDec : (digits : Nat) → BitVec 64 → Nat → BitVec 64
  | 0, h, _ => h
  | digits + 1, h, mag =>
    let q := mag / 10
    let h1 := if q > 0 then fnvDec digits h q else h
    (h1 ^^^ BitVec.ofNat 64 (48 + mag - q * 10)) * fnvP

/-- FNV-1a of a 64-bit Int's decimal text. -/
def fnvI64 (v : BitVec 64) : BitVec 64 :=
  let h0 := if v.slt 0#64 then (fnvOff ^^^ 45#64) * fnvP else fnvOff
  if v = rawEmpty then (fnvDec 20 h0 922337203685477580 ^^^ 56#64) * fnvP
  else fnvDec 20 h0 (if v.slt 0#64 then -v else v).toNat

/-- Boxed `Int(128)` keys: hashed by their low word, equal when both words are. -/
def wideKeys : TableKeys (BitVec 128) where
  hash k := (fnvI64 (k.setWidth 64)).toNat
  eq a b := a == b
  hash_lt k := (fnvI64 (k.setWidth 64)).isLt
  refl a := beq_self_eq_true a
  symm a b h := by rw [eq_of_beq h]; exact beq_self_eq_true b
  trans a b c h h' := by rw [eq_of_beq h]; exact h'
  hash_eq a b h := by rw [eq_of_beq h]
  fits kind _ := kind == .boxed
  word _ := 0#64
  fits_boxed _ := rfl
  fits_eq _ _ _ _ := rfl
  word_eq _ _ _ := rfl
  word_inj a b h := by cases h

/-- What the program answers for two keys of one hash, in the middle and at the end of a table. -/
theorem wide_runs :
    runBehind wideKeys .boxed [.insert 1 'a', .insert 18446744073709551617 'b'] = true ∧
      (tRun wideKeys .boxed [.insert 0 'a', .insert 18446744073709551616 'b']).map
        (fun t => (tEntries wideKeys.toKeyOps t).map Prod.fst) = some [18446744073709551616, 0] ∧
      (listed wideKeys.toKeys [.insert 0 'a', .insert 18446744073709551616 'b']).map Prod.fst =
        [0, 18446744073709551616] := by
  decide +kernel

/-- Keys 1 and 2^64 + 1 share a hash; their searches start at slot 12 and do not wrap. -/
theorem table_lists_trie_wide :
    runBehind wideKeys .boxed [.insert 1 'a', .insert 18446744073709551617 'b'] = true ∧
      ∃ t, tRun wideKeys .boxed [.insert 1 'a', .insert 18446744073709551617 'b'] = some t ∧
        List.Forall₂ (Same wideKeys.keyed) (tEntries wideKeys t)
          (mapEntries (run wideKeys.toKeys [.insert 1 'a', .insert 18446744073709551617 'b'])) := by
  have keeps := wide_runs.1
  obtain ⟨t, ht, hsame, -⟩ := table_lists_trie wideKeys .boxed _ keeps
  exact ⟨keeps, t, ht, hsame⟩

/-- Keys 0 and 2^64 share a hash whose own slot is the last: the table lists them the other way
round. -/
theorem table_lists_wrapped :
    (tRun wideKeys .boxed [.insert 0 'a', .insert 18446744073709551616 'b']).map
        (fun t => (tEntries wideKeys.toKeyOps t).map Prod.fst) = some [18446744073709551616, 0] ∧
      (mapEntries (run wideKeys.toKeys
        [.insert 0 'a', .insert 18446744073709551616 'b'])).map Prod.fst =
          [0, 18446744073709551616] := by
  rw [run_entries]
  exact wide_runs.2

end Maps

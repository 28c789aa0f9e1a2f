import Resid.Maps.Rebuild

/-!
# A map lists one order in both modes, but for keys that wrap around

    InOrder t l: the entries of each rank in the table, as they are met, are those of `l`
    an update whose new key goes behind the entries of its hash keeps `InOrder`   (tStep_inOrder)
    tEntries sorts stably, so it lists what the trie lists                    (table_lists_trie)

A search that wraps around puts a key before an older one of the same hash, and the table then
lists the two the other way round.
-/

namespace Maps

open Ranked Stable

variable {κ υ : Type} {K : TableKeys κ}

/-! ## Updates that keep the order of a hash's entries -/

/-- `insertBehind` for the keys a put inserts: those of a table turned boxed, and its own. -/
def putBehind (K : TableKeys κ) (t : Table κ υ) (k : κ) : Bool :=
  (K.fits t.kind k ||
    allKeep (fun t e => tInsertNew K 1 t e.1 e.2) (fun t e => insertBehind K 1 t e.1)
      (tAlloc t.cap .boxed) (tScan t)) &&
    match tKeyIn K t k with
    | none => true
    | some t =>
      match tRef K t k with
      | some none => insertBehind K 2 t k
      | _ => true

def stepBehind (K : TableKeys κ) (t : Table κ υ) : Op κ υ → Bool
  | .insert k _ => putBehind K t k
  | .remove _ => true

/-- In a run, every new key is placed behind the entries of its hash. -/
def runBehind (K : TableKeys κ) (kind : Kind) (ops : List (Op κ υ)) : Bool :=
  allKeep (tStep K) (stepBehind K) (tabNew kind) ops

/-! ## Finding a key's cell -/

variable {t t' : Table κ υ} {a k : κ} {w : υ} {i : Nat} {l : List (κ × υ)}

theorem tRef_none (h : TableOk K t) (habs : Absent K k t) : tRef K t k = some none := by
  unfold tRef
  by_cases hskip : t.live = 0 ∨ K.fits t.kind k = false
  · rw [if_pos hskip]
  rw [if_neg hskip]
  cases hoob : tOob K t.kind k with
  | none =>
    obtain ⟨d, -, hprobe, -⟩ := tProbe_free h habs
    rw [hprobe]
  | some o =>
    simp only
    split
    · rename_i a w hc
      have hcell : t.cells[t.slots.length + o]? = some (Slot.entry a w) := (cells_oob o).trans hc
      have hfits : K.fits t.kind k = true := by
        rw [← Bool.not_eq_false]
        exact fun h0 => hskip (.inr h0)
      have heq := tOob_inj (h.placed _ a w hcell).1 hfits (h.oob_of_cell hcell) hoob
      have hne := habs (a, w) (mem_scan.2 ⟨_, hcell⟩)
      rw [heq] at hne
      cases hne
    · rfl

theorem tRef_some (h : TableOk K t) (hi : t.cells[i]? = some (Slot.entry a w))
    (heq : K.eq a k = true) : tRef K t k = some (some i) := by
  have hmem : (a, w) ∈ tScan t := mem_scan.2 ⟨i, hi⟩
  have hfits : K.fits t.kind k = true := by
    rw [← K.fits_eq t.kind a k heq]
    exact scan_fits h hmem
  have hlive : t.live ≠ 0 := by
    rw [h.live_eq]
    intro h0
    rw [List.eq_nil_of_length_eq_zero h0] at hmem
    cases hmem
  unfold tRef
  rw [if_neg]
  · cases hoob : tOob K t.kind k with
    | none =>
      rw [tProbe_found h hoob hi heq]
    | some o =>
      obtain ⟨-, hplace⟩ := h.placed i a w hi
      rw [tOob_congr heq, hoob] at hplace
      have hplace' : i = t.slots.length + o := hplace
      subst hplace'
      have ho : t.oob[o]? = some (Slot.entry a w) := (cells_oob o).symm.trans hi
      simp only
      rw [ho]
      rfl
  · rintro (h0 | h0)
    · exact hlive h0
    · rw [hfits] at h0
      cases h0

theorem present_or_absent (t : Table κ υ) (k : κ) :
    Absent K k t ∨ ∃ (i : Nat) (a : κ) (w : υ), t.cells[i]? = some (Slot.entry a w) ∧
      K.eq a k = true := by
  by_cases h : ∃ e ∈ tScan t, K.eq e.1 k = true
  · obtain ⟨e, he, hek⟩ := h
    obtain ⟨i, hi⟩ := mem_scan.1 he
    exact .inr ⟨i, e.1, e.2, hi, hek⟩
  · exact .inl fun e he => Bool.eq_false_iff.2 fun hek => h ⟨e, he, hek⟩

/-! ## Changing a key's cell -/

/-- The cells before and after a key's own hold other keys. -/
theorem others_differ (h : TableOk K t) (hi : t.cells[i]? = some (Slot.entry a w))
    (heq : K.eq a k = true) : (∀ e ∈ (t.cells.take i).filterMap Slot.item, K.eq e.1 k = false) ∧
      ∀ e ∈ (t.cells.drop (i + 1)).filterMap Slot.item, K.eq e.1 k = false := by
  have hother : ∀ (j : Nat) s e, t.cells[j]? = some s → s.item = some e → j ≠ i →
      K.eq e.1 k = false := by
    intro j s e hj hs hji
    rw [Bool.eq_false_iff]
    intro hek
    cases s with
    | entry b v =>
      cases hs
      exact hji (h.distinct j i b a v w hj hi (K.trans _ _ _ hek (K.symm _ _ heq)))
    | empty => cases hs
    | tomb => cases hs
  constructor
  · intro e he
    obtain ⟨s, hs, hitem⟩ := List.mem_filterMap.1 he
    obtain ⟨j, hj⟩ := List.mem_iff_getElem?.1 hs
    have hji : j < i := by
      have hlt := (List.getElem?_eq_some_iff.1 hj).1
      rw [List.length_take] at hlt
      omega
    rw [List.getElem?_take_of_lt hji] at hj
    exact hother j s e hj hitem (Nat.ne_of_lt hji)
  · intro e he
    obtain ⟨s, hs, hitem⟩ := List.mem_filterMap.1 he
    obtain ⟨j, hj⟩ := List.mem_iff_getElem?.1 hs
    rw [List.getElem?_drop] at hj
    exact hother _ s e hj hitem (by omega)

/-- The cell of an entry made `s`: a slot keeps its mark of use, an out-of-band place its
count. -/
theorem setCell_ok (h : TableOk K t) {s : Slot κ υ} (hi : t.cells[i]? = some (Slot.entry a w))
    (heq : t' = { t.setCell i s with live := t'.live, tombs := t'.tombs })
    (hs : ∀ k v, s = .entry k v → k = a) (hused : i < t.slots.length → s.used = true)
    (hlive : t'.live + 1 = t.live + s.item.toList.length)
    (hslot : i < t.slots.length → t'.live + t'.tombs = t.live + t.tombs)
    (hoob : t.slots.length ≤ i → t'.tombs = t.tombs) : TableOk K t' := by
  have hlive' : t'.live + (Slot.entry a w : Slot κ υ).item.toList.length =
      t.live + s.item.toList.length := hlive
  have hcells : t'.cells = t.cells.set i s := by
    rw [heq]
    exact cells_setCell t i s
  have hdistinct : ∀ k v (j : Nat) b u, s = .entry k v → t.cells[j]? = some (Slot.entry b u) →
      K.eq k b = true → j = i := by
    intro k v j b u hsk hj hkb
    rw [hs k v hsk] at hkb
    exact (h.distinct i j a b w u hi hj hkb).symm
  have hueq := h.used_eq
  rcases Nat.lt_or_ge i t.slots.length with hlt | hge
  · have hslots : t'.slots = t.slots.set i s := by rw [heq, setCell_slots hlt]
    have hoobs : t'.oob = t.oob := by rw [heq, setCell_slots hlt]
    have hkind : t'.kind = t.kind := by rw [heq, setCell_slots hlt]
    have hsi : t.slots[i]? = some (Slot.entry a w) := (cells_slot hlt).symm.trans hi
    have hcount := countP_used_set (s := s) hsi
    rw [hused hlt] at hcount
    have hcount' : (t.slots.set i s).countP Slot.used = t.slots.countP Slot.used :=
      Nat.add_right_cancel hcount
    have hkept := used_set t.slots i (hused hlt)
    have hlen : (t.slots.set i s).length = t.slots.length := List.length_set
    refine h.update hi hcells ?_ hkind ?_ hlive' ?_ ?_ ?_ hdistinct
    · rw [hslots, hlen]
    · rw [hslots]
      exact hkept
    · rw [hslots, hoobs, hcount', hueq, hslot hlt]
    · rw [hslots, hcount', hlen]
      exact h.half
    · intro k v hsk
      rw [hs k v hsk, hslots, hkind]
      exact (h.placed i a w hi).mono hlen hkept
  · obtain ⟨o, rfl⟩ := Nat.exists_eq_add_of_le hge
    have hslots : t'.slots = t.slots := by rw [heq, setCell_oob]
    have hoobs : t'.oob = t.oob.set o s := by rw [heq, setCell_oob]
    have hkind : t'.kind = t.kind := by rw [heq, setCell_oob]
    have hoi : t.oob[o]? = some (Slot.entry a w) := (cells_oob o).symm.trans hi
    have hitems : (t'.oob.filterMap Slot.item).length + 1 =
        (t.oob.filterMap Slot.item).length + s.item.toList.length := by
      rw [hoobs, filterMap_set (List.getElem?_eq_some_iff.1 hoi).1, filterMap_cell hoi]
      simp only [List.length_append]
      have hone : (Slot.entry a w : Slot κ υ).item.toList.length = 1 := rfl
      omega
    have htombs := hoob hge
    refine h.update hi hcells ?_ hkind ?_ hlive' ?_ ?_ ?_ hdistinct
    · rw [hslots]
    · rw [hslots]
      exact fun j c hc hcu => ⟨c, hc, hcu⟩
    · rw [hslots]
      omega
    · rw [hslots]
      exact h.half
    · intro k v hsk
      rw [hs k v hsk, hslots, hkind]
      exact h.placed _ a w hi

/-- Another value in a key's cell. -/
theorem setVal_spec (h : TableOk K t) (hi : t.cells[i]? = some (Slot.entry a w))
    (heq : K.eq a k = true) (v : υ) : TableOk K (t.setCell i (.entry a v)) ∧
      tScan (t.setCell i (.entry a v)) =
        (tScan t).map fun e => if K.eq e.1 k then (e.1, v) else e := by
  obtain ⟨hlow, hhigh⟩ := others_differ h hi heq
  have hlt := (List.getElem?_eq_some_iff.1 hi).1
  constructor
  · refine setCell_ok h hi (s := .entry a v) ?_ ?_ ?_ ?_ ?_ ?_
    · rfl
    · intro k' v' hs
      cases hs
      rfl
    · exact fun _ => rfl
    · rw [setCell_live]
      rfl
    · intro _
      rw [setCell_live, setCell_tombs]
    · intro _
      rw [setCell_tombs]
  · have hkeep : ∀ l : List (κ × υ), (∀ e ∈ l, K.eq e.1 k = false) →
        l.map (fun e => if K.eq e.1 k then (e.1, v) else e) = l := by
      intro l hl
      refine (List.map_congr_left ?_).trans (List.map_id l)
      intro e he
      rw [hl e he, if_neg Bool.false_ne_true]
      rfl
    rw [scan_setCell hlt, scan_of_cell hi, List.map_append, List.map_append, hkeep _ hlow,
      hkeep _ hhigh]
    have hone : ((Slot.entry a w).item.toList).map (fun e => if K.eq e.1 k then (e.1, v) else e) =
        (Slot.entry a v).item.toList := by
      show [if K.eq a k then (a, v) else (a, w)] = [(a, v)]
      rw [if_pos heq]
    rw [hone]

/-- A deleted key's entry is gone. -/
theorem tDel_spec (h : TableOk K t) (k : κ) : ∃ t', tDel K t k = some t' ∧ TableOk K t' ∧
      tScan t' = (tScan t).filter fun e => !K.eq e.1 k := by
  rcases present_or_absent (K := K) t k with habs | ⟨i, a, w, hi, heq⟩
  · refine ⟨t, ?_, h, ?_⟩
    · unfold tDel
      rw [tRef_none h habs]
      rfl
    · symm
      apply List.filter_eq_self.2
      intro e he
      rw [habs e he]
      rfl
  · obtain ⟨hlow, hhigh⟩ := others_differ h hi heq
    have hlt := (List.getElem?_eq_some_iff.1 hi).1
    have hpos : 0 < t.live := by
      rw [h.live_eq]
      exact List.length_pos_of_mem (mem_scan.2 ⟨i, hi⟩ : (a, w) ∈ tScan t)
    have hgone : ∀ (s : Slot κ υ), s.item = none →
        tScan (t.setCell i s) = (tScan t).filter fun e => !K.eq e.1 k := by
      intro s hs
      have hkeep : ∀ l : List (κ × υ), (∀ e ∈ l, K.eq e.1 k = false) →
          (l.filter fun e => !K.eq e.1 k) = l := by
        intro l hl
        apply List.filter_eq_self.2
        intro e he
        rw [hl e he]
        rfl
      have hone : ((Slot.entry a w : Slot κ υ).item.toList.filter fun e => !K.eq e.1 k) = [] := by
        show [(a, w)].filter (fun e => !K.eq e.1 k) = []
        rw [List.filter_cons_of_neg (by rw [heq]; decide), List.filter_nil]
      rw [scan_setCell hlt, scan_of_cell hi, List.filter_append, List.filter_append, hkeep _ hlow,
        hkeep _ hhigh, hone, hs]
      rfl
    unfold tDel
    rw [tRef_some h hi heq]
    by_cases hslot : i < t.slots.length
    · refine ⟨{ t.setCell i .tomb with live := t.live - 1, tombs := t.tombs + 1 }, ?_, ?_,
        hgone .tomb rfl⟩
      · exact if_pos hslot
      · refine setCell_ok h hi (s := .tomb) rfl ?_ ?_ ?_ ?_ ?_
        · intro k' v' hs
          cases hs
        · exact fun _ => rfl
        · show t.live - 1 + 1 = t.live + 0
          omega
        · intro _
          show t.live - 1 + (t.tombs + 1) = t.live + t.tombs
          omega
        · intro hge
          omega
    · refine ⟨{ t.setCell i .empty with live := t.live - 1 }, ?_, ?_, hgone .empty rfl⟩
      · exact if_neg hslot
      · refine setCell_ok h hi (s := .empty) rfl ?_ ?_ ?_ ?_ ?_
        · intro k' v' hs
          cases hs
        · exact fun h0 => absurd h0 hslot
        · show t.live - 1 + 1 = t.live + 0
          omega
        · exact fun h0 => absurd h0 hslot
        · intro _
          exact setCell_tombs t i _

/-! ## One order -/

/-- The entries of each rank are those of `l`, in order. -/
def InOrder (K : TableKeys κ) (t : Table κ υ) (l : List (κ × υ)) : Prop :=
  ∀ r, List.Forall₂ (Same K.keyed) (group (entRank K) r (tScan t)) (group (entRank K) r l)

theorem InOrder.absent_iff (h : InOrder K t l) : Absent K k t ↔ find K.keyed k l = none := by
  constructor
  · intro habs
    apply find_none
    intro e he
    obtain ⟨a, ha, hae⟩ := exists_left (h (entRank K e)) (mem_group.2 ⟨he, rfl⟩)
    have hne := habs a (mem_group.1 ha).1
    rw [← hne]
    exact (Keyed.eq_congr (K := K.keyed) hae.1 k).symm
  · intro hfind e he
    rw [Bool.eq_false_iff]
    intro hek
    obtain ⟨b, hb, heb⟩ := exists_right (h (entRank K e)) (mem_group.2 ⟨he, rfl⟩)
    have hbk : K.keyed.eq b.1 k = true := K.trans _ _ _ (K.symm _ _ heb.1) hek
    exact find_ne_none (mem_group.1 hb).1 hbk hfind

theorem InOrder.congr (h : InOrder K t l)
    (hg : ∀ r, group (entRank K) r (tScan t') = group (entRank K) r (tScan t)) :
    InOrder K t' l := by
  intro r
  rw [hg r]
  exact h r

/-- A table ready for a key: the same entries, in the same order where the rebuild keeps it. -/
theorem tKeyIn_spec (h : TableOk K t) (k : κ) :
    ∃ t', tKeyIn K t k = some t' ∧ TableOk K t' ∧ K.fits t'.kind k = true ∧
      (tScan t').Perm (tScan t) ∧
      ((K.fits t.kind k ||
        allKeep (fun t e => tInsertNew K 1 t e.1 e.2) (fun t e => insertBehind K 1 t e.1)
          (tAlloc t.cap .boxed) (tScan t)) = true →
        ∀ r, group (entRank K) r (tScan t') = group (entRank K) r (tScan t)) := by
  unfold tKeyIn
  by_cases hfits : K.fits t.kind k = true
  · rw [if_pos hfits]
    exact ⟨t, rfl, h, hfits, List.Perm.refl _, fun _ r => rfl⟩
  · rw [if_neg hfits, Bool.eq_false_iff.2 hfits, Bool.false_or]
    obtain ⟨n, hn, hcap⟩ := h.sized
    obtain ⟨t', ht', hok', -, hkind', -, hperm, hgroups⟩ := @rebuild_all κ υ K t _ n
      _ _ (fun t e => insertBehind K 1 t e.1) (fun _ => True) hn hcap
      (by
        intro u a v _ hu hkind _ hafits habs
        rw [← hkind] at hafits
        obtain ⟨u', hu', hstored⟩ := insertNew_spec hu 0 hafits habs v
        exact ⟨u', hu', hstored, trivial⟩)
      h trivial (fun e _ => K.fits_boxed e.1)
    refine ⟨t', ht', hok', ?_, hperm, hgroups⟩
    rw [hkind']
    exact K.fits_boxed k

theorem setVal_inOrder (h : InOrder K t l) (hl : Ordered K.keyed l) {v : υ}
    (hk : find K.keyed k l ≠ none)
    (hscan : tScan t' = (tScan t).map fun e => if K.eq e.1 k then (e.1, v) else e) :
    InOrder K t' (put K.keyed k v l) := by
  intro r
  rw [hscan, put_present hl hk, group_map, group_map, List.forall₂_map_left_iff,
    List.forall₂_map_right_iff]
  · refine (h r).imp ?_
    rintro a b ⟨hab, hval⟩
    have hcongr : K.keyed.eq a.1 k = K.keyed.eq b.1 k := Keyed.eq_congr hab k
    by_cases hbk : K.keyed.eq b.1 k = true
    · have hak : K.eq a.1 k = true := hcongr.trans hbk
      rw [if_pos hbk, if_pos hak]
      exact ⟨hak, rfl⟩
    · have hak : ¬ K.eq a.1 k = true := fun h0 => hbk (hcongr.symm.trans h0)
      rw [if_neg hbk, if_neg hak]
      exact ⟨hab, hval⟩
  · intro a
    split_ifs with hak
    · exact (K.keyed.rank_eq _ _ hak).symm
    · rfl
  · intro a
    split_ifs <;> rfl

theorem tPut_inOrder (h : TableOk K t) (hin : InOrder K t l) (hl : Ordered K.keyed l) (v : υ)
    (hbehind : putBehind K t k = true) :
    ∃ t', tPut K t k v = some t' ∧ TableOk K t' ∧ InOrder K t' (put K.keyed k v l) := by
  unfold putBehind at hbehind
  rw [Bool.and_eq_true] at hbehind
  obtain ⟨t1, ht1, hok1, hfits1, -, hgroups1⟩ := tKeyIn_spec h k
  have hin1 := hin.congr (hgroups1 hbehind.1)
  have hrest := hbehind.2
  rw [ht1] at hrest
  unfold tPut
  rw [ht1]
  rcases present_or_absent (K := K) t1 k with habs | ⟨i, a, w, hi, heq⟩
  · have hnone := hin1.absent_iff.1 habs
    simp only [tRef_none hok1 habs] at hrest
    obtain ⟨t', ht', hstored⟩ := insertNew_spec hok1 1 hfits1 habs v
    have hgrew := hstored.grew hrest
    refine ⟨t', ?_, hgrew.ok, ?_⟩
    · simp only [Option.bind_eq_bind, Option.bind_some, tRef_none hok1 habs]
      exact ht'
    · intro r
      have hgroup := group_put_absent hl hnone v r
      rw [hgrew.order r, show group (entRank K) r (put K.keyed k v l) =
        group (entRank K) r (l ++ [(k, v)]) from hgroup, group_append, group_append]
      refine List.rel_append (hin1 r) ?_
      by_cases hr : entRank K (k, v) = r
      · subst hr
        rw [group_cons_self]
        exact .cons ⟨K.refl k, rfl⟩ .nil
      · rw [group_cons_of_ne hr]
        exact .nil
  · have hfind : find K.keyed k l ≠ none := by
      intro h0
      have hne := hin1.absent_iff.2 h0 (a, w) (mem_scan.2 ⟨i, hi⟩)
      rw [heq] at hne
      cases hne
    obtain ⟨hok', hscan⟩ := setVal_spec hok1 hi heq v
    refine ⟨t1.setCell i (.entry a v), ?_, hok', setVal_inOrder hin1 hl hfind hscan⟩
    simp only [Option.bind_eq_bind, Option.bind_some, tRef_some hok1 hi heq, hi]

theorem tDel_inOrder (h : TableOk K t) (hin : InOrder K t l) (hl : Ordered K.keyed l) (k : κ) :
    ∃ t', tDel K t k = some t' ∧ TableOk K t' ∧ InOrder K t' (del K.keyed k l) := by
  obtain ⟨t', ht', hok', hscan⟩ := tDel_spec h k
  refine ⟨t', ht', hok', ?_⟩
  intro r
  rw [hscan, del_eq_filter hl, group_filter, group_filter]
  refine List.rel_filter ?_ (hin r)
  rintro a b ⟨hab, -⟩
  have hcongr : K.keyed.eq a.1 k = K.keyed.eq b.1 k := Keyed.eq_congr hab k
  show (!K.keyed.eq a.1 k) = true ↔ (!K.keyed.eq b.1 k) = true
  rw [hcongr]

theorem tStep_inOrder (h : TableOk K t) (hin : InOrder K t l) (hl : Ordered K.keyed l)
    (op : Op κ υ) (hbehind : stepBehind K t op = true) :
    ∃ t', tStep K t op = some t' ∧ TableOk K t' ∧ InOrder K t' (listedAfter K.toKeys l op) := by
  cases op with
  | insert k v => exact tPut_inOrder h hin hl v hbehind
  | remove k => exact tDel_inOrder h hin hl k

end Maps

/-!
## What a table's lookups return

    Has K t k v: an entry of `t` has a key equal to `k`, and value `v`
    tFind K t k = some r, where r = some v ↔ Has K t k v                            (tFind_spec)
    setVal, tDel: `Has` changes at the keys equal to `k` alone          (setVal_has, tDel_has)

Nothing here asks for the order of a hash's entries: every update succeeds, whatever the load.
-/

namespace Maps

open Ranked

variable {κ υ : Type} {K : TableKeys κ}

/-! ## Algorithm -/

/-- The value a request key's place holds, if it has one; none when the search does not end. -/
def tFind (K : KeyOps κ) (t : Table κ υ) (k : κ) : Option (Option υ) := do
  let ref ← tRef K t k
  match ref with
  | none => some none
  | some i =>
    match t.cells[i]? with
    | some (.entry _ v) => some (some v)
    | _ => none

/-! ## Contents -/

def Has (K : KeyOps κ) (t : Table κ υ) (k : κ) (v : υ) : Prop :=
  ∃ e ∈ tScan t, K.eq e.1 k = true ∧ e.2 = v

variable {t : Table κ υ} {k : κ}

theorem Has.perm {t' : Table κ υ} (hperm : (tScan t').Perm (tScan t)) {v : υ} :
    Has K t' k v ↔ Has K t k v := by
  unfold Has
  constructor
  · rintro ⟨e, he, hek⟩
    exact ⟨e, hperm.mem_iff.1 he, hek⟩
  · rintro ⟨e, he, hek⟩
    exact ⟨e, hperm.mem_iff.2 he, hek⟩

theorem not_has_alloc (cap : Nat) (kind : Kind) (k : κ) (v : υ) :
    ¬ Has K (tAlloc cap kind) k v := by
  rintro ⟨e, he, -⟩
  rw [tAlloc_scan] at he
  cases he

theorem not_has_of_absent (h : Absent K k t) (v : υ) : ¬ Has K t k v := by
  rintro ⟨e, he, hek, -⟩
  rw [h e he] at hek
  cases hek

/-- A key's entry is its value, and the only one. -/
theorem has_of_cell (h : TableOk K t) {a : κ} {w : υ} {i : Nat}
    (hi : t.cells[i]? = some (Slot.entry a w)) (heq : K.eq a k = true) (v : υ) :
    Has K t k v ↔ v = w := by
  constructor
  · rintro ⟨e, he, hek, rfl⟩
    obtain ⟨j, hj⟩ := mem_scan.1 he
    have hji := h.distinct j i e.1 a e.2 w hj hi (K.trans _ _ _ hek (K.symm _ _ heq))
    subst hji
    rw [hi, Option.some.injEq, Slot.entry.injEq] at hj
    exact hj.2.symm
  · rintro rfl
    exact ⟨(a, v), mem_scan.2 ⟨i, hi⟩, heq, rfl⟩

/-- A lookup ends, and returns what the table has. -/
theorem tFind_spec (h : TableOk K t) (k : κ) :
    ∃ r, tFind K t k = some r ∧ ∀ v, r = some v ↔ Has K t k v := by
  rcases present_or_absent (K := K) t k with habs | ⟨i, a, w, hi, heq⟩
  · refine ⟨none, ?_, ?_⟩
    · unfold tFind
      rw [tRef_none h habs]
      rfl
    · exact fun v => iff_of_false (by rintro ⟨⟩) (not_has_of_absent habs v)
  · refine ⟨some w, ?_, ?_⟩
    · unfold tFind
      rw [tRef_some h hi heq]
      show (match t.cells[i]? with | some (.entry _ v) => some (some v) | _ => none) = _
      rw [hi]
    · intro v
      rw [has_of_cell h hi heq, Option.some.injEq]
      exact eq_comm

/-! ## Updates -/

/-- The contents after a put. -/
def HasPut (K : KeyOps κ) (t : Table κ υ) (k : κ) (v : υ) (t' : Table κ υ) : Prop :=
  ∀ k' v', Has K t' k' v' ↔ if K.eq k k' then v' = v else Has K t k' v'

theorem Stored.has {keeps : Bool} {t' : Table κ υ} {v : υ} (h : Stored K keeps t k v t')
    (habs : Absent K k t) : HasPut K t k v t' := by
  intro k' v'
  by_cases hkk : K.eq k k' = true
  · rw [if_pos hkk]
    constructor
    · rintro ⟨e, he, hek, rfl⟩
      rcases h.mem.1 he with he | rfl
      · exact absurd ⟨e, he, K.trans _ _ _ hek (K.symm _ _ hkk), rfl⟩
          (not_has_of_absent habs e.2)
      · rfl
    · rintro rfl
      exact ⟨(k, v'), h.mem.2 (.inr rfl), hkk, rfl⟩
  · rw [if_neg hkk]
    constructor
    · rintro ⟨e, he, hek, hv⟩
      rcases h.mem.1 he with he | rfl
      · exact ⟨e, he, hek, hv⟩
      · exact absurd hek hkk
    · rintro ⟨e, he, hek, hv⟩
      exact ⟨e, h.mem.2 (.inl he), hek, hv⟩

/-- Another value in a key's cell. -/
theorem setVal_has (h : TableOk K t) {a : κ} {w : υ} {i : Nat}
    (hi : t.cells[i]? = some (Slot.entry a w)) (heq : K.eq a k = true) (v : υ) :
    HasPut K t k v (t.setCell i (.entry a v)) := by
  obtain ⟨-, hscan⟩ := setVal_spec h hi heq v
  intro k' v'
  have hmem : ∀ e', e' ∈ tScan (t.setCell i (.entry a v)) ↔
      ∃ e ∈ tScan t, (if K.eq e.1 k then (e.1, v) else e) = e' := by
    intro e'
    rw [hscan, List.mem_map]
  by_cases hkk : K.eq k k' = true
  · rw [if_pos hkk]
    constructor
    · rintro ⟨e', he', hek, rfl⟩
      obtain ⟨e, he, rfl⟩ := (hmem e').1 he'
      by_cases hk : K.eq e.1 k = true
      · rw [if_pos hk]
      · rw [if_neg hk] at hek
        exact absurd (K.trans _ _ _ hek (K.symm _ _ hkk)) hk
    · rintro rfl
      refine ⟨(a, v'), (hmem _).2 ⟨(a, w), mem_scan.2 ⟨i, hi⟩, if_pos heq⟩, ?_, rfl⟩
      exact K.trans _ _ _ heq hkk
  · have hother : ∀ e : κ × υ, K.eq e.1 k' = true → ¬ K.eq e.1 k = true := by
      intro e hek hk
      exact hkk (K.trans _ _ _ (K.symm _ _ hk) hek)
    rw [if_neg hkk]
    constructor
    · rintro ⟨e', he', hek, hv⟩
      obtain ⟨e, he, rfl⟩ := (hmem e').1 he'
      by_cases hk : K.eq e.1 k = true
      · rw [if_pos hk] at hek
        exact absurd hk (hother e hek)
      · rw [if_neg hk] at hek hv
        exact ⟨e, he, hek, hv⟩
    · rintro ⟨e, he, hek, hv⟩
      exact ⟨e, (hmem e).2 ⟨e, he, if_neg (hother e hek)⟩, hek, hv⟩

/-- Every deletion succeeds, and the key is gone. -/
theorem tDel_has (h : TableOk K t) (k : κ) : ∃ t', tDel K t k = some t' ∧ TableOk K t' ∧
      ∀ k' v', Has K t' k' v' ↔ if K.eq k k' then False else Has K t k' v' := by
  obtain ⟨t', ht', hok', hscan⟩ := tDel_spec h k
  refine ⟨t', ht', hok', ?_⟩
  intro k' v'
  have hmem : ∀ e, e ∈ tScan t' ↔ e ∈ tScan t ∧ K.eq e.1 k = false := by
    intro e
    rw [hscan, List.mem_filter, Bool.not_eq_true']
  by_cases hkk : K.eq k k' = true
  · rw [if_pos hkk, iff_false]
    rintro ⟨e, he, hek, -⟩
    have hne := ((hmem e).1 he).2
    rw [K.trans _ _ _ hek (K.symm _ _ hkk)] at hne
    cases hne
  · rw [if_neg hkk]
    constructor
    · rintro ⟨e, he, hek, hv⟩
      exact ⟨e, ((hmem e).1 he).1, hek, hv⟩
    · rintro ⟨e, he, hek, hv⟩
      refine ⟨e, (hmem e).2 ⟨he, ?_⟩, hek, hv⟩
      rw [Bool.eq_false_iff]
      exact fun hk => hkk (K.trans _ _ _ (K.symm _ _ hk) hek)

end Maps

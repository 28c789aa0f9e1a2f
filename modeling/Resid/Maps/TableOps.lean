import Resid.Maps.Table

/-!
# What one update does to a table

Every update writes one cell (`TableOk.update`).  The entries met before and after that cell
are the same in the new table:

    tScan t = low ++ (item of the old cell) ++ high
    tScan t' = low ++ (item of the new cell) ++ high                             (scan_setCell)
-/

namespace Maps

open Ranked Stable

variable {κ υ : Type} {K : TableKeys κ}

/-! ## One cell -/

variable {i o : Nat} {c s : Slot κ υ} {t t' : Table κ υ} {a k : κ}

theorem filterMap_cell {α β : Type} {f : α → Option β} {l : List α} {c : α} (h : l[i]? = some c) :
    l.filterMap f = (l.take i).filterMap f ++ ((f c).toList ++ (l.drop (i + 1)).filterMap f) := by
  obtain ⟨hlt, hget⟩ := List.getElem?_eq_some_iff.1 h
  have hsplit : l = l.take i ++ c :: l.drop (i + 1) := by
    rw [← hget, ← List.drop_eq_getElem_cons hlt, List.take_append_drop]
  have hcons : (c :: l.drop (i + 1)).filterMap f = (f c).toList ++ (l.drop (i + 1)).filterMap f := by
    cases hf : f c with
    | none => exact List.filterMap_cons_none hf
    | some b => exact List.filterMap_cons_some hf
  rw [← hcons, ← List.filterMap_append, ← hsplit]

theorem filterMap_set {α β : Type} {f : α → Option β} {l : List α} (h : i < l.length) (s : α) :
    (l.set i s).filterMap f =
      (l.take i).filterMap f ++ ((f s).toList ++ (l.drop (i + 1)).filterMap f) := by
  have hcell := filterMap_cell (f := f) (List.getElem?_set_self h (a := s))
  rw [List.take_set_of_le (Nat.le_refl i), List.drop_set_of_lt (Nat.lt_succ_self i)] at hcell
  exact hcell

theorem cells_length (t : Table κ υ) : t.cells.length = t.slots.length + t.oob.length :=
  List.length_append

theorem cells_setCell (t : Table κ υ) (i : Nat) (s : Slot κ υ) :
    (t.setCell i s).cells = t.cells.set i s := by
  unfold Table.setCell Table.cells Table.cap
  by_cases hi : i < t.slots.length
  · rw [if_pos hi, List.set_append_left i s hi]
  · rw [if_neg hi, List.set_append_right i s (by omega)]

theorem scan_of_cell (hc : t.cells[i]? = some c) : tScan t = (t.cells.take i).filterMap Slot.item ++
      (c.item.toList ++ (t.cells.drop (i + 1)).filterMap Slot.item) := filterMap_cell hc

theorem scan_setCell (hi : i < t.cells.length) (s : Slot κ υ) :
    tScan (t.setCell i s) = (t.cells.take i).filterMap Slot.item ++
      (s.item.toList ++ (t.cells.drop (i + 1)).filterMap Slot.item) := by
  unfold tScan
  rw [cells_setCell]
  exact filterMap_set hi s

theorem setCell_slots (hi : i < t.slots.length) (s : Slot κ υ) :
    t.setCell i s = { t with slots := t.slots.set i s } := if_pos hi

theorem setCell_oob (t : Table κ υ) (o : Nat) (s : Slot κ υ) :
    t.setCell (t.slots.length + o) s = { t with oob := t.oob.set o s } := by
  have hnot : ¬ t.slots.length + o < t.cap := by
    unfold Table.cap
    omega
  have hsub : t.slots.length + o - t.cap = o := by
    unfold Table.cap
    omega
  unfold Table.setCell
  rw [if_neg hnot, hsub]

theorem setCell_live (t : Table κ υ) (i : Nat) (s : Slot κ υ) : (t.setCell i s).live = t.live := by
  unfold Table.setCell
  split_ifs <;> rfl

theorem setCell_tombs (t : Table κ υ) (i : Nat) (s : Slot κ υ) :
    (t.setCell i s).tombs = t.tombs := by
  unfold Table.setCell
  split_ifs <;> rfl

/-! ## The invariant after one cell's change -/

/-- Slots used stay used: keys stay reachable. -/
theorem Placed.mono {kind : Kind} {slots slots' : List (Slot κ υ)} (h : Placed K kind slots k i)
    (hlen : slots'.length = slots.length)
    (hkept : ∀ (j : Nat) c, slots[j]? = some c → c.used = true →
      ∃ c', slots'[j]? = some c' ∧ c'.used = true) :
    Placed K kind slots' k i := by
  obtain ⟨hfits, hplace⟩ := h
  refine ⟨hfits, ?_⟩
  cases hoob : tOob K kind k with
  | some o =>
    rw [hoob] at hplace
    rw [hlen]
    exact hplace
  | none =>
    rw [hoob] at hplace
    obtain ⟨d, hd, hi, hused⟩ := hplace
    rw [hlen]
    refine ⟨d, hd, hi, ?_⟩
    intro j hj
    obtain ⟨c, hc, hcu⟩ := hused j hj
    exact hkept _ c hc hcu

/-- Cell `i` made `s`, and the counts adjusted. -/
theorem TableOk.update (h : TableOk K t) (hc : t.cells[i]? = some c)
    (hcells : t'.cells = t.cells.set i s) (hlen : t'.slots.length = t.slots.length)
    (hkind : t'.kind = t.kind)
    (hkept : ∀ (j : Nat) c, t.slots[j]? = some c → c.used = true →
      ∃ c', t'.slots[j]? = some c' ∧ c'.used = true)
    (hlive : t'.live + c.item.toList.length = t.live + s.item.toList.length)
    (hused : t'.slots.countP Slot.used + (t'.oob.filterMap Slot.item).length = t'.live + t'.tombs)
    (hhalf : t'.slots.countP Slot.used * 2 ≤ t'.slots.length)
    (hplaced : ∀ k v, s = .entry k v → Placed K t'.kind t'.slots k i)
    (hdistinct : ∀ k v (j : Nat) b w, s = .entry k v → t.cells[j]? = some (Slot.entry b w) →
      K.eq k b = true → j = i) :
    TableOk K t' := by
  have hi : i < t.cells.length := (List.getElem?_eq_some_iff.1 hc).1
  have hget : ∀ (j : Nat) a v, t'.cells[j]? = some (Slot.entry a v) →
      (j = i ∧ s = .entry a v) ∨ (j ≠ i ∧ t.cells[j]? = some (Slot.entry a v)) := by
    intro j a v hj
    rw [hcells] at hj
    by_cases hji : j = i
    · subst hji
      rw [List.getElem?_set_self hi] at hj
      exact .inl ⟨rfl, Option.some.inj hj⟩
    · rw [List.getElem?_set_ne fun h0 => hji h0.symm] at hj
      exact .inr ⟨hji, hj⟩
  refine ⟨?_, ?_, ?_, hused, hhalf, ?_, ?_⟩
  · rw [hlen]
    exact h.sized
  · have hsame : t'.cells.length = t.cells.length := by rw [hcells, List.length_set]
    rw [cells_length, cells_length, hlen, h.oob_two] at hsame
    omega
  · have hold := h.live_eq
    rw [scan_of_cell hc] at hold
    unfold tScan
    rw [hcells, filterMap_set hi]
    simp only [List.length_append] at hold ⊢
    omega
  · intro j a v hj
    rcases hget j a v hj with ⟨rfl, hs⟩ | ⟨-, hj⟩
    · exact hplaced a v hs
    · rw [hkind]
      exact (h.placed j a v hj).mono hlen hkept
  · intro j j' a b v w hj hj' hab
    rcases hget j a v hj with ⟨rfl, hs⟩ | ⟨hji, hj⟩
    · rcases hget j' b w hj' with ⟨rfl, -⟩ | ⟨hji', hj'⟩
      · rfl
      · exact absurd (hdistinct a v j' b w hs hj' hab) hji'
    · rcases hget j' b w hj' with ⟨rfl, hs⟩ | ⟨-, hj'⟩
      · exact absurd (hdistinct b w j a v hs hj (K.symm _ _ hab)) hji
      · exact h.distinct j j' a b v w hj hj' hab

theorem used_set (slots : List (Slot κ υ)) (i : Nat) (hs : s.used = true) (j : Nat) (c : Slot κ υ)
    (hc : slots[j]? = some c) (hcu : c.used = true) :
    ∃ c', (slots.set i s)[j]? = some c' ∧ c'.used = true := by
  by_cases hji : i = j
  · subst hji
    exact ⟨s, List.getElem?_set_self (List.getElem?_eq_some_iff.1 hc).1, hs⟩
  · exact ⟨c, by rw [List.getElem?_set_ne hji]; exact hc, hcu⟩

theorem countP_used_set {slots : List (Slot κ υ)} (hc : slots[i]? = some c) :
    (slots.set i s).countP Slot.used + c.used.toNat =
      slots.countP Slot.used + s.used.toNat := by
  have hsplit : ∀ l : List (Slot κ υ), l.countP Slot.used =
      (l.filterMap fun a => if a.used then some a else none).length := by
    intro l
    rw [List.countP_eq_length_filter, ← List.filterMap_eq_filter]
    rfl
  have htoNat : ∀ a : Slot κ υ, (if a.used then some a else none : Option (Slot κ υ)).toList.length =
      a.used.toNat := by
    intro a
    cases a <;> rfl
  have hi := (List.getElem?_eq_some_iff.1 hc).1
  rw [hsplit, hsplit, filterMap_cell hc, filterMap_set hi]
  simp only [List.length_append, htoNat]
  omega

/-! ## Out-of-band places -/

/-- A place out of band is that of one word. -/
theorem tOob_word (h : tOob K .raw a = some o) :
    K.word a = if o = 0 then rawEmpty else rawTomb := by
  unfold tOob at h
  by_cases hempty : K.word a = rawEmpty
  · rw [if_pos hempty] at h
    cases h
    exact hempty
  · rw [if_neg hempty] at h
    by_cases htomb : K.word a = rawTomb
    · rw [if_pos htomb] at h
      cases h
      exact htomb
    · rw [if_neg htomb] at h
      cases h

theorem tOob_inj {kind : Kind} {b : κ} (ha : K.fits kind a = true) (hb : K.fits kind b = true)
    (hao : tOob K kind a = some o) (hbo : tOob K kind b = some o) : K.eq a b = true := by
  cases kind with
  | raw => exact K.word_inj a b ha hb ((tOob_word hao).trans (tOob_word hbo).symm)
  | bare => cases hao
  | boxed => cases hao

theorem TableOk.oob_of_cell (h : TableOk K t) {w : υ}
    (hc : t.cells[t.slots.length + o]? = some (Slot.entry a w)) : tOob K t.kind a = some o := by
  obtain ⟨n, -, hcap⟩ := h.sized
  obtain ⟨-, hplace⟩ := h.placed _ a w hc
  cases hoob : tOob K t.kind a with
  | some o' =>
    rw [hoob] at hplace
    rw [Nat.add_left_cancel hplace]
  | none =>
    rw [hoob] at hplace
    obtain ⟨d, -, hd, -⟩ := hplace
    have := slotAt_lt hcap (tHash K t.kind a) d
    omega

theorem TableOk.slot_of_cell (h : TableOk K t) {w : υ} (hi : i < t.slots.length)
    (hc : t.cells[i]? = some (Slot.entry a w)) : tOob K t.kind a = none := by
  obtain ⟨-, hplace⟩ := h.placed _ a w hc
  cases hoob : tOob K t.kind a with
  | none => rfl
  | some o =>
    rw [hoob] at hplace
    omega

/-! ## A new key -/

/-- No entry met after cell `i` has the hash of `k`. -/
def lastOfHash (K : TableKeys κ) (t : Table κ υ) (i : Nat) (k : κ) : Bool :=
  (t.cells.drop (i + 1)).all fun s =>
    match s.item with
    | some e => K.hash e.1 != K.hash k
    | none => true

/-- The place a new key would take comes after every entry of its hash. -/
def behind (K : TableKeys κ) (t : Table κ υ) (k : κ) : Bool :=
  match tOob K t.kind k with
  | some o => lastOfHash K t (t.cap + o) k
  | none =>
    match tProbe K t k with
    | some (.free i) => lastOfHash K t i k
    | _ => true

/-- `t'` is `t` with `(k, v)` behind the entries of its rank. -/
structure Grew (K : TableKeys κ) (t : Table κ υ) (k : κ) (v : υ) (t' : Table κ υ) : Prop where
  ok : TableOk K t'
  kind_eq : t'.kind = t.kind
  live_eq : t'.live = t.live + 1
  order : ∀ r, group (entRank K) r (tScan t') = group (entRank K) r (tScan t ++ [(k, v)])

/-- `t'` is `t` with `(k, v)`, behind the entries of its rank where `keeps` holds. -/
structure Stored (K : TableKeys κ) (keeps : Bool) (t : Table κ υ) (k : κ) (v : υ)
    (t' : Table κ υ) : Prop where
  ok : TableOk K t'
  kind_eq : t'.kind = t.kind
  live_eq : t'.live = t.live + 1
  perm : (tScan t').Perm (tScan t ++ [(k, v)])
  order : keeps = true → ∀ r,
    group (entRank K) r (tScan t') = group (entRank K) r (tScan t ++ [(k, v)])

theorem Stored.grew {keeps : Bool} {v : υ} (h : Stored K keeps t k v t') (hkeeps : keeps = true) :
    Grew K t k v t' :=
  ⟨h.ok, h.kind_eq, h.live_eq, h.order hkeeps⟩

/-- The entries after an insertion. -/
theorem Stored.mem {keeps : Bool} {v : υ} (h : Stored K keeps t k v t') {e : κ × υ} :
    e ∈ tScan t' ↔ e ∈ tScan t ∨ e = (k, v) := by
  rw [h.perm.mem_iff, List.mem_append, List.mem_singleton]

theorem entRank_inj {a b : κ × υ} (h : entRank K a = entRank K b) : K.hash a.1 = K.hash b.1 :=
  canonRank_inj (K.hash_lt a.1) (K.hash_lt b.1) h

theorem group_high (h : lastOfHash K t i k = true) (v : υ) :
    group (entRank K) (entRank K (k, v)) ((t.cells.drop (i + 1)).filterMap Slot.item) = [] := by
  apply group_eq_nil
  intro e he hrank
  obtain ⟨s, hs, hitem⟩ := List.mem_filterMap.1 he
  have hne := List.all_eq_true.1 h s hs
  rw [hitem] at hne
  exact bne_iff_ne.1 hne (entRank_inj hrank)

/-- An entry written into a free cell behind the entries of its hash. -/
theorem order_setCell (hc : t.cells[i]? = some c) (hitem : c.item = none)
    (h : lastOfHash K t i k = true) (v : υ) (r : Nat) :
    group (entRank K) r (tScan (t.setCell i (.entry k v))) =
      group (entRank K) r (tScan t ++ [(k, v)]) := by
  rw [scan_setCell (List.getElem?_eq_some_iff.1 hc).1, scan_of_cell hc, hitem]
  have hnew : (Slot.entry k v : Slot κ υ).item.toList = [(k, v)] := rfl
  rw [hnew, Option.toList_none, List.nil_append, group_append, group_append, group_append,
    group_append]
  by_cases hr : entRank K (k, v) = r
  · subst hr
    rw [group_high h v, List.append_nil, List.append_nil]
  · rw [group_cons_of_ne hr, group_nil, List.nil_append, List.append_nil]

/-- An entry written into a free cell. -/
theorem perm_setCell (hc : t.cells[i]? = some c) (hitem : c.item = none) (v : υ) :
    (tScan (t.setCell i (.entry k v))).Perm (tScan t ++ [(k, v)]) := by
  rw [scan_setCell (List.getElem?_eq_some_iff.1 hc).1, scan_of_cell hc, hitem]
  have hnew : (Slot.entry k v : Slot κ υ).item.toList = [(k, v)] := rfl
  rw [hnew, Option.toList_none, List.nil_append, List.append_assoc]
  exact List.Perm.append_left _ List.perm_append_comm

/-- Storing an absent key in the slot its search ends at. -/
theorem tStore_spec (h : TableOk K t) (hfits : K.fits t.kind k = true)
    (hoob : tOob K t.kind k = none) (habs : Absent K k t)
    (hroom : (t.live + t.tombs + 1) * 2 ≤ t.cap) (v : υ) :
    ∃ t', tStore K t k v = some t' ∧ Stored K (behind K t k) t k v t' ∧ t'.cap = t.cap ∧
      t'.tombs = t.tombs := by
  obtain ⟨n, -, hcap⟩ := h.sized
  obtain ⟨d, hd, hprobe, hfree, hused⟩ := tProbe_free h habs
  have hlt := slotAt_lt hcap (tHash K t.kind k) d
  generalize hi : slotAt t.slots.length (tHash K t.kind k) d = i at hprobe hfree hlt
  have hcell : t.cells[i]? = some Slot.empty := by
    rw [cells_slot hlt]
    exact hfree
  have hbehind : behind K t k = lastOfHash K t i k := by
    unfold behind
    rw [hoob, hprobe]
  rw [hbehind]
  unfold tStore
  rw [hprobe]
  have hcount := countP_used_set (s := Slot.entry k v) hfree
  have hcount' : (t.slots.set i (.entry k v)).countP Slot.used = t.slots.countP Slot.used + 1 := by
    exact hcount
  have hkept := used_set t.slots i (s := Slot.entry k v) rfl
  have hlen : (t.slots.set i (.entry k v)).length = t.slots.length := List.length_set
  have hset := setCell_slots hlt (Slot.entry k v)
  have hlive : t.live + 1 + (Slot.empty : Slot κ υ).item.toList.length =
      t.live + (Slot.entry k v : Slot κ υ).item.toList.length := rfl
  have hueq := h.used_eq
  have hcapdef : t.cap = t.slots.length := rfl
  have hok : TableOk K { t.setCell i (.entry k v) with live := t.live + 1 } := by
    refine h.update hcell (s := .entry k v) ?_ ?_ ?_ ?_ hlive ?_ ?_ ?_ ?_
    · exact cells_setCell t i _
    · rw [hset]
      exact hlen
    · rw [hset]
    · rw [hset]
      exact hkept
    · rw [hset]
      show (t.slots.set i (.entry k v)).countP Slot.used + (t.oob.filterMap Slot.item).length =
        t.live + 1 + t.tombs
      omega
    · rw [hset]
      show (t.slots.set i (.entry k v)).countP Slot.used * 2 ≤ (t.slots.set i (.entry k v)).length
      omega
    · intro k' v' hs
      cases hs
      rw [hset]
      show Placed K t.kind (t.slots.set i (.entry k v)) k i
      have hold : Placed K t.kind t.slots k i := by
        refine ⟨hfits, ?_⟩
        rw [hoob]
        exact ⟨d, hd, hi.symm, hused⟩
      exact hold.mono hlen hkept
    · intro k' v' j b w hs hj hkb
      cases hs
      have hne := habs (b, w) (mem_scan.2 ⟨j, hj⟩)
      rw [K.symm _ _ hkb] at hne
      cases hne
  refine ⟨_, rfl, ⟨hok, ?_, rfl, perm_setCell hcell rfl v, ?_⟩, ?_, ?_⟩
  · rw [hset]
  · exact fun hlast => order_setCell hcell rfl hlast v
  · rw [hset]
    exact hlen
  · rw [hset]

/-- Storing an absent key that marks slots out of band. -/
theorem tStore_oob (h : TableOk K t) (hfits : K.fits t.kind k = true)
    (hoob : tOob K t.kind k = some o) (habs : Absent K k t) (v : υ) : Stored K (behind K t k) t k v
      { t.setCell (t.cap + o) (.entry k v) with live := t.live + 1 } := by
  have ho : o < t.oob.length := by
    rw [h.oob_two]
    exact tOob_lt hoob
  obtain ⟨c, hoc⟩ : ∃ c, t.oob[o]? = some c := ⟨_, List.getElem?_eq_getElem ho⟩
  have hcell : t.cells[t.cap + o]? = some c := (cells_oob o).trans hoc
  have hnone : c.item = none := by
    cases c with
    | empty => rfl
    | tomb => rfl
    | entry a w =>
      have hfa := (h.placed _ a w hcell).1
      have heq := tOob_inj hfa hfits (h.oob_of_cell hcell) hoob
      have hne := habs (a, w) (mem_scan.2 ⟨_, hcell⟩)
      rw [heq] at hne
      cases hne
  have hbehind : behind K t k = lastOfHash K t (t.cap + o) k := by
    unfold behind
    rw [hoob]
  rw [hbehind]
  have hset := setCell_oob t o (Slot.entry k v)
  have hitems : ((t.oob.set o (.entry k v)).filterMap Slot.item).length =
      (t.oob.filterMap Slot.item).length + 1 := by
    rw [filterMap_set ho, filterMap_cell hoc, hnone]
    simp only [List.length_append, Option.toList_none, List.length_nil]
    have hone : (Slot.entry k v : Slot κ υ).item.toList.length = 1 := rfl
    omega
  have hueq := h.used_eq
  have hcapdef : t.cap = t.slots.length := rfl
  rw [hcapdef] at hcell ⊢
  have hok : TableOk K { t.setCell (t.slots.length + o) (.entry k v) with live := t.live + 1 } := by
    refine h.update hcell (s := .entry k v) ?_ ?_ ?_ ?_ ?_ ?_ ?_ ?_ ?_
    · exact cells_setCell t _ _
    · rw [hset]
    · rw [hset]
    · rw [hset]
      exact fun j c hc hcu => ⟨c, hc, hcu⟩
    · rw [hnone]
      rfl
    · rw [hset]
      show t.slots.countP Slot.used + ((t.oob.set o (.entry k v)).filterMap Slot.item).length =
        t.live + 1 + t.tombs
      omega
    · rw [hset]
      exact h.half
    · intro k' v' hs
      cases hs
      rw [hset]
      refine ⟨hfits, ?_⟩
      rw [show tOob K _ k = tOob K t.kind k from rfl, hoob]
    · intro k' v' j b w hs hj hkb
      cases hs
      have hne := habs (b, w) (mem_scan.2 ⟨j, hj⟩)
      rw [K.symm _ _ hkb] at hne
      cases hne
  refine ⟨hok, ?_, rfl, perm_setCell hcell hnone v, ?_⟩
  · rw [hset]
  · exact fun hlast => order_setCell hcell hnone hlast v

end Maps

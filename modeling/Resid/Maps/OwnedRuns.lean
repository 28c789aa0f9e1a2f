import Resid.Maps.Order

/-!
# The table of an owned map and its last probe

The owner of a map updates its table in place and keeps the last search for a raw Int: the
key's word and where the search ended.  A put or lookup of that word takes the kept answer.

    the kept answer is the one a search gives                         (OwnedOk.last)
    Owned.step K o verb = some (o', answer) from every state           (step_spec)

## Algorithm

A fast put searches through the kept answer, writes its slot and keeps where the key now
stands; a slow one forgets the answer first.  What moves keys between slots forgets it too.
-/

namespace Maps

variable {κ υ : Type}

/-- A table, and the word and the end of the last search kept. -/
structure Owned (κ υ : Type) where
  table : Table κ υ
  last : Option (BitVec 64 × Probe)

variable (K : KeyOps κ)

/-! ## Searching -/

/-- The key word of a slot. -/
def slotWord : Slot κ υ → BitVec 64
  | .empty => rawEmpty
  | .tomb => rawTomb
  | .entry k _ => K.word k

/-- The slot of a word from slot `i`, or the first empty one; `fuel` slots at most. -/
def probeRaw (slots : List (Slot κ υ)) (k : BitVec 64) : (fuel i : Nat) → Option Probe
  | 0, _ => none
  | fuel + 1, i =>
    match slots[i]? with
    | none => none
    | some s =>
      if slotWord K s = rawEmpty then some (.free i)
      else if slotWord K s = k then some (.found i)
      else probeRaw slots k fuel ((i + 1) &&& (slots.length - 1))

/-- The search for a raw Int in a table, nothing kept. -/
def probeWord (t : Table κ υ) (k : BitVec 64) : Option Probe :=
  probeRaw K t.slots k t.cap ((mix k).toNat &&& (t.cap - 1))

def probeRawCached (o : Owned κ υ) (k : BitVec 64) : Option (Owned κ υ × Probe) :=
  let search := do
    let r ← probeWord K o.table k
    some ({ o with last := some (k, r) }, r)
  match o.last with
  | some (k', r) => if k' = k then some (o, r) else search
  | none => search

/-! ## Updates -/

/-- The slow put: a rebuild forgets the answer, and so does storing a new key in a slot. -/
def tPutS (o : Owned κ υ) (k : κ) (v : υ) : Option (Owned κ υ) := do
  let t ← tKeyIn K o.table k
  let last := if K.fits o.table.kind k then o.last else none
  let ref ← tRef K t k
  match ref with
  | some i =>
    match t.cells[i]? with
    | some (.entry k0 _) => some ⟨t.setCell i (.entry k0 v), last⟩
    | _ => none
  | none => do
    let t' ← tInsertNew K 2 t k v
    some ⟨t', if (tOob K t.kind k).isSome then last else none⟩

def tabPutOwned (o : Owned κ υ) (k : κ) (v : υ) : Option (Owned κ υ) :=
  tPutS K { o with last := none } k v

/-- Whether a request takes the fast paths: for a typed Int and values of the table's kind
(`typed`), in a raw table, no marking Int. -/
def isFast (o : Owned κ υ) (typed : Bool) (k : κ) : Bool :=
  typed && K.fits .raw k && o.table.kind == .raw && K.word k >>> 1 != rawEmpty >>> 1

def rtMapPut (o : Owned κ υ) (typed : Bool) (k : κ) (v : υ) : Option (Owned κ υ) :=
  if isFast K o typed k then do
    let (o, r) ← probeRawCached K o (K.word k)
    match r with
    | .found i =>
      match o.table.slots[i]? with
      | some (.entry k0 _) => some { o with table := o.table.setCell i (.entry k0 v) }
      | _ => none
    | .free i =>
      if tOver (o.table.live + o.table.tombs + 1) o.table.cap then tabPutOwned K o k v
      else
        -- the kept word now lives there
        some ⟨{ o.table.setCell i (.entry k v) with live := o.table.live + 1 },
          some (K.word k, .found i)⟩
  else tabPutOwned K o k v

/-- Whether the key was there. -/
def tDelOwned (o : Owned κ υ) (k : κ) : Option (Owned κ υ × Bool) :=
  if o.table.live = 0 ∨ K.fits o.table.kind k = false then some (o, false)
  else do
    let ref ← tRef K o.table k
    let t ← tDel K o.table k
    some (⟨t, none⟩, ref.isSome)

def rtMapFind (o : Owned κ υ) (typed : Bool) (k : κ) : Option (Owned κ υ × Option υ) :=
  if isFast K o typed k then do
    let (o, r) ← probeRawCached K o (K.word k)
    match r with
    | .free _ => some (o, none)
    | .found i =>
      match o.table.slots[i]? with
      | some (.entry _ v) => some (o, some v)
      | _ => none
  else do
    let r ← tFind K o.table k
    some (o, r)

def copyTab (o : Owned κ υ) : Owned κ υ := ⟨o.table, none⟩

/-! ## Runs -/

/-- What is asked of a table: a put or lookup by its owner, typed or not; a plain put (a plain
lookup is an untyped one); a deletion; a copy. -/
inductive Verb (κ υ : Type)
  | put (typed : Bool) (k : κ) (v : υ)
  | store (k : κ) (v : υ)
  | del (k : κ)
  | find (typed : Bool) (k : κ)
  | copy

inductive Answer (υ : Type)
  | done
  | deleted (was : Bool)
  | value (v : Option υ)
deriving DecidableEq

def Owned.step (o : Owned κ υ) : Verb κ υ → Option (Owned κ υ × Answer υ)
  | .put typed k v => (rtMapPut K o typed k v).map fun o => (o, .done)
  | .store k v => (tPutS K o k v).map fun o => (o, .done)
  | .del k => (tDelOwned K o k).map fun r => (r.1, .deleted r.2)
  | .find typed k => (rtMapFind K o typed k).map fun r => (r.1, .value r.2)
  | .copy => some (copyTab o, .done)

/-- The answers to a run of requests; none where one of them does not end. -/
def Owned.run : Owned κ υ → List (Verb κ υ) → Option (Owned κ υ × List (Answer υ))
  | o, [] => some (o, [])
  | o, verb :: verbs => do
    let (o, a) ← o.step K verb
    let (o, as) ← run o verbs
    some (o, a :: as)

/-- Slots for `n` entries: the first doubling of `cap` that they fill half at most. -/
def capForAt (n cap : Nat) : Nat :=
  if _h : tOver (n + 1) cap = true ∧ 0 < cap then capForAt n (cap * 2) else cap
termination_by 2 * (n + 1) - cap
decreasing_by
  have hover := of_decide_eq_true _h.1
  omega

def capFor (n : Nat) : Nat := capForAt n 16

/-- A new table with room for `n` entries, of the kind its first update decides. -/
def newTab (n : Nat) (kind : Kind) : Owned κ υ := ⟨tAlloc (capFor n) kind, none⟩

end Maps

/-!
## Every run of an owned table is that of a finite map

The invariant of a run is `OwnedOk`: the table is well formed, and the kept answer is the one a
search for its word gives.

    probeRaw K slots (K.word k) = probeAt K slots k in a raw table                  (probeRaw_eq)
    a request ends, keeps `OwnedOk`, and answers as the history says                  (step_spec)
    a run ends, and its answers are those of the history                               (run_spec)
-/

namespace Maps

open Ranked

variable {κ υ : Type} {K : TableKeys κ}

/-! ## Where a search ends -/

variable {a k : κ} {i : Nat} {t t' : Table κ υ} {w : υ} {o : Owned κ υ} {past : List (Op κ υ)}

theorem probeAt_found {slots : List (Slot κ υ)} {fuel j : Nat}
    (h : probeAt K slots k fuel i = some (.found j)) :
    ∃ a w, slots[j]? = some (Slot.entry a w) ∧ K.eq a k = true := by
  induction fuel generalizing i with
  | zero => cases h
  | succ fuel ih =>
    rw [probeAt] at h
    cases hs : slots[i]? with
    | none =>
      rw [hs] at h
      exact ih h
    | some s =>
      rw [hs] at h
      cases s with
      | empty => cases h
      | tomb => exact ih h
      | entry a w =>
        simp only at h
        by_cases heq : K.eq a k = true
        · rw [if_pos heq, Option.some.injEq, Probe.found.injEq] at h
          subst h
          exact ⟨a, w, hs, heq⟩
        · rw [if_neg heq] at h
          exact ih h

/-- A search ends at the key's entry, or the key has none. -/
theorem probe_cases (h : TableOk K t) (hoob : tOob K t.kind k = none) :
    (∃ i a w, tProbe K t k = some (.found i) ∧ i < t.slots.length ∧
      t.cells[i]? = some (Slot.entry a w) ∧ K.eq a k = true) ∨
    (∃ i, tProbe K t k = some (.free i) ∧ Absent K k t) := by
  rcases present_or_absent (K := K) t k with habs | ⟨i, a, w, hi, heq⟩
  · obtain ⟨d, -, hprobe, -⟩ := tProbe_free h habs
    exact .inr ⟨_, hprobe, habs⟩
  · have hprobe := tProbe_found h hoob hi heq
    obtain ⟨a', w', hslot, -⟩ := probeAt_found hprobe
    exact .inl ⟨i, a, w, hprobe, (List.getElem?_eq_some_iff.1 hslot).1, hi, heq⟩

/-- No search goes round for ever: half of the slots are free. -/
theorem tProbe_ends (h : TableOk K t) (k : κ) : tProbe K t k ≠ none := by
  obtain ⟨n, -, hcap⟩ := h.sized
  have hpos : 0 < t.slots.length := by
    rw [hcap]
    exact Nat.pow_pos (by decide)
  obtain ⟨s, hs, hfree⟩ : ∃ s ∈ t.slots, s.used = false := by
    apply List.countP_lt_length_iff.1
    have := h.half
    omega
  have hempty : s = .empty := by
    cases s with
    | empty => rfl
    | tomb => cases hfree
    | entry a v => cases hfree
  subst hempty
  obtain ⟨i, hi⟩ := List.mem_iff_getElem?.1 hs
  obtain ⟨d, hd, rfl⟩ := exists_slotAt hcap (List.getElem?_eq_some_iff.1 hi).1 (tHash K t.kind k)
  obtain ⟨m, -, c, -, -, -, hprobe⟩ := probeAt_first (K := K) (k := k) hcap hd hi rfl
  intro hnone
  have hsame : probeAt K t.slots k t.slots.length
      (slotAt t.slots.length (tHash K t.kind k) 0) = none := hnone
  rw [hsame] at hprobe
  cases hprobe

/-! ## Searching for a word -/

theorem slotWord_ne (h : TableOk K t) (hkind : t.kind = .raw)
    (hi : t.slots[i]? = some (Slot.entry a w)) :
    K.word a ≠ rawEmpty ∧ K.word a ≠ rawTomb ∧ K.fits .raw a = true := by
  have hlt := (List.getElem?_eq_some_iff.1 hi).1
  have hcell := (cells_slot hlt).trans hi
  have hoob := h.slot_of_cell hlt hcell
  rw [hkind] at hoob
  unfold tOob at hoob
  refine ⟨?_, ?_, ?_⟩
  · intro hempty
    rw [if_pos hempty] at hoob
    cases hoob
  · intro htomb
    by_cases hempty : K.word a = rawEmpty
    · rw [if_pos hempty] at hoob
      cases hoob
    · rw [if_neg hempty, if_pos htomb] at hoob
      cases hoob
  · rw [← hkind]
    exact (h.placed i a w hcell).1

/-- In a raw table a word is searched for as its key is. -/
theorem probeRaw_eq (h : TableOk K t) (hkind : t.kind = .raw) (hfits : K.fits .raw k = true)
    (htomb : K.word k ≠ rawTomb) (fuel i : Nat) (hi : i < t.slots.length) :
    probeRaw K t.slots (K.word k) fuel i = probeAt K t.slots k fuel i := by
  obtain ⟨n, -, hcap⟩ := h.sized
  induction fuel generalizing i with
  | zero => rfl
  | succ fuel ih =>
    have hnext : (i + 1) &&& (t.slots.length - 1) < t.slots.length := slotAt_lt hcap i 1
    rw [probeRaw, probeAt]
    cases hs : t.slots[i]? with
    | none =>
      rw [List.getElem?_eq_none_iff] at hs
      omega
    | some s =>
      cases s with
      | empty => rfl
      | tomb =>
        have hmark : ¬ slotWord K (Slot.tomb : Slot κ υ) = rawEmpty := by
          show ¬ rawTomb = rawEmpty
          decide
        have hother : ¬ slotWord K (Slot.tomb : Slot κ υ) = K.word k := fun h0 => htomb h0.symm
        simp only
        rw [if_neg hmark, if_neg hother]
        exact ih _ hnext
      | entry a w =>
        obtain ⟨hne, -, hfa⟩ := slotWord_ne h hkind hs
        have hmark : ¬ slotWord K (Slot.entry a w) = rawEmpty := hne
        simp only
        rw [if_neg hmark]
        by_cases heq : K.eq a k = true
        · have hsame : slotWord K (Slot.entry a w) = K.word k := K.word_eq a k heq
          rw [if_pos hsame, if_pos heq]
        · have hother : ¬ slotWord K (Slot.entry a w) = K.word k :=
            fun h0 => heq (K.word_inj a k hfa hfits h0)
          rw [if_neg hother, if_neg heq]
          exact ih _ hnext

theorem own_slot_lt {cap n : Nat} (hcap : cap = 2 ^ n) (h : Nat) : h &&& (cap - 1) < cap := by
  have hlt := slotAt_lt hcap h 0
  rwa [slotAt, Nat.add_zero] at hlt

theorem probeWord_eq (h : TableOk K t) (hkind : t.kind = .raw) (hfits : K.fits .raw k = true)
    (htomb : K.word k ≠ rawTomb) : probeWord K t (K.word k) = tProbe K t k := by
  obtain ⟨n, -, hcap⟩ := h.sized
  have hhash : tHash K t.kind k = (mix (K.word k)).toNat := by
    unfold tHash
    rw [if_pos hkind]
  unfold tProbe probeWord
  rw [hhash]
  generalize (mix (K.word k)).toNat = own
  exact probeRaw_eq h hkind hfits htomb _ _ (own_slot_lt hcap own)

/-- A search for a word reads the slots' words alone. -/
theorem probeRaw_congr {slots slots' : List (Slot κ υ)}
    (h : slots'.map (slotWord K) = slots.map (slotWord K)) (w : BitVec 64) (fuel i : Nat) :
    probeRaw K slots' w fuel i = probeRaw K slots w fuel i := by
  have hlen : slots'.length = slots.length := by
    have := congrArg List.length h
    rwa [List.length_map, List.length_map] at this
  induction fuel generalizing i with
  | zero => rfl
  | succ fuel ih =>
    have hget : slots'[i]?.map (slotWord K) = slots[i]?.map (slotWord K) := by
      rw [← List.getElem?_map, ← List.getElem?_map, h]
    rw [probeRaw, probeRaw, hlen]
    cases hs : slots[i]? with
    | none =>
      rw [hs, Option.map_none, Option.map_eq_none_iff] at hget
      rw [hget]
    | some s =>
      rw [hs, Option.map_some] at hget
      obtain ⟨s', hs', hword⟩ := Option.map_eq_some_iff.1 hget
      rw [hs']
      simp only
      rw [hword, ih]

theorem probeWord_congr (h : t'.slots.map (slotWord K) = t.slots.map (slotWord K)) (w : BitVec 64) :
    probeWord K t' w = probeWord K t w := by
  have hcap : t'.cap = t.cap := by
    have := congrArg List.length h
    rwa [List.length_map, List.length_map] at this
  unfold probeWord
  rw [hcap]
  exact probeRaw_congr h w _ _

/-- Another value leaves the words as they are. -/
theorem words_setVal (hi : t.cells[i]? = some (Slot.entry a w)) (v : υ) :
    (t.setCell i (.entry a v)).slots.map (slotWord K) = t.slots.map (slotWord K) := by
  rcases Nat.lt_or_ge i t.slots.length with hlt | hge
  · have hslot := (cells_slot hlt).symm.trans hi
    rw [setCell_slots hlt, List.map_set]
    apply List.ext_getElem?
    intro j
    by_cases hji : i = j
    · subst hji
      rw [List.getElem?_set_self (by rw [List.length_map]; exact hlt), List.getElem?_map, hslot]
      rfl
    · rw [List.getElem?_set_ne hji]
  · obtain ⟨o, rfl⟩ := Nat.exists_eq_add_of_le hge
    rw [setCell_oob]

/-! ## The invariant -/

structure OwnedOk (K : TableKeys κ) (o : Owned κ υ) : Prop where
  ok : TableOk K o.table
  last : ∀ w r, o.last = some (w, r) → probeWord K o.table w = some r

theorem OwnedOk.forget (h : TableOk K t) : OwnedOk K ⟨t, none⟩ :=
  ⟨h, fun _ _ h0 => by cases h0⟩

theorem isFast_spec {typed : Bool} (h : isFast K o typed k = true) :
    o.table.kind = .raw ∧ K.fits .raw k = true ∧ K.word k ≠ rawTomb ∧
      tOob K o.table.kind k = none := by
  unfold isFast at h
  simp only [Bool.and_eq_true, bne_iff_ne, ne_eq, beq_iff_eq] at h
  obtain ⟨⟨⟨-, hfits⟩, hkind⟩, hmark⟩ := h
  have hempty : K.word k ≠ rawEmpty := fun h0 => hmark (by rw [h0])
  have htomb : K.word k ≠ rawTomb := fun h0 => hmark (by rw [h0]; decide)
  refine ⟨hkind, hfits, htomb, ?_⟩
  unfold tOob
  rw [hkind, if_neg (by decide), if_neg hempty, if_neg htomb]

/-- The fast search gives what a search for the key gives, and keeps it. -/
theorem probeRawCached_spec (h : OwnedOk K o) (hkind : o.table.kind = .raw)
    (hfits : K.fits .raw k = true) (htomb : K.word k ≠ rawTomb) {r : Probe}
    (hr : tProbe K o.table k = some r) :
    probeRawCached K o (K.word k) = some (⟨o.table, some (K.word k, r)⟩, r) ∧
      OwnedOk K ⟨o.table, some (K.word k, r)⟩ := by
  have hword := (probeWord_eq h.ok hkind hfits htomb).trans hr
  constructor
  · unfold probeRawCached
    rw [hword]
    cases hlast : o.last with
    | none => rfl
    | some kept =>
      obtain ⟨k', r'⟩ := kept
      simp only
      by_cases hsame : k' = K.word k
      · subst hsame
        have hkept := (h.last _ _ hlast).symm.trans hword
        obtain rfl := Option.some.inj hkept
        rw [if_pos rfl, ← hlast]
      · rw [if_neg hsame]
        rfl
  · refine ⟨h.ok, fun w r' h0 => ?_⟩
    rw [Option.some.injEq, Prod.mk.injEq] at h0
    rw [← h0.1, ← h0.2]
    exact hword

/-! ## Updates -/

theorem setVal_owned (h : OwnedOk K o) (hi : o.table.cells[i]? = some (Slot.entry a w))
    (heq : K.eq a k = true) (v : υ) : OwnedOk K ⟨o.table.setCell i (.entry a v), o.last⟩ := by
  refine ⟨(setVal_spec h.ok hi heq v).1, fun w' r h0 => ?_⟩
  show probeWord K (o.table.setCell i (.entry a v)) w' = some r
  rw [probeWord_congr (words_setVal hi v)]
  exact h.last w' r h0

theorem tPutS_spec (h : OwnedOk K o) (k : κ) (v : υ) :
    ∃ o', tPutS K o k v = some o' ∧ OwnedOk K o' ∧ HasPut K o.table k v o'.table := by
  obtain ⟨t1, ht1, hok1, hfits1, hperm, -⟩ := tKeyIn_spec h.ok k
  have hback : ∀ {t'}, HasPut K t1 k v t' → HasPut K o.table k v t' := by
    intro t' hput k' v'
    rw [hput k' v', Has.perm hperm]
  -- what is kept past a change of kind is kept of the same table
  have howned : OwnedOk K ⟨t1, if K.fits o.table.kind k then o.last else none⟩ := by
    unfold tKeyIn at ht1
    by_cases hfits : K.fits o.table.kind k = true
    · rw [if_pos hfits, Option.some.injEq] at ht1
      rw [if_pos hfits, ← ht1]
      exact h
    · rw [if_neg hfits]
      exact OwnedOk.forget hok1
  generalize hlast : (if K.fits o.table.kind k then o.last else none) = last at howned
  unfold tPutS
  rw [ht1]
  rcases present_or_absent (K := K) t1 k with habs | ⟨i, a, w, hi, heq⟩
  · obtain ⟨t', ht', hstored⟩ := insertNew_spec hok1 1 hfits1 habs v
    have hrun : (do
        let t'' ← tInsertNew K 2 t1 k v
        some (Owned.mk t'' (if (tOob K t1.kind k).isSome then last else none))) =
          some ⟨t', if (tOob K t1.kind k).isSome then last else none⟩ := by
      rw [ht']
      rfl
    refine ⟨⟨t', if (tOob K t1.kind k).isSome then last else none⟩, ?_, ?_,
      hback (hstored.has habs)⟩
    · simp only [Option.bind_eq_bind, Option.bind_some, tRef_none hok1 habs, hlast]
      exact hrun
    · cases hoob : tOob K t1.kind k with
      | none => exact OwnedOk.forget hstored.ok
      | some place =>
        rw [tInsertNew.eq_def, hoob, Option.some.injEq] at ht'
        refine ⟨hstored.ok, fun w r h0 => ?_⟩
        have hslots : t'.slots = t1.slots := by
          rw [← ht']
          show (t1.setCell (t1.slots.length + place) (.entry k v)).slots = t1.slots
          rw [setCell_oob]
        have hwords : t'.slots.map (slotWord K) = t1.slots.map (slotWord K) := by rw [hslots]
        show probeWord K t' w = some r
        rw [probeWord_congr hwords]
        exact howned.last w r h0
  · refine ⟨⟨t1.setCell i (.entry a v), last⟩, ?_, setVal_owned howned hi heq v,
      hback (setVal_has hok1 hi heq v)⟩
    simp [Option.bind_eq_bind, Option.bind_some, tRef_some hok1 hi heq, hi, hlast]

theorem tabPutOwned_spec (h : OwnedOk K o) (k : κ) (v : υ) :
    ∃ o', tabPutOwned K o k v = some o' ∧ OwnedOk K o' ∧ HasPut K o.table k v o'.table :=
  tPutS_spec (OwnedOk.forget h.ok) k v

theorem rtMapPut_spec (h : OwnedOk K o) (typed : Bool) (k : κ) (v : υ) :
    ∃ o', rtMapPut K o typed k v = some o' ∧ OwnedOk K o' ∧ HasPut K o.table k v o'.table := by
  unfold rtMapPut
  by_cases hfast : isFast K o typed k = true
  · rw [if_pos hfast]
    obtain ⟨hkind, hfits, htomb, hoob⟩ := isFast_spec hfast
    rcases probe_cases h.ok hoob with ⟨i, a, w, hprobe, hlt, hi, heq⟩ | ⟨i, hprobe, habs⟩
    · obtain ⟨hcached, hok⟩ := probeRawCached_spec h hkind hfits htomb hprobe
      have hslot := (cells_slot hlt).symm.trans hi
      refine ⟨⟨o.table.setCell i (.entry a v), some (K.word k, .found i)⟩, ?_,
        setVal_owned hok hi heq v, setVal_has h.ok hi heq v⟩
      rw [hcached]
      show (match o.table.slots[i]? with | some (.entry k0 _) => _ | _ => none) = _
      rw [hslot]
    · obtain ⟨hcached, hok⟩ := probeRawCached_spec h hkind hfits htomb hprobe
      rw [hcached]
      by_cases hover : tOver (o.table.live + o.table.tombs + 1) o.table.cap = true
      · obtain ⟨o', ho', hok', hhas⟩ := tabPutOwned_spec hok k v
        refine ⟨o', ?_, hok', hhas⟩
        exact (if_pos hover).trans ho'
      · have hroom : (o.table.live + o.table.tombs + 1) * 2 ≤ o.table.cap := by
          unfold tOver at hover
          rw [decide_eq_true_eq] at hover
          omega
        have hfits' : K.fits o.table.kind k = true := by rw [hkind]; exact hfits
        obtain ⟨t', ht', hstored, -, -⟩ := tStore_spec h.ok hfits' hoob habs hroom v
        have hshape : t' = { o.table.setCell i (.entry k v) with live := o.table.live + 1 } := by
          unfold tStore at ht'
          rw [hprobe] at ht'
          exact (Option.some.inj ht').symm
        subst hshape
        refine ⟨_, if_neg hover, ⟨hstored.ok, fun w r h0 => ?_⟩, hstored.has habs⟩
        obtain ⟨rfl, rfl⟩ := h0
        -- the key's entry is where its search ended
        obtain ⟨n, -, hcap⟩ := h.ok.sized
        obtain ⟨d, -, hfree, -⟩ := tProbe_free h.ok habs
        rw [hprobe, Option.some.injEq, Probe.free.injEq] at hfree
        have hlt : i < o.table.slots.length := hfree ▸ slotAt_lt hcap _ d
        have hcell : (o.table.setCell i (.entry k v)).cells[i]? = some (Slot.entry k v) := by
          rw [cells_setCell, List.getElem?_set_self]
          rw [cells_length]
          omega
        have hkind' := hstored.kind_eq.trans hkind
        have hoob' := hoob
        rw [← hstored.kind_eq] at hoob'
        exact (probeWord_eq hstored.ok hkind' hfits htomb).trans
          (tProbe_found hstored.ok hoob' hcell (K.refl k))
  · rw [if_neg hfast]
    exact tabPutOwned_spec h k v

/-- A fast lookup answers as a plain one, and changes the kept answer alone. -/
theorem rtMapFind_spec (h : OwnedOk K o) (typed : Bool) (k : κ) :
    ∃ o' r, rtMapFind K o typed k = some (o', r) ∧ OwnedOk K o' ∧ o'.table = o.table ∧
      ∀ v, r = some v ↔ Has K o.table k v := by
  unfold rtMapFind
  by_cases hfast : isFast K o typed k = true
  · rw [if_pos hfast]
    obtain ⟨hkind, hfits, htomb, hoob⟩ := isFast_spec hfast
    rcases probe_cases h.ok hoob with ⟨i, a, w, hprobe, hlt, hi, heq⟩ | ⟨i, hprobe, habs⟩
    · obtain ⟨hcached, hok⟩ := probeRawCached_spec h hkind hfits htomb hprobe
      have hslot := (cells_slot hlt).symm.trans hi
      refine ⟨_, some w, ?_, hok, rfl, ?_⟩
      · rw [hcached]
        show (match o.table.slots[i]? with | some (.entry _ v) => _ | _ => none) = _
        rw [hslot]
      · intro v
        rw [has_of_cell h.ok hi heq, Option.some.injEq]
        exact eq_comm
    · obtain ⟨hcached, hok⟩ := probeRawCached_spec h hkind hfits htomb hprobe
      refine ⟨_, none, ?_, hok, rfl, ?_⟩
      · rw [hcached]
        rfl
      · exact fun v => iff_of_false (by rintro ⟨⟩) (not_has_of_absent habs v)
  · rw [if_neg hfast]
    obtain ⟨r, hr, hhas⟩ := tFind_spec h.ok k
    refine ⟨o, r, ?_, h, rfl, hhas⟩
    rw [hr]
    rfl

theorem tDelOwned_spec (h : OwnedOk K o) (k : κ) :
    ∃ o' was, tDelOwned K o k = some (o', was) ∧ OwnedOk K o' ∧
      (was = true ↔ ∃ v, Has K o.table k v) ∧
      ∀ k' v', Has K o'.table k' v' ↔ if K.eq k k' then False else Has K o.table k' v' := by
  obtain ⟨t', ht', hok', hhas'⟩ := tDel_has h.ok k
  unfold tDelOwned
  by_cases hskip : o.table.live = 0 ∨ K.fits o.table.kind k = false
  · rw [if_pos hskip]
    have hnone : tRef K o.table k = some none := if_pos hskip
    have hsame : tDel K o.table k = some o.table := by
      unfold tDel
      rw [hnone]
      rfl
    rw [hsame, Option.some.injEq] at ht'
    subst ht'
    refine ⟨o, false, rfl, h, ?_, hhas'⟩
    refine iff_of_false Bool.false_ne_true ?_
    rintro ⟨v, hv⟩
    have hgone := (hhas' k v).1 hv
    rwa [if_pos (K.refl k)] at hgone
  · rw [if_neg hskip]
    rcases present_or_absent (K := K) o.table k with habs | ⟨i, a, w, hi, heq⟩
    · refine ⟨⟨t', none⟩, false, ?_, OwnedOk.forget hok', ?_, hhas'⟩
      · rw [tRef_none h.ok habs, ht']
        rfl
      · refine iff_of_false Bool.false_ne_true ?_
        rintro ⟨v, hv⟩
        exact not_has_of_absent habs v hv
    · refine ⟨⟨t', none⟩, true, ?_, OwnedOk.forget hok', ?_, hhas'⟩
      · rw [tRef_some h.ok hi heq, ht']
        rfl
      · exact iff_of_true rfl ⟨w, (has_of_cell h.ok hi heq w).2 rfl⟩

/-! ## Runs -/

/-- What a request does to the map. -/
def Verb.op : Verb κ υ → Option (Op κ υ)
  | .put _ k v => some (.insert k v)
  | .store k v => some (.insert k v)
  | .del k => some (.remove k)
  | .find _ _ => none
  | .copy => none

/-- The answer of a map whose history is `past`. -/
def answerOf (K : Keys κ) (past : List (Op κ υ)) : Verb κ υ → Answer υ
  | .put _ _ _ => .done
  | .store _ _ => .done
  | .del k => .deleted (lastValue K k past).isSome
  | .find _ k => .value (lastValue K k past)
  | .copy => .done

def answers (K : Keys κ) : List (Op κ υ) → List (Verb κ υ) → List (Answer υ)
  | _, [] => []
  | past, verb :: verbs => answerOf K past verb :: answers K (past ++ verb.op.toList) verbs

/-- The table has what was last put and not deleted since. -/
def Shows (K : TableKeys κ) (t : Table κ υ) (past : List (Op κ υ)) : Prop :=
  ∀ k v, Has K t k v ↔ lastValue K.toKeys k past = some v

theorem Shows.unique (h : Shows K t past) {r : Option υ} (hr : ∀ v, r = some v ↔ Has K t k v) :
    r = lastValue K.toKeys k past := by
  apply Option.ext
  intro v
  rw [hr, h k v]

theorem lastValue_concat (k : κ) (past : List (Op κ υ)) (op : Op κ υ) :
    lastValue K.toKeys k (past ++ [op]) =
      valueAfter K.toKeys k (lastValue K.toKeys k past) op :=
  List.foldl_concat _ _ op past

theorem Shows.put (h : Shows K t past) {v : υ} (hput : HasPut K t k v t') :
    Shows K t' (past ++ [.insert k v]) := by
  intro k' v'
  rw [hput k' v', lastValue_concat]
  show _ ↔ (if K.eq k k' then some v else lastValue K.toKeys k' past) = some v'
  by_cases hkk : K.eq k k' = true
  · rw [if_pos hkk, if_pos hkk, Option.some.injEq]
    exact eq_comm
  · rw [if_neg hkk, if_neg hkk]
    exact h k' v'

theorem Shows.del (h : Shows K t past)
    (hdel : ∀ k' v', Has K t' k' v' ↔ if K.eq k k' then False else Has K t k' v') :
    Shows K t' (past ++ [.remove k]) := by
  intro k' v'
  rw [hdel k' v', lastValue_concat]
  show _ ↔ (if K.eq k k' then none else lastValue K.toKeys k' past) = some v'
  by_cases hkk : K.eq k k' = true
  · rw [if_pos hkk, if_pos hkk]
    exact iff_of_false id (by rintro ⟨⟩)
  · rw [if_neg hkk, if_neg hkk]
    exact h k' v'

/-- One request. -/
theorem step_spec (h : OwnedOk K o) (hshows : Shows K o.table past) (verb : Verb κ υ) :
    ∃ o', o.step K verb = some (o', answerOf K.toKeys past verb) ∧ OwnedOk K o' ∧
      Shows K o'.table (past ++ verb.op.toList) := by
  cases verb with
  | put typed k v =>
    obtain ⟨o', ho', hok', hput⟩ := rtMapPut_spec h typed k v
    refine ⟨o', ?_, hok', hshows.put hput⟩
    show (rtMapPut K o typed k v).map _ = _
    rw [ho']
    rfl
  | store k v =>
    obtain ⟨o', ho', hok', hput⟩ := tPutS_spec h k v
    refine ⟨o', ?_, hok', hshows.put hput⟩
    show (tPutS K o k v).map _ = _
    rw [ho']
    rfl
  | del k =>
    obtain ⟨o', was, ho', hok', hwas, hdel⟩ := tDelOwned_spec h k
    refine ⟨o', ?_, hok', hshows.del hdel⟩
    have hsome : was = (lastValue K.toKeys k past).isSome := by
      rw [Bool.eq_iff_iff, hwas, Option.isSome_iff_exists]
      constructor
      · rintro ⟨v, hv⟩
        exact ⟨v, (hshows k v).1 hv⟩
      · rintro ⟨v, hv⟩
        exact ⟨v, (hshows k v).2 hv⟩
    show (tDelOwned K o k).map _ = some (o', Answer.deleted (lastValue K.toKeys k past).isSome)
    rw [ho', hsome]
    rfl
  | find typed k =>
    obtain ⟨o', r, ho', hok', htable, hr⟩ := rtMapFind_spec h typed k
    refine ⟨o', ?_, hok', ?_⟩
    · show (rtMapFind K o typed k).map _ = some (o', Answer.value (lastValue K.toKeys k past))
      rw [ho', ← hshows.unique hr]
      rfl
    · rw [htable, show (Verb.find typed k : Verb κ υ).op.toList = [] from rfl, List.append_nil]
      exact hshows
  | copy =>
    refine ⟨copyTab o, rfl, OwnedOk.forget h.ok, ?_⟩
    rw [show (Verb.copy : Verb κ υ).op.toList = [] from rfl, List.append_nil]
    exact hshows

theorem run_spec (h : OwnedOk K o) (hshows : Shows K o.table past) (verbs : List (Verb κ υ)) :
    ∃ o', o.run K verbs = some (o', answers K.toKeys past verbs) ∧ OwnedOk K o' ∧
      Shows K o'.table (past ++ verbs.filterMap Verb.op) := by
  induction verbs generalizing o past with
  | nil =>
    refine ⟨o, rfl, h, ?_⟩
    rw [List.filterMap_nil, List.append_nil]
    exact hshows
  | cons verb verbs ih =>
    obtain ⟨o1, hstep, hok1, hshows1⟩ := step_spec h hshows verb
    obtain ⟨o', hrun, hok', hshows'⟩ := ih hok1 hshows1
    refine ⟨o', ?_, hok', ?_⟩
    · rw [Owned.run, hstep]
      simp only [Option.bind_eq_bind, Option.bind_some, hrun]
      rfl
    · rw [List.append_assoc] at hshows'
      have hcons : (verb :: verbs).filterMap Verb.op =
          verb.op.toList ++ verbs.filterMap Verb.op := by
        cases hop : verb.op with
        | none => exact List.filterMap_cons_none hop
        | some op => exact List.filterMap_cons_some hop
      rw [hcons]
      exact hshows'

/-! ## A new table -/

theorem capForAt_sized (n : Nat) {cap j : Nat} (hj : 4 ≤ j) (hcap : cap = 2 ^ j) :
    ∃ m, 4 ≤ m ∧ capForAt n cap = 2 ^ m := by
  induction hd : 2 * (n + 1) - cap using Nat.strong_induction_on generalizing cap j with
  | _ d ih =>
    rw [capForAt]
    by_cases hgrow : tOver (n + 1) cap = true ∧ 0 < cap
    · rw [dif_pos hgrow]
      have hover := of_decide_eq_true hgrow.1
      refine ih (2 * (n + 1) - cap * 2) (by omega) (show 4 ≤ j + 1 by omega) ?_ rfl
      rw [hcap, Nat.pow_succ]
    · rw [dif_neg hgrow]
      exact ⟨j, hj, hcap⟩

theorem newTab_ok (n : Nat) (kind : Kind) : OwnedOk K (newTab n kind : Owned κ υ) := by
  obtain ⟨m, hm, hcap⟩ := @capForAt_sized n 16 4 (le_refl 4) rfl
  exact OwnedOk.forget (tAlloc_ok hm hcap kind)

theorem newTab_shows (n : Nat) (kind : Kind) : Shows K (newTab n kind : Owned κ υ).table [] :=
  fun k v => iff_of_false (not_has_alloc _ kind k v) (by rintro ⟨⟩)

end Maps

import Mathlib.Data.List.Nodup
import Resid.Zone.Transitions
import Resid.Zone.Switches

/-!
# The offset at an instant

The block that has begun governs an instant, its rule past the last transition.  Before the first
transition it is the first type that is not daylight saving; where there is none, or where the index
points outside the table of types, the offset is 0.

    Produced z → z.Sound                                                        (Produced.sound)
    z.Sound → zoneOffsetAt z utc = some o, o.seconds ∈ zoneOffsets z ∨ o.seconds = 0
                                                                            (zoneOffsetAt_sound)
-/

namespace TimeZone

open CheckedInt Runtime

/-! ## Algorithm -/

/-- Whether the transitions of a block have begun at `utc`. -/
def begun (b : ZoneBlock) (utc : Int) : Bool :=
  match b.transitions with
  | [] => false
  | t :: _ => decide (utc ≥ t)

def zonePickBlock (z : Zone) (utc : Int) : ZoneBlock :=
  if begun z.second utc then z.second
  else if begun z.first utc then z.first
  else if z.second.types.length > 0 then z.second
  else z.first

/-- Whether there is a rule with a standard name. -/
def posixIsSome : Option PosixTz → Bool
  | some p => decide (strLen p.std > 0)
  | none => false

/-- Whether the rule governs `utc`: past the last transition, or when there are none. -/
def zoneFooterApplies (z : Zone) (b : ZoneBlock) (utc : Int) : Bool :=
  if posixIsSome z.footerRule = false then false
  else
    match b.transitions.getLast? with
    | none => true
    | some last => decide (utc > last)

/-- The index of the first type that is not daylight saving, or -1. -/
def zoneDefaultScan : List ZoneType → Int → Int
  | [], _ => -1
  | t :: types, i => if t.isdst = false then i else zoneDefaultScan types (i + 1)

def zoneDefaultType (types : List ZoneType) : Int := zoneDefaultScan types 0

def posixFooterOffset : Option PosixTz → Int → Option Offset
  | some p, utc => posixOffsetAt p utc
  | none, _ => some ⟨0, false, []⟩

def zoneTypeIndex (b : ZoneBlock) (idx : Int) : Int :=
  if idx < 0 ∨ idx ≥ b.typeIndex.length then 0 else b.typeIndex.getD idx.toNat 0

def zoneOffsetOfType (b : ZoneBlock) (ti : Int) : Option Offset :=
  if ti < 0 then some ⟨0, false, []⟩
  else
    match b.types[ti.toNat]? with
    | none => some ⟨0, false, []⟩
    | some t => do
      let name ← tzAbbrevAt b.abbrevs t.abbrevIndex
      some ⟨t.offset, t.isdst, name⟩

/-- What the clocks read at `utc`; zero with no name when no type applies. -/
def zoneOffsetAt (z : Zone) (utcIn : Int) : Option Offset := do
  let utc := tzClampSeconds utcIn
  let b := zonePickBlock z utc
  if zoneFooterApplies z b utc then posixFooterOffset z.footerRule utc
  else
    let idx ← zoneFindTransition b.transitions utc
    zoneOffsetOfType b (if idx < 0 then zoneDefaultType b.types else zoneTypeIndex b idx)

def zoneOffsetSeconds (z : Zone) (utc : Int) : Option Int := do
  let o ← zoneOffsetAt z utc
  some o.seconds

def addUnique (xs : List Int) (v : Int) : List Int := if v ∈ xs then xs else xs ++ [v]

def zoneBlockOffsetsAt : List ZoneType → List Int → List Int
  | [], acc => acc
  | t :: types, acc => zoneBlockOffsetsAt types (addUnique acc t.offset)

def posixOffsetList (p : PosixTz) (acc : List Int) : List Int :=
  let a2 := addUnique acc p.stdOff
  if p.hasDst then addUnique a2 p.dstOff else a2

def zoneFooterOffsetsList : Option PosixTz → List Int → List Int
  | some p, acc => posixOffsetList p acc
  | none, acc => acc

/-- Every distinct offset of the types and of the rule. -/
def zoneOffsets (z : Zone) : List Int :=
  zoneFooterOffsetsList z.footerRule
    (zoneBlockOffsetsAt z.second.types (zoneBlockOffsetsAt z.first.types []))

/-! ## The list of offsets -/

@[simp] theorem mem_addUnique {xs : List Int} {v x : Int} : x ∈ addUnique xs v ↔ x ∈ xs ∨ x = v := by
  unfold addUnique
  split_ifs with h
  · constructor
    · exact Or.inl
    · rintro (hx | rfl)
      · exact hx
      · exact h
  · rw [List.mem_append, List.mem_singleton]

theorem nodup_addUnique {xs : List Int} (h : xs.Nodup) (v : Int) : (addUnique xs v).Nodup := by
  unfold addUnique
  split_ifs with hv
  · exact h
  · exact List.nodup_append.2 ⟨h, List.nodup_singleton v, by
      intro a ha c hc heq
      rw [List.mem_singleton.1 hc] at heq
      exact hv (heq ▸ ha)⟩

theorem mem_zoneBlockOffsetsAt {types : List ZoneType} {acc : List Int} {x : Int} :
    x ∈ zoneBlockOffsetsAt types acc ↔ x ∈ acc ∨ ∃ t ∈ types, t.offset = x := by
  induction types generalizing acc with
  | nil => simp [zoneBlockOffsetsAt]
  | cons t types ih =>
    rw [zoneBlockOffsetsAt, ih, mem_addUnique, or_assoc, List.exists_mem_cons_iff]
    simp [eq_comm]

theorem nodup_zoneBlockOffsetsAt {types : List ZoneType} {acc : List Int} (h : acc.Nodup) :
    (zoneBlockOffsetsAt types acc).Nodup := by
  induction types generalizing acc with
  | nil => exact h
  | cons t types ih => exact ih (nodup_addUnique h t.offset)

theorem nodup_zoneOffsets (z : Zone) : (zoneOffsets z).Nodup := by
  have hblocks : (zoneBlockOffsetsAt z.second.types
      (zoneBlockOffsetsAt z.first.types [])).Nodup :=
    nodup_zoneBlockOffsetsAt (nodup_zoneBlockOffsetsAt List.nodup_nil)
  unfold zoneOffsets
  cases z.footerRule with
  | none => exact hblocks
  | some p =>
    unfold zoneFooterOffsetsList posixOffsetList
    simp only
    split_ifs
    · exact nodup_addUnique (nodup_addUnique hblocks _) _
    · exact nodup_addUnique hblocks _

/-- An offset of a type or of the rule. -/
theorem mem_zoneOffsets {z : Zone} {x : Int} : x ∈ zoneOffsets z ↔
    (∃ t, (t ∈ z.first.types ∨ t ∈ z.second.types) ∧ t.offset = x) ∨
      ∃ p, z.footerRule = some p ∧ (x = p.stdOff ∨ p.hasDst = true ∧ x = p.dstOff) := by
  have hblocks : x ∈ zoneBlockOffsetsAt z.second.types (zoneBlockOffsetsAt z.first.types []) ↔
      ∃ t, (t ∈ z.first.types ∨ t ∈ z.second.types) ∧ t.offset = x := by
    rw [mem_zoneBlockOffsetsAt, mem_zoneBlockOffsetsAt]
    simp [List.not_mem_nil, false_or, or_and_right, exists_or]
  unfold zoneOffsets
  cases z.footerRule with
  | none => simp [zoneFooterOffsetsList, hblocks]
  | some p =>
    rw [← hblocks]
    unfold zoneFooterOffsetsList posixOffsetList
    simp only
    split_ifs with hdst
    · simp [hdst, or_assoc]
    · simp [hdst]

/-! ## Zones that files and rules give -/

/-- The types of a zone have offsets of 32 bits and names inside a text, its rule small numbers. -/
structure Zone.Sound (z : Zone) : Prop where
  types : ∀ t, t ∈ z.first.types ∨ t ∈ z.second.types →
    0 ≤ t.abbrevIndex ∧ -2147483648 ≤ t.offset ∧ t.offset < 2147483648
  rule : ∀ p, z.footerRule = some p → p.Small

theorem tzU8_bounds (b : List UInt8) (i : Int) : -1 ≤ tzU8 b i ∧ tzU8 b i < 256 := by
  unfold tzU8
  split_ifs
  · omega
  · have := (b.getD i.toNat 0).toNat_lt
    omega

theorem tzI32_bounds (b : List UInt8) (i : Int) :
    -2147483648 ≤ tzI32 b i ∧ tzI32 b i < 2147483648 := by
  have h0 := tzU8_bounds b i
  have h1 := tzU8_bounds b (i + 1)
  have h2 := tzU8_bounds b (i + 2)
  have h3 := tzU8_bounds b (i + 2 + 1)
  unfold tzI32 tzU32 tzU16
  simp only
  all_goals omega

/-- A type of a block that is read. -/
theorem tzBlockAt_types {b : List UInt8} {h w : Nat} {t : ZoneType}
    (ht : t ∈ (tzBlockAt b h w).types) :
    0 ≤ t.abbrevIndex ∧ -2147483648 ≤ t.offset ∧ t.offset < 2147483648 := by
  have hwhole : Whole b h w := whole_of_types fun h0 => by
    rw [List.length_eq_zero_iff.1 h0] at ht
    cases ht
  obtain ⟨htype, hend⟩ := hwhole
  have hlen : h + 44 ≤ b.length := by omega
  obtain ⟨htime, htypes, hsize⟩ := counts_eq hlen
  have hok := counts_ok_iff.2 ⟨hlen, htype⟩
  unfold tzBlockAt at ht
  simp only at ht
  rw [hok, if_neg (by simp), hsize w, if_neg (by omega), htime, htypes] at ht
  obtain ⟨i, hi, rfl⟩ := List.mem_map.1 ht
  rw [List.mem_range, Int.toNat_natCast] at hi
  refine ⟨?_, tzI32_bounds b _⟩
  unfold bodySize at hend
  obtain ⟨n, hn⟩ : ∃ n : Nat, headerCount b h 32 * w = n := ⟨_, rfl⟩
  obtain ⟨leaps, hleaps⟩ : ∃ n : Nat, headerCount b h 28 * (w + 4) = n := ⟨_, rfl⟩
  have hn' : ((headerCount b h 32 : Nat) : Int) * (w : Nat) = n := by
    rw [← hn]
    rfl
  simp only
  unfold tzU8
  omega

theorem Produced.sound {z : Zone} (h : Produced z) : z.Sound := by
  refine ⟨?_, ?_⟩
  · intro t ht
    cases h with
    | @tzif b name _ h =>
      unfold zoneParseTzif at h
      simp only at h
      split_ifs at h with hversion htypes hv1 hbad
      · cases h
        rcases ht with ht | ht
        · exact tzBlockAt_types (h := 0) (w := 4) ht
        · cases ht
      · have hwhole : Whole b 0 4 := whole_of_types (h := 0) (w := 4) htypes
        have hlen : 0 + 44 ≤ b.length := by
          have := hwhole.2
          omega
        have hsize : tzBlockSize (tzCountsAt b 0) 4 = bodySize b 0 4 :=
          (counts_eq (h := 0) hlen).2.2 4
        have hsecond : (44 : Int) + bodySize b 0 4 = secondHeader b := by
          unfold secondHeader
          omega
        rw [hsize, hsecond] at h
        cases h
        rcases ht with ht | ht
        · exact tzBlockAt_types (h := 0) (w := 4) ht
        · exact tzBlockAt_types (w := 8) ht
    | @posix s name p h =>
      have hp := posixParse_small h
      have hstd := hp.stdOff
      have hdst := hp.dstOff
      rcases ht with ht | ht
      · rcases List.mem_cons.1 ht with rfl | ht
        · exact ⟨le_rfl, by simp only; omega, by simp only; omega⟩
        · rw [List.mem_singleton.1 ht]
          exact ⟨by simp only; omega, by simp only; omega, by simp only; omega⟩
      · cases ht
  · intro p hp
    obtain ⟨s, hs⟩ := h.footer hp
    exact posixParse_small hs

/-! ## The offset at an instant -/

theorem tzAbbrevRun_total (chars : List Int) {i : Int} (hi : 0 ≤ i) (b : StrBuf) :
    ∃ r, tzAbbrevRun chars i b = some r := by
  induction hn : (chars.length - i).toNat using Nat.strong_induction_on generalizing i b with
  | _ n ih =>
  rw [tzAbbrevRun]
  by_cases hend : i ≥ chars.length
  · rw [if_pos hend]
    exact ⟨_, rfl⟩
  rw [if_neg hend, if_neg (by omega)]
  by_cases hnul : chars.getD i.toNat 0 = 0
  · rw [if_pos hnul]
    exact ⟨_, rfl⟩
  rw [if_neg hnul]
  exact ih _ (by omega) (by omega) _ rfl

/-- A search meets no index outside its list. -/
theorem zoneFindSpan_total {ts : List Int} {lo hi : Nat} {utc found : Int} (hlen : hi ≤ ts.length) :
    ∃ r, zoneFindSpan ts lo hi utc found = some r := by
  induction hn : hi - lo using Nat.strong_induction_on generalizing lo hi found with
  | _ n ih =>
  rw [zoneFindSpan]
  by_cases hstop : lo ≥ hi
  · rw [if_pos hstop]
    exact ⟨_, rfl⟩
  have hlt : lo + (hi - lo) / 2 < ts.length := by omega
  rw [List.getElem?_eq_getElem hlt]
  simp only
  split_ifs
  · exact ih (hi - (lo + (hi - lo) / 2 + 1)) (by omega) hlen rfl
  · exact ih (lo + (hi - lo) / 2 - lo) (by omega) (by omega) rfl

theorem zonePickBlock_mem (z : Zone) (utc : Int) :
    zonePickBlock z utc = z.first ∨ zonePickBlock z utc = z.second := by
  unfold zonePickBlock
  split_ifs
  · exact Or.inr rfl
  · exact Or.inl rfl
  · exact Or.inr rfl
  · exact Or.inl rfl

/-- Every instant has an offset: one of the list, or 0 where no type applies. -/
theorem zoneOffsetAt_sound {z : Zone} (hz : z.Sound) (utc : Int) :
    ∃ o, zoneOffsetAt z utc = some o ∧ (o.seconds ∈ zoneOffsets z ∨ o.seconds = 0) := by
  unfold zoneOffsetAt
  simp only [Option.bind_eq_bind]
  generalize tzClampSeconds utc = u
  by_cases hrule : zoneFooterApplies z (zonePickBlock z u) u = true
  · rw [if_pos hrule]
    cases hfooter : z.footerRule with
    | none => exact ⟨_, rfl, Or.inr rfl⟩
    | some p =>
      obtain ⟨o, ho, hsec⟩ := posixOffsetAt_total (hz.rule p hfooter) u
      exact ⟨o, ho, Or.inl (mem_zoneOffsets.2 (Or.inr ⟨p, hfooter, hsec⟩))⟩
  rw [if_neg hrule]
  obtain ⟨idx, hidx⟩ : ∃ r, zoneFindTransition (zonePickBlock z u).transitions u = some r :=
    zoneFindSpan_total le_rfl
  rw [hidx, Option.bind_some]
  generalize (if idx < 0 then zoneDefaultType (zonePickBlock z u).types
    else zoneTypeIndex (zonePickBlock z u) idx) = ti
  unfold zoneOffsetOfType
  by_cases hneg : ti < 0
  · rw [if_pos hneg]
    exact ⟨_, rfl, Or.inr rfl⟩
  rw [if_neg hneg]
  cases hget : (zonePickBlock z u).types[ti.toNat]? with
  | none => exact ⟨_, rfl, Or.inr rfl⟩
  | some t =>
    have hmem := List.mem_of_getElem? hget
    have ht : t ∈ z.first.types ∨ t ∈ z.second.types := by
      rcases zonePickBlock_mem z u with hb | hb
      · rw [hb] at hmem
        exact Or.inl hmem
      · rw [hb] at hmem
        exact Or.inr hmem
    obtain ⟨name, hname⟩ := tzAbbrevRun_total (zonePickBlock z u).abbrevs
      (hz.types t ht).1 []
    simp only [tzAbbrevAt, hname, some_bind]
    exact ⟨_, rfl, Or.inl (mem_zoneOffsets.2 (Or.inl ⟨t, ht, rfl⟩))⟩

/-- The offsets of a sound zone are small. -/
theorem zoneOffsets_bounds {z : Zone} (hz : z.Sound) {x : Int} (hx : x ∈ zoneOffsets z) :
    -2147483648 ≤ x ∧ x < 2147483648 := by
  rcases mem_zoneOffsets.1 hx with ⟨t, ht, rfl⟩ | ⟨p, hp, hrule⟩
  · exact (hz.types t ht).2
  · have hsmall := hz.rule p hp
    have hstd := hsmall.stdOff
    have hdst := hsmall.dstOff
    rcases hrule with rfl | ⟨-, rfl⟩
    · omega
    · omega

end TimeZone

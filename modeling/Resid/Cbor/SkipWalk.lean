import Resid.Cbor.Oversized

/-!
# The walk of a skip

A skip passes over items one after another.  `Skipped bs todo p r` says that what is to do at `p`
ends at `r`, or at no position when a length on the way traps.

    Skipped bs todo p r → the skip at p does what r says             (Skipped.does)
    an outcome of a skip is an error or what the walk says           (cdSkipAt_walks)
    cdSkip d = trap ↔ Skipped bs item d.pos none                     (cdSkip_trap)
-/

namespace Cbor

open Runtime Serial CheckedInt

/-! ## The walk -/

/-- What a skip has to do: one item, so many of them, or those of an indefinite container. -/
inductive Todo
  | item
  | items (n : Nat)
  | opened

/-- What is to do at `p` ends at `r`; at no position when a length on the way traps. -/
inductive Skipped (bs : List UInt8) : Todo → Nat → Option Nat → Prop
  | scalar {p : Nat} {h : CbHead} : headAt bs p = some h → h.mt < 2 ∨ 7 ≤ h.mt →
      Skipped bs .item p (some (p + cbHeadLen h))
  | tag {p : Nat} {h : CbHead} {r : Option Nat} : headAt bs p = some h → h.mt = 6 →
      Skipped bs .item (p + cbHeadLen h) r → Skipped bs .item p r
  | string {p : Nat} {h : CbHead} : headAt bs p = some h → h.mt = 2 ∨ h.mt = 3 → h.ai ≠ 31 →
      p + cbHeadLen h + h.arg ≤ bs.length → Skipped bs .item p (some (p + cbHeadLen h + h.arg))
  | chunks {p q : Nat} {h : CbHead} : headAt bs p = some h → h.mt = 2 ∨ h.mt = 3 → h.ai = 31 →
      Relation.ReflTransGen (ChunkTo bs h.mt cbHeadLen anyBytes) (p + cbHeadLen h) q →
      bs[q]? = some 0xFF → Skipped bs .item p (some (q + 1))
  | chunksTrap {p : Nat} {h : CbHead} : headAt bs p = some h → h.mt = 2 ∨ h.mt = 3 → h.ai = 31 →
      ChunksTrap bs h.mt cbHeadLen anyBytes (p + cbHeadLen h) → Skipped bs .item p none
  | trap {p : Nat} {h : CbHead} : headAt bs p = some h → 2 ≤ h.mt → h.mt ≤ 5 → h.ai ≠ 31 →
      9223372036854775808 ≤ p + cbHeadLen h + h.arg → Skipped bs .item p none
  | parts {p : Nat} {h : CbHead} {r : Option Nat} : headAt bs p = some h → h.mt = 4 ∨ h.mt = 5 →
      h.ai ≠ 31 → p + cbHeadLen h + h.arg ≤ bs.length →
      Skipped bs (.items (h.arg * if h.mt = 5 then 2 else 1)) (p + cbHeadLen h) r →
      Skipped bs .item p r
  | indefinite {p : Nat} {h : CbHead} {r : Option Nat} : headAt bs p = some h →
      h.mt = 4 ∨ h.mt = 5 → h.ai = 31 → Skipped bs .opened (p + cbHeadLen h) r →
      Skipped bs .item p r
  | done {p : Nat} : Skipped bs (.items 0) p (some p)
  | next {p q n : Nat} {r : Option Nat} : Skipped bs .item p (some q) →
      Skipped bs (.items n) q r → Skipped bs (.items (n + 1)) p r
  | nextTrap {p n : Nat} : Skipped bs .item p none → Skipped bs (.items (n + 1)) p none
  | close {p : Nat} : bs[p]? = some 0xFF → Skipped bs .opened p (some (p + 1))
  | more {p q : Nat} {r : Option Nat} : ¬ bs[p]? = some 0xFF → Skipped bs .item p (some q) →
      Skipped bs .opened q r → Skipped bs .opened p r
  | moreTrap {p : Nat} : ¬ bs[p]? = some 0xFF → Skipped bs .item p none →
      Skipped bs .opened p none

/-- The state a skip that ends so leaves. -/
def ending (d : CborDec) : Option Nat → Read CborDec
  | some q => .ok (cdAt d q d.opened)
  | none => .trap

theorem chunks_le {bs : List UInt8} {mt p q : Nat} {lead : CbHead → Nat}
    {good : Nat → Nat → Prop} (h : Relation.ReflTransGen (ChunkTo bs mt lead good) p q) :
    p ≤ q := by
  induction h with
  | refl => exact Nat.le_refl p
  | tail _ hto ih =>
    have hlt := hto.lt
    omega

/-- A skip moves on, by a byte at least for an item. -/
theorem Skipped.moves {bs : List UInt8} {todo : Todo} {p : Nat} {r : Option Nat}
    (h : Skipped bs todo p r) :
    (∀ q, r = some q → p ≤ q) ∧ (todo = .item → p < bs.length ∧ ∀ q, r = some q → p < q) := by
  have hstep : ∀ {p h} {r : Option Nat}, headAt bs p = some h →
      (∀ q, r = some q → p + cbHeadLen h ≤ q) →
      (∀ q, r = some q → p ≤ q) ∧
        (Todo.item = .item → p < bs.length ∧ ∀ q, r = some q → p < q) := by
    intro p h r hh hle
    have hpos := cbHeadLen_pos h
    refine ⟨?_, fun _ => ⟨lt_of_headAt hh, ?_⟩⟩
    · intro q hq
      have := hle q hq
      omega
    · intro q hq
      have := hle q hq
      omega
  induction h with
  | scalar hh _ => exact hstep hh (by rintro q ⟨⟩; exact Nat.le_refl _)
  | tag hh _ _ ih => exact hstep hh ih.1
  | string hh _ _ _ => exact hstep hh (by rintro q ⟨⟩; omega)
  | chunks hh _ _ hpath _ =>
    have hle := chunks_le hpath
    exact hstep hh (by rintro q ⟨⟩; omega)
  | chunksTrap hh _ _ _ => exact hstep hh (by rintro q ⟨⟩)
  | trap hh _ _ _ _ => exact hstep hh (by rintro q ⟨⟩)
  | parts hh _ _ _ _ ih => exact hstep hh ih.1
  | indefinite hh _ _ _ ih => exact hstep hh ih.1
  | done => exact ⟨by rintro q ⟨⟩; exact Nat.le_refl _, by rintro ⟨⟩⟩
  | next _ _ ih1 ih2 =>
    refine ⟨?_, by rintro ⟨⟩⟩
    intro q hq
    exact (ih1.1 _ rfl).trans (ih2.1 q hq)
  | nextTrap _ _ => exact ⟨by rintro q ⟨⟩, by rintro ⟨⟩⟩
  | close _ => exact ⟨by rintro q ⟨⟩; omega, by rintro ⟨⟩⟩
  | more _ _ _ ih1 ih2 =>
    refine ⟨?_, by rintro ⟨⟩⟩
    intro q hq
    exact (ih1.1 _ rfl).trans (ih2.1 q hq)
  | moreTrap _ _ _ => exact ⟨by rintro q ⟨⟩, by rintro ⟨⟩⟩

/-- The skip does at `p` what the walk says, given fuel and rounds for the bytes that are left. -/
def Does (bs : List UInt8) : Todo → Nat → Option Nat → Prop
  | .item, p, r => ∀ (d : CborDec) fuel what, d.input.val = bs → d.pos = p →
      bs.length - p < fuel → cdSkipAt fuel d what = ending d r
  | .items n, p, r => ∀ (d : CborDec) fuel mt, d.input.val = bs → d.pos = p →
      bs.length - p < fuel → cdSkipItems (cdSkipAt fuel) mt n d = ending d r
  | .opened, p, r => ∀ (d : CborDec) fuel rounds mt, d.input.val = bs → d.pos = p →
      bs.length - p < fuel → bs.length - p < rounds →
      cdSkipOpen (cdSkipAt fuel) mt rounds d = ending d r

theorem ending_cdAt (d : CborDec) (q : Nat) (r : Option Nat) :
    ending (cdAt d q d.opened) r = ending d r := by
  cases r with
  | none => rfl
  | some q => rfl

section

variable {d : CborDec} {h : CbHead} {fuel : Nat} {what : Str}

/-- A skip behind its head. -/
theorem cdSkipAt_head (hh : headAt d.input.val d.pos = some h) :
    cdSkipAt (fuel + 1) d what =
      if h.mt = 2 ∨ h.mt = 3 then
        if h.ai = 31 then cdSkipChunks (cdTake d (cbHeadLen h)) h.mt
        else if 9223372036854775808 ≤ d.pos + cbHeadLen h + h.arg then .trap
        else if d.pos + cbHeadLen h + h.arg > d.input.val.length then .err (eofError what)
        else .ok (cdAt d (d.pos + cbHeadLen h + h.arg) d.opened)
      else if h.mt = 4 ∨ h.mt = 5 then
        if h.ai = 31 then
          cdSkipOpen (cdSkipAt fuel) h.mt (d.input.val.length + 1) (cdTake d (cbHeadLen h))
        else if 9223372036854775808 ≤ d.pos + cbHeadLen h + h.arg then .trap
        else if d.pos + cbHeadLen h + h.arg > d.input.val.length then .err (eofError what)
        else cdSkipItems (cdSkipAt fuel) h.mt (h.arg * if h.mt = 5 then 2 else 1)
          (cdTake d (cbHeadLen h))
      else if h.mt = 6 then cdSkipAt fuel (cdTake d (cbHeadLen h)) "a tagged value".toList
      else .ok (cdTake d (cbHeadLen h)) := by
  have hcap := d.input.property
  unfold listCap at hcap
  have hfit := cbFitArg_eq_if h.arg (cdTake d (cbHeadLen h))
  rw [cdTake_pos, cdTake_input] at hfit
  rw [cdSkipAt, cdReadHead_eq, hh]
  simp only [Outcome.ok_bind]
  by_cases hstr : h.mt = 2 ∨ h.mt = 3
  · rw [if_pos hstr, if_pos hstr]
    by_cases hai : h.ai = 31
    · rw [if_pos hai, if_pos hai]
    rw [if_neg hai, if_neg hai, hfit]
    by_cases hover : 9223372036854775808 ≤ d.pos + cbHeadLen h + h.arg
    · rw [if_pos hover, if_pos hover, Outcome.trap_bind]
    rw [if_neg hover, if_neg hover, Outcome.ok_bind]
    by_cases hend : d.pos + cbHeadLen h + h.arg > d.input.val.length
    · rw [if_pos hend, if_pos hend, if_pos (by decide)]
    · rw [if_neg hend, if_neg hend, if_neg (by omega), Int.toNat_natCast, cdTake_cdTake, cdTake,
        Nat.add_assoc]
  rw [if_neg hstr, if_neg hstr]
  by_cases hparts : h.mt = 4 ∨ h.mt = 5
  · rw [if_pos hparts, if_pos hparts]
    by_cases hai : h.ai = 31
    · rw [if_pos hai, if_pos hai]
    rw [if_neg hai, if_neg hai, hfit]
    by_cases hover : 9223372036854775808 ≤ d.pos + cbHeadLen h + h.arg
    · rw [if_pos hover, if_pos hover, Outcome.trap_bind]
    rw [if_neg hover, if_neg hover, Outcome.ok_bind]
    by_cases hend : d.pos + cbHeadLen h + h.arg > d.input.val.length
    · rw [if_pos hend, if_pos hend, if_pos rfl]
    have hmul : mul 64 (h.arg : Int) (if h.mt = 5 then 2 else 1) =
        some ((h.arg * if h.mt = 5 then 2 else 1 : Nat) : Int) := by
      split_ifs
      · rw [mul_of_fits (fits_64.2 (by omega)), Nat.cast_mul]
        rfl
      · rw [mul_of_fits (fits_64.2 (by omega)), Nat.cast_mul]
        rfl
    rw [if_neg hend, if_neg hend, if_neg (by omega), hmul, Outcome.checked_some, Outcome.ok_bind,
      Int.toNat_natCast]
  · rw [if_neg hparts, if_neg hparts]

/-- With fuel left there is a round more for what is behind the head. -/
theorem fuel_behind {bs : List UInt8} {p fuel : Nat} (hh : headAt bs p = some h)
    (hfuel : bs.length - p < fuel + 1) : bs.length - (p + cbHeadLen h) < fuel := by
  have hlt := lt_of_headAt hh
  have hpos := cbHeadLen_pos h
  omega

/-- By induction on the walk. -/
theorem Skipped.does {bs : List UInt8} {todo : Todo} {p : Nat} {r : Option Nat}
    (hw : Skipped bs todo p r) : Does bs todo p r := by
  induction hw with
  | @scalar p h hh hmt =>
    rintro d fuel what rfl rfl hfuel
    obtain ⟨fuel, rfl⟩ := Nat.exists_eq_succ_of_ne_zero (show fuel ≠ 0 by omega)
    rw [cdSkipAt_head hh, if_neg (by omega), if_neg (by omega), if_neg (by omega)]
    rfl
  | @tag p h r hh hmt _ ih =>
    rintro d fuel what rfl rfl hfuel
    obtain ⟨fuel, rfl⟩ := Nat.exists_eq_succ_of_ne_zero (show fuel ≠ 0 by omega)
    rw [cdSkipAt_head hh, if_neg (by omega), if_neg (by omega), if_pos hmt,
      ih (cdTake d (cbHeadLen h)) fuel _ rfl rfl (fuel_behind hh hfuel)]
    exact ending_cdAt d _ r
  | @string p h hh hmt hai hfit =>
    rintro d fuel what rfl rfl hfuel
    have hcap := d.input.property
    unfold listCap at hcap
    obtain ⟨fuel, rfl⟩ := Nat.exists_eq_succ_of_ne_zero (show fuel ≠ 0 by omega)
    rw [cdSkipAt_head hh, if_pos hmt, if_neg hai, if_neg (by omega), if_neg (by omega)]
    rfl
  | @chunks p q h hh hmt hai hpath hb =>
    rintro d fuel what rfl rfl hfuel
    obtain ⟨fuel, rfl⟩ := Nat.exists_eq_succ_of_ne_zero (show fuel ≠ 0 by omega)
    rw [cdSkipAt_head hh, if_pos hmt, if_pos hai]
    exact (cdSkipChunks_iff (by omega) _ (fun e => by simp [ending])).2
      ⟨q, hpath, Or.inr ⟨hb, rfl⟩⟩
  | @chunksTrap p h hh hmt hai htrap =>
    rintro d fuel what rfl rfl hfuel
    obtain ⟨fuel, rfl⟩ := Nat.exists_eq_succ_of_ne_zero (show fuel ≠ 0 by omega)
    obtain ⟨q, hpath, hover⟩ := htrap
    rw [cdSkipAt_head hh, if_pos hmt, if_pos hai]
    exact (cdSkipChunks_iff (by omega) _ (fun e => by simp [ending])).2
      ⟨q, hpath, Or.inl ⟨hover, rfl⟩⟩
  | @trap p h hh hlo hhi hai hover =>
    rintro d fuel what rfl rfl hfuel
    obtain ⟨fuel, rfl⟩ := Nat.exists_eq_succ_of_ne_zero (show fuel ≠ 0 by omega)
    rw [cdSkipAt_head hh]
    by_cases hstr : h.mt = 2 ∨ h.mt = 3
    · rw [if_pos hstr, if_neg hai, if_pos hover]
      rfl
    · rw [if_neg hstr, if_pos (by omega), if_neg hai, if_pos hover]
      rfl
  | @parts p h r hh hmt hai hfit _ ih =>
    rintro d fuel what rfl rfl hfuel
    have hcap := d.input.property
    unfold listCap at hcap
    obtain ⟨fuel, rfl⟩ := Nat.exists_eq_succ_of_ne_zero (show fuel ≠ 0 by omega)
    rw [cdSkipAt_head hh, if_neg (by omega), if_pos hmt, if_neg hai, if_neg (by omega),
      if_neg (by omega), ih (cdTake d (cbHeadLen h)) fuel _ rfl rfl (fuel_behind hh hfuel)]
    exact ending_cdAt d _ r
  | @indefinite p h r hh hmt hai _ ih =>
    rintro d fuel what rfl rfl hfuel
    obtain ⟨fuel, rfl⟩ := Nat.exists_eq_succ_of_ne_zero (show fuel ≠ 0 by omega)
    rw [cdSkipAt_head hh, if_neg (by omega), if_pos hmt, if_pos hai,
      ih (cdTake d (cbHeadLen h)) fuel _ _ rfl rfl (fuel_behind hh hfuel) (by omega)]
    exact ending_cdAt d _ r
  | done =>
    rintro d fuel mt rfl rfl _
    rfl
  | @next p q n r h1 _ ih1 ih2 =>
    rintro d fuel mt rfl rfl hfuel
    have hle := h1.moves.1 q rfl
    rw [cdSkipItems, ih1 d fuel _ rfl rfl hfuel]
    show cdSkipItems (cdSkipAt fuel) mt n (cdAt d q d.opened) = _
    rw [ih2 (cdAt d q d.opened) fuel mt rfl rfl (by omega), ending_cdAt]
  | nextTrap _ ih =>
    rintro d fuel mt rfl rfl hfuel
    rw [cdSkipItems, ih d fuel _ rfl rfl hfuel]
    rfl
  | close hb =>
    rintro d fuel rounds mt rfl rfl hfuel hrounds
    obtain ⟨rounds, rfl⟩ := Nat.exists_eq_succ_of_ne_zero (show rounds ≠ 0 by omega)
    rw [cdSkipOpen, if_pos (atBreak_iff.2 hb)]
    rfl
  | @more p q r hb h1 _ ih1 ih2 =>
    rintro d fuel rounds mt rfl rfl hfuel hrounds
    obtain ⟨rounds, rfl⟩ := Nat.exists_eq_succ_of_ne_zero (show rounds ≠ 0 by omega)
    obtain ⟨hlt, hmoves⟩ := h1.moves.2 rfl
    have hq := hmoves q rfl
    rw [cdSkipOpen, if_neg (fun hcon => hb (atBreak_iff.1 hcon)), ih1 d fuel _ rfl rfl hfuel]
    show cdSkipOpen (cdSkipAt fuel) mt rounds (cdAt d q d.opened) = _
    rw [ih2 (cdAt d q d.opened) fuel rounds mt rfl rfl (by omega) (by omega), ending_cdAt]
  | moreTrap hb _ ih =>
    rintro d fuel rounds mt rfl rfl hfuel hrounds
    obtain ⟨rounds, rfl⟩ := Nat.exists_eq_succ_of_ne_zero (show rounds ≠ 0 by omega)
    rw [cdSkipOpen, if_neg (fun hcon => hb (atBreak_iff.1 hcon)), ih d fuel _ rfl rfl hfuel]
    rfl

/-- An outcome of a skip is an error, or what the walk from here says. -/
def Walks (d : CborDec) (todo : Todo) (x : Read CborDec) : Prop :=
  (∃ e, x = .err e) ∨ ∃ r, Skipped d.input.val todo d.pos r ∧ x = ending d r

/-- What is walked from a later position is walked from here, as `hwalk` says. -/
theorem Walks.from {q : Nat} {todo todo' : Todo} {x : Read CborDec}
    (h : Walks (cdAt d q d.opened) todo x)
    (hwalk : ∀ r, Skipped d.input.val todo q r → Skipped d.input.val todo' d.pos r) :
    Walks d todo' x := by
  rcases h with he | ⟨r, hr, hx⟩
  · exact Or.inl he
  · rw [ending_cdAt] at hx
    exact Or.inr ⟨r, hwalk r hr, hx⟩

theorem cdSkipItems_walks {skip : CborDec → Str → Read CborDec} {mt : Nat}
    (hskip : ∀ d what, d.input.val.length - d.pos < fuel → Walks d .item (skip d what)) (n : Nat) :
    ∀ d, d.input.val.length - d.pos < fuel → Walks d (.items n) (cdSkipItems skip mt n d) := by
  induction n with
  | zero => exact fun d _ => Or.inr ⟨some d.pos, .done, rfl⟩
  | succ n ih =>
    intro d hfuel
    rw [cdSkipItems]
    rcases hskip d (partName mt) hfuel with ⟨e, he⟩ | ⟨r, hr, hx⟩
    · rw [he]
      exact Or.inl ⟨e, rfl⟩
    · rw [hx]
      cases r with
      | none => exact Or.inr ⟨none, .nextTrap hr, rfl⟩
      | some q =>
        have hle := hr.moves.1 q rfl
        have hrest := ih (cdAt d q d.opened)
          (show d.input.val.length - q < fuel by omega)
        exact hrest.from fun r hw => .next hr hw

theorem cdSkipOpen_walks {skip : CborDec → Str → Read CborDec} {mt : Nat}
    (hskip : ∀ d what, d.input.val.length - d.pos < fuel → Walks d .item (skip d what))
    (rounds : Nat) :
    ∀ d, d.input.val.length - d.pos < fuel → d.input.val.length - d.pos < rounds →
      Walks d .opened (cdSkipOpen skip mt rounds d) := by
  induction rounds with
  | zero => exact fun d _ hrounds => absurd hrounds (Nat.not_lt_zero _)
  | succ rounds ih =>
    intro d hfuel hrounds
    rw [cdSkipOpen]
    by_cases hb : cbAtBreak d = true
    · rw [if_pos hb]
      exact Or.inr ⟨some (d.pos + 1), .close (atBreak_iff.1 hb), rfl⟩
    have hno : ¬ d.input.val[d.pos]? = some 0xFF := fun h => hb (atBreak_iff.2 h)
    rw [if_neg hb]
    rcases hskip d (partName mt) hfuel with ⟨e, he⟩ | ⟨r, hr, hx⟩
    · rw [he]
      exact Or.inl ⟨e, rfl⟩
    · rw [hx]
      cases r with
      | none => exact Or.inr ⟨none, .moreTrap hno hr, rfl⟩
      | some q =>
        obtain ⟨hlt, hmoves⟩ := hr.moves.2 rfl
        have hq := hmoves q rfl
        have hrest := ih (cdAt d q d.opened)
          (show d.input.val.length - q < fuel by omega)
          (show d.input.val.length - q < rounds by omega)
        exact hrest.from fun r hw => .more hno hr hw

/-- By induction on the fuel. -/
theorem cdSkipAt_walks (fuel : Nat) :
    ∀ d what, d.input.val.length - d.pos < fuel → Walks d .item (cdSkipAt fuel d what) := by
  induction fuel with
  | zero => exact fun d _ hfuel => absurd hfuel (Nat.not_lt_zero _)
  | succ fuel ih =>
    intro d what hfuel
    cases hh : headAt d.input.val d.pos with
    | none =>
      refine Or.inl ⟨eofError what, ?_⟩
      rw [cdSkipAt, cdReadHead_eq, hh]
      rfl
    | some h =>
      have hbehind : (cdTake d (cbHeadLen h)).input.val.length - (cdTake d (cbHeadLen h)).pos <
          fuel := fuel_behind hh hfuel
      obtain ⟨each, heach⟩ : ∃ each, (if h.mt = 5 then 2 else 1) = each := ⟨_, rfl⟩
      rw [cdSkipAt_head hh, heach]
      split_ifs with hstr hai hover hend hparts hai hover hend htag
      · cases hx : cdSkipChunks (cdTake d (cbHeadLen h)) h.mt with
        | err e => exact Or.inl ⟨e, rfl⟩
        | trap =>
          obtain ⟨q, hpath, ⟨hover, -⟩ | ⟨-, hcon⟩⟩ :=
            (cdSkipChunks_iff (by omega) _ (fun e => by simp)).1 hx
          · exact Or.inr ⟨none, .chunksTrap hh hstr hai ⟨q, hpath, hover⟩, rfl⟩
          · cases hcon
        | ok s =>
          obtain ⟨q, hpath, ⟨-, hcon⟩ | ⟨hb, hs⟩⟩ :=
            (cdSkipChunks_iff (by omega) _ (fun e => by simp)).1 hx
          · cases hcon
          · exact Or.inr ⟨some (q + 1), .chunks hh hstr hai hpath hb, hs⟩
      · exact Or.inr ⟨none, .trap hh (by omega) (by omega) hai hover, rfl⟩
      · exact Or.inl ⟨_, rfl⟩
      · exact Or.inr ⟨some _, .string hh hstr hai (by omega), rfl⟩
      · have hrounds : (cdTake d (cbHeadLen h)).input.val.length - (cdTake d (cbHeadLen h)).pos <
            d.input.val.length + 1 := by
          rw [cdTake_input, cdTake_pos]
          omega
        exact (cdSkipOpen_walks ih _ _ hbehind hrounds).from
          fun r hw => .indefinite hh hparts hai hw
      · exact Or.inr ⟨none, .trap hh (by omega) (by omega) hai hover, rfl⟩
      · exact Or.inl ⟨_, rfl⟩
      · exact (cdSkipItems_walks ih _ _ hbehind).from
          fun r hw => .parts hh hparts hai (by omega) (heach ▸ hw)
      · exact (ih _ _ hbehind).from fun r hw => .tag hh htag hw
      · exact Or.inr ⟨some _, .scalar hh (by omega), rfl⟩

theorem cdSkip_trap : cdSkip d = .trap ↔ Skipped d.input.val .item d.pos none := by
  constructor
  · intro htrap
    rcases cdSkipAt_walks _ d "a value".toList (show _ < d.input.val.length + 1 by omega) with
      ⟨e, he⟩ | ⟨r, hr, hx⟩
    · rw [cdSkip, he] at htrap
      cases htrap
    · rw [cdSkip, hx] at htrap
      cases r with
      | none => exact hr
      | some q => cases htrap
  · intro hw
    exact hw.does d _ _ rfl rfl (by omega)

end

end Cbor

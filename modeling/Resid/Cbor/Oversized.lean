import Resid.Cbor.Readers

/-!
# Where a reader traps

A head of eight bytes may hold any argument.  A reader turns the argument into a length and adds
it to the position: where the sum leaves 63 bits it traps.  So does the sign text of the least
negative head and a 128-bit number of 128 bits.

    cbFitArg arg d = trap ↔ 2 ^ 63 ≤ d.pos + arg                     (cbFitArg_eq_if)
    v.run d = trap ↔ Traps v d                                       (run_trap_iff)

## Algorithm

`Oversized bs mt lead p` is such a head.  A loop over chunks traps where the chunks before lead to
one (`Outcome.loop_iff`), a skip where the walk over the items does (`Skipped … none`).
-/

namespace Cbor

open Runtime Serial CheckedInt ByteOrder

/-! ## Heads in the input -/

/-- The head at `p`, when all of it is there. -/
def headAt (bs : List UInt8) (p : Nat) : Option CbHead :=
  match bs.drop p with
  | [] => none
  | b :: rest =>
    let mt := b.toNat / 32
    let ai := b.toNat % 32
    if ai < 24 then some ⟨mt, ai, ai⟩
    else if ai = 31 ∨ mt = 7 then some ⟨mt, ai, 0⟩
    else if cbArgWidth ai ≤ rest.length then
      some ⟨mt, ai, value (rest.take (cbArgWidth ai)).reverse⟩
    else none

section

variable {d : CborDec} {bs : List UInt8} {p : Nat} {h : CbHead} {what : Str}

theorem cdPeekHead_eq (d : CborDec) (p : Nat) (what : Str) :
    cdPeekHead d p what =
      match headAt d.input.val p with
      | some h => .ok h
      | none => .err (eofError what) := by
  unfold cdPeekHead headAt
  cases hdrop : d.input.val.drop p with
  | nil =>
    have hlen := List.drop_eq_nil_iff.1 hdrop
    rw [List.getElem?_eq_none hlen]
  | cons b rest =>
    obtain ⟨hget, hrest⟩ := getElem?_of_drop_cons hdrop
    have hlen := congrArg List.length hdrop
    rw [List.length_drop, List.length_cons] at hlen
    rw [hget]
    simp only [headByte_major, headByte_info]
    by_cases h24 : b.toNat % 32 < 24
    · rw [if_pos h24, if_pos h24]
    rw [if_neg h24, if_neg h24]
    by_cases h31 : b.toNat % 32 = 31
    · rw [if_pos h31, if_pos (Or.inl h31), h31]
    rw [if_neg h31]
    by_cases h7 : b.toNat / 32 = 7
    · rw [if_pos h7, if_pos (Or.inr h7)]
    have hneither : ¬ (b.toNat % 32 = 31 ∨ b.toNat / 32 = 7) := by
      rintro (hcon | hcon)
      · exact h31 hcon
      · exact h7 hcon
    rw [if_neg h7, if_neg hneither]
    have hw := cbArgWidth_le (b.toNat % 32)
    by_cases hroom : cbArgWidth (b.toNat % 32) ≤ rest.length
    · have htake : (rest.take (cbArgWidth (b.toNat % 32))).length = cbArgWidth (b.toNat % 32) :=
        List.length_take_of_le hroom
      have hsplit : d.input.val.drop (p + 1) = rest.take (cbArgWidth (b.toNat % 32)) ++
          rest.drop (cbArgWidth (b.toNat % 32)) := by
        rw [hrest, List.take_append_drop]
      have hpow : 256 ^ cbArgWidth (b.toNat % 32) ≤ 256 ^ 8 :=
        Nat.pow_le_pow_right (by decide) hw
      have hbytes : cbArgBytes d.input.val (p + 1) _ 0 = _ :=
        cbArgBytes_eq hsplit (by rw [htake]; omega)
      rw [htake, Nat.zero_mul, Nat.zero_add] at hbytes
      rw [if_neg (by omega), if_pos hroom, hbytes]
      rfl
    · rw [if_pos (by omega), if_neg hroom]

theorem cdReadHead_eq (d : CborDec) (what : Str) :
    cdReadHead d what =
      match headAt d.input.val d.pos with
      | some h => .ok ⟨h, cdTake d (cbHeadLen h)⟩
      | none => .err (eofError what) := by
  rw [cdReadHead, cdPeekHead_eq]
  cases headAt d.input.val d.pos with
  | some h => rfl
  | none => rfl

/-- What is behind a head traps, or nothing does. -/
theorem readHead_trap {T : Type} {f : Parsed CbHead CborDec → Read T} :
    (cdReadHead d what >>= f) = .trap ↔
      ∃ h, headAt d.input.val d.pos = some h ∧ f ⟨h, cdTake d (cbHeadLen h)⟩ = .trap := by
  rw [cdReadHead_eq]
  cases headAt d.input.val d.pos with
  | some h => simp
  | none => simp

theorem peekHead_trap {T : Type} {f : CbHead → Read T} :
    (cdPeekHead d p what >>= f) = .trap ↔
      ∃ h, headAt d.input.val p = some h ∧ f h = .trap := by
  rw [cdPeekHead_eq]
  cases headAt d.input.val p with
  | some h => simp
  | none => simp

theorem readHead_ok {T : Type} {f : Parsed CbHead CborDec → Read T} {r : T} :
    (cdReadHead d what >>= f) = .ok r ↔
      ∃ h, headAt d.input.val d.pos = some h ∧ f ⟨h, cdTake d (cbHeadLen h)⟩ = .ok r := by
  rw [cdReadHead_eq]
  cases headAt d.input.val d.pos with
  | some h => simp
  | none => simp

theorem lt_of_headAt (hh : headAt bs p = some h) : p < bs.length := by
  by_contra hcon
  rw [headAt, List.drop_eq_nil_iff.2 (by omega)] at hh
  cases hh

/-- A head that is not of major type 7 ends inside the input. -/
theorem headLen_le (hh : headAt bs p = some h) : p + cbHeadLen h ≤ bs.length := by
  have hlt := lt_of_headAt hh
  unfold headAt at hh
  cases hdrop : bs.drop p with
  | nil =>
    rw [hdrop] at hh
    cases hh
  | cons b rest =>
    have hlen := congrArg List.length hdrop
    rw [List.length_drop, List.length_cons] at hlen
    rw [hdrop] at hh
    simp only at hh
    split_ifs at hh with h24 h31 hroom
    · cases hh
      simp only [cbHeadLen]
      split_ifs <;> omega
    · cases hh
      simp only [cbHeadLen]
      split_ifs <;> omega
    · cases hh
      simp only [cbHeadLen]
      unfold cbArgWidth at hroom
      split_ifs at hroom ⊢ <;> omega

theorem arg_lt_of_headAt (hh : headAt bs p = some h) : h.arg < 18446744073709551616 := by
  unfold headAt at hh
  cases hdrop : bs.drop p with
  | nil =>
    rw [hdrop] at hh
    cases hh
  | cons b rest =>
    rw [hdrop] at hh
    simp only at hh
    split_ifs at hh with h24 h31 hroom
    · cases hh
      show b.toNat % 32 < _
      omega
    · cases hh
      exact Nat.zero_lt_succ _
    · cases hh
      have hlt := value_lt (rest.take (cbArgWidth (b.toNat % 32))).reverse
      rw [List.length_reverse, List.length_take_of_le hroom] at hlt
      have hpow : 256 ^ cbArgWidth (b.toNat % 32) ≤ 256 ^ 8 :=
        Nat.pow_le_pow_right (by decide) (cbArgWidth_le _)
      show value _ < _
      omega

/-- At a break stands a head of major type 7. -/
theorem headAt_break (hb : bs[p]? = some 0xFF) : headAt bs p = some ⟨7, 31, 0⟩ := by
  obtain ⟨hlt, hget⟩ := List.getElem?_eq_some_iff.1 hb
  rw [headAt, List.drop_eq_getElem_cons hlt, hget]
  rfl

theorem atBreak_iff : cbAtBreak d = true ↔ d.input.val[d.pos]? = some 0xFF := by
  rw [cbAtBreak, beq_iff_eq]

/-- Where a head of another type stands is no break. -/
theorem not_atBreak (hh : headAt d.input.val d.pos = some h) (hmt : h.mt ≠ 7) :
    ¬ cbAtBreak d = true := by
  intro hb
  rw [headAt_break (atBreak_iff.1 hb), Option.some.injEq] at hh
  rw [← hh] at hmt
  exact hmt rfl

end

/-! ## Lengths -/

/-- The length an argument promises: it traps, is not there, or is. -/
theorem cbFitArg_eq_if (arg : Nat) (d : CborDec) :
    cbFitArg arg d =
      if 9223372036854775808 ≤ d.pos + arg then .trap
      else .ok (if d.pos + arg > d.input.val.length then -1 else (arg : Int)) := by
  unfold cbFitArg
  by_cases harg : arg < 9223372036854775808
  · rw [check_of_fits (fits_64.2 (by omega)), Outcome.checked_some, Outcome.ok_bind,
      if_neg (by omega)]
    by_cases hsum : 9223372036854775808 ≤ d.pos + arg
    · have hno : add 64 (d.pos : Int) (arg : Int) = none := by
        rw [add, check, if_neg]
        rw [fits_64]
        omega
      rw [if_pos hsum, hno]
      rfl
    · rw [if_neg hsum, add_of_fits (fits_64.2 (by omega)), Outcome.checked_some, Outcome.ok_bind]
      by_cases hfit : d.pos + arg > d.input.val.length
      · rw [if_pos hfit, if_pos (by omega)]
        rfl
      · rw [if_neg hfit, if_neg (by omega)]
        rfl
  · have hno : check 64 (arg : Int) = none := by
      rw [check, if_neg]
      rw [fits_64]
      omega
    rw [if_pos (by omega), hno]
    rfl

/-- A length traps by itself, or what is done with one that is there. -/
theorem fitArg_trap {T : Type} {arg : Nat} {d : CborDec} {f : Int → Read T}
    (hneg : f (-1) ≠ .trap) :
    (cbFitArg arg d >>= f) = .trap ↔
      9223372036854775808 ≤ d.pos + arg ∨ d.pos + arg ≤ d.input.val.length ∧ f arg = .trap := by
  have hcap := d.input.property
  unfold listCap at hcap
  rw [cbFitArg_eq_if]
  by_cases hsum : 9223372036854775808 ≤ d.pos + arg
  · rw [if_pos hsum]
    exact ⟨fun _ => Or.inl hsum, fun _ => rfl⟩
  · rw [if_neg hsum, Outcome.ok_bind]
    by_cases hfit : d.pos + arg > d.input.val.length
    · rw [if_pos hfit]
      constructor
      · exact fun h => absurd h hneg
      · rintro (h | ⟨h, -⟩)
        · exact absurd h hsum
        · omega
    · rw [if_neg hfit]
      constructor
      · exact fun h => Or.inr ⟨by omega, h⟩
      · rintro (h | ⟨-, h⟩)
        · exact absurd h hsum
        · exact h

theorem fitArg_ok {T : Type} {arg : Nat} {d : CborDec} {f : Int → Read T} {r : T}
    (hneg : f (-1) ≠ .ok r) :
    (cbFitArg arg d >>= f) = .ok r ↔ d.pos + arg ≤ d.input.val.length ∧ f arg = .ok r := by
  have hcap := d.input.property
  unfold listCap at hcap
  rw [cbFitArg_eq_if]
  by_cases hsum : 9223372036854775808 ≤ d.pos + arg
  · rw [if_pos hsum, Outcome.trap_bind]
    simp only [reduceCtorEq, false_iff, not_and]
    omega
  · rw [if_neg hsum, Outcome.ok_bind]
    by_cases hfit : d.pos + arg > d.input.val.length
    · rw [if_pos hfit]
      exact ⟨fun h => absurd h hneg, fun h => absurd h.1 (by omega)⟩
    · rw [if_neg hfit]
      exact ⟨fun h => ⟨by omega, h⟩, fun h => h.2⟩

/-! ## Texts never trap -/

theorem cbCpCont_ne_trap {bs : List UInt8} {i extra k cp : Nat} {what : Str}
    (hroom : i + extra < bs.length) : cbCpCont bs i extra k cp what ≠ .trap := by
  induction hn : extra - k generalizing k cp with
  | zero =>
    rw [cbCpCont, if_pos (by omega)]
    simp
  | succ n ih =>
    rw [cbCpCont, if_neg (by omega), List.getElem?_eq_getElem (show i + 1 + k < bs.length by omega),
      Outcome.checked_some, Outcome.ok_bind]
    split_ifs
    · simp
    · exact ih (by omega)

theorem cbCpAt_ne_trap (bs : List UInt8) (i : Nat) (what : Str) : cbCpAt bs i what ≠ .trap := by
  unfold cbCpAt
  by_cases hend : i ≥ bs.length
  · rw [if_pos hend]
    simp
  rw [if_neg hend, List.getElem?_eq_getElem (Nat.not_le.1 hend), Outcome.checked_some,
    Outcome.ok_bind]
  simp only
  split_ifs with h128 h192 hroom
  all_goals first
    | exact cbCpCont_ne_trap (by omega)
    | simp

theorem cbStrAtBuf_ne_trap {bs : List UInt8} {i stop : Nat} {b : StrBuf} {what : Str} :
    cbStrAtBuf bs i stop b what ≠ .trap := by
  fun_induction cbStrAtBuf bs i stop b what with
  | case1 => simp
  | case2 => simp
  | case3 i b hlt htrap => exact absurd htrap (cbCpAt_ne_trap bs i what)
  | case4 i b hlt c hc ih => exact ih

theorem cbStrAt_ne_trap (bs : List UInt8) (i stop : Nat) (what : Str) :
    cbStrAt bs i stop what ≠ .trap :=
  cbStrAtBuf_ne_trap

theorem cbCpCountAt_ne_trap {bs : List UInt8} {i stop acc : Nat} {what : Str} :
    cbCpCountAt bs i stop acc what ≠ .trap := by
  fun_induction cbCpCountAt bs i stop acc what with
  | case1 => simp
  | case2 => simp
  | case3 i acc hlt htrap => exact absurd htrap (cbCpAt_ne_trap bs i what)
  | case4 i acc hlt c hc ih => exact ih

/-- What follows a text without trapping does not trap. -/
theorem strAt_bind_ne_trap {T : Type} {bs : List UInt8} {i stop : Nat} {what : Str} {f : Str → T} :
    (cbStrAt bs i stop what >>= fun s => Outcome.ok (f s)) ≠ .trap := by
  rw [Ne, Outcome.bind_trap]
  rintro (h | ⟨s, -, h⟩)
  · exact cbStrAt_ne_trap bs i stop what h
  · cases h

/-! ## Heads whose length traps -/

/-- A definite head of a type whose argument leaves 63 bits when it is added past `lead`. -/
def Oversized (bs : List UInt8) (mt : Nat) (lead : CbHead → Nat) (p : Nat) : Prop :=
  ∃ h, headAt bs p = some h ∧ h.mt = mt ∧ h.ai ≠ 31 ∧ 9223372036854775808 ≤ p + lead h + h.arg

/-- A definite string at `p` whose bytes are there and are `good` ends at `q`. -/
def ChunkTo (bs : List UInt8) (mt : Nat) (lead : CbHead → Nat) (good : Nat → Nat → Prop)
    (p q : Nat) : Prop :=
  ∃ h, headAt bs p = some h ∧ h.mt = mt ∧ h.ai ≠ 31 ∧ p + lead h + h.arg ≤ bs.length ∧
    good (p + cbHeadLen h) (p + cbHeadLen h + h.arg) ∧ q = p + cbHeadLen h + h.arg

/-- Chunks one after another from `p` lead to one that traps. -/
def ChunksTrap (bs : List UInt8) (mt : Nat) (lead : CbHead → Nat) (good : Nat → Nat → Prop)
    (p : Nat) : Prop :=
  ∃ q, Relation.ReflTransGen (ChunkTo bs mt lead good) p q ∧ Oversized bs mt lead q

def anyBytes (_ _ : Nat) : Prop := True

/-- The bytes are a text. -/
def IsText (bs : List UInt8) (what : Str) (i stop : Nat) : Prop :=
  ∃ s, cbStrAt bs i stop what = .ok s

section

variable {bs : List UInt8} {mt p q : Nat} {lead : CbHead → Nat} {good : Nat → Nat → Prop}

theorem ChunkTo.lt (h : ChunkTo bs mt lead good p q) : p < q ∧ p < bs.length := by
  obtain ⟨h, hh, -, -, -, -, rfl⟩ := h
  have hpos := cbHeadLen_pos h
  exact ⟨by omega, lt_of_headAt hh⟩

/-- A loop over chunks ends where the chunks lead to. -/
theorem chunks_iff {ι : Type} {ends : Nat → ι → Prop} {here : Nat → Prop}
    (hends : ∀ p i, ends p i → here p ∨ ∃ q i', ChunkTo bs mt lead good p q ∧ ends q i')
    (hhere : ∀ p i, here p → ends p i)
    (hnext : ∀ p q, ChunkTo bs mt lead good p q → (∀ i, ends q i) → ∀ i, ends p i) (p : Nat)
    (i : ι) : ends p i ↔ ∃ q, Relation.ReflTransGen (ChunkTo bs mt lead good) p q ∧ here q := by
  apply Outcome.loop_iff (fun p => bs.length - p) _ hends hhere hnext
  intro p q h
  have hlt := h.lt
  omega

end

/-! ## One definite string -/

/-- What a reader of a definite string does: `wrong` where another head stands, `gone` where its
bytes are not there. -/
def definite {T : Type} (d : CborDec) (mt : Nat) (lead : CbHead → Nat)
    (what : Str) (wrong : CbHead → SerialError) (gone : SerialError) (f : CbHead → Read T) :
    Read T :=
  match headAt d.input.val d.pos with
  | none => .err (eofError what)
  | some h =>
    if h.mt ≠ mt ∨ h.ai = 31 then .err (wrong h)
    else if 9223372036854775808 ≤ d.pos + lead h + h.arg then .trap
    else if d.pos + lead h + h.arg > d.input.val.length then .err gone
    else f h

section

variable {T : Type} {d : CborDec} {mt : Nat} {lead : CbHead → Nat} {what : Str}
  {wrong : CbHead → SerialError} {gone : SerialError} {f : CbHead → Read T}

theorem definite_trap (hf : ∀ h, f h ≠ .trap) :
    definite d mt lead what wrong gone f = .trap ↔ Oversized d.input.val mt lead d.pos := by
  unfold definite Oversized
  cases headAt d.input.val d.pos with
  | none => simp
  | some h =>
    simp only [Option.some.injEq, exists_eq_left']
    split_ifs with hmt hover hend
    · simp only [false_iff]
      tauto
    · simp only [true_iff]
      tauto
    · simp only [false_iff]
      tauto
    · simp only [hf h, false_iff]
      tauto

theorem definite_ok {r : T} :
    definite d mt lead what wrong gone f = .ok r ↔
      ∃ h, headAt d.input.val d.pos = some h ∧ h.mt = mt ∧ h.ai ≠ 31 ∧
        d.pos + lead h + h.arg ≤ d.input.val.length ∧ f h = .ok r := by
  have hcap := d.input.property
  unfold listCap at hcap
  unfold definite
  cases headAt d.input.val d.pos with
  | none => simp
  | some h =>
    simp only [Option.some.injEq, exists_eq_left']
    split_ifs with hmt hover hend
    · simp only [false_iff]
      tauto
    · simp only [false_iff]
      omega
    · simp only [false_iff]
      omega
    · constructor
      · exact fun hr => ⟨by tauto, by tauto, by omega, hr⟩
      · exact fun hr => hr.2.2.2

/-- A read head, a check of its type and a length make a definite string. -/
theorem readHead_definite {g : CbHead → Nat → CborDec → Read T} :
    (do
      let h ← cdReadHead d what
      if h.value.mt ≠ mt ∨ h.value.ai = 31 then .err (wrong h.value)
      else do
        let len ← cbFitArg h.value.arg h.rest
        if len < 0 then .err gone else g h.value len.toNat h.rest) =
      definite d mt cbHeadLen what wrong gone fun h => g h h.arg (cdTake d (cbHeadLen h)) := by
  unfold definite
  rw [cdReadHead_eq]
  cases headAt d.input.val d.pos with
  | none => rfl
  | some h =>
    have hfit := cbFitArg_eq_if h.arg (cdTake d (cbHeadLen h))
    rw [cdTake_pos, cdTake_input] at hfit
    simp only [Outcome.ok_bind]
    by_cases hmt : h.mt ≠ mt ∨ h.ai = 31
    · rw [if_pos hmt, if_pos hmt]
    rw [if_neg hmt, if_neg hmt]
    by_cases hover : 9223372036854775808 ≤ d.pos + cbHeadLen h + h.arg
    · rw [if_pos hover] at hfit
      rw [if_pos hover, hfit]
      rfl
    rw [if_neg hover] at hfit
    rw [if_neg hover, hfit, Outcome.ok_bind]
    by_cases hend : d.pos + cbHeadLen h + h.arg > d.input.val.length
    · rw [if_pos hend, if_pos hend]
      rfl
    · rw [if_neg hend, if_neg hend, if_neg (by omega), Int.toNat_natCast]

end

/-- A definite text ends where its bytes do. -/
theorem definite_text_ok {α : Type} {d r : CborDec} {what : Str} {wrong : CbHead → SerialError}
    {gone : SerialError} (g : Str → α) :
    (∃ a, definite d 3 cbHeadLen what wrong gone (fun h =>
      cbStrAt d.input.val (d.pos + cbHeadLen h) (d.pos + cbHeadLen h + h.arg) what >>= fun s =>
        .ok ⟨g s, cdTake d (cbHeadLen h + h.arg)⟩) = .ok (⟨a, r⟩ : Parsed α CborDec)) ↔
      ∃ q, ChunkTo d.input.val 3 cbHeadLen (IsText d.input.val what) d.pos q ∧
        r = cdAt d q d.opened := by
  constructor
  · rintro ⟨s, hok⟩
    obtain ⟨h, hh, hmt, hai, hfit, hr⟩ := definite_ok.1 hok
    obtain ⟨t, ht, hr⟩ := Outcome.bind_ok.1 hr
    refine ⟨d.pos + cbHeadLen h + h.arg, ⟨h, hh, hmt, hai, hfit, ⟨t, ht⟩, rfl⟩, ?_⟩
    cases hr
    rw [cdTake, Nat.add_assoc]
  · rintro ⟨q, ⟨h, hh, hmt, hai, hfit, ⟨t, ht⟩, rfl⟩, rfl⟩
    refine ⟨g t, definite_ok.2 ⟨h, hh, hmt, hai, hfit, ?_⟩⟩
    rw [ht, Outcome.ok_bind, cdTake, Nat.add_assoc]

/-! ## Chunks, skipped -/

section

variable {d r : CborDec} {mt : Nat}

theorem cdSkipChunk_eq (d : CborDec) (mt : Nat) :
    cdSkipChunk d mt = definite d mt cbHeadLen "a chunk".toList
      (fun h => invalidType "a string chunk".toList (cbHeadName h)) (eofError "a chunk".toList)
      fun h => .ok (cdTake d (cbHeadLen h + h.arg)) := by
  have h := @readHead_definite _ d mt "a chunk".toList
    (fun h => invalidType "a string chunk".toList (cbHeadName h)) (eofError "a chunk".toList)
    (fun _ len rest => .ok (cdTake rest len))
  simp only [cdTake_cdTake] at h
  exact h

theorem cdSkipChunk_trap :
    cdSkipChunk d mt = .trap ↔ Oversized d.input.val mt cbHeadLen d.pos := by
  rw [cdSkipChunk_eq]
  exact definite_trap fun h => by simp

theorem cdSkipChunk_ok_iff :
    cdSkipChunk d mt = .ok r ↔
      ∃ q, ChunkTo d.input.val mt cbHeadLen anyBytes d.pos q ∧ r = cdAt d q d.opened := by
  rw [cdSkipChunk_eq, definite_ok]
  constructor
  · rintro ⟨h, hh, hmt, hai, hfit, hr⟩
    refine ⟨d.pos + cbHeadLen h + h.arg, ⟨h, hh, hmt, hai, hfit, trivial, rfl⟩, ?_⟩
    rw [← Outcome.ok.inj hr, cdTake, Nat.add_assoc]
  · rintro ⟨q, ⟨h, hh, hmt, hai, hfit, -, rfl⟩, rfl⟩
    refine ⟨h, hh, hmt, hai, hfit, ?_⟩
    rw [cdTake, Nat.add_assoc]

/-- A string of a type below 7 does not start with a break. -/
theorem not_break_of_chunkTo {bs : List UInt8} {lead : CbHead → Nat} {good : Nat → Nat → Prop}
    {p q : Nat} (h7 : mt ≠ 7) (h : ChunkTo bs mt lead good p q) : ¬ bs[p]? = some 0xFF := by
  obtain ⟨h, hh, rfl, -⟩ := h
  intro hb
  rw [headAt_break hb, Option.some.injEq] at hh
  rw [← hh] at h7
  exact h7 rfl

theorem not_break_of_oversized {bs : List UInt8} {lead : CbHead → Nat} {p : Nat} (h7 : mt ≠ 7)
    (h : Oversized bs mt lead p) : ¬ bs[p]? = some 0xFF := by
  obtain ⟨h, hh, rfl, -⟩ := h
  intro hb
  rw [headAt_break hb, Option.some.injEq] at hh
  rw [← hh] at h7
  exact h7 rfl

/-- The chunks of an indefinite string traps, or end at a break. -/
theorem cdSkipChunks_iff (h7 : mt ≠ 7) (R : Read CborDec) (hR : ∀ e, R ≠ .err e) :
    cdSkipChunks d mt = R ↔
      ∃ q, Relation.ReflTransGen (ChunkTo d.input.val mt cbHeadLen anyBytes) d.pos q ∧
        (Oversized d.input.val mt cbHeadLen q ∧ R = .trap ∨
          d.input.val[q]? = some 0xFF ∧ R = .ok (cdAt d (q + 1) d.opened)) := by
  refine @chunks_iff d.input.val mt cbHeadLen anyBytes Unit
    (fun p _ => cdSkipChunks (cdAt d p d.opened) mt = R) _ ?_ ?_ ?_ d.pos ()
  · intro p _ h
    rw [cdSkipChunks] at h
    split at h
    case isTrue hb => exact Or.inl (Or.inr ⟨atBreak_iff.1 hb, h.symm⟩)
    case isFalse =>
      split at h
      case h_1 e _ => exact absurd h.symm (hR e)
      case h_2 ht => exact Or.inl (Or.inl ⟨cdSkipChunk_trap.1 ht, h.symm⟩)
      case h_3 r hr =>
        obtain ⟨q, hto, rfl⟩ := cdSkipChunk_ok_iff.1 hr
        exact Or.inr ⟨q, (), hto, h⟩
  · rintro p _ (⟨hover, rfl⟩ | ⟨hb, rfl⟩)
    · have ht := cdSkipChunk_trap (d := cdAt d p d.opened).2 hover
      rw [cdSkipChunks, if_neg (fun hb => not_break_of_oversized h7 hover (atBreak_iff.1 hb))]
      split
      case h_1 e he => rw [ht] at he; cases he
      case h_2 => rfl
      case h_3 r hr => rw [ht] at hr; cases hr
    · rw [cdSkipChunks, if_pos (atBreak_iff.2 hb)]
      rfl
  · intro p q hto hq _
    have hok : cdSkipChunk (cdAt d p d.opened) mt = .ok (cdAt d q d.opened) :=
      cdSkipChunk_ok_iff.2 ⟨q, hto, rfl⟩
    rw [cdSkipChunks, if_neg (fun hb => not_break_of_chunkTo h7 hto (atBreak_iff.1 hb))]
    split
    case h_1 e he => rw [hok] at he; cases he
    case h_2 ht => rw [hok] at ht; cases ht
    case h_3 r hr =>
      rw [hok, Outcome.ok.injEq] at hr
      rw [← hr]
      exact hq ()

end

/-! ## Chunks, read as a text -/

section

variable {d r : CborDec} {b : StrBuf}

theorem strChunk_eq (d : CborDec) :
    strChunk d = definite d 3 cbHeadLen "a string chunk".toList
      (fun _ => syntaxError "a text string chunk must be a definite-length text string".toList)
      (eofError "a string chunk".toList) fun h =>
        cbStrAt d.input.val (d.pos + cbHeadLen h) (d.pos + cbHeadLen h + h.arg)
          "a string chunk".toList >>= fun s => .ok ⟨s, cdTake d (cbHeadLen h + h.arg)⟩ := by
  have h := @readHead_definite _ d 3 "a string chunk".toList
    (fun _ => syntaxError "a text string chunk must be a definite-length text string".toList)
    (eofError "a string chunk".toList) (fun _ len rest => do
      let s ← cbStrAt rest.input.val rest.pos (rest.pos + len) "a string chunk".toList
      pure (⟨s, cdTake rest len⟩ : Parsed Str CborDec))
  simp only [cdTake_cdTake, cdTake_input, cdTake_pos] at h
  exact h

theorem strChunk_trap : strChunk d = .trap ↔ Oversized d.input.val 3 cbHeadLen d.pos := by
  rw [strChunk_eq]
  exact definite_trap fun h => strAt_bind_ne_trap

theorem strChunk_ok_iff :
    (∃ s, strChunk d = .ok ⟨s, r⟩) ↔
      ∃ q, ChunkTo d.input.val 3 cbHeadLen (IsText d.input.val "a string chunk".toList) d.pos q ∧
        r = cdAt d q d.opened := by
  rw [strChunk_eq]
  exact definite_text_ok id

theorem cdStrChunks_eq (d : CborDec) (b : StrBuf) :
    cdStrChunks d b = if cbAtBreak d then .ok ⟨finishText b, cdTake d 1⟩
      else strChunk d >>= fun c => cdStrChunks c.rest (b ++ c.value) := by
  rw [cdStrChunks]
  split_ifs
  · rfl
  · split
    case h_1 e he => rw [he]; rfl
    case h_2 ht => rw [ht]; rfl
    case h_3 c hc => rw [hc]; rfl

theorem cdStrChunks_trap :
    cdStrChunks d b = .trap ↔
      ChunksTrap d.input.val 3 cbHeadLen (IsText d.input.val "a string chunk".toList) d.pos := by
  refine @chunks_iff d.input.val 3 cbHeadLen (IsText d.input.val "a string chunk".toList) StrBuf
    (fun p b => cdStrChunks (cdAt d p d.opened) b = .trap) _ ?_ ?_ ?_ d.pos b
  · intro p b h
    rw [cdStrChunks_eq] at h
    split_ifs at h
    rcases Outcome.bind_trap.1 h with ht | ⟨⟨s, r⟩, hok, h⟩
    · exact Or.inl (strChunk_trap.1 ht)
    · obtain ⟨q, hto, rfl⟩ := strChunk_ok_iff.1 ⟨s, hok⟩
      exact Or.inr ⟨q, b ++ s, hto, h⟩
  · intro p b hover
    have ht := strChunk_trap (d := cdAt d p d.opened).2 hover
    rw [cdStrChunks_eq, ht,
      if_neg (fun hb => not_break_of_oversized (by decide) hover (atBreak_iff.1 hb))]
    rfl
  · intro p q hto hq b
    obtain ⟨s, hok⟩ := strChunk_ok_iff (d := cdAt d p d.opened).2 ⟨q, hto, rfl⟩
    rw [cdStrChunks_eq, hok, Outcome.ok_bind,
      if_neg (fun hb => not_break_of_chunkTo (by decide) hto (atBreak_iff.1 hb))]
    exact hq (b ++ s)

end

/-! ## Chunks, read as bytes -/

section

variable {d : CborDec} {mt : Nat} {what : Str}

/-- A chunk's length counts from before its head. -/
theorem cdChunkHead_eq (d : CborDec) (mt : Nat) (what : Str) :
    cdChunkHead d mt what = definite d mt (fun _ => 0) what
      (fun _ => serialError .errSyntax (what ++ " must be a definite-length string".toList))
      (eofError what) fun h => .ok ⟨⟨h.arg⟩, cdTake d (cbHeadLen h)⟩ := by
  unfold cdChunkHead definite
  rw [cdPeekHead_eq]
  cases headAt d.input.val d.pos with
  | none => rfl
  | some h =>
    have hfit := cbFitArg_eq_if h.arg d
    simp only [Outcome.ok_bind, Nat.add_zero]
    by_cases hmt : h.mt ≠ mt ∨ h.ai = 31
    · rw [if_pos hmt, if_pos hmt]
    rw [if_neg hmt, if_neg hmt]
    by_cases hover : 9223372036854775808 ≤ d.pos + h.arg
    · rw [if_pos hover] at hfit
      rw [if_pos hover, hfit]
      rfl
    rw [if_neg hover] at hfit
    rw [if_neg hover, hfit, Outcome.ok_bind]
    by_cases hend : d.pos + h.arg > d.input.val.length
    · rw [if_pos hend, if_pos hend]
      rfl
    · rw [if_neg hend, if_neg hend, if_neg (by omega)]
      rfl

theorem cdChunkHead_trap :
    cdChunkHead d mt what = .trap ↔ Oversized d.input.val mt (fun _ => 0) d.pos := by
  rw [cdChunkHead_eq]
  exact definite_trap fun h => by simp

theorem cdChunkHead_ok_iff {c : Parsed CbChunk CborDec} :
    cdChunkHead d mt what = .ok c ↔
      ∃ h, headAt d.input.val d.pos = some h ∧ h.mt = mt ∧ h.ai ≠ 31 ∧
        d.pos + h.arg ≤ d.input.val.length ∧ c = ⟨⟨h.arg⟩, cdTake d (cbHeadLen h)⟩ := by
  rw [cdChunkHead_eq, definite_ok]
  simp only [Nat.add_zero, Outcome.ok.injEq, eq_comm]

theorem cdByteChunks_eq (d : CborDec) (acc : List UInt8) :
    cdByteChunks d acc = if cbAtBreak d then .ok ⟨acc, cdTake d 1⟩
      else cdChunkHead d 2 "a byte string chunk".toList >>= fun c =>
        cdByteChunks (cdTake c.rest c.value.len.toNat)
          (acc ++ slice c.rest.input.val c.rest.pos c.value.len.toNat) := by
  rw [cdByteChunks]
  split_ifs
  · rfl
  · split
    case h_1 e he => rw [he]; rfl
    case h_2 ht => rw [ht]; rfl
    case h_3 c hc => rw [hc]; rfl

theorem cdByteChunks_trap {acc : List UInt8} :
    cdByteChunks d acc = .trap ↔ ChunksTrap d.input.val 2 (fun _ => 0) anyBytes d.pos := by
  refine @chunks_iff d.input.val 2 (fun _ => 0) anyBytes (List UInt8)
    (fun p acc => cdByteChunks (cdAt d p d.opened) acc = .trap) _ ?_ ?_ ?_ d.pos acc
  · intro p acc h
    rw [cdByteChunks_eq] at h
    split_ifs at h
    rcases Outcome.bind_trap.1 h with ht | ⟨c, hok, h⟩
    · exact Or.inl (cdChunkHead_trap.1 ht)
    · obtain ⟨k, hh, hmt, hai, hfit, rfl⟩ := cdChunkHead_ok_iff.1 hok
      exact Or.inr ⟨_, _, ⟨k, hh, hmt, hai, hfit, trivial, rfl⟩, h⟩
  · intro p acc hover
    have ht : cdChunkHead (cdAt d p d.opened) 2 "a byte string chunk".toList = .trap :=
      cdChunkHead_trap.2 hover
    rw [cdByteChunks_eq, ht,
      if_neg (fun hb => not_break_of_oversized (by decide) hover (atBreak_iff.1 hb))]
    rfl
  · intro p q hto hq acc
    have hnot := not_break_of_chunkTo (by decide) hto
    obtain ⟨k, hh, hmt, hai, hfit, -, rfl⟩ := hto
    have hok : cdChunkHead (cdAt d p d.opened) 2 "a byte string chunk".toList = .ok _ :=
      cdChunkHead_ok_iff.2 ⟨k, hh, hmt, hai, hfit, rfl⟩
    rw [cdByteChunks_eq, hok, Outcome.ok_bind, if_neg (fun hb => hnot (atBreak_iff.1 hb))]
    exact hq _

end

end Cbor

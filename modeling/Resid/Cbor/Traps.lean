import Resid.Cbor.SkipWalk

/-!
# When a verb traps

Each verb traps on inputs of its own: `Traps v d` names them.  What is read in a loop, chunks,
tags, pieces of a string, traps where its steps lead to a length that does.

    cdI128 d = trap ↔ a big number follows that traps, or has 128 bits     (cdI128_trap)
    cdVariantNameAt d = trap ↔ VariantNameTrap d                           (cdVariantNameAt_trap)
    cdNext … d = trap ↔ PieceTrap kind d                                   (cdNext_trap)
    v.run d = trap ↔ Traps v d                                             (run_trap_iff)
-/

namespace Cbor

open Runtime Serial CheckedInt ByteOrder

/-! ## Byte strings and big numbers -/

/-- The chunks from `p` to a break hold `content`. -/
inductive ByteChunks (bs : List UInt8) : Nat → List UInt8 → Prop
  | stop {p : Nat} : bs[p]? = some 0xFF → ByteChunks bs p []
  | chunk {p : Nat} {h : CbHead} {content : List UInt8} : headAt bs p = some h → h.mt = 2 →
      h.ai ≠ 31 → p + h.arg ≤ bs.length →
      ByteChunks bs (p + cbHeadLen h + h.arg) content →
      ByteChunks bs p (slice bs (p + cbHeadLen h) h.arg ++ content)

/-- A byte string at `p` holds `content`. -/
def BytesAt (bs : List UInt8) (p : Nat) (content : List UInt8) : Prop :=
  ∃ h, headAt bs p = some h ∧ h.mt = 2 ∧
    (h.ai ≠ 31 ∧ p + cbHeadLen h + h.arg ≤ bs.length ∧
        content = slice bs (p + cbHeadLen h) h.arg ∨
      h.ai = 31 ∧ ByteChunks bs (p + cbHeadLen h) content)

/-- A byte string at `p` that traps. -/
def BytesTrap (bs : List UInt8) (p : Nat) : Prop :=
  Oversized bs 2 cbHeadLen p ∨
    ∃ h, headAt bs p = some h ∧ h.mt = 2 ∧ h.ai = 31 ∧
      ChunksTrap bs 2 (fun _ => 0) anyBytes (p + cbHeadLen h)

/-- A byte string that traps as a signed number of 128 bits: also one of all 128 bits does. -/
def BignumTrap (bs : List UInt8) (p : Nat) : Prop :=
  BytesTrap bs p ∨ ∃ content, BytesAt bs p content ∧ content.length ≤ 16 ∧
    170141183460469231731687303715884105728 ≤ value content.reverse

section

variable {d : CborDec} {content acc : List UInt8}

theorem byteChunks_of_ok {r : Parsed (List UInt8) CborDec} (hok : cdByteChunks d acc = .ok r) :
    ∃ content, ByteChunks d.input.val d.pos content ∧ r.value = acc ++ content := by
  fun_induction cdByteChunks d acc with
  | case1 d acc hb =>
    cases hok
    exact ⟨[], .stop (atBreak_iff.1 hb), (List.append_nil acc).symm⟩
  | case2 => cases hok
  | case3 => cases hok
  | case4 d acc hb c hc part ih =>
    obtain ⟨k, hh, hmt, hai, hfit, rfl⟩ := cdChunkHead_ok_iff.1 hc
    obtain ⟨content, hrest, hr⟩ := ih hok
    exact ⟨_, .chunk hh hmt hai hfit hrest, by rw [hr, List.append_assoc]; rfl⟩

theorem ByteChunks.ok {bs : List UInt8} {p : Nat} (h : ByteChunks bs p content) {d : CborDec}
    (hbs : d.input.val = bs) (hp : d.pos = p) (acc : List UInt8) :
    ∃ rest, cdByteChunks d acc = .ok ⟨acc ++ content, rest⟩ := by
  induction h generalizing d acc with
  | stop hb =>
    subst hbs hp
    rw [cdByteChunks_eq, if_pos (atBreak_iff.2 hb), List.append_nil]
    exact ⟨_, rfl⟩
  | chunk hh hmt hai hfit _ ih =>
    subst hbs hp
    have hok : cdChunkHead d 2 "a byte string chunk".toList = .ok _ :=
      cdChunkHead_ok_iff.2 ⟨_, hh, hmt, hai, hfit, rfl⟩
    rw [cdByteChunks_eq, if_neg (not_atBreak hh (by omega)), hok, Outcome.ok_bind,
      ← List.append_assoc]
    exact ih (by rfl) (by rfl) _

theorem cdBytes_trap : cdBytes d = .trap ↔ BytesTrap d.input.val d.pos := by
  rw [cdBytes, readHead_trap, BytesTrap, Oversized, ← exists_or]
  apply exists_congr
  intro h
  rw [← and_or_left]
  apply and_congr_right
  intro _
  split_ifs with hmt hai
  · tauto
  · rw [cdByteChunks_trap]
    tauto
  · rw [fitArg_trap (by simp), cdTake_pos, if_neg (by omega)]
    tauto

theorem cdBytes_ok_iff :
    (∃ rest, cdBytes d = .ok ⟨content, rest⟩) ↔ BytesAt d.input.val d.pos content := by
  constructor
  · rintro ⟨rest, hok⟩
    obtain ⟨h, hh, hok⟩ := readHead_ok.1 hok
    split_ifs at hok with hmt hai
    · obtain ⟨c, hc, hval⟩ := byteChunks_of_ok hok
      have hcontent : content = c := hval
      subst hcontent
      exact ⟨h, hh, not_not.1 hmt, Or.inr ⟨hai, hc⟩⟩
    · obtain ⟨hfit, hok⟩ := (fitArg_ok (by simp)).1 hok
      cases hok
      exact ⟨h, hh, not_not.1 hmt, Or.inl ⟨hai, hfit, rfl⟩⟩
  · rintro ⟨h, hh, hmt, ⟨hai, hfit, rfl⟩ | ⟨hai, hc⟩⟩
    · refine ⟨cdTake (cdTake d (cbHeadLen h)) h.arg, readHead_ok.2 ⟨h, hh, ?_⟩⟩
      rw [if_neg (not_not.2 hmt), if_neg hai, fitArg_ok (by simp), if_neg (by omega)]
      exact ⟨hfit, rfl⟩
    · obtain ⟨rest, hrest⟩ := hc.ok (d := cdTake d (cbHeadLen h)) rfl rfl []
      refine ⟨rest, readHead_ok.2 ⟨h, hh, ?_⟩⟩
      rw [if_neg (not_not.2 hmt), if_pos hai, hrest, List.nil_append]

/-- A big number is the value of a byte string of at most sixteen. -/
theorem cdBignum_ok_iff {m : Nat} :
    (∃ rest, cdBignum d = .ok ⟨m, rest⟩) ↔
      ∃ content, BytesAt d.input.val d.pos content ∧ content.length ≤ 16 ∧
        value content.reverse = m := by
  have hvalue : ∀ content : List UInt8, content.length ≤ 16 →
      cbBeValue content = value content.reverse := by
    intro content h16
    have hpow : 256 ^ content.length ≤ 256 ^ 16 := Nat.pow_le_pow_right (by decide) h16
    rw [cbBeValue, cbBeValueAt_eq (by omega), Nat.zero_mul, Nat.zero_add]
  constructor
  · rintro ⟨rest, hok⟩
    obtain ⟨⟨content, r⟩, hbytes, hok⟩ := Outcome.bind_ok.1 hok
    split_ifs at hok with h16
    cases hok
    have hle : content.length ≤ 16 := not_lt.1 h16
    exact ⟨content, cdBytes_ok_iff.1 ⟨_, hbytes⟩, hle, (hvalue content hle).symm⟩
  · rintro ⟨content, hat, h16, rfl⟩
    obtain ⟨rest, hbytes⟩ := cdBytes_ok_iff.2 hat
    refine ⟨rest, ?_⟩
    rw [cdBignum, hbytes, Outcome.ok_bind, if_neg (not_lt.2 h16), hvalue content h16]
    rfl

theorem cdBignum_trap : cdBignum d = .trap ↔ BytesTrap d.input.val d.pos := by
  rw [← cdBytes_trap, cdBignum, Outcome.bind_trap]
  constructor
  · rintro (h | ⟨bs, -, h⟩)
    · exact h
    · split_ifs at h
  · exact Or.inl

theorem toInt_128_trap {m : Nat} :
    toInt 128 (m : Int) = .trap ↔ 170141183460469231731687303715884105728 ≤ m := by
  rw [toInt, check]
  split_ifs with hfit
  · rw [fits_128] at hfit
    simp only [Outcome.checked_some, reduceCtorEq, false_iff]
    omega
  · rw [fits_128] at hfit
    simp only [Outcome.checked, true_iff]
    omega

/-- A reader of a big number traps where the byte string does, or where the magnitude is too
large for the sign. -/
theorem bignum_trap {f : Parsed Nat CborDec → Read (Parsed Int CborDec)}
    (hf : ∀ u, f u = .trap ↔ toInt 128 u.value = .trap) :
    (cdBignum d >>= f) = .trap ↔ BignumTrap d.input.val d.pos := by
  rw [Outcome.bind_trap, cdBignum_trap, BignumTrap]
  apply or_congr_right
  constructor
  · rintro ⟨⟨m, rest⟩, hok, htrap⟩
    obtain ⟨content, hat, h16, rfl⟩ := cdBignum_ok_iff.1 ⟨rest, hok⟩
    rw [hf, toInt_128_trap] at htrap
    exact ⟨content, hat, h16, htrap⟩
  · rintro ⟨content, hat, h16, hbig⟩
    obtain ⟨rest, hok⟩ := cdBignum_ok_iff.2 ⟨content, hat, h16, rfl⟩
    refine ⟨⟨value content.reverse, rest⟩, hok, ?_⟩
    rw [hf, toInt_128_trap]
    exact hbig

theorem cdBignumPos_trap : cdBignumPos d = .trap ↔ BignumTrap d.input.val d.pos := by
  apply bignum_trap
  intro u
  rw [Outcome.bind_trap]
  simp

theorem cdBignumNeg_trap : cdBignumNeg d = .trap ↔ BignumTrap d.input.val d.pos := by
  apply bignum_trap
  intro u
  rw [Outcome.bind_trap]
  constructor
  · rintro (h | ⟨v, hv, h⟩)
    · exact h
    · -- the number fits, so its negation and one less do
      obtain ⟨hfit, rfl⟩ := check_eq_some.1 (Outcome.checked_ok.1 hv)
      rw [fits_128] at hfit
      rw [sub_of_fits (fits_128.2 (by omega)), Outcome.checked_some, Outcome.ok_bind,
        sub_of_fits (fits_128.2 (by omega))] at h
      cases h
  · exact Or.inl

end

/-! ## Integers -/

/-- The head of -2 ^ 64, whose text takes one more than its argument. -/
def LeastNegative (bs : List UInt8) (p : Nat) : Prop :=
  ∃ h, headAt bs p = some h ∧ h.mt = 1 ∧ h.arg = 18446744073709551615

/-- A head read as a 128-bit number that a big number follows: a tag 2 or 3, or a negative head
past 63 bits. -/
def BignumHead (h : CbHead) : Prop :=
  h.mt = 1 ∧ 9223372036854775807 ≤ h.arg ∨ h.mt = 6 ∧ (h.arg = 2 ∨ h.arg = 3)

section

variable {d : CborDec}

theorem cdInt_trap : cdInt d = .trap ↔ LeastNegative d.input.val d.pos := by
  rw [cdInt, readHead_trap, LeastNegative]
  apply exists_congr
  intro h
  apply and_congr_right
  intro hh
  have harg := arg_lt_of_headAt hh
  simp only
  by_cases h7 : h.mt = 7
  · rw [if_pos h7]
    split_ifs <;> simp only [false_iff] <;> omega
  rw [if_neg h7]
  by_cases h1 : h.mt = 1
  · rw [if_pos h1]
    by_cases hbig : h.arg > 9223372036854775807
    · rw [if_pos hbig, FixedWidth.addChk, FixedWidth.castChk]
      split_ifs with hfit
      · simp only [Outcome.checked_some, Outcome.ok_bind, reduceCtorEq, false_iff]
        omega
      · simp only [Outcome.checked, Outcome.trap_bind, true_iff]
        omega
    · rw [if_neg hbig, toInt_of_fits (fits_64.2 (by omega)), Outcome.ok_bind,
        sub_of_fits (fits_64.2 (by omega)), Outcome.checked_some, Outcome.ok_bind,
        sub_of_fits (fits_64.2 (by omega)), Outcome.checked_some, Outcome.ok_bind]
      simp only [Outcome.pure_eq, reduceCtorEq, false_iff]
      omega
  split_ifs with h0 hbig
  · simp only [false_iff]
    omega
  · simp only [false_iff]
    omega
  · rw [toInt_of_fits (fits_64.2 (by omega)), Outcome.ok_bind]
    simp only [Outcome.pure_eq, reduceCtorEq, false_iff]
    omega

theorem cdI128_trap :
    cdI128 d = .trap ↔ ∃ h, headAt d.input.val d.pos = some h ∧ BignumHead h ∧
      BignumTrap d.input.val (d.pos + cbHeadLen h) := by
  rw [cdI128, readHead_trap]
  apply exists_congr
  intro h
  apply and_congr_right
  intro hh
  have harg := arg_lt_of_headAt hh
  unfold BignumHead
  simp only
  by_cases h0 : h.mt = 0
  · rw [if_pos h0, toInt_of_fits (fits_128.2 (by omega)), Outcome.ok_bind]
    simp only [Outcome.pure_eq, reduceCtorEq, false_iff]
    omega
  rw [if_neg h0]
  by_cases h1 : h.mt = 1
  · rw [if_pos h1, FixedWidth.addChk_of_lt (by omega), Outcome.checked_some, Outcome.ok_bind]
    by_cases hmag : h.arg + 1 ≤ 9223372036854775807
    · rw [if_pos hmag, toInt_of_fits (fits_128.2 (by omega)), Outcome.ok_bind,
        sub_of_fits (fits_128.2 (by omega)), Outcome.checked_some, Outcome.ok_bind]
      simp only [Outcome.pure_eq, reduceCtorEq, false_iff]
      omega
    · rw [if_neg hmag, cdBignumNeg_trap, cdTake_pos, cdTake_input]
      exact ⟨fun ht => ⟨by omega, ht⟩, fun ht => ht.2⟩
  split_ifs with h2 h3
  · rw [cdBignumPos_trap, cdTake_pos, cdTake_input]
    exact ⟨fun ht => ⟨by omega, ht⟩, fun ht => ht.2⟩
  · rw [cdBignumNeg_trap, cdTake_pos, cdTake_input]
    exact ⟨fun ht => ⟨by omega, ht⟩, fun ht => ht.2⟩
  · simp only [false_iff]
    omega

theorem cdU128_trap :
    cdU128 d = .trap ↔ ∃ h, headAt d.input.val d.pos = some h ∧ h.mt = 6 ∧ h.arg = 2 ∧
      BytesTrap d.input.val (d.pos + cbHeadLen h) := by
  rw [cdU128, readHead_trap]
  apply exists_congr
  intro h
  apply and_congr_right
  intro _
  simp only
  split_ifs with h0 h2
  · simp only [false_iff]
    omega
  · rw [cdBignumU128, cdBignum_trap, cdTake_pos, cdTake_input]
    exact ⟨fun ht => ⟨h2.1, h2.2, ht⟩, fun ht => ht.2.2⟩
  · simp only [false_iff]
    tauto

/-! ## Texts and containers -/

/-- A text at `p` that traps. -/
def TextTrap (bs : List UInt8) (p : Nat) : Prop :=
  Oversized bs 3 cbHeadLen p ∨
    ∃ h, headAt bs p = some h ∧ h.mt = 3 ∧ h.ai = 31 ∧
      ChunksTrap bs 3 cbHeadLen (IsText bs "a string chunk".toList) (p + cbHeadLen h)

theorem cdStr_trap : cdStr d = .trap ↔ TextTrap d.input.val d.pos := by
  rw [cdStr, readHead_trap, TextTrap, Oversized, ← exists_or]
  apply exists_congr
  intro h
  rw [← and_or_left]
  apply and_congr_right
  intro _
  simp only
  split_ifs with hmt hai
  · tauto
  · rw [cdStrChunks_trap]
    tauto
  · rw [fitArg_trap (by simp), cdTake_pos, if_neg (by omega)]
    have hno : ¬ (if (cdTake d (cbHeadLen h)).pos + (h.arg : Int).toNat >
        (cdTake d (cbHeadLen h)).input.val.length then
          (Outcome.err (eofError "a string".toList) : Read (Parsed Str CborDec))
        else do
          let s ← cbStrAt (cdTake d (cbHeadLen h)).input.val (cdTake d (cbHeadLen h)).pos
            ((cdTake d (cbHeadLen h)).pos + (h.arg : Int).toNat) "a string".toList
          pure ⟨s, cdTake (cdTake d (cbHeadLen h)) (h.arg : Int).toNat⟩) = .trap := by
      split_ifs
      · simp
      · exact strAt_bind_ne_trap
    tauto

variable {what : Str} {fields : List Str} {n : Int}

/-- What opens a string or a container traps at its length only. -/
theorem begin_trap {T : Type} {mt : Nat} {start : Parsed CbHead CborDec → T}
    {f : Parsed CbHead CborDec → Int → Read T} (hf : ∀ h n, f h n ≠ .trap) : (do
      let h ← cdReadHead d what
      if h.value.mt ≠ mt then .err (invalidType what (cbHeadName h.value))
      else if h.value.ai = 31 then .ok (start h)
      else cbFitArg h.value.arg h.rest >>= f h) = .trap ↔
      Oversized d.input.val mt cbHeadLen d.pos := by
  rw [readHead_trap, Oversized]
  apply exists_congr
  intro h
  apply and_congr_right
  intro _
  split_ifs with hmt hai
  · tauto
  · simp only [false_iff]
    tauto
  · rw [fitArg_trap (hf _ _), cdTake_pos]
    tauto

theorem cdStrBegin_trap : cdStrBegin d = .trap ↔ Oversized d.input.val 3 cbHeadLen d.pos := by
  apply begin_trap
  intro h n
  split_ifs
  · simp
  · rw [Ne, Outcome.bind_trap]
    rintro (ht | ⟨k, -, ht⟩)
    · exact cbCpCountAt_ne_trap ht
    · cases ht

theorem cdBytesBegin_trap : cdBytesBegin d = .trap ↔ Oversized d.input.val 2 cbHeadLen d.pos := by
  apply begin_trap
  intro h n
  split_ifs <;> simp

theorem cdContainerBegin_trap {mt : Nat} :
    cdContainerBegin d mt what = .trap ↔ Oversized d.input.val mt cbHeadLen d.pos := by
  apply begin_trap
  intro h n
  split_ifs <;> simp

/-! ## Fields -/

theorem cdFieldKey_eq (d : CborDec) (fields : List Str) :
    cdFieldKey d fields = definite d 3 cbHeadLen "a field name".toList
      (fun h => invalidType "a field name".toList (cbHeadName h))
      (eofError "a field name".toList) fun h =>
        cbStrAt d.input.val (d.pos + cbHeadLen h) (d.pos + cbHeadLen h + h.arg)
          "a field name".toList >>= fun s =>
            .ok ⟨if nameIndex fields s < 0 then .unknownField s
              else .knownField (nameIndex fields s), cdTake d (cbHeadLen h + h.arg)⟩ := by
  have h := @readHead_definite _ d 3 "a field name".toList
    (fun h => invalidType "a field name".toList (cbHeadName h)) (eofError "a field name".toList)
    (fun _ len rest => cbStrAt rest.input.val rest.pos (rest.pos + len) "a field name".toList >>=
      fun s => .ok (⟨if nameIndex fields s < 0 then .unknownField s
        else .knownField (nameIndex fields s), cdTake rest len⟩ : Parsed FieldKey CborDec))
  simp only [cdTake_cdTake, cdTake_input, cdTake_pos] at h
  exact h

theorem cdFieldKey_trap :
    cdFieldKey d fields = .trap ↔ Oversized d.input.val 3 cbHeadLen d.pos := by
  rw [cdFieldKey_eq]
  exact definite_trap fun h => strAt_bind_ne_trap

/-- A key at `p` that is read as a text ends at `q`. -/
def KeyTo (bs : List UInt8) (p q : Nat) : Prop :=
  ChunkTo bs 3 cbHeadLen (IsText bs "a field name".toList) p q

theorem cdFieldKey_ok_iff {r : CborDec} : (∃ k, cdFieldKey d fields = .ok ⟨k, r⟩) ↔
      ∃ q, KeyTo d.input.val d.pos q ∧ r = cdAt d q d.opened := by
  rw [cdFieldKey_eq]
  exact definite_text_ok fun s =>
    if nameIndex fields s < 0 then FieldKey.unknownField s
    else FieldKey.knownField (nameIndex fields s)

/-- A map is open with an entry left, and its key traps. -/
def FieldTrap (d : CborDec) : Prop :=
  (cdLeft d 5).ok = true ∧ (cdLeft d 5).n ≠ 0 ∧ Oversized d.input.val 3 cbHeadLen d.pos

theorem cdField_trap : cdField d fields = .trap ↔ FieldTrap d := by
  have hset : ∀ n, (cdSetLeft d n).input = d.input ∧ (cdSetLeft d n).pos = d.pos := by
    intro n
    unfold cdSetLeft
    split <;> exact ⟨rfl, rfl⟩
  unfold cdField FieldTrap
  simp only
  split_ifs with hok hn h0 hb
  · simp only [false_iff]
    rintro ⟨h, -⟩
    rw [hok] at h
    cases h
  · simp only [false_iff]
    exact fun h => h.2.1 h0
  · obtain ⟨hin, hpos⟩ := hset ((cdLeft d 5).n - 1)
    rw [cdFieldKey_trap, hin, hpos]
    exact ⟨fun h => ⟨Bool.eq_true_of_not_eq_false hok, h0, h⟩, fun h => h.2.2⟩
  · simp only [false_iff]
    exact fun h => not_break_of_oversized (by decide) h.2.2 (atBreak_iff.1 hb)
  · rw [cdFieldKey_trap]
    exact ⟨fun h => ⟨Bool.eq_true_of_not_eq_false hok, by omega, h⟩, fun h => h.2.2⟩

/-- The key of a variant's map is there: a text, or the break that ends an indefinite map. -/
def KeyAt (bs : List UInt8) (indefinite : Prop) (p : Nat) : Prop :=
  indefinite ∧ bs[p]? = some 0xFF ∨ ∃ q, KeyTo bs p q

/-- One of the counters of variants can count no more. -/
def CountersFull (d : CborDec) : Prop := ¬ Fits 64 (d.vmaps + 1) ∨ ¬ Fits 64 (d.payloads + 1)

theorem cdLeft_push_map (d : CborDec) (n : Int) :
    cdLeft (cdPush d (.map n)) 5 = ⟨n, true, []⟩ := by
  have hlast : (cdPush d (.map n)).opened.getLast? = some (.map n) := List.getLast?_concat
  unfold cdLeft
  rw [hlast]
  rfl

theorem cdSetLeft_eq (d : CborDec) (n : Int) :
    ∃ opened, cdSetLeft d n = cdAt d d.pos opened := by
  unfold cdSetLeft
  split
  · exact ⟨d.opened, rfl⟩
  · exact ⟨_, rfl⟩

/-- The key of a map just opened: the frames of the state after it are not said. -/
theorem cdField_push_ok {k : Parsed FieldKey CborDec} (hn : n ≠ 0) :
    cdField (cdPush d (.map n)) [] = .ok k →
      KeyAt d.input.val (n < 0) d.pos ∧
        k.rest.vmaps = d.vmaps ∧ k.rest.payloads = d.payloads := by
  intro hok
  unfold cdField at hok
  rw [cdLeft_push_map] at hok
  simp only [Bool.true_eq_false, if_false] at hok
  split_ifs at hok with hpos hb
  · obtain ⟨opened, hset⟩ := cdSetLeft_eq (cdPush d (.map n)) (n - 1)
    rw [hset] at hok
    obtain ⟨q, hto, hr⟩ := cdFieldKey_ok_iff.1 ⟨k.value, hok⟩
    rw [hr]
    exact ⟨Or.inr ⟨q, hto⟩, rfl, rfl⟩
  · cases hok
    exact ⟨Or.inl ⟨not_le.1 hpos, atBreak_iff.1 hb⟩, rfl, rfl⟩
  · obtain ⟨q, hto, hr⟩ := cdFieldKey_ok_iff.1 ⟨k.value, hok⟩
    rw [hr]
    exact ⟨Or.inr ⟨q, hto⟩, rfl, rfl⟩

theorem cdField_push_of_key (hn : n ≠ 0) (hkey : KeyAt d.input.val (n < 0) d.pos) :
    ∃ k, cdField (cdPush d (.map n)) [] = .ok k := by
  unfold cdField
  rw [cdLeft_push_map]
  simp only [Bool.true_eq_false, if_false, if_neg hn]
  by_cases hpos : n ≥ 0
  · rw [if_pos hpos]
    rcases hkey with ⟨h, -⟩ | ⟨q, hto⟩
    · exact absurd h (not_lt.2 hpos)
    · obtain ⟨opened, hset⟩ := cdSetLeft_eq (cdPush d (.map n)) (n - 1)
      obtain ⟨k, hk⟩ : ∃ k, cdFieldKey (cdAt (cdPush d (.map n)) d.pos opened) [] = .ok ⟨k, _⟩ :=
        cdFieldKey_ok_iff.2 ⟨q, hto, rfl⟩
      exact ⟨_, (congrArg (cdFieldKey · []) hset).trans hk⟩
  · rw [if_neg hpos]
    by_cases hb : cbAtBreak (cdPush d (.map n)) = true
    · rw [if_pos hb]
      exact ⟨_, rfl⟩
    · rw [if_neg hb]
      rcases hkey with ⟨-, h⟩ | ⟨q, hto⟩
      · exact absurd (atBreak_iff.2 h) hb
      · obtain ⟨k, hk⟩ : ∃ k, cdFieldKey (cdPush d (.map n)) [] = .ok ⟨k, _⟩ :=
          cdFieldKey_ok_iff.2 ⟨q, hto, rfl⟩
        exact ⟨_, hk⟩

/-- A variant whose map is open, with the key at `p`, traps: the key does, or a counter is full. -/
def MapTrap (d : CborDec) (indefinite : Prop) (p : Nat) : Prop :=
  Oversized d.input.val 3 cbHeadLen p ∨ KeyAt d.input.val indefinite p ∧ CountersFull d

/-- What traps behind the head of a variant that ends at `p`. -/
def VariantTrap (d : CborDec) (h : CbHead) (p : Nat) : Prop :=
  (h.mt = 3 ∨ h.mt = 5) ∧ h.ai ≠ 31 ∧ 9223372036854775808 ≤ p + h.arg ∨
    h.mt = 5 ∧ (h.ai = 31 ∨ h.arg ≠ 0 ∧ p + h.arg ≤ d.input.val.length) ∧ MapTrap d (h.ai = 31) p

theorem counter_trap : (.checked (add 64 n 1) : Read Int) = .trap ↔ ¬ Fits 64 (n + 1) := by
  rw [add, check]
  split_ifs with hfit
  · simp [hfit]
  · simp [Outcome.checked, hfit]

/-- The rest of a variant whose map was opened with `n` entries. -/
theorem mapTail_trap (hn : n ≠ 0) (left : Int) : (do
      let key ← cdField (cdPush d (.map n)) []
      let d2 := cdSetLeft key.rest left
      let vmaps ← .checked (add 64 d2.vmaps 1)
      let payloads ← .checked (add 64 d2.payloads 1)
      pure (⟨cbFieldName key.value, cdPayloads (cdVmaps d2 vmaps) payloads⟩ :
        Parsed Str CborDec)) = (.trap : Read (Parsed Str CborDec)) ↔
      MapTrap d (n < 0) d.pos := by
  have hleft := cdLeft_push_map d n
  rw [Outcome.bind_trap, cdField_trap, FieldTrap, hleft, MapTrap]
  apply or_congr
  · exact ⟨fun h => h.2.2, fun h => ⟨rfl, hn, h⟩⟩
  have hcount : ∀ k, cdField (cdPush d (.map n)) [] = .ok k →
      ((do
        let d2 := cdSetLeft k.rest left
        let vmaps ← .checked (add 64 d2.vmaps 1)
        let payloads ← .checked (add 64 d2.payloads 1)
        pure (⟨cbFieldName k.value, cdPayloads (cdVmaps d2 vmaps) payloads⟩ :
          Parsed Str CborDec)) = (.trap : Read (Parsed Str CborDec)) ↔ CountersFull d) := by
    intro k hk
    obtain ⟨-, hv, hp⟩ := cdField_push_ok hn hk
    obtain ⟨opened, hset⟩ := cdSetLeft_eq k.rest left
    have hv' : (cdSetLeft k.rest left).vmaps = d.vmaps := by rw [hset]; exact hv
    have hp' : (cdSetLeft k.rest left).payloads = d.payloads := by rw [hset]; exact hp
    simp only [hv', hp']
    rw [Outcome.bind_trap, counter_trap, CountersFull]
    by_cases hfit : Fits 64 (d.vmaps + 1)
    · rw [add_of_fits hfit]
      simp [Outcome.checked_some, Outcome.ok.injEq, Outcome.bind_trap,
        counter_trap, Outcome.pure_eq, reduceCtorEq, and_false, or_false]
    · simp [hfit]
  constructor
  · rintro ⟨k, hk, h⟩
    exact ⟨(cdField_push_ok hn hk).1, (hcount k hk).1 h⟩
  · rintro ⟨hkey, hfull⟩
    obtain ⟨k, hk⟩ := cdField_push_of_key hn hkey
    exact ⟨k, hk, (hcount k hk).2 hfull⟩

theorem variantNameBehind_trap {h : CbHead} (hd : d.pos ≤ d.input.val.length) :
    variantNameBehind ⟨h, d⟩ = .trap ↔ VariantTrap d h d.pos := by
  have hcap := d.input.property
  unfold listCap at hcap
  unfold variantNameBehind VariantTrap
  by_cases h3 : h.mt = 3
  · rw [if_pos h3]
    by_cases h31 : h.ai = 31
    · rw [if_pos h31]
      simp only [reduceCtorEq, false_iff]
      omega
    · rw [if_neg h31, fitArg_trap (by simp), if_neg (by omega)]
      have hno := @strAt_bind_ne_trap _ d.input.val d.pos (d.pos + (h.arg : Int).toNat)
        "a variant name".toList fun s => (⟨s, cdTake d (h.arg : Int).toNat⟩ : Parsed Str CborDec)
      constructor
      · rintro (hover | ⟨-, ht⟩)
        · exact Or.inl ⟨Or.inl h3, h31, hover⟩
        · exact absurd ht hno
      · rintro (⟨-, -, hover⟩ | ⟨h5, -⟩)
        · exact Or.inl hover
        · omega
  rw [if_neg h3]
  by_cases h5 : h.mt = 5
  swap
  · rw [if_pos h5]
    simp only [reduceCtorEq, false_iff]
    omega
  rw [if_neg (not_not.2 h5)]
  by_cases hz : h.ai ≠ 31 ∧ h.arg = 0
  · rw [if_pos hz]
    simp only [reduceCtorEq, false_iff]
    omega
  rw [if_neg hz]
  by_cases h31 : h.ai = 31
  · have htail := mapTail_trap (d := d) (n := -1) (by decide) (-1)
    have hopen : ((-1 : Int) < 0) = (h.ai = 31) := propext ⟨fun _ => h31, fun _ => by decide⟩
    rw [hopen] at htail
    simp only [Outcome.pure_eq, Outcome.ok_bind, ne_eq, h31, not_true_eq_false,
      and_false, if_false, if_true] at htail ⊢
    rw [htail]
    constructor
    · exact fun ht => Or.inr ⟨h5, Or.inl trivial, ht⟩
    · rintro (⟨-, hcon, -⟩ | ⟨-, -, ht⟩)
      · exact hcon.elim
      · exact ht
  · have htail := mapTail_trap (d := d) (n := h.arg) (by omega) (h.arg - 1)
    have hopen : ((h.arg : Int) < 0) = (h.ai = 31) :=
      propext ⟨fun hneg => by omega, fun hcon => absurd hcon h31⟩
    rw [hopen] at htail
    simp only [if_neg h31]
    rw [fitArg_trap (by simp [h31]), if_neg (by omega), htail]
    constructor
    · rintro (hover | ⟨hfit, ht⟩)
      · exact Or.inl ⟨Or.inr h5, h31, hover⟩
      · exact Or.inr ⟨h5, Or.inr ⟨fun h0 => hz ⟨h31, h0⟩, hfit⟩, ht⟩
    · rintro (⟨-, -, hover⟩ | ⟨-, hcon | ⟨-, hfit⟩, ht⟩)
      · exact Or.inl hover
      · exact absurd hcon h31
      · exact Or.inr ⟨hfit, ht⟩

/-- A tag that a variant's reader passes over. -/
def Transparent (h : CbHead) : Prop := h.mt = 6 ∧ h.arg ≠ 2 ∧ h.arg ≠ 3

def TagTo (bs : List UInt8) (p q : Nat) : Prop :=
  ∃ h, headAt bs p = some h ∧ Transparent h ∧ q = p + cbHeadLen h

/-- Behind its tags the variant traps. -/
def VariantNameTrap (d : CborDec) : Prop :=
  ∃ q, Relation.ReflTransGen (TagTo d.input.val) d.pos q ∧
    ∃ h, headAt d.input.val q = some h ∧ ¬ Transparent h ∧ VariantTrap d h (q + cbHeadLen h)

theorem cdVariantNameAt_eq (d : CborDec) :
    cdVariantNameAt d = cdReadHead d "an enum variant".toList >>= fun h =>
      if h.value.mt = 6 ∧ h.value.arg ≠ 2 ∧ h.value.arg ≠ 3 then cdVariantNameAt h.rest
      else variantNameBehind h := by
  rw [cdVariantNameAt]
  split
  case h_1 e he => rw [he]; rfl
  case h_2 ht => rw [ht]; rfl
  case h_3 h hh => rw [hh]; rfl

theorem cdVariantNameAt_trap : cdVariantNameAt d = .trap ↔ VariantNameTrap d := by
  have hbehind : ∀ p h, headAt d.input.val p = some h →
      (variantNameBehind ⟨h, cdTake (cdAt d p d.opened) (cbHeadLen h)⟩ = .trap ↔
        VariantTrap d h (p + cbHeadLen h)) := fun p h hh => variantNameBehind_trap (headLen_le hh)
  refine @Outcome.loop_iff Nat Unit (fun p _ => cdVariantNameAt (cdAt d p d.opened) = .trap)
    (fun q => ∃ h, headAt d.input.val q = some h ∧ ¬ Transparent h ∧
      VariantTrap d h (q + cbHeadLen h)) (TagTo d.input.val)
    (fun p => d.input.val.length - p) ?_ ?_ ?_ ?_ d.pos ()
  · rintro p q ⟨h, hh, -, rfl⟩
    have hlt := lt_of_headAt hh
    have hpos := cbHeadLen_pos h
    omega
  · intro p _ ht
    rw [cdVariantNameAt_eq, readHead_trap] at ht
    obtain ⟨h, hh, ht⟩ := ht
    split_ifs at ht with htag
    · exact Or.inr ⟨_, (), ⟨h, hh, htag, rfl⟩, ht⟩
    · exact Or.inl ⟨h, hh, htag, (hbehind p h hh).1 ht⟩
  · rintro p _ ⟨h, hh, htag, ht⟩
    rw [cdVariantNameAt_eq, readHead_trap]
    exact ⟨h, hh, Eq.trans (if_neg htag) ((hbehind p h hh).2 ht)⟩
  · rintro p q ⟨h, hh, htag, rfl⟩ hq _
    rw [cdVariantNameAt_eq, readHead_trap]
    exact ⟨h, hh, Eq.trans (if_pos htag) (hq ())⟩

/-! ## Strings, piece by piece -/

/-- The next piece is that of another state: a piece around the one that ended goes on, or an empty
chunk of an indefinite string is passed over. -/
def PieceTo (kind : Nat) (d e : CborDec) : Prop :=
  (cdLeft d kind).ok = true ∧
    ((cdLeft d kind).n = 0 ∧ cdTopKind (cdPop d) = kind ∧ e = cdPop d ∨
      (cdLeft d kind).n < 0 ∧ ∃ h, headAt d.input.val d.pos = some h ∧ h.mt = kind ∧ h.ai ≠ 31 ∧
        h.arg = 0 ∧ e = cdTake d (cbHeadLen h))

/-- The next chunk of an open indefinite string traps. -/
def PieceTrap (kind : Nat) (d : CborDec) : Prop :=
  ∃ e, Relation.ReflTransGen (PieceTo kind) d e ∧ (cdLeft e kind).ok = true ∧
    (cdLeft e kind).n < 0 ∧ Oversized e.input.val kind (fun _ => 0) e.pos

theorem cdNext_eq (kind : Nat) (frame : Int → CbFrame) (what : Str)
    (one : CborDec → Int → Read (Parsed Int CborDec)) (d : CborDec) :
    cdNext kind frame what one d =
      if (cdLeft d kind).ok = false then .err (customError (cdLeft d kind).why)
      else if (cdLeft d kind).n ≥ 0 then
        if (cdLeft d kind).n = 0 then
          if cdTopKind (cdPop d) = kind then cdNext kind frame what one (cdPop d)
          else .ok ⟨-1, cdPop d⟩
        else one d (cdLeft d kind).n
      else if cbAtBreak d then .ok ⟨-1, cdTake (cdPop d) 1⟩
      else cdChunkHead d kind what >>= fun c =>
        if c.value.len = 0 then cdNext kind frame what one c.rest
        else cdNext kind frame what one (cdPush c.rest (frame c.value.len)) := by
  rw [cdNext]
  by_cases hok : (cdLeft d kind).ok = false
  · rw [dif_pos hok, if_pos hok]
  split_ifs with hge h0 htop hb
  · exact if_pos htop
  · exact if_neg htop
  · rfl
  · rfl
  · split
    case h_1 e he => rw [he]; rfl
    case h_2 ht => rw [ht]; rfl
    case h_3 c hc => rw [hc]; rfl

theorem cdNext_trap {kind : Nat} {frame : Int → CbFrame}
    {one : CborDec → Int → Read (Parsed Int CborDec)} (h7 : kind ≠ 7)
    (hone : ∀ d n, one d n ≠ .trap)
    (hframe : ∀ d n, cdLeft (cdPush d (frame n)) kind = ⟨n, true, []⟩) :
    cdNext kind frame what one d = .trap ↔ PieceTrap kind d := by
  refine @Outcome.loop_iff CborDec Unit (fun d _ => cdNext kind frame what one d = .trap)
    (fun e => (cdLeft e kind).ok = true ∧ (cdLeft e kind).n < 0 ∧
      Oversized e.input.val kind (fun _ => 0) e.pos) (PieceTo kind)
    (fun d => 2 * (d.input.val.length - d.pos) + d.opened.length) ?_ ?_ ?_ ?_ d ()
  · rintro d e ⟨hok, ⟨-, -, rfl⟩ | ⟨-, h, hh, -, -, -, rfl⟩⟩
    · have hlt := length_cdPop hok
      show 2 * (d.input.val.length - d.pos) + (cdPop d).opened.length < _
      omega
    · have hlt := lt_of_headAt hh
      have hpos := cbHeadLen_pos h
      show 2 * (d.input.val.length - (d.pos + cbHeadLen h)) + d.opened.length < _
      omega
  · intro d _ ht
    rw [cdNext_eq] at ht
    split_ifs at ht with hok hge h0 htop hb
    · exact Or.inr ⟨_, (), ⟨Bool.eq_true_of_not_eq_false hok, Or.inl ⟨h0, htop, rfl⟩⟩, ht⟩
    · exact absurd ht (hone _ _)
    · rcases Outcome.bind_trap.1 ht with ht | ⟨c, hc, ht⟩
      · exact Or.inl ⟨Bool.eq_true_of_not_eq_false hok, not_le.1 hge, cdChunkHead_trap.1 ht⟩
      · obtain ⟨h, hh, hmt, hai, hfit, rfl⟩ := cdChunkHead_ok_iff.1 hc
        simp only at ht
        split_ifs at ht with hzero
        · exact Or.inr ⟨_, (), ⟨Bool.eq_true_of_not_eq_false hok, Or.inr ⟨not_le.1 hge, h, hh, hmt,
            hai, by omega, rfl⟩⟩, ht⟩
        · -- a chunk with bytes is open now, and its first piece is read
          rw [cdNext_eq, hframe] at ht
          simp only [Bool.true_eq_false, if_false, if_neg hzero] at ht
          exact absurd ht (hone _ _)
  · rintro d _ ⟨hok, hneg, hover⟩
    rw [cdNext_eq, if_neg (by simp [hok]), if_neg (not_le.2 hneg),
      if_neg (fun hb => not_break_of_oversized h7 hover (atBreak_iff.1 hb)),
      cdChunkHead_trap.2 hover]
    rfl
  · rintro d e ⟨hok, ⟨h0, htop, rfl⟩ | ⟨hneg, h, hh, hmt, hai, hzero, rfl⟩⟩ he _
    · rw [cdNext_eq, if_neg (by simp [hok]), if_pos (by omega), if_pos h0, if_pos htop]
      exact he ()
    · have hlt := lt_of_headAt hh
      have hc : cdChunkHead d kind what = .ok ⟨⟨h.arg⟩, cdTake d (cbHeadLen h)⟩ :=
        cdChunkHead_ok_iff.2 ⟨h, hh, hmt, hai, by omega, rfl⟩
      have hcast : (h.arg : Int) = 0 := by omega
      rw [cdNext_eq, if_neg (by simp [hok]), if_neg (not_le.2 hneg),
        if_neg (not_atBreak hh (by omega)), hc, Outcome.ok_bind]
      exact Eq.trans (if_pos hcast) (he ())

theorem cdStrNext_trap : cdStrNext d = .trap ↔ PieceTrap 3 d := by
  refine cdNext_trap (by decide) ?_ ?_
  · intro d n
    rw [strOne, Ne, Outcome.bind_trap]
    rintro (h | ⟨c, -, h⟩)
    · exact cbCpAt_ne_trap _ _ _ h
    · cases h
  · intro d n
    have hlast : (cdPush d (.str n)).opened.getLast? = some (.str n) := List.getLast?_concat
    rw [cdLeft, hlast]
    rfl

theorem cdBytesNext_trap : cdBytesNext d = .trap ↔ PieceTrap 2 d := by
  refine cdNext_trap (by decide) ?_ ?_
  · intro d n
    unfold byteOne
    split_ifs with hend
    · simp
    · rw [List.getElem?_eq_getElem (not_le.1 hend)]
      simp
  · intro d n
    have hlast : (cdPush d (.byt n)).opened.getLast? = some (.byt n) := List.getLast?_concat
    rw [cdLeft, hlast]
    rfl

end

/-! ## The verbs -/

/-- Where a verb traps. -/
def Traps : Verb → CborDec → Prop
  | .int, d => LeastNegative d.input.val d.pos
  | .i128, d => ∃ h, headAt d.input.val d.pos = some h ∧ BignumHead h ∧
      BignumTrap d.input.val (d.pos + cbHeadLen h)
  | .u128, d => ∃ h, headAt d.input.val d.pos = some h ∧ h.mt = 6 ∧ h.arg = 2 ∧
      BytesTrap d.input.val (d.pos + cbHeadLen h)
  | .str, d => TextTrap d.input.val d.pos
  | .bytes, d => BytesTrap d.input.val d.pos
  | .strBegin, d => Oversized d.input.val 3 cbHeadLen d.pos
  | .bytesBegin, d => Oversized d.input.val 2 cbHeadLen d.pos
  | .seqBegin, d => Oversized d.input.val 4 cbHeadLen d.pos
  | .mapBegin, d => Oversized d.input.val 5 cbHeadLen d.pos
  | .structBegin, d => Oversized d.input.val 5 cbHeadLen d.pos
  | .strNext, d => PieceTrap 3 d
  | .bytesNext, d => PieceTrap 2 d
  | .field _, d => FieldTrap d
  | .variant _, d => VariantNameTrap d
  | .variantName, d => VariantNameTrap d
  | .skip, d => Skipped d.input.val .item d.pos none
  | _, _ => False

section

variable {d : CborDec}

theorem after_trap {T : Type} {x : Read (Parsed T CborDec)} : after x = .trap ↔ x = .trap := by
  rw [after, Outcome.bind_trap]
  simp

/-- The verbs that only look at a head, or at none, never trap. -/
theorem quiet_trap (d : CborDec) :
    cdUnit d ≠ .trap ∧ cdBool d ≠ .trap ∧ cdUint d ≠ .trap ∧ cdOption d ≠ .trap ∧
      cdPeek d ≠ .trap ∧ cdVariantEnd d ≠ .trap ∧ ∀ kind, cdPartNext d kind ≠ .trap := by
  refine ⟨?_, ?_, ?_, ?_, ?_, ?_, ?_⟩
  · rw [cdUnit, Ne, readHead_trap]
    rintro ⟨h, -, ht⟩
    simp only at ht
    split_ifs at ht
  · rw [cdBool, Ne, readHead_trap]
    rintro ⟨h, -, ht⟩
    simp only at ht
    split_ifs at ht
  · rw [cdUint, Ne, readHead_trap]
    rintro ⟨h, -, ht⟩
    simp only at ht
    split_ifs at ht
  · rw [cdOption, Ne, peekHead_trap]
    rintro ⟨h, -, ht⟩
    split_ifs at ht
  · rw [cdPeek, Ne, peekHead_trap]
    rintro ⟨h, -, ht⟩
    cases ht
  · unfold cdVariantEnd
    simp only
    split_ifs <;> simp
  · intro kind
    unfold cdPartNext cdIndefiniteNext
    simp only
    split_ifs <;> simp

end

theorem run_trap_iff (v : Verb) (d : CborDec) : v.run d = .trap ↔ Traps v d := by
  obtain ⟨hunit, hbool, huint, hoption, hpeek, hend, hpart⟩ := quiet_trap d
  cases v with
  | unit => exact iff_of_false hunit not_false
  | bool => exact after_trap.trans (iff_of_false hbool not_false)
  | int => exact after_trap.trans cdInt_trap
  | uint => exact after_trap.trans (iff_of_false huint not_false)
  | i128 => exact after_trap.trans cdI128_trap
  | u128 => exact after_trap.trans cdU128_trap
  | str => exact after_trap.trans cdStr_trap
  | bytes => exact after_trap.trans cdBytes_trap
  | option => exact after_trap.trans (iff_of_false hoption not_false)
  | strBegin => exact after_trap.trans cdStrBegin_trap
  | strNext => exact after_trap.trans cdStrNext_trap
  | bytesBegin => exact after_trap.trans cdBytesBegin_trap
  | bytesNext => exact after_trap.trans cdBytesNext_trap
  | seqBegin => exact after_trap.trans cdContainerBegin_trap
  | seqNext => exact after_trap.trans (iff_of_false (hpart 4) not_false)
  | mapBegin => exact after_trap.trans cdContainerBegin_trap
  | mapNext => exact after_trap.trans (iff_of_false (hpart 5) not_false)
  | mapValue => exact iff_of_false (by simp [Verb.run, cdMapValue]) not_false
  | structBegin => exact after_trap.trans cdContainerBegin_trap
  | field fields => exact after_trap.trans cdField_trap
  | variant variants =>
    refine after_trap.trans ((Outcome.bind_trap.trans ?_).trans cdVariantNameAt_trap)
    constructor
    · rintro (h | ⟨n, -, h⟩)
      · exact h
      · simp only at h
        split_ifs at h
    · exact Or.inl
  | variantName =>
    refine after_trap.trans ((Outcome.bind_trap.trans ?_).trans cdVariantNameAt_trap)
    simp
  | variantUnit =>
    refine iff_of_false ?_ not_false
    show cdVariantUnit d ≠ .trap
    unfold cdVariantUnit
    split_ifs <;> simp
  | variantPayload =>
    refine iff_of_false ?_ not_false
    show cdVariantPayload d ≠ .trap
    unfold cdVariantPayload
    split_ifs <;> simp
  | variantEnd => exact iff_of_false hend not_false
  | skip => exact cdSkip_trap
  | peek => exact after_trap.trans (iff_of_false hpeek not_false)
  | stop =>
    refine iff_of_false ?_ not_false
    show cdEnd d ≠ .trap
    unfold cdEnd
    split_ifs <;> simp

end Cbor

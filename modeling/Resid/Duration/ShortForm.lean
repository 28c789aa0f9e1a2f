import Resid.Duration.Numbers

/-!
# When the readable form is read

The numbers of a text with their units are taken off here without any arithmetic; the
reader returns exactly when these numbers fit 64 bits.

    s.drop (scanSkipSpace s i) = skipBlanks (s.drop i)                 (drop_scanSkipSpace)
    FitFrom t (shortPairs r) → the loop returns at r, else it aborts   (shortScanPairs_eq)
    (spanParseShort s).isSome ↔ ShortFits s                            (spanParseShort_isSome)
-/

namespace Duration

open CheckedInt Calendar Decimal Runtime

/-! ## The numbers of the readable form -/

def isBlank (c : Char) : Bool := c == ' ' || c == '\t'

def skipBlanks (r : Str) : Str := r.dropWhile isBlank

theorem char_eq_iff {c k : Char} : c = k ↔ (c.toNat : Int) = k.toNat := by
  constructor
  · rintro rfl
    rfl
  · intro h
    rw [← Char.ofNat_toNat c, Int.natCast_inj.1 h, Char.ofNat_toNat]

theorem isBlank_iff {c : Char} :
    isBlank c = true ↔ (c.toNat : Int) = 32 ∨ (c.toNat : Int) = 9 := by
  unfold isBlank
  rw [Bool.or_eq_true, beq_iff_eq, beq_iff_eq, char_eq_iff, char_eq_iff]
  exact Iff.rfl

theorem drop_scanSkipSpace (s : Str) (i : Nat) :
    s.drop (scanSkipSpace s i) = skipBlanks (s.drop i) := by
  fun_induction scanSkipSpace s i with
  | case1 i n h =>
    rw [List.drop_eq_nil_of_le h]
    rfl
  | case2 i n h c hc ih =>
    obtain ⟨a, r, hd⟩ := List.exists_cons_of_ne_nil fun hnil => h (strLen_le_of_drop hnil)
    have hcode : c = a.toNat := strCharAt_of_drop hd
    rw [hcode] at hc
    rw [ih, drop_succ_of_drop hd, hd, skipBlanks, skipBlanks,
      List.dropWhile_cons_of_pos (isBlank_iff.2 hc)]
  | case3 i n h c hc =>
    obtain ⟨a, r, hd⟩ := List.exists_cons_of_ne_nil fun hnil => h (strLen_le_of_drop hnil)
    have hcode : c = a.toNat := strCharAt_of_drop hd
    rw [hcode] at hc
    rw [hd, skipBlanks, List.dropWhile_cons_of_neg fun hb => hc (isBlank_iff.1 hb)]

variable {i : Nat} {r : Str} {num : Number}

theorem scanSkipSpace_le {s : Str} (h : i ≤ strLen s) : scanSkipSpace s i ≤ strLen s := by
  fun_induction scanSkipSpace s i with
  | case1 => exact h
  | case2 i n hn c hc ih => exact ih (by omega)
  | case3 => exact h

theorem Number.text_length_pos (num : Number) : 0 < num.text.length := by
  have hne := num.ne_nil
  unfold Number.text
  cases hw : num.whole with
  | cons c r =>
    rw [List.length_append, List.length_cons]
    omega
  | nil =>
    cases hf : num.frac with
    | none =>
      rw [hw, hf] at hne
      exact absurd rfl hne
    | some fs =>
      simp

/-- The unit spelled behind a number, 0 when none is. -/
def unitBehind (r : Str) : Int := matchUnit (skipBlanks r) 0

/-- The nanoseconds of that unit; a number without one counts seconds. -/
def unitSize (r : Str) : Nat := if unitBehind r = 0 then 1000000000 else (unitBehind r).toNat

/-- What follows the unit and the blanks around it. -/
def behindUnit (r : Str) : Str :=
  skipBlanks (if unitBehind r = 0 then skipBlanks r
    else (skipBlanks r).drop (matchLen (skipBlanks r) 0))

theorem length_skipBlanks_le (r : Str) : (skipBlanks r).length ≤ r.length :=
  (List.dropWhile_sublist _).length_le

theorem length_behindUnit_le (r : Str) : (behindUnit r).length ≤ r.length := by
  have hskip := length_skipBlanks_le r
  have hall := length_skipBlanks_le (if unitBehind r = 0 then skipBlanks r
    else (skipBlanks r).drop (matchLen (skipBlanks r) 0))
  unfold behindUnit
  split at hall
  · next h =>
    rw [if_pos h]
    omega
  · next h =>
    rw [if_neg h]
    rw [List.length_drop] at hall
    omega

theorem numberOf_length (h : numberOf r = some num) : num.text.length ≤ r.length := by
  obtain ⟨rest, hr⟩ := numberOf_rest h
  rw [hr, List.length_append]
  exact Nat.le_add_right _ _

/-- The numbers the reader takes off the text, each with its unit. -/
def shortPairs (r : Str) : List Pair :=
  match _hnum : numberOf r with
  | none => []
  | some num =>
    ⟨num, unitSize (r.drop num.text.length)⟩ ::
      shortPairs (behindUnit (r.drop num.text.length))
termination_by r.length
decreasing_by
  have hpos := num.text_length_pos
  have hle := numberOf_length _hnum
  have hbehind := length_behindUnit_le (r.drop num.text.length)
  rw [List.length_drop] at hbehind
  omega

theorem shortPairs_none (h : numberOf r = none) : shortPairs r = [] := by
  rw [shortPairs]
  split
  · rfl
  · next num hnum =>
    rw [h] at hnum
    cases hnum

theorem shortPairs_some (h : numberOf r = some num) :
    shortPairs r = ⟨num, unitSize (r.drop num.text.length)⟩ ::
      shortPairs (behindUnit (r.drop num.text.length)) := by
  rw [shortPairs]
  split
  · next hnum =>
    rw [h] at hnum
    cases hnum
  · next num' hnum =>
    rw [h] at hnum
    cases hnum
    rfl

/-- Every size is one of the table or, for no unit, zero. -/
theorem matchUnitAt_bound (s : Str) (i : Nat) (names : List Str) {sizes : List Int}
    (h : ∀ z ∈ sizes, 0 ≤ z ∧ z ≤ 604800000000000) :
    0 ≤ matchUnitAt s i names sizes ∧ matchUnitAt s i names sizes ≤ 604800000000000 := by
  fun_induction matchUnitAt s i names sizes with
  | case1 name names size sizes hs => exact h size List.mem_cons_self
  | case2 name names size sizes hs ih =>
    exact ih fun z hz => h z (List.mem_cons_of_mem size hz)
  | case3 => exact ⟨Int.le_refl 0, by decide⟩

theorem unitBehind_bound (r : Str) : 0 ≤ unitBehind r ∧ unitBehind r ≤ 604800000000000 :=
  matchUnitAt_bound _ _ _ (by decide)

/-- The size as the reader computes it. -/
theorem unitSize_eq (r : Str) :
    (unitSize r : Int) = (if unitBehind r = 0 then 1000000000 else unitBehind r) := by
  have h := unitBehind_bound r
  unfold unitSize
  split
  · rfl
  · omega

theorem unitSize_lt (r : Str) : unitSize r < 9223372036854775808 := by
  have h := unitBehind_bound r
  unfold unitSize
  split <;> omega

/-- One turn of the loop, at a number: what it adds and where it goes on. -/
theorem shortScanPairs_number {s : Str} (h : numberOf (s.drop i) = some num) (st : ShortScan) :
    ∃ j, s.drop j = behindUnit ((s.drop i).drop num.text.length) ∧
      shortScanPairs s i st = (scanNumber s i scanNew).bind fun read =>
        (scanSpan read (unitSize ((s.drop i).drop num.text.length))).bind fun part =>
          (spanAdd st.total part).bind fun total =>
            shortScanPairs s j ⟨total, true, false, st.pos⟩ := by
  have hpos := num.text_length_pos
  have hlen := numberOf_length h
  rw [List.length_drop] at hlen
  have hlt : i < strLen s := by
    unfold strLen
    omega
  have hend := scanNumberEnd_number h
  have hin : scanSkipSpace s (i + num.text.length) ≤ strLen s :=
    scanSkipSpace_le (by unfold strLen; omega)
  have hafter : s.drop (scanSkipSpace s (i + num.text.length)) =
      skipBlanks ((s.drop i).drop num.text.length) := by
    rw [drop_scanSkipSpace, List.drop_drop]
  have hunit : matchUnit s (scanSkipSpace s (i + num.text.length)) =
      unitBehind ((s.drop i).drop num.text.length) := by
    rw [unitBehind, ← hafter]
    exact matchUnit_unit (List.append_nil _).symm hin (Or.inl rfl)
  have hsize : matchLen s (scanSkipSpace s (i + num.text.length)) =
      matchLen (skipBlanks ((s.drop i).drop num.text.length)) 0 := by
    rw [← hafter]
    exact matchLen_unit (List.append_nil _).symm hin (Or.inl rfl)
  refine ⟨scanSkipSpace s (if unitBehind ((s.drop i).drop num.text.length) = 0 then
    scanSkipSpace s (i + num.text.length) else scanSkipSpace s (i + num.text.length) +
      matchLen (skipBlanks ((s.drop i).drop num.text.length)) 0), ?_, ?_⟩
  · rw [drop_scanSkipSpace, behindUnit]
    split
    · rw [hafter]
    · rw [← List.drop_drop, hafter]
  · have hscan := scanNumber_number h
    rw [shortScanPairs, if_neg (by omega)]
    split
    · next hnone =>
      rw [hnone]
      rfl
    · next read hread =>
      have hany : read.any = true := by
        rw [hscan] at hread
        split at hread
        · cases hread
          rfl
        · cases hread
      rw [dif_neg (by rw [hany]; decide), hread, bind_of_eq rfl]
      simp [hend, hunit, hsize, unitSize_eq, Option.bind_eq_bind]

/-- The loop returns when the numbers left fit and only then; the induction is on them. -/
theorem shortScanPairs_eq (s r : Str) {t : Nat} (hr : s.drop i = r) (any : Bool) (pos : Nat)
    (ht : InBound t) : (FitFrom t (shortPairs r) → ∃ n any' bad, InBound n ∧
      shortScanPairs s i ⟨ofTotal t, any, false, pos⟩ = some ⟨ofTotal n, any', bad, pos⟩) ∧
    (¬ FitFrom t (shortPairs r) → shortScanPairs s i ⟨ofTotal t, any, false, pos⟩ = none) := by
  induction r using shortPairs.induct generalizing i t any with
  | case1 r hnum =>
    rw [shortPairs_none hnum, fitFrom_nil]
    refine ⟨fun _ => ?_, fun h => absurd ht h⟩
    obtain ⟨acc, hacc, hany⟩ := scanNumber_no_number (hr.symm ▸ hnum)
    rw [shortScanPairs]
    by_cases hi : i ≥ strLen s
    · rw [if_pos hi]
      exact ⟨t, any, false, ht, rfl⟩
    · rw [if_neg hi]
      refine ⟨0, true, true, by unfold InBound; decide, ?_⟩
      split
      · next hnone =>
        rw [hacc] at hnone
        cases hnone
      · next num hsome =>
        rw [hacc] at hsome
        cases hsome
        rw [dif_pos hany]
        rfl
  | case2 r num hnum ih =>
    rw [shortPairs_some hnum]
    have hnum' : numberOf (s.drop i) = some num := hr.symm ▸ hnum
    obtain ⟨j, hj, hstep⟩ := shortScanPairs_number hnum' ⟨ofTotal t, any, false, pos⟩
    rw [hr] at hj hstep
    rw [hstep, scanNumber_number hnum',
      addPair_bind (p := ⟨num, unitSize (r.drop num.text.length)⟩) (unitSize_lt _) ht]
    by_cases hp : PairFits t ⟨num, unitSize (r.drop num.text.length)⟩
    · rw [if_pos hp, fitFrom_cons_of_fits hp]
      exact ih hj true hp.sum
    · rw [if_neg hp]
      exact ⟨fun h => absurd (fitFrom_head h) hp, fun _ => rfl⟩

/-- The text behind the sign and the blanks around it. -/
def shortBody (s : Str) : Str :=
  match skipBlanks s with
  | [] => []
  | c :: r => if (c.toNat : Int) = 43 ∨ (c.toNat : Int) = 45 then skipBlanks r else c :: r

/-- The numbers of the readable form fit, and so does their sum. -/
def ShortFits (s : Str) : Prop := FitFrom 0 (shortPairs (shortBody s))

theorem drop_shortStart (s : Str) :
    s.drop (if (scanSkipSpace s 0 < strLen s && (strCharAt s (scanSkipSpace s 0) == 43 ||
      strCharAt s (scanSkipSpace s 0) == 45)) = true then scanSkipSpace s (scanSkipSpace s 0 + 1)
      else scanSkipSpace s 0) = shortBody s := by
  have hskip : s.drop (scanSkipSpace s 0) = skipBlanks s := drop_scanSkipSpace s 0
  unfold shortBody
  cases hd : skipBlanks s with
  | nil =>
    rw [hd] at hskip
    have hend := strLen_le_of_drop hskip
    rw [decide_eq_false (by omega), Bool.false_and, if_neg Bool.false_ne_true, hskip]
  | cons c r =>
    rw [hd] at hskip
    have hlt := lt_of_drop hskip
    simp only [decide_eq_true hlt, Bool.true_and, strCharAt_of_drop hskip, Bool.or_eq_true,
      beq_iff_eq]
    split
    · rw [drop_scanSkipSpace, drop_succ_of_drop hskip]
    · exact hskip

/-- The negation of a length that fits is no overflow. -/
theorem spanNeg_inBound {n : Nat} (h : InBound n) :
    spanNeg (ofTotal n) = some (ofTotal (-(n : Int))) :=
  spanNeg_ofTotal (by unfold InBound at h; unfold SecFits; omega)

theorem shortNew_eq (pos : Nat) :
    shortNew pos = ⟨ofTotal ((0 : Nat) : Int), false, false, pos⟩ := rfl

theorem spanParseShort_isSome (s : Str) : (spanParseShort s).isSome = true ↔ ShortFits s := by
  obtain ⟨hfits, hover⟩ := shortScanPairs_eq s (shortBody s) (drop_shortStart s) false
    (scanSkipSpace s 0) (t := 0) (by unfold InBound; decide)
  unfold ShortFits spanParseShort
  simp only [Option.bind_eq_bind]
  by_cases h : FitFrom 0 (shortPairs (shortBody s))
  · obtain ⟨n, any, bad, hn, hrun⟩ := hfits h
    refine iff_of_true ?_ h
    rw [shortNew_eq, bind_of_eq hrun]
    split
    · rfl
    · split
      · rw [bind_of_eq (spanNeg_inBound hn)]
        rfl
      · rfl
  · refine iff_of_false ?_ h
    rw [shortNew_eq, hover h]
    exact Bool.false_ne_true

end Duration

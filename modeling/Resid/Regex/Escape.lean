import Resid.Regex.Search

/-!
# An escaped text matches itself

The escaped text parses, codepoint by codepoint, to the literals of the text
(`reCatP_escaped`), so its program is a row of `char` instructions (`litProg`).  Run from the
start, the VM holds one thread, which has read as many literals as the text has given
(`reVm_litProg`), and it matches exactly when both end together.

    regexCompile cm (regexEscape s) is an error past 200000 codepoints  (regexCompile_escape)
    regexFullMatch … t ↔ t = s                                         (escape_matches_itself)
-/

namespace RegexLib

open Runtime CheckedInt

/-- A text as the run time holds it: its first NUL would end it. -/
def Text : Type := {s : Str // Char.ofNat 0 ∉ s}

/-! ## The escaped text -/

/-- A codepoint as it stands in an escaped text. -/
def escChar (c : Char) : Str := if c ∈ reMetas then [Char.ofNat 92, c] else [c]

def escText (s : Str) : Str := s.flatMap escChar

theorem findText_singleton (c : Char) (s : Str) (i : Nat) :
    0 ≤ findText [c] s i ↔ c ∈ s := by
  induction s generalizing i with
  | nil => simp [findText]
  | cons d s ih =>
    rw [findText, List.mem_cons]
    by_cases h : c = d
    · subst h
      simp
    · rw [if_neg (by simpa using h), ih]
      simp [h]

theorem strContains_singleton (s : Str) (c : Char) : strContains s [c] = decide (c ∈ s) := by
  rw [strContains]
  exact decide_eq_decide.2 (findText_singleton c s 0)

theorem reEscAt_eq (s sb : Str) : reEscAt s sb = finishText (sb ++ escText s) := by
  induction s generalizing sb with
  | nil => simp [reEscAt, escText]
  | cons c s ih =>
    have hchar : (if strContains reMetas [c] then pushChar sb 92 else sb) ++ [c] =
        sb ++ escChar c := by
      rw [strContains_singleton, escChar]
      by_cases hm : c ∈ reMetas
      · simp [hm, pushChar, codeChar]
      · simp [hm]
    simp only [reEscAt]
    rw [ih, pushChar, codeChar_toNat, hchar]
    simp [escText]

theorem regexEscape_eq (s : Text) : regexEscape s.1 = escText s.1 := by
  rw [regexEscape, reEscAt_eq, List.nil_append, finishText_of_not_mem]
  rw [escText, List.mem_flatMap]
  rintro ⟨c, hc, hin⟩
  rw [escChar] at hin
  split at hin
  · rcases List.mem_cons.1 hin with h | h
    · exact absurd h (by decide)
    · exact s.2 (List.mem_singleton.1 h ▸ hc)
  · exact s.2 (List.mem_singleton.1 hin ▸ hc)

/-! ## Parsing it -/

variable {p : ReP} {i : Nat} {c : Char} {r : Str}

theorem rpCh_of_drop (hn : p.n = strLen p.src) (h : p.src.drop i = c :: r) :
    rpCh p i = c.toNat := by
  rw [rpCh, if_pos (hn ▸ lt_of_drop h), strCharAt_of_drop h]

theorem rpCh_of_drop_nil (hn : p.n = strLen p.src) (h : p.src.drop i = []) : rpCh p i = -1 := by
  have := strLen_le_of_drop h
  rw [rpCh, if_neg (by omega)]

/-- The node of a row of nodes. -/
def rowNode : List ReNode → ReNode
  | [] => .emp
  | [nd] => nd
  | row => .cat row

def litNode (c : Char) : ReNode := .lit c.toNat

theorem mem_reMetas (h : c ∈ reMetas) : c.toNat ∈ [92, 46, 43, 42, 63, 40, 41,
    124, 91, 93, 123, 125, 94, 36, 35, 38, 45, 126] := by
  have hm := List.mem_map_of_mem (f := Char.toNat) h
  rwa [show reMetas.map Char.toNat = [92, 46, 43, 42, 63, 40, 41, 124, 91, 93, 123, 125, 94, 36,
    35, 38, 45, 126] by decide] at hm

/-- The codepoints that mean something outside a class are all escaped. -/
theorem not_special (h : c ∉ reMetas) :
    c.toNat ∉ [36, 40, 41, 42, 43, 46, 63, 91, 92, 94, 123, 124] := by
  intro hs
  rw [← Char.ofNat_toNat c] at h
  generalize c.toNat = k at h hs
  simp only [List.mem_cons, List.not_mem_nil, or_false] at hs
  rcases hs with rfl | rfl | rfl | rfl | rfl | rfl | rfl | rfl | rfl | rfl | rfl | rfl <;>
    exact h (by decide)

/-- No quantifier stands where an escaped text goes on or ends. -/
theorem not_quant_here (hn : p.n = strLen p.src) (h : p.src.drop p.pos = escText r) :
    reQuantHere p = false := by
  have hch : rpCh p p.pos ≠ 42 ∧ rpCh p p.pos ≠ 43 ∧ rpCh p p.pos ≠ 63 ∧
      rpCh p p.pos ≠ 123 := by
    cases r with
    | nil =>
      rw [rpCh_of_drop_nil hn (by simpa [escText] using h)]
      decide
    | cons c r =>
      rw [escText, List.flatMap_cons, escChar] at h
      split at h
      · rw [rpCh_of_drop hn h]
        decide
      · have hs := not_special ‹_›
        rw [rpCh_of_drop hn h]
        simp only [List.mem_cons, List.not_mem_nil, or_false, not_or] at hs
        omega
  simp [reQuantHere, reCountAt, hch]

theorem reLitP_plain (cm : Casing) (hf : p.fl = 0) (pos c : Nat) :
    reLitP cm p pos c = rpAdd p pos (.lit c) := by
  simp [reLitP, hf, hasFlag]

/-- A metacharacter behind a backslash is itself. -/
theorem reEsc_meta (hm : c ∈ reMetas) (h : rpCh p (i + 1) = c.toNat) :
    reEsc p i false = .cp c.toNat (i + 2) := by
  have hk := mem_reMetas hm
  generalize c.toNat = k at h hk
  simp only [List.mem_cons, List.not_mem_nil, or_false] at hk
  rcases hk with rfl | rfl | rfl | rfl | rfl | rfl | rfl | rfl | rfl | rfl | rfl | rfl | rfl | rfl |
    rfl | rfl | rfl | rfl <;> simp [reEsc, h, isAlnum]

/-- The parser after one more literal. -/
def rpLit (p : ReP) (c : Char) : ReP :=
  rpAdd p (p.pos + (escChar c).length) (litNode c)

/-- One escaped codepoint parses to its literal. -/
theorem reRepeatP_escaped (cm : Casing) (hn : p.n = strLen p.src) (hf : p.fl = 0)
    (he : p.err = []) (h : p.src.drop p.pos = escChar c ++ escText r) (fuel : Nat) :
    reRepeatP cm (fuel + 2) p = some (rpLit p c) := by
  have hatom : reAtomP cm (fuel + 1) p = some (rpLit p c) := by
    rw [rpLit]
    by_cases hm : c ∈ reMetas
    · rw [escChar, if_pos hm, List.cons_append] at h
      rw [escChar, if_pos hm]
      have h0 := rpCh_of_drop hn h
      have h1 := rpCh_of_drop hn (drop_succ_of_drop h)
      have hbs : rpCh p p.pos = 92 := h0
      simp [reAtomP, hbs, reEscapeP, reEsc_meta hm h1, reLitP_plain cm hf, litNode]
    · rw [escChar, if_neg hm, List.singleton_append] at h
      rw [escChar, if_neg hm]
      have h0 := rpCh_of_drop hn h
      have hs := not_special hm
      simp only [List.mem_cons, List.not_mem_nil, or_false, not_or] at hs
      have hc : reCountAt p p.pos = none := by
        rw [reCountAt, if_pos]
        omega
      simp only [reAtomP, hc, h0, Option.isSome_none, Bool.false_eq_true, or_false]
      rw [if_neg (by omega), if_neg (by omega), if_neg (by omega), if_neg (by omega),
        if_neg (by omega), if_neg (by omega), if_neg (by omega), reLitP_plain cm hf]
      simp [litNode]
  have hnext : (rpLit p c).src.drop (rpLit p c).pos = escText r := drop_add_of_drop h
  have hq := not_quant_here (p := rpLit p c) hn hnext
  have herr : (rpLit p c).err = [] := he
  rw [reRepeatP, hatom]
  simp only [herr, ne_eq, not_true_eq_false, if_false]
  show some (reQuantP (rpLit p c) (litNode c)) = some (rpLit p c)
  rw [reQuantP, hq]
  rfl

/-- The parser at the end of a row of literals. -/
def rpRow (p : ReP) (row : List ReNode) : ReP := rpAdd p p.n (rowNode row)

theorem escChar_pos (c : Char) : 0 < (escChar c).length := by
  rw [escChar]
  split <;> simp

theorem escaped_not_end (hn : p.n = strLen p.src) (h : p.src.drop p.pos = escChar c ++ r) :
    0 ≤ rpCh p p.pos ∧ rpCh p p.pos ≠ 124 ∧ rpCh p p.pos ≠ 41 := by
  rw [escChar] at h
  split at h
  · have hc : rpCh p p.pos = 92 := rpCh_of_drop hn h
    omega
  · have hs := not_special ‹_›
    rw [rpCh_of_drop hn h]
    simp only [List.mem_cons, List.not_mem_nil, or_false, not_or] at hs
    omega

/-- What is left of an escaped text parses to a row of literals. -/
theorem reCatP_escaped (cm : Casing) (r : Str) (hn : p.n = strLen p.src) (hf : p.fl = 0)
    (he : p.err = []) (h : p.src.drop p.pos = escText r) (hp : p.pos ≤ p.n) (acc : List ReNode)
    {fuel : Nat} (hfuel : r.length + 3 ≤ fuel) :
    reCatP cm fuel p acc = some (rpRow p (acc ++ r.map litNode)) := by
  induction r generalizing p acc fuel with
  | nil =>
    obtain ⟨f, rfl⟩ : ∃ f, fuel = f + 1 := ⟨fuel - 1, by simp only [List.length_nil] at hfuel; omega⟩
    have hnil : p.src.drop p.pos = [] := by simpa [escText] using h
    have hpos : p.pos = p.n := by
      have := strLen_le_of_drop hnil
      omega
    rw [reCatP, rpCh_of_drop_nil hn hnil, if_pos (by decide), List.map_nil, List.append_nil]
    rw [rpRow, ← hpos]
    match acc with
    | [] | [_] | _ :: _ :: _ => rfl
  | cons c r ih =>
    rw [List.length_cons] at hfuel
    obtain ⟨f, rfl⟩ : ∃ f, fuel = f + 3 := ⟨fuel - 3, by omega⟩
    have hcons : p.src.drop p.pos = escChar c ++ escText r := by
      rw [h, escText, List.flatMap_cons]
      rfl
    have hrep := reRepeatP_escaped cm hn hf he hcons f
    have hnext : (rpLit p c).src.drop (rpLit p c).pos = escText r := drop_add_of_drop hcons
    have hle : (rpLit p c).pos ≤ (rpLit p c).n := by
      have hlen := congrArg List.length hcons
      rw [List.length_append, List.length_drop] at hlen
      have hpos := escChar_pos c
      unfold strLen at hn
      show p.pos + (escChar c).length ≤ p.n
      omega
    have hleft : r.length + 3 ≤ f + 2 := by omega
    have hrest := @ih (rpLit p c) hn hf he hnext hle (acc ++ [litNode c]) (f + 2) hleft
    have hlit : (rpLit p c).err = [] := he
    have hone : (rpLit p c).id.toList = [litNode c] := rfl
    have hcat : reCatP cm (f + 3) p acc = reCatP cm (f + 2) (rpLit p c) (acc ++ [litNode c]) := by
      have hch := escaped_not_end hn hcons
      rw [reCatP, if_neg (by omega)]
      simp only [hf, hasFlag, Nat.zero_and, bne_self_eq_false, Bool.false_eq_true, false_and,
        if_false]
      rw [hrep]
      simp only [hlit, ne_eq, not_true_eq_false, if_false, hone]
    rw [hcat, hrest, List.append_assoc]
    rfl

theorem length_le_escText (s : Str) : s.length ≤ (escText s).length := by
  induction s with
  | nil => simp
  | cons c s ih =>
    have hc := escChar_pos c
    rw [escText, List.flatMap_cons, List.length_append, List.length_cons]
    unfold escText at ih
    omega

theorem reParse_escaped (cm : Casing) (s : Str) :
    reParse cm (escText s) = some (rpRow (rpStart (escText s)) (s.map litNode)) := by
  have hlen := length_le_escText s
  have hcat : reCatP cm (8 * strLen (escText s) + 7) (rpStart (escText s)) [] = _ :=
    reCatP_escaped cm s rfl rfl rfl rfl (Nat.zero_le _) [] (by unfold strLen; omega)
  rw [List.nil_append] at hcat
  rw [reParse, reFuel, reAltP, hcat]
  simp [rpRow, rpAdd, rpStart, rpCh]

/-! ## Compiling it -/

theorem reSizeSumAt_lits (s : Str) (k : Nat) (h : k + s.length < 9223372036854775808) :
    reSizeSumAt false (s.map litNode) k = some ((k + s.length : Nat) : Int) := by
  induction s generalizing k with
  | nil => simp [reSizeSumAt]
  | cons c s ih =>
    rw [List.length_cons] at h
    have hadd : add 64 (k : Int) 1 = some ((k : Int) + 1) := add_of_fits (fits_64.2 (by omega))
    have hrest := ih (k + 1) (by omega)
    rw [Nat.cast_add_one] at hrest
    have hone : reSizeAt false (litNode c) = some 1 := rfl
    rw [List.map_cons, reSizeSumAt_cons, bind_of_eq hone, bind_of_eq hadd, hrest,
      List.length_cons, Nat.add_assoc, Nat.add_comm 1]

theorem reSizeAt_row (s : Str) (h : s.length < 9223372036854775808) :
    reSizeAt false (rowNode (s.map litNode)) = some (s.length : Int) := by
  match s, h with
  | [], _ => rfl
  | [c], _ => rfl
  | c :: d :: s, h =>
    have hsum := reSizeSumAt_lits (c :: d :: s) 0 (by omega)
    rw [Nat.zero_add] at hsum
    exact hsum

/-- The compiled pattern of an escaped text. -/
def escRegex (s : Str) : Regex :=
  reBuild (escText s) (rpRow (rpStart (escText s)) (s.map litNode)) (rowNode (s.map litNode))

theorem regexCompile_escape (cm : Casing) (s : Text)
    (h : s.1.length < 9223372036854775808) : regexCompile cm (regexEscape s.1) =
      some (if 200000 < s.1.length then .error errTooLarge else .ok (escRegex s.1)) := by
  rw [regexEscape_eq, regexCompile, reParse_escaped]
  have hsize := reSizeAt_row s.1 h
  simp only [rpRow, rpAdd, rpStart, ne_eq, not_true_eq_false, if_false, Nat.lt_irrefl,
    Option.getD_some, hsize]
  by_cases hs : 200000 < s.1.length
  · have hsz : (s.1.length : Int) > 200000 := by omega
    simp only [hs, hsz, if_true]
  · have hsz : ¬(s.1.length : Int) > 200000 := by omega
    simp only [hs, hsz, if_false]
    rfl

theorem reEmit_row (s : Str) (pc : Nat) :
    reEmit false (rowNode (s.map litNode)) pc = s.map fun c => ins oChar c.toNat 0 := by
  have hseq : ∀ (s : Str) (pc : Nat),
      reEmitSeq false (s.map litNode) pc = s.map fun c => ins oChar c.toNat 0 := by
    intro s
    induction s with
    | nil =>
      intro pc
      simp [reEmitSeq]
    | cons c s ih =>
      intro pc
      rw [List.map_cons, reEmitSeq, if_neg (by decide), ih]
      rfl
  match s with
  | [] => rfl
  | [_] => rfl
  | c :: d :: s =>
    rw [show rowNode ((c :: d :: s).map litNode) = .cat ((c :: d :: s).map litNode) from rfl,
      reEmit, hseq]

/-! ## Running it -/

/-- The program that reads `s` whole. -/
def litProg (s : Str) : List Nat :=
  ins oSave 0 0 :: (s.map fun c => ins oChar c.toNat 0) ++
    [ins oSave 1 0, ins oAsr aEot 0, ins oMatch 0 0]

theorem escRegex_fprog (s : Str) : (escRegex s).fprog = litProg s := by
  have hprog : ∀ r nd, (reBuild (escText s) r nd).fprog =
      ins oSave 0 0 :: reEmit false nd 1 ++ [ins oSave 1 0] ++
        [ins oAsr aEot 0, ins oMatch 0 0] := by
    intro r nd
    unfold reBuild
    split <;> rfl
  rw [escRegex, hprog, reEmit_row, litProg]
  simp

/-- The thread of `litProg s` that has read `k` literals, where it stands at position `i`
of a text whose next codepoint is `cur`. -/
def litThread (s : Str) (cur : Int) (i k : Nat) (caps : List Int) : List (Nat × List Int) :=
  if k < s.length then [(k + 1, caps)] else if cur < 0 then [(k + 3, caps.set 1 i)] else []

theorem insAt_lit {s : Str} {k : Nat} (hk : k < s.length) :
    insAt (litProg s) (k + 1) = ins oChar s[k].toNat 0 := by
  have hlen : k < (s.map fun c => ins oChar c.toNat 0).length := by rwa [List.length_map]
  rw [insAt, litProg, List.cons_append, List.getD_cons_succ, List.getD_append _ _ _ _ hlen,
    List.getD_eq_getElem _ _ hlen, List.getElem_map]

theorem insAt_tail {s : Str} (j : Nat) (hj : j < 3) : insAt (litProg s) (s.length + j + 1) =
    [ins oSave 1 0, ins oAsr aEot 0, ins oMatch 0 0][j] := by
  have hlen : (s.map fun c => ins oChar c.toNat 0).length ≤ s.length + j := by
    rw [List.length_map]
    omega
  rw [insAt, litProg, List.cons_append, List.getD_cons_succ, List.getD_append_right _ _ _ _ hlen,
    List.length_map, Nat.add_sub_cancel_left, List.getD_eq_getElem]

theorem reAdd_lit (s : Str) (prev cur : Int) (i k : Nat) (hk : k ≤ s.length) (caps : List Int)
    (seen : Finset Nat) (hs : ∀ j, k < j → j ∉ seen) (fuel : Nat) :
    (reAdd (litProg s) prev cur i (fuel + 3) ⟨[], seen⟩ (k + 1) caps).threads =
      litThread s cur i k caps := by
  have h1 : k + 1 ∉ seen := hs (k + 1) (by omega)
  rcases Nat.lt_or_ge k s.length with hlt | hge
  · have hx := insAt_lit hlt
    rw [litThread, if_pos hlt, reAdd, if_neg h1]
    simp [hx, insOp_ins, oChar, oJmp, oSplit, oSave, oAsr]
  · obtain rfl : k = s.length := by omega
    have h2 : s.length + 2 ∉ insert (s.length + 1) seen := by
      simpa using hs (s.length + 2) (by omega)
    have h3 : s.length + 3 ∉ insert (s.length + 2) (insert (s.length + 1) seen) := by
      simpa using hs (s.length + 3) (by omega)
    have x1 : insAt (litProg s) (s.length + 1) = ins oSave 1 0 := insAt_tail 0 (by decide)
    have x2 : insAt (litProg s) (s.length + 2) = ins oAsr aEot 0 := insAt_tail 1 (by decide)
    have x3 : insAt (litProg s) (s.length + 3) = ins oMatch 0 0 := insAt_tail 2 (by decide)
    rw [litThread, if_neg (by omega), reAdd, if_neg h1]
    simp only [x1, insOp_ins (show oSave < 16 by decide), insA_ins (show oSave < 16 by decide)
      (show 1 < 536870912 by decide)]
    rw [if_neg (by decide), if_neg (by decide), if_pos (by decide), reAdd, if_neg h2]
    simp only [x2, insOp_ins (show oAsr < 16 by decide), insA_ins (show oAsr < 16 by decide)
      (show aEot < 536870912 by decide)]
    rw [if_neg (by decide), if_neg (by decide), if_neg (by decide), if_pos (by decide)]
    have hholds : reHolds aEot prev cur = decide (cur < 0) := rfl
    rw [hholds]
    by_cases hc : cur < 0
    · rw [if_pos (by simpa using hc), if_pos hc, reAdd, if_neg h3]
      simp [x3, insOp_ins, oMatch, oJmp, oSplit, oSave, oAsr]
    · rw [if_neg (by simpa using hc), if_neg hc]

section

variable (re : Regex) (prog : List Nat) (t : Str) (init : List Int)

/-- An anchored run past its start enters no thread. -/
theorem reEnter_past {i : Nat} (hi : i ≠ 0) (cur : ReT) (found : Bool) :
    reEnter prog t (strLen t) 0 true init i cur found = cur := by
  simp [reEnter, hi]

theorem reVm_dead (left : Nat) {i : Nat} (hi : i ≠ 0) :
    reVm re prog t (strLen t) 0 true init left i reThreads [] false = [] := by
  cases left with
  | zero => simp [reVm, reEnter_past prog t init hi, reThreads, reStep]
  | succ left => simp [reVm, reEnter_past prog t init hi, reThreads]

end

theorem reAt_drop {t : Str} {i : Nat} {c : Char} {r : Str} (h : t.drop i = c :: r) :
    reAt t (strLen t) i = c.toNat := by
  have hlt := lt_of_drop h
  rw [reAt, if_pos (by omega), Int.toNat_natCast, strCharAt_of_drop h]

theorem reAt_end {t : Str} {i : Nat} (h : t.drop i = []) : reAt t (strLen t) i = -1 := by
  have hle := strLen_le_of_drop h
  rw [reAt, if_neg (by omega)]

/-- One more codepoint, read by the thread that waits for it or not. -/
theorem reStep_lit (re : Regex) {s : Str} {k : Nat} (hk : k < s.length) (c c2 : Int) (i : Nat)
    (caps best : List Int) (hc : 0 ≤ c) :
    reStep re (litProg s) c c2 i [(k + 1, caps)] ⟨reThreads, best, false⟩ =
      ⟨if (s[k].toNat : Int) = c then
        reAdd (litProg s) c c2 (i + 1) (addFuel (litProg s)) reThreads (k + 2) caps
        else reThreads, best, false⟩ := by
  have hx := insAt_lit hk
  have hop : insOp (insAt (litProg s) (k + 1)) = oChar := by
    rw [hx, insOp_ins (by decide)]
  have ha : insA (insAt (litProg s) (k + 1)) = s[k].toNat := by
    rw [hx, insA_ins (by decide)]
    have hv := toNat_lt s[k]
    omega
  have htake : reTakes re (insAt (litProg s) (k + 1)) c = decide ((s[k].toNat : Int) = c) := by
    rw [reTakes, if_neg (by omega), if_pos hop, ha]
    rfl
  rw [reStep, if_neg (by rw [hop]; decide), htake]
  by_cases he : (s[k].toNat : Int) = c
  · simp [he, reStep]
  · simp [he, reStep]

/-- A run of `litProg s` whose thread has read `k` literals when the text has given `i`
codepoints: it matches exactly when the rest of the text is the rest of `s`. -/
theorem reVm_litProg (re : Regex) (s t : Str) (init : List Int) (left i k : Nat)
    (hleft : i + left = strLen t) (hk : k ≤ s.length) (cur : ReT) (caps : List Int)
    (hcaps : caps ≠ [])
    (hcur : (reEnter (litProg s) t (strLen t) 0 true init i cur false).threads =
      litThread s (reAt t (strLen t) i) i k caps) :
    reVm re (litProg s) t (strLen t) 0 true init left i cur [] false ≠ [] ↔
      t.drop i = s.drop k := by
  induction left generalizing i k cur caps with
  | zero =>
    have hend : t.drop i = [] := List.drop_eq_nil_iff.2 (by unfold strLen at hleft; omega)
    have hat := reAt_end hend
    rw [reVm, hcur, hat, hend]
    rcases Nat.lt_or_ge k s.length with hlt | hge
    · have hne : s.drop k ≠ [] := fun h => by
        have := List.drop_eq_nil_iff.1 h
        omega
      have hop : insOp (insAt (litProg s) (k + 1)) = oChar := by
        rw [insAt_lit hlt, insOp_ins (by decide)]
      rw [litThread, if_pos hlt, reStep, if_neg (by rw [hop]; decide)]
      simp [reTakes, reStep, hne.symm]
    · obtain rfl : k = s.length := by omega
      have hop : insOp (insAt (litProg s) (s.length + 3)) = oMatch := by
        rw [insAt_tail 2 (by decide)]
        rfl
      have hset : caps.set 1 (i : Int) ≠ [] := by simpa using hcaps
      rw [litThread, if_neg (by omega), if_pos (by decide), reStep, if_pos hop]
      simpa using hset
  | succ left ih =>
    obtain ⟨c, r, hcr⟩ : ∃ c r, t.drop i = c :: r :=
      List.exists_cons_of_ne_nil fun h => by
        have := List.drop_eq_nil_iff.1 h
        unfold strLen at hleft
        omega
    have hat := reAt_drop hcr
    have hdrop := drop_succ_of_drop hcr
    rcases Nat.lt_or_ge k s.length with hlt | hge
    · have hsk : s.drop k = s[k] :: s.drop (k + 1) := List.drop_eq_getElem_cons hlt
      have hthread := hcur
      rw [litThread, if_pos hlt] at hthread
      rw [reVm, hthread, if_neg (by simp), hat, reStep_lit re hlt _ _ _ _ _ (by omega), hcr, hsk,
        List.cons.injEq]
      by_cases he : s[k] = c
      · subst he
        simp only [if_true, true_and]
        rw [← hdrop]
        have hnext := reAdd_lit s (s[k].toNat : Int) (reAt t (strLen t) (i + 1 : Int)) (i + 1)
          (k + 1) (by omega) caps ∅ (by simp) (s.length + 2)
        refine ih (i + 1) (k + 1) (by omega) (by omega) _ caps hcaps ?_
        rw [reEnter_past _ _ _ (by omega)]
        have hfuel : addFuel (litProg s) = s.length + 2 + 3 := by
          simp [addFuel, litProg]
        rw [hfuel]
        exact hnext
      · have hne : ¬((s[k].toNat : Int) = (c.toNat : Int)) := by
          intro h
          exact he (Char.toNat_inj.1 (by omega))
        rw [if_neg hne]
        have hdead := reVm_dead re (litProg s) t init left (i := i + 1) (by omega)
        simp [hdead, Ne.symm he]
    · obtain rfl : k = s.length := by omega
      rw [litThread, if_neg (by omega), hat, if_neg (by omega)] at hcur
      rw [reVm, hcur, if_pos rfl]
      simp [hcr]

/-! ## The claim -/

theorem escRegex_ngroups (s : Str) : (escRegex s).ngroups = 1 := by
  unfold escRegex reBuild
  split <;> rfl

theorem regexFullMatch_escRegex (s t : Str) :
    regexFullMatch (escRegex s) t = true ↔ t = s := by
  have hfuel : addFuel (litProg s) = (s.length + 1) + 1 + 3 := by
    simp [addFuel, litProg]
  have hop : insOp (insAt (litProg s) 0) = oSave := by
    rw [show insAt (litProg s) 0 = ins oSave 0 0 from rfl, insOp_ins (by decide)]
  have hargs : insA (insAt (litProg s) 0) = 0 := by
    rw [show insAt (litProg s) 0 = ins oSave 0 0 from rfl, insA_ins (by decide) (by decide)]
  have hrun := reVm_litProg (escRegex s) s t (reUnset 2) (strLen t) 0 0 (by omega) (by omega)
    reThreads ((reUnset 2).set 0 (0 : Nat)) (by simp [reUnset]) ?_
  · rw [regexFullMatch, reRun, escRegex_fprog, escRegex_ngroups, Nat.sub_zero]
    rw [List.drop_zero, List.drop_zero] at hrun
    rw [← hrun]
    simp
  · have hseen : (0 : Nat) ∉ reThreads.seen := by simp [reThreads]
    rw [reEnter, if_pos (by decide), hfuel, reAdd, if_neg hseen]
    simp only [hop, hargs]
    rw [if_neg (by decide), if_neg (by decide), if_pos (by decide)]
    exact reAdd_lit s _ _ 0 0 (by omega) _ _ (fun j hj => by simp [reThreads]; omega) _

/-- A text of at most 200000 codepoints compiles, escaped, to a pattern that matches exactly
that text. -/
theorem escape_matches_itself (cm : Casing) (s : Text) (h : s.1.length ≤ 200000) :
    ∃ re, regexCompile cm (regexEscape s.1) = some (.ok re) ∧
      ∀ t, regexFullMatch re t = true ↔ t = s.1 := by
  refine ⟨escRegex s.1, ?_, regexFullMatch_escRegex s.1⟩
  rw [regexCompile_escape cm s (by omega), if_neg (by omega)]

/-- A metacharacter, a class character and a codepoint above ASCII. -/
theorem escape_matches_itself_mixed : ∃ re, regexCompile ⟨id, id⟩
    (regexEscape ['*', '-', Char.ofNat 233]) = some (.ok re) ∧
      ∀ t, regexFullMatch re t = true ↔ t = ['*', '-', Char.ofNat 233] :=
  escape_matches_itself ⟨id, id⟩ ⟨['*', '-', Char.ofNat 233], by decide⟩ (by decide)

/-- One codepoint more than the limit on instructions and the escaped text is refused. -/
theorem escape_too_long : ¬∀ (cm : Casing) (s : Text),
    ∃ re, regexCompile cm (regexEscape s.1) = some (.ok re) := by
  intro hall
  have hlen : (List.replicate 200001 'a').length = 200001 := List.length_replicate
  have hmem : Char.ofNat 0 ∉ List.replicate 200001 'a' := by
    intro h
    exact absurd (List.eq_of_mem_replicate h) (by decide)
  let s : Text := ⟨List.replicate 200001 'a', hmem⟩
  have hs : s.1.length = 200001 := hlen
  obtain ⟨re, hre⟩ := hall ⟨id, id⟩ s
  rw [regexCompile_escape _ s (by omega), if_pos (by omega)] at hre
  cases hre

end RegexLib

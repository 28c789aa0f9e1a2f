import Resid.Package.Lock

/-!
# What is written to resid.lock reads back

    parseLock (lockToText es) = ok (sortLockEntries es)   for entries whose lines read back   (parse_lockToText)
    parseLock text = ok es → each of es is one whose line reads back                          (readable_of_parse)
-/

namespace Package

open Runtime Fields

/-! ## What a line says -/

/-- A line's entry, if it has one; none when it is malformed. -/
def lineEntry (line : Str) : Option (Option LockEntry) :=
  let t := strTrim line
  if t = [] then some none
  else if strStartsWith t ['#'] then some none
  else
    match splitWs t with
    | [name, version, hash] =>
      if !strStartsWith hash shaTag then none
      else some (some ⟨name, version, strSlice hash 7 (strLen hash)⟩)
    | _ => none

variable {acc : LockParseResult} {line text : Str} {e : LockEntry} {es : List LockEntry}

theorem parseLockLine_eq (h : acc.ok = true) (line : Str) (n : Nat) :
    parseLockLine line n acc = match lineEntry line with
      | none => lockReject acc n
      | some none => acc
      | some (some e) => ⟨true, [], acc.entries ++ [e]⟩ := by
  unfold parseLockLine lineEntry
  rw [h]
  simp only [Bool.not_true, Bool.false_eq_true, if_false]
  by_cases hnil : strTrim line = []
  · rw [if_pos hnil, if_pos hnil]
  rw [if_neg hnil, if_neg hnil]
  by_cases hhash : strStartsWith (strTrim line) ['#'] = true
  · rw [if_pos hhash, if_pos hhash]
  rw [if_neg hhash, if_neg hhash]
  generalize splitWs (strTrim line) = parts
  rcases parts with _ | ⟨name, _ | ⟨version, _ | ⟨hash, _ | ⟨_, _⟩⟩⟩⟩
  · rfl
  · rfl
  · rfl
  · simp only
    by_cases htag : (!strStartsWith hash shaTag) = true
    · rw [if_pos htag, if_pos htag]
    · rw [if_neg htag, if_neg htag]
  · rfl

theorem parseLockAcc_failed (lines : List Str) (i : Nat) (h : acc.ok = false) :
    parseLockAcc lines i acc = acc := by
  induction lines generalizing i with
  | nil => rfl
  | cons line lines ih =>
    have hstep : parseLockLine line (i + 1) acc = acc := by
      unfold parseLockLine
      rw [h]
      rfl
    rw [parseLockAcc, hstep, ih]

/-- A text of well-formed lines gives their entries. -/
theorem parseLockAcc_of_good {lines : List Str} (h : ∀ l ∈ lines, lineEntry l ≠ none) (i : Nat)
    (acc : List LockEntry) : parseLockAcc lines i ⟨true, [], acc⟩ =
      ⟨true, [], acc ++ lines.filterMap fun l => (lineEntry l).join⟩ := by
  induction lines generalizing i acc with
  | nil =>
    rw [List.filterMap_nil, List.append_nil]
    rfl
  | cons line lines ih =>
    have hrest := ih fun l hl => h l (List.mem_cons_of_mem line hl)
    rw [parseLockAcc, parseLockLine_eq rfl]
    cases hline : lineEntry line with
    | none => exact absurd hline (h line List.mem_cons_self)
    | some o =>
      cases o with
      | none =>
        rw [List.filterMap_cons_none (by rw [hline]; rfl)]
        exact hrest (i + 1) acc
      | some e =>
        rw [List.filterMap_cons_some (b := e) (by rw [hline]; rfl)]
        rw [hrest (i + 1) (acc ++ [e]), List.append_assoc]
        rfl

theorem good_of_parseLockAcc {lines : List Str} {i : Nat}
    (h : (parseLockAcc lines i acc).ok = true) : ∀ l ∈ lines, lineEntry l ≠ none := by
  induction lines generalizing i acc with
  | nil =>
    intro l hl
    cases hl
  | cons line lines ih =>
    rw [parseLockAcc] at h
    intro l hl
    rcases List.mem_cons.1 hl with rfl | hl
    · intro hnone
      cases hok : acc.ok with
      | false =>
        have hstep : parseLockLine l (i + 1) acc = acc := by
          unfold parseLockLine
          rw [hok]
          rfl
        rw [hstep, parseLockAcc_failed lines _ hok, hok] at h
        cases h
      | true =>
        rw [parseLockLine_eq hok, hnone] at h
        rw [parseLockAcc_failed lines _ (show (lockReject acc (i + 1)).ok = false from rfl)] at h
        cases h
    · exact ih h l hl

/-- What a text without malformed lines says. -/
theorem parseLock_ok (h : (parseLock text).ok = true) :
    parseLock text = ⟨true, [], (strSplit text ['\n']).filterMap fun l => (lineEntry l).join⟩ := by
  have hgood := good_of_parseLockAcc h
  unfold parseLock
  rw [parseLockAcc_of_good hgood, List.nil_append]

/-! ## Entries whose line reads back -/

structure Readable (e : LockEntry) : Prop where
  name : isName e.name = true
  version : isWord e.version = true
  hash : isLastWord (shaTag ++ e.sha256) = true

theorem Readable.name_word (h : Readable e) : isWord e.name = true :=
  (isName_iff.1 h.name).1

theorem Readable.hash_word (h : Readable e) : isWord (shaTag ++ e.sha256) = true :=
  (isLastWord_iff.1 h.hash).1

theorem Readable.name_ne (h : Readable e) : e.name ≠ [] :=
  (isWord_iff.1 h.name_word).1

theorem lockLine_eq (e : LockEntry) :
    lockLine e = wordLine e.name e.version (shaTag ++ e.sha256) := by
  unfold lockLine wordLine
  have htag : " sha256:".toList = " ".toList ++ shaTag := rfl
  rw [htag]
  simp

theorem shaTag_free : ∀ c ∈ shaTag, isSpace c = false := by
  have hall : shaTag.all (fun c => !isSpace c) = true := by decide
  intro c hc
  simpa using List.all_eq_true.1 hall c hc

theorem shaTag_append_ne (sha : Str) : shaTag ++ sha ≠ [] :=
  List.append_ne_nil_of_left_ne_nil (by decide) sha

/-- The hash behind its tag. -/
theorem slice_shaTag (sha : Str) :
    strStartsWith (shaTag ++ sha) shaTag = true ∧
      strSlice (shaTag ++ sha) 7 (strLen (shaTag ++ sha)) = sha := by
  constructor
  · unfold strStartsWith
    rw [List.isPrefixOf_iff_prefix]
    exact List.prefix_append _ _
  · have hdrop : (shaTag ++ sha).drop 7 = sha := rfl
    have hseven : shaTag.length = 7 := rfl
    unfold strSlice strLen
    rw [hdrop, List.length_append]
    apply List.take_of_length_le
    omega

theorem lineEntry_lockLine (h : Readable e) : lineEntry (lockLine e) = some (some e) := by
  obtain ⟨hnil, hcomment⟩ :=
    wordLine_shown (b := e.version) (c := shaTag ++ e.sha256) h.name
  obtain ⟨htag, hslice⟩ := slice_shaTag e.sha256
  unfold lineEntry
  rw [lockLine_eq, strTrim_wordLine h.name h.hash]
  rw [if_neg hnil, if_neg hcomment, splitWs_wordLine h.name_word h.version h.hash_word]
  simp only
  rw [htag, hslice]
  rfl

theorem lockLine_free (h : Readable e) : '\n' ∉ lockLine e := by
  rw [lockLine_eq]
  exact wordLine_free h.name_word h.version h.hash_word

/-! ## The order of names -/

theorem strCmp_cons (a b : Char) (as bs : Str) :
    strCmp (a :: as) (b :: bs) =
      if a.toNat < b.toNat then -1 else if a.toNat > b.toNat then 1 else strCmp as bs := rfl

theorem eq_of_strCmp {a b : Str} (h : strCmp a b = 0) : a = b := by
  induction a generalizing b with
  | nil =>
    cases b with
    | nil => rfl
    | cons d b => cases h
  | cons c a ih =>
    cases b with
    | nil => cases h
    | cons d b =>
      rw [strCmp_cons] at h
      by_cases hlt : c.toNat < d.toNat
      · rw [if_pos hlt] at h
        cases h
      rw [if_neg hlt] at h
      by_cases hgt : c.toNat > d.toNat
      · rw [if_pos hgt] at h
        cases h
      rw [if_neg hgt] at h
      have hcd : c = d := Char.toNat_inj.1 (by omega)
      rw [hcd, ih h]

theorem strCmp_swap (a b : Str) : strCmp a b = -strCmp b a := by
  induction a generalizing b with
  | nil =>
    cases b with
    | nil => rfl
    | cons d b => rfl
  | cons c a ih =>
    cases b with
    | nil => rfl
    | cons d b =>
      rw [strCmp_cons, strCmp_cons]
      by_cases hlt : c.toNat < d.toNat
      · rw [if_pos hlt, if_neg (by omega), if_pos hlt]
      rw [if_neg hlt]
      by_cases hgt : c.toNat > d.toNat
      · rw [if_pos hgt, if_pos hgt]
        rfl
      · rw [if_neg hgt, if_neg hgt, if_neg hlt, ih b]

theorem strCmp_trans {a b c : Str} (hab : strCmp a b ≤ 0) (hbc : strCmp b c ≤ 0) :
    strCmp a c ≤ 0 := by
  induction a generalizing b c with
  | nil =>
    cases c with
    | nil => exact Int.le_refl 0
    | cons z c => exact (by decide : (-1 : Int) ≤ 0)
  | cons x a ih =>
    cases b with
    | nil => cases hab
    | cons y b =>
      cases c with
      | nil => cases hbc
      | cons z c =>
        rw [strCmp_cons] at hab hbc ⊢
        by_cases hxz : x.toNat < z.toNat
        · rw [if_pos hxz]
          decide
        by_cases hxy : x.toNat < y.toNat
        · rw [if_neg (show ¬ y.toNat < z.toNat by omega), if_pos (by omega)] at hbc
          cases hbc
        by_cases hyx : x.toNat > y.toNat
        · rw [if_neg hxy, if_pos hyx] at hab
          cases hab
        rw [if_neg hxy, if_neg hyx] at hab
        by_cases hyz : y.toNat > z.toNat
        · rw [if_neg (by omega), if_pos hyz] at hbc
          cases hbc
        rw [if_neg (by omega), if_neg hyz] at hbc
        rw [if_neg hxz, if_neg (by omega)]
        exact ih hab hbc

/-- Entries in the order of their names. -/
def Sorted (es : List LockEntry) : Prop := es.Pairwise fun a b => lockentryCmp a b ≤ 0

theorem sortLockEntries_spec (es : List LockEntry) :
    (sortLockEntries es).Perm es ∧ Sorted (sortLockEntries es) := by
  constructor
  · exact Insertion.insertAll_perm _ es []
  · apply Insertion.insertAll_pairwise (r := fun a b => lockentryCmp a b < 0) _ _ _ es
      List.Pairwise.nil
    · exact fun a b hlt => Int.le_of_lt hlt
    · intro a b hlt
      show strCmp b.name a.name ≤ 0
      rw [strCmp_swap]
      have : ¬ strCmp a.name b.name < 0 := hlt
      omega
    · exact fun a b c hab hbc => strCmp_trans hab hbc

/-! ## Round trip -/

def headerLine : Str := "# resid.lock - generated; dependency content hashes".toList

theorem lockHeader_eq : lockHeader = headerLine ++ ['\n'] := by decide

theorem lockToText_eq (es : List LockEntry) :
    lockToText es = unlines '\n' (headerLine :: (sortLockEntries es).map lockLine) := by
  unfold lockToText
  generalize (sortLockEntries es).map lockLine = ls
  rw [unlines_cons, lockHeader_eq]
  by_cases hnil : ls = []
  · rw [if_pos hnil, hnil]
    rfl
  · rw [if_neg hnil, unlines_eq_intercalate '\n' hnil]
    rfl

theorem strSplit_lockToText (h : ∀ e ∈ es, Readable e) :
    strSplit (lockToText es) ['\n'] = headerLine :: ((sortLockEntries es).map lockLine ++ [[]]) := by
  rw [lockToText_eq, strSplit_unlines]
  · rfl
  intro l hl
  rcases List.mem_cons.1 hl with rfl | hl
  · decide
  · obtain ⟨e, he, rfl⟩ := List.mem_map.1 hl
    exact lockLine_free (h e ((sortLockEntries_spec es).1.subset he))

theorem entries_lockLines (h : ∀ e ∈ es, Readable e) :
    (es.map lockLine).filterMap (fun l => (lineEntry l).join) = es := by
  induction es with
  | nil => rfl
  | cons e es ih =>
    have hline := lineEntry_lockLine (h e List.mem_cons_self)
    rw [List.map_cons, List.filterMap_cons_some (b := e) (by rw [hline]; rfl),
      ih fun a ha => h a (List.mem_cons_of_mem e ha)]

/-- What is written reads back, in the order of the names. -/
theorem parse_lockToText (h : ∀ e ∈ es, Readable e) :
    parseLock (lockToText es) = ⟨true, [], sortLockEntries es⟩ := by
  have hread : ∀ e ∈ sortLockEntries es, Readable e :=
    fun e he => h e ((sortLockEntries_spec es).1.subset he)
  have hheader : lineEntry headerLine = some none := by decide
  have hend : lineEntry [] = some none := by decide
  have hgood : ∀ l ∈ headerLine :: ((sortLockEntries es).map lockLine ++ [[]]),
      lineEntry l ≠ none := by
    intro l hl
    rcases List.mem_cons.1 hl with rfl | hl
    · rw [hheader]
      exact Option.some_ne_none _
    rcases List.mem_append.1 hl with hl | hl
    · obtain ⟨e, he, rfl⟩ := List.mem_map.1 hl
      rw [lineEntry_lockLine (hread e he)]
      exact Option.some_ne_none _
    · rw [List.mem_singleton.1 hl, hend]
      exact Option.some_ne_none _
  unfold parseLock
  rw [strSplit_lockToText h, parseLockAcc_of_good hgood,
    List.filterMap_cons_none (by rw [hheader]; rfl), List.filterMap_append,
    entries_lockLines hread, List.filterMap_cons_none (by rw [hend]; rfl)]
  rw [List.filterMap_nil, List.append_nil, List.nil_append]

/-! ## What was read reads back -/

/-- The parts of a well-formed line. -/
theorem line_parts (h : lineEntry line = some (some e)) :
    splitWs (strTrim line) = [e.name, e.version, shaTag ++ e.sha256] ∧
      ¬ strStartsWith (strTrim line) ['#'] = true := by
  unfold lineEntry at h
  by_cases hnil : strTrim line = []
  · simp only [hnil, if_pos] at h
    cases h
  by_cases hhash : strStartsWith (strTrim line) ['#'] = true
  · simp only [hnil, hhash, if_true, if_false] at h
    cases h
  simp only [hnil, hhash, if_false] at h
  generalize hparts : splitWs (strTrim line) = parts at h
  match parts with
  | [name, version, hash] =>
    simp only at h
    by_cases htag : (!strStartsWith hash shaTag) = true
    · rw [if_pos htag] at h
      cases h
    · rw [if_neg htag] at h
      cases h
      have hpre : strStartsWith hash shaTag = true := by simpa using htag
      unfold strStartsWith at hpre
      rw [List.isPrefixOf_iff_prefix] at hpre
      obtain ⟨sha, rfl⟩ := hpre
      rw [(slice_shaTag sha).2]
      exact ⟨rfl, hhash⟩
  | [] => cases h
  | [_] => cases h
  | [_, _] => cases h
  | _ :: _ :: _ :: _ :: _ => cases h

/-- The entry of a line of a text reads back. -/
theorem readable_of_line (hfree : '\n' ∉ line) (h : lineEntry line = some (some e)) :
    Readable e := by
  obtain ⟨hparts, hcomment⟩ := line_parts h
  obtain ⟨hname, hversion, hhash⟩ := words_of_line hfree hparts hcomment
  exact ⟨hname, hversion, hhash⟩

/-- Every entry of a text without malformed lines reads back. -/
theorem readable_of_parse (h : (parseLock text).ok = true) :
    ∀ e ∈ (parseLock text).entries, Readable e := by
  intro e he
  rw [parseLock_ok h] at he
  obtain ⟨l, hl, hentry⟩ := List.mem_filterMap.1 he
  rw [strSplit_single] at hl
  apply readable_of_line (not_mem_of_mem_splitOn hl)
  cases hline : lineEntry l with
  | none =>
    rw [hline] at hentry
    cases hentry
  | some o =>
    rw [hline] at hentry
    exact congrArg some hentry

/-- What a well-formed line of a text says is among the entries. -/
theorem mem_of_line (h : (parseLock text).ok = true) (hline : line ∈ strSplit text ['\n'])
    (he : lineEntry line = some (some e)) : e ∈ (parseLock text).entries := by
  rw [parseLock_ok h]
  exact List.mem_filterMap.2 ⟨line, hline, by rw [he]; rfl⟩

end Package

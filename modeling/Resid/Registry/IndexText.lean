import Resid.Registry.Index
import Resid.Registry.Upload
import Resid.Runtime.Ints

/-!
# What is written to the index reads back

    parseIndexText (indexText es m) = sortIdxEntries es      for entries in plain words    (parse_indexText)
    idxMeta (indexText es m) = m                             for numbers that fit           (idxMeta_indexText)
    bytesToAscii (bytesOf s) = s                             for ASCII text                 (bytesToAscii_bytesOf)
-/

namespace Registry

open Runtime Package Fields

/-! ## ASCII text -/

def isAsciiText (s : Str) : Bool := s.all fun c => decide (0 < c.toNat) && decide (c.toNat < 128)

variable {s : Str} {e : IdxEntry} {es : List IdxEntry}

theorem isAsciiText_iff : isAsciiText s = true ↔ ∀ c ∈ s, 0 < c.toNat ∧ c.toNat < 128 := by
  unfold isAsciiText
  simp

theorem isAsciiText_append {t : Str} (hs : isAsciiText s = true) (ht : isAsciiText t = true) :
    isAsciiText (s ++ t) = true := by
  rw [isAsciiText_iff] at hs ht ⊢
  intro c hc
  exact (List.mem_append.1 hc).elim (hs c) (ht c)

theorem isAsciiText_intText (v : Int) : isAsciiText (intText v) = true := by
  rw [isAsciiText_iff]
  intro c hc
  rcases mem_intText hc with rfl | hdigit
  · decide
  · unfold isAsciiDigit at hdigit
    simp only [Bool.and_eq_true, decide_eq_true_eq] at hdigit
    omega

theorem bytesToAscii_append (a b : List Byte) :
    bytesToAscii (a ++ b) = bytesToAscii a ++ bytesToAscii b := by
  unfold bytesToAscii
  rw [List.filter_append, List.map_append]

theorem bytesToAscii_singleton {b : Byte} (h : b.val ≠ 0) :
    bytesToAscii [b] = [Char.ofNat b.val] := by
  unfold bytesToAscii
  rw [List.filter_cons, if_pos (decide_eq_true h)]
  rfl

/-- ASCII text comes back from its bytes. -/
theorem bytesToAscii_bytesOf (h : isAsciiText s = true) : bytesToAscii (bytesOf s) = s := by
  rw [isAsciiText_iff] at h
  induction s with
  | nil => rfl
  | cons c s ih =>
    obtain ⟨hpos, hlt⟩ := h c List.mem_cons_self
    have hbyte : (Fin.ofNat 256 c.toNat).val = c.toNat := Nat.mod_eq_of_lt (by omega)
    have hone : bytesToAscii ((utf8Cp c.toNat).map (Fin.ofNat 256)) = [c] := by
      unfold utf8Cp
      rw [if_pos hlt, List.map_singleton, bytesToAscii_singleton (by omega), hbyte,
        Char.ofNat_toNat]
    unfold bytesOf at ih ⊢
    rw [List.flatMap_cons, bytesToAscii_append, hone,
      ih fun d hd => h d (List.mem_cons_of_mem c hd)]
    rfl

/-! ## Entries whose line reads back -/

structure Plain (e : IdxEntry) : Prop where
  name : isName e.name = true
  version : isWord e.version = true
  hash : isLastWord e.sha256 = true
  ascii : isAsciiText (e.name ++ e.version ++ e.sha256) = true

theorem Plain.name_word (h : Plain e) : isWord e.name = true :=
  (isName_iff.1 h.name).1

theorem Plain.hash_word (h : Plain e) : isWord e.sha256 = true :=
  (isLastWord_iff.1 h.hash).1

/-- The entry of a line, if it has one. -/
def lineEntry (line : Str) : Option IdxEntry :=
  let t := strTrim line
  if t = [] then none
  else if strStartsWith t ['#'] then none
  else
    match splitWs t with
    | [name, version, sha256] => some ⟨name, version, sha256⟩
    | _ => none

theorem parseIndexAcc_eq (lines : List Str) (acc : List IdxEntry) :
    parseIndexAcc lines acc = acc ++ lines.filterMap lineEntry := by
  induction lines generalizing acc with
  | nil => exact (List.append_nil acc).symm
  | cons line lines ih =>
    rw [parseIndexAcc, ih]
    unfold lineEntry
    rw [List.filterMap_cons]
    by_cases hnil : strTrim line = []
    · rw [if_pos hnil, if_pos hnil]
    rw [if_neg hnil, if_neg hnil]
    by_cases hhash : strStartsWith (strTrim line) ['#'] = true
    · rw [if_pos hhash, if_pos hhash]
    rw [if_neg hhash, if_neg hhash]
    unfold parseIndexLine
    generalize splitWs (strTrim line) = parts
    match parts with
    | [name, version, sha256] =>
      simp only [List.append_assoc]
      rfl
    | [] => rfl
    | [_] => rfl
    | [_, _] => rfl
    | _ :: _ :: _ :: _ :: _ => rfl

theorem parseIndexText_eq (text : Str) :
    parseIndexText text = (strSplit text ['\n']).filterMap lineEntry := by
  unfold parseIndexText
  rw [parseIndexAcc_eq, List.nil_append]

theorem lineEntry_idxLine (h : Plain e) : lineEntry (idxLine e) = some e := by
  obtain ⟨hnil, hcomment⟩ := wordLine_shown (b := e.version) (c := e.sha256) h.name
  show lineEntry (wordLine e.name e.version e.sha256) = some e
  unfold lineEntry
  rw [strTrim_wordLine h.name h.hash]
  rw [if_neg hnil, if_neg hcomment, splitWs_wordLine h.name_word h.version h.hash_word]

/-- The words of an entry's line. -/
theorem lineEntry_words {line : Str} (h : lineEntry line = some e) :
    splitWs (strTrim line) = [e.name, e.version, e.sha256] ∧
      ¬ strStartsWith (strTrim line) ['#'] = true := by
  unfold lineEntry at h
  by_cases hnil : strTrim line = []
  · simp only [hnil, if_pos] at h
    cases h
  by_cases hhash : strStartsWith (strTrim line) ['#'] = true
  · simp only [hnil, hhash, if_true, if_false] at h
    cases h
  simp only [hnil, hhash, if_false] at h
  generalize splitWs (strTrim line) = parts at h ⊢
  match parts with
  | [name, version, sha256] =>
    cases h
    exact ⟨rfl, hhash⟩
  | [] => cases h
  | [_] => cases h
  | [_, _] => cases h
  | _ :: _ :: _ :: _ :: _ => cases h

/-- The entries of an ASCII text are plain. -/
theorem plain_of_mem {text : Str} (hascii : isAsciiText text = true) (h : e ∈ parseIndexText text) :
    Plain e := by
  rw [parseIndexText_eq] at h
  obtain ⟨line, hline, hentry⟩ := List.mem_filterMap.1 h
  obtain ⟨hwords, hcomment⟩ := lineEntry_words hentry
  rw [strSplit_single] at hline
  obtain ⟨hname, hversion, hhash⟩ :=
    words_of_line (not_mem_of_mem_splitOn hline) hwords hcomment
  refine ⟨hname, hversion, hhash, ?_⟩
  have hword : ∀ w ∈ [e.name, e.version, e.sha256], isAsciiText w = true := by
    intro w hw
    rw [isAsciiText_iff] at hascii ⊢
    intro c hc
    rw [← hwords] at hw
    exact hascii c (subset_of_mem_splitOn hline (mem_strTrim (subset_words hw hc)))
  exact isAsciiText_append (isAsciiText_append (hword _ (by simp)) (hword _ (by simp)))
    (hword _ (by simp))

/-! ## The text of an index -/

def commentLine : Str := "# resid registry index".toList

def serialLine (m : IdxMeta) : Str := "@serial ".toList ++ intText m.serial

def expiresLine (m : IdxMeta) : Str := "@expires ".toList ++ intText m.expires

def indexLines (es : List IdxEntry) (m : IdxMeta) : List Str :=
  commentLine :: serialLine m :: expiresLine m :: (sortIdxEntries es).map idxLine

theorem sortIdxEntries_perm (es : List IdxEntry) : (sortIdxEntries es).Perm es :=
  Insertion.insertAll_perm _ es []

theorem idxHeader_eq (m : IdxMeta) :
    idxHeader m = unlines '\n' [commentLine, serialLine m, expiresLine m] := by
  have hcomment : "# resid registry index\n".toList = commentLine ++ ['\n'] := rfl
  have hexpires : "\n@expires ".toList = ['\n'] ++ "@expires ".toList := rfl
  have hend : "\n".toList = ['\n'] := rfl
  unfold idxHeader serialLine expiresLine unlines
  rw [hcomment, hexpires, hend]
  simp

theorem indexText_eq (es : List IdxEntry) (m : IdxMeta) :
    indexText es m = unlines '\n' (indexLines es m) := by
  have hsplit : unlines '\n' (indexLines es m) =
      idxHeader m ++ unlines '\n' ((sortIdxEntries es).map idxLine) := by
    rw [idxHeader_eq]
    unfold unlines indexLines
    simp
  rw [hsplit]
  unfold indexText
  generalize (sortIdxEntries es).map idxLine = ls
  by_cases hnil : ls = []
  · rw [if_pos hnil, hnil]
    exact (List.append_nil _).symm
  · rw [if_neg hnil, unlines_eq_intercalate '\n' hnil, List.append_assoc]

/-- A line of two words, the second a number. -/
theorem metaLine_words {key : Str} (hkey : isName key = true) (v : Int) :
    strTrim (key ++ " ".toList ++ intText v) = key ++ " ".toList ++ intText v ∧
      splitWs (key ++ " ".toList ++ intText v) = [key, intText v] ∧
      '\n' ∉ key ++ " ".toList ++ intText v := by
  obtain ⟨hword, hhead⟩ := isName_iff.1 hkey
  have hint := isLastWord_of_free (intText_ne v) (intText_free v)
  obtain ⟨hintword, hlast⟩ := isLastWord_iff.1 hint
  refine ⟨?_, ?_, ?_⟩
  · apply strTrim_eq_self
    · intro c r hc
      obtain ⟨d, s, hd⟩ := List.exists_cons_of_ne_nil (isWord_iff.1 hword).1
      rw [hd] at hc
      rw [← (List.cons.inj hc).1]
      exact (hhead d s hd).1
    · intro c hc
      rw [List.getLast?_append_of_ne_nil _ (intText_ne v)] at hc
      exact hlast c hc
  · have hline : key ++ " ".toList ++ intText v = [' '].intercalate [key, intText v] := by simp
    rw [hline]
    apply splitWs_intercalate
    simp only [List.forall_mem_cons]
    exact ⟨hword, hintword, fun w hw => absurd hw List.not_mem_nil⟩
  · simp only [List.mem_append, not_or]
    refine ⟨⟨fun hc => ((isWord_iff.1 hword).2 _ hc).2 rfl, by decide⟩, ?_⟩
    exact fun hc => ((isWord_iff.1 hintword).2 _ hc).2 rfl

theorem isName_serial : isName "@serial".toList = true := by decide

theorem isName_expires : isName "@expires".toList = true := by decide

theorem serialLine_eq (m : IdxMeta) :
    serialLine m = "@serial".toList ++ " ".toList ++ intText m.serial := rfl

theorem expiresLine_eq (m : IdxMeta) :
    expiresLine m = "@expires".toList ++ " ".toList ++ intText m.expires := rfl

theorem strSplit_indexText (h : ∀ e ∈ es, Plain e) (m : IdxMeta) :
    strSplit (indexText es m) ['\n'] = indexLines es m ++ [[]] := by
  rw [indexText_eq, strSplit_unlines]
  intro l hl
  rcases List.mem_cons.1 hl with rfl | hl
  · decide
  rcases List.mem_cons.1 hl with rfl | hl
  · exact (metaLine_words isName_serial m.serial).2.2
  rcases List.mem_cons.1 hl with rfl | hl
  · exact (metaLine_words isName_expires m.expires).2.2
  obtain ⟨e, he, rfl⟩ := List.mem_map.1 hl
  have hplain := h e ((sortIdxEntries_perm es).subset he)
  exact wordLine_free hplain.name_word hplain.version hplain.hash_word

/-- A line of two words has no entry. -/
theorem lineEntry_meta {key : Str} (hkey : isName key = true) (v : Int) :
    lineEntry (key ++ " ".toList ++ intText v) = none := by
  obtain ⟨htrim, hwords, -⟩ := metaLine_words hkey v
  unfold lineEntry
  rw [htrim]
  simp only
  split_ifs
  · rfl
  · rfl
  · rw [hwords]

theorem entries_idxLines (h : ∀ e ∈ es, Plain e) : (es.map idxLine).filterMap lineEntry = es := by
  induction es with
  | nil => rfl
  | cons e es ih =>
    rw [List.map_cons, List.filterMap_cons_some (lineEntry_idxLine (h e List.mem_cons_self)),
      ih fun a ha => h a (List.mem_cons_of_mem e ha)]

theorem parse_indexText (h : ∀ e ∈ es, Plain e) (m : IdxMeta) :
    parseIndexText (indexText es m) = sortIdxEntries es := by
  have hsorted : ∀ e ∈ sortIdxEntries es, Plain e :=
    fun e he => h e ((sortIdxEntries_perm es).subset he)
  have hcomment : lineEntry commentLine = none := by decide
  have hend : lineEntry [] = none := by decide
  rw [parseIndexText_eq, strSplit_indexText h, List.filterMap_append]
  unfold indexLines
  rw [List.filterMap_cons_none hcomment, serialLine_eq, expiresLine_eq,
    List.filterMap_cons_none (lineEntry_meta isName_serial m.serial),
    List.filterMap_cons_none (lineEntry_meta isName_expires m.expires),
    entries_idxLines hsorted, List.filterMap_cons_none hend, List.filterMap_nil, List.append_nil]

/-- An entry's line says nothing about the serial. -/
theorem idxMetaLine_idxLine (h : Plain e) (m : IdxMeta) : idxMetaLine m (idxLine e) = m := by
  show idxMetaLine m (wordLine e.name e.version e.sha256) = m
  unfold idxMetaLine
  rw [strTrim_wordLine h.name h.hash, splitWs_wordLine h.name_word h.version h.hash_word]

theorem foldl_idxLines (h : ∀ e ∈ es, Plain e) (m : IdxMeta) :
    (es.map idxLine).foldl idxMetaLine m = m := by
  induction es with
  | nil => rfl
  | cons e es ih =>
    rw [List.map_cons, List.foldl_cons, idxMetaLine_idxLine (h e List.mem_cons_self),
      ih fun a ha => h a (List.mem_cons_of_mem e ha)]

theorem idxMeta_indexText (h : ∀ e ∈ es, Plain e) {m : IdxMeta}
    (hserial : CheckedInt.Fits 64 m.serial) (hexpires : CheckedInt.Fits 64 m.expires) :
    idxMeta (indexText es m) = m := by
  have hsorted : ∀ e ∈ sortIdxEntries es, Plain e :=
    fun e he => h e ((sortIdxEntries_perm es).subset he)
  have hcomment : idxMetaLine ⟨0, 0⟩ commentLine = ⟨0, 0⟩ := by decide +kernel
  have hkey : ("@expires".toList == "@serial".toList) = false := by decide
  have hserialLine : ∀ m0, idxMetaLine m0 (serialLine m) = ⟨m.serial, m0.expires⟩ := by
    intro m0
    obtain ⟨htrim, hwords, -⟩ := metaLine_words isName_serial m.serial
    unfold idxMetaLine
    rw [serialLine_eq, htrim, hwords]
    simp only
    rw [strIsInt_intText, strParseInt_intText hserial]
    rfl
  have hexpiresLine : ∀ m0, idxMetaLine m0 (expiresLine m) = ⟨m0.serial, m.expires⟩ := by
    intro m0
    obtain ⟨htrim, hwords, -⟩ := metaLine_words isName_expires m.expires
    unfold idxMetaLine
    rw [expiresLine_eq, htrim, hwords]
    simp only
    rw [strIsInt_intText, strParseInt_intText hexpires, hkey]
    rfl
  have hend : ∀ m0, idxMetaLine m0 [] = m0 := by
    intro m0
    have hnil : splitWs (strTrim []) = [] := words_nil
    unfold idxMetaLine
    rw [hnil]
  have hlines : (indexLines es m).foldl idxMetaLine ⟨0, 0⟩ = m := by
    unfold indexLines
    rw [List.foldl_cons, hcomment, List.foldl_cons, hserialLine, List.foldl_cons, hexpiresLine,
      foldl_idxLines hsorted]
  unfold idxMeta
  rw [strSplit_indexText h, List.foldl_append, hlines]
  exact hend m

theorem isAsciiText_indexText (h : ∀ e ∈ es, Plain e) (m : IdxMeta) :
    isAsciiText (indexText es m) = true := by
  have hmap : ∀ ls : List Str, (∀ l ∈ ls, isAsciiText l = true) →
      isAsciiText (unlines '\n' ls) = true := by
    intro ls hls
    rw [isAsciiText_iff]
    intro c hc
    obtain ⟨l, hl, hcl⟩ := List.mem_flatMap.1 hc
    exact isAsciiText_iff.1 (isAsciiText_append (hls l hl) (by decide)) c hcl
  rw [indexText_eq]
  apply hmap
  intro l hl
  rcases List.mem_cons.1 hl with rfl | hl
  · decide
  rcases List.mem_cons.1 hl with rfl | hl
  · exact isAsciiText_append (by decide) (isAsciiText_intText m.serial)
  rcases List.mem_cons.1 hl with rfl | hl
  · exact isAsciiText_append (by decide) (isAsciiText_intText m.expires)
  obtain ⟨e, he, rfl⟩ := List.mem_map.1 hl
  have hascii := isAsciiText_iff.1 (h e ((sortIdxEntries_perm es).subset he)).ascii
  have hpart : ∀ w, w ⊆ e.name ++ e.version ++ e.sha256 → isAsciiText w = true :=
    fun w hw => isAsciiText_iff.2 fun c hc => hascii c (hw hc)
  have hspace : isAsciiText " ".toList = true := by decide
  have hname := hpart e.name fun c hc => by simp [hc]
  have hversion := hpart e.version fun c hc => by simp [hc]
  have hhash := hpart e.sha256 fun c hc => by simp [hc]
  exact isAsciiText_append (isAsciiText_append (isAsciiText_append
    (isAsciiText_append hname hspace) hversion) hspace) hhash

end Registry

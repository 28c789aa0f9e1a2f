import Resid.Lib.Fields
import Resid.Runtime.Text
import Resid.Lib.Sorting

/-!
# Lines of three words

The lock and the registry index keep an entry as a line of three words.  A line reads back
when its first word is a *name*, its second a *word* and its third a *last word*:

    splitWs (strTrim (wordLine a b c)) = [a, b, c]                   (strTrim_wordLine, splitWs_wordLine)
    splitWs (strTrim line) = [a, b, c] → they are such words         (words_of_line)
-/

namespace Package

open Runtime Fields

def isWsChar (c : Char) : Bool := c == ' ' || c == '\t'

def splitWs (s : Str) : List Str := words isWsChar s

/-- Codepoint order: -1, 0 or 1. -/
def strCmp : Str → Str → Int
  | [], [] => 0
  | [], _ :: _ => -1
  | _ :: _, [] => 1
  | a :: as, b :: bs =>
    if a.toNat < b.toNat then -1 else if a.toNat > b.toNat then 1 else strCmp as bs

/-! ## Words of a line -/

/-- A text that can be the second word of a line. -/
def isWord (s : Str) : Bool := !s.isEmpty && s.all fun c => !isWsChar c && c ≠ '\n'

/-- A text that can be the first. -/
def isName (s : Str) : Bool := isWord s && s.head?.all fun c => !isSpace c && c ≠ '#'

/-- A text that can be the last. -/
def isLastWord (s : Str) : Bool := isWord s && s.getLast?.all fun c => !isSpace c

variable {a b c s : Str}

theorem isWord_iff : isWord s = true ↔ s ≠ [] ∧ ∀ c ∈ s, isWsChar c = false ∧ c ≠ '\n' := by
  unfold isWord
  simp

theorem isName_iff :
    isName s = true ↔ isWord s = true ∧ ∀ c r, s = c :: r → isSpace c = false ∧ c ≠ '#' := by
  unfold isName
  cases s <;> simp

theorem isLastWord_iff :
    isLastWord s = true ↔ isWord s = true ∧ ∀ c, s.getLast? = some c → isSpace c = false := by
  unfold isLastWord
  cases s.getLast? <;> simp

theorem isWsChar_of_isSpace {c : Char} (h : isSpace c = false) : isWsChar c = false := by
  unfold isSpace at h
  unfold isWsChar
  simp only [Bool.or_eq_false_iff] at h ⊢
  exact h.1.1.1.1

theorem isWord_of_free (hne : s ≠ []) (h : ∀ c ∈ s, isSpace c = false) : isWord s = true := by
  rw [isWord_iff]
  refine ⟨hne, fun c hc => ⟨isWsChar_of_isSpace (h c hc), ?_⟩⟩
  rintro rfl
  exact absurd (h _ hc) (by decide)

theorem isLastWord_of_free (hne : s ≠ []) (h : ∀ c ∈ s, isSpace c = false) : isLastWord s = true :=
  isLastWord_iff.2 ⟨isWord_of_free hne h, fun c hc => h c (List.mem_of_getLast? hc)⟩

/-! ## Lines of a text -/

theorem strSplit_unlines {ls : List Str} (h : ∀ l ∈ ls, '\n' ∉ l) :
    strSplit (unlines '\n' ls) ['\n'] = ls ++ [[]] := by
  rw [strSplit_single, splitOn_unlines h]

/-! ## Trimming -/

theorem strTrim_eq_self (hhead : ∀ c r, s = c :: r → isSpace c = false)
    (hlast : ∀ c, s.getLast? = some c → isSpace c = false) : strTrim s = s := by
  have hdrop : s.dropWhile isSpace = s := by
    cases s with
    | nil => rfl
    | cons c r =>
      rw [List.dropWhile_cons_of_neg]
      rw [hhead c r rfl]
      exact Bool.false_ne_true
  unfold strTrim
  rw [hdrop]
  apply List.rdropWhile_eq_self_iff.2
  intro hne
  rw [hlast _ (List.getLast?_eq_some_getLast hne)]
  exact Bool.false_ne_true

theorem strTrim_ends {c : Char} (h : (strTrim s).getLast? = some c) : isSpace c = false := by
  have hne : strTrim s ≠ [] := by
    intro h0
    rw [h0] at h
    cases h
  have hlast := List.rdropWhile_last_not isSpace (s.dropWhile isSpace) hne
  rw [List.getLast?_eq_some_getLast hne] at h
  cases h
  exact Bool.eq_false_iff.2 hlast

theorem strTrim_starts {c : Char} {r : Str} (h : strTrim s = c :: r) : isSpace c = false := by
  obtain ⟨gap, hgap⟩ : ∃ gap, s.dropWhile isSpace = strTrim s ++ gap := by
    obtain ⟨gap, hgap⟩ := List.rdropWhile_prefix isSpace (l := s.dropWhile isSpace)
    exact ⟨gap, hgap.symm⟩
  rw [h] at hgap
  have hne : s.dropWhile isSpace ≠ [] := by
    rw [hgap]
    exact List.cons_ne_nil _ _
  have hhead := List.head_dropWhile_not isSpace hne
  simp only [hgap, List.cons_append, List.head_cons] at hhead
  exact hhead

theorem mem_strTrim {c : Char} (h : c ∈ strTrim s) : c ∈ s :=
  (List.dropWhile_sublist _).subset ((List.rdropWhile_prefix _ _).subset h)

/-! ## A line of three words -/

def wordLine (a b c : Str) : Str := a ++ " ".toList ++ b ++ " ".toList ++ c

theorem splitWs_intercalate {ws : List Str} (h : ∀ w ∈ ws, isWord w = true) :
    splitWs ([' '].intercalate ws) = ws := by
  apply words_intercalate (by decide)
  intro w hw
  obtain ⟨hne, hfree⟩ := isWord_iff.1 (h w hw)
  exact ⟨hne, fun c hc => (hfree c hc).1⟩

theorem splitWs_wordLine (ha : isWord a = true) (hb : isWord b = true) (hc : isWord c = true) :
    splitWs (wordLine a b c) = [a, b, c] := by
  have hline : wordLine a b c = [' '].intercalate [a, b, c] := by
    unfold wordLine
    simp
  rw [hline]
  apply splitWs_intercalate
  simp only [List.forall_mem_cons]
  exact ⟨ha, hb, hc, fun w hw => absurd hw List.not_mem_nil⟩

theorem wordLine_cons (ha : isName a = true) :
    ∃ d s, wordLine a b c = d :: s ∧ isSpace d = false ∧ d ≠ '#' := by
  obtain ⟨hword, hhead⟩ := isName_iff.1 ha
  obtain ⟨d, r, rfl⟩ := List.exists_cons_of_ne_nil (isWord_iff.1 hword).1
  exact ⟨d, _, rfl, hhead d r rfl⟩

theorem strTrim_wordLine (ha : isName a = true) (hc : isLastWord c = true) :
    strTrim (wordLine a b c) = wordLine a b c := by
  obtain ⟨d, s, hs, hspace, -⟩ := wordLine_cons (b := b) (c := c) ha
  obtain ⟨hword, hlast⟩ := isLastWord_iff.1 hc
  apply strTrim_eq_self
  · intro e r he
    rw [hs] at he
    cases he
    exact hspace
  · intro e he
    apply hlast
    rw [← he]
    unfold wordLine
    rw [List.getLast?_append_of_ne_nil _ (isWord_iff.1 hword).1]

/-- Such a line is neither blank nor a comment. -/
theorem wordLine_shown (ha : isName a = true) :
    ¬ wordLine a b c = [] ∧ ¬ strStartsWith (wordLine a b c) ['#'] = true := by
  obtain ⟨d, s, hs, -, hhash⟩ := wordLine_cons (b := b) (c := c) ha
  rw [hs]
  refine ⟨List.cons_ne_nil d s, ?_⟩
  unfold strStartsWith
  simp only [List.isPrefixOf, Bool.and_true, beq_iff_eq]
  exact fun h => hhash h.symm

theorem wordLine_free (ha : isWord a = true) (hb : isWord b = true) (hc : isWord c = true) :
    '\n' ∉ wordLine a b c := by
  have hfree : ∀ s, isWord s = true → '\n' ∉ s :=
    fun s hs hmem => ((isWord_iff.1 hs).2 _ hmem).2 rfl
  unfold wordLine
  simp only [List.mem_append, not_or]
  exact ⟨⟨⟨⟨hfree a ha, by decide⟩, hfree b hb⟩, by decide⟩, hfree c hc⟩

/-- The words of a line that is no comment. -/
theorem words_of_line {line : Str} (hfree : '\n' ∉ line) (h : splitWs (strTrim line) = [a, b, c])
    (hhash : ¬ strStartsWith (strTrim line) ['#'] = true) :
    isName a = true ∧ isWord b = true ∧ isLastWord c = true := by
  have hword : ∀ f ∈ [a, b, c], isWord f = true := by
    intro f hf
    rw [← h] at hf
    obtain ⟨hne, hws⟩ := mem_words hf
    rw [isWord_iff]
    refine ⟨hne, fun d hd => ⟨hws d hd, ?_⟩⟩
    rintro rfl
    exact hfree (mem_strTrim (subset_words hf hd))
  have hnil : strTrim line ≠ [] := by
    intro h0
    unfold splitWs at h
    rw [h0, words_nil] at h
    cases h
  refine ⟨isName_iff.2 ⟨hword a (by simp), ?_⟩, hword b (by simp),
    isLastWord_iff.2 ⟨hword c (by simp), ?_⟩⟩
  · intro d r hd
    obtain ⟨e, s, he⟩ := List.exists_cons_of_ne_nil hnil
    have hspace := strTrim_starts he
    obtain ⟨w, fs, hws⟩ := words_head (s := s) (isWsChar_of_isSpace hspace)
    rw [← he] at hws
    have hfirst : d :: r = e :: w := by
      have hsame := h.symm.trans hws
      rw [← hd]
      exact (List.cons.inj hsame).1
    cases hfirst
    refine ⟨hspace, ?_⟩
    rintro rfl
    apply hhash
    rw [he]
    rfl
  · intro d hd
    have hlast := List.getLast?_eq_some_getLast hnil
    have hspace := strTrim_ends hlast
    obtain ⟨fs, w, hws, hw⟩ := words_last hlast (isWsChar_of_isSpace hspace)
    have hwc : w = c := by
      have hsame := hws.symm.trans h
      have hend := congrArg List.getLast? hsame
      rw [List.getLast?_concat] at hend
      exact Option.some.inj hend
    rw [← hwc, hw] at hd
    cases hd
    exact hspace

/-!
## resid.lock

The pins of a project's version dependencies, a line for each: name, version and content
hash.  Lines that are blank or start with `#` are passed over.

### Algorithm

Reading stops at the first line that is none of these and says which it was.  Writing puts
the entries in the order of their names under a header line.
-/

structure LockEntry where
  name : Str
  version : Str
  sha256 : Str
deriving DecidableEq

/-! ## Reading -/

structure LockParseResult where
  ok : Bool
  err : Str
  entries : List LockEntry
deriving DecidableEq

def lockLineErr (lineno : Nat) : Str :=
  "resid.lock line ".toList ++ intText lineno ++ ": expected '<name> <version> sha256:<hex>'".toList

def lockReject (acc : LockParseResult) (lineno : Nat) : LockParseResult :=
  ⟨false, lockLineErr lineno, acc.entries⟩

def shaTag : Str := "sha256:".toList

def parseLockLine (line : Str) (lineno : Nat) (acc : LockParseResult) : LockParseResult :=
  if !acc.ok then acc
  else
    let t := strTrim line
    if t = [] then acc
    else if strStartsWith t ['#'] then acc
    else
      match splitWs t with
      | [name, version, hash] =>
        if !strStartsWith hash shaTag then lockReject acc lineno
        else ⟨true, [], acc.entries ++ [⟨name, version, strSlice hash 7 (strLen hash)⟩]⟩
      | _ => lockReject acc lineno

/-- Line `i` and those after it. -/
def parseLockAcc : List Str → (i : Nat) → LockParseResult → LockParseResult
  | [], _, acc => acc
  | line :: lines, i, acc => parseLockAcc lines (i + 1) (parseLockLine line (i + 1) acc)

def parseLock (text : Str) : LockParseResult :=
  parseLockAcc (strSplit text ['\n']) 0 ⟨true, [], []⟩

/-! ## Writing -/

def lockentryCmp (a b : LockEntry) : Int := strCmp a.name b.name

/-- Before the first entry it is less than. -/
def insertSortedLe (le : LockEntry) (acc : List LockEntry) : List LockEntry :=
  acc.orderedInsert (fun a b => lockentryCmp a b < 0) le

def sortLockEntries (es : List LockEntry) : List LockEntry :=
  es.foldl (fun acc e => insertSortedLe e acc) []

def lockLine (e : LockEntry) : Str :=
  e.name ++ " ".toList ++ e.version ++ " sha256:".toList ++ e.sha256

def lockHeader : Str := "# resid.lock - generated; dependency content hashes\n".toList

def lockToText (es : List LockEntry) : Str :=
  let lines := (sortLockEntries es).map lockLine
  if lines = [] then lockHeader else lockHeader ++ ['\n'].intercalate lines ++ ['\n']

/-! ## Pins -/

/-- The first entry of that name; one without a name when there is none. -/
def lockGet (entries : List LockEntry) (name : Str) : LockEntry :=
  (entries.find? fun e => e.name == name).getD ⟨[], [], []⟩

def lockHas (entries : List LockEntry) (name : Str) : Bool := (lockGet entries name).name ≠ []

def lockReplace (ne : LockEntry) (entries : List LockEntry) : List LockEntry :=
  entries.map fun cur => if cur.name = ne.name then ne else cur

/-- Replace the entry of that name, or append it if new. -/
def lockSet (entries : List LockEntry) (ne : LockEntry) : List LockEntry :=
  sortLockEntries (if lockHas entries ne.name then lockReplace ne entries else entries ++ [ne])

/-- The entries of the lock file, if there is one. -/
def loadExistingLock (lock : Option Str) : List LockEntry :=
  match lock with
  | some text => (parseLock text).entries
  | none => []

def lookupPin (lock : Option Str) (name : Str) : LockEntry :=
  match lock with
  | none => ⟨[], [], []⟩
  | some _ => lockGet (loadExistingLock lock) name

/-- The lock file's new text. -/
def writeLockEntry (lock : Option Str) (entry : LockEntry) : Str :=
  lockToText (lockSet (loadExistingLock lock) entry)

end Package

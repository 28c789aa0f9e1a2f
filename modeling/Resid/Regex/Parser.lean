import Mathlib.Data.List.Sort
import Mathlib.Data.Nat.Bitwise
import Resid.Runtime.Text

/-!
# Character classes of the regular expressions

A class is a flat list of ranges `lo, hi, lo, hi, …` of codepoints; a normalized one is
sorted and merged.  A codepoint is a number; the text functions of the run time that fold
case above ASCII come in as a `Casing`.
-/

namespace RegexLib

open Runtime

/-! ## Flags -/

def fI : Nat := 1

def fM : Nat := 2

def fS : Nat := 4

def fX : Nat := 8

/-- Is the flag set in `fl`? -/
def hasFlag (fl bit : Nat) : Bool := fl &&& bit != 0

def reMaxCp : Nat := 1114111

/-! ## Case folding -/

/-- `str_to_lower` and `str_to_upper`: the run time's case tables are not modelled. -/
structure Casing where
  lower : Str → Str
  upper : Str → Str

/-- The other case of `c`, or `c`. -/
def reFold (cm : Casing) (c : Nat) : Nat :=
  if 97 ≤ c ∧ c ≤ 122 then c - 32
  else if 65 ≤ c ∧ c ≤ 90 then c + 32
  else if c < 128 then c
  else
    let lo := cm.lower [codeChar c]
    let up := cm.upper [codeChar c]
    if strLen lo = 1 ∧ strCharAt lo 0 ≠ c then (strCharAt lo 0).toNat
    else if strLen up = 1 ∧ strCharAt up 0 ≠ c then (strCharAt up 0).toNat
    else c

/-- `[lo, hi]` meets `[a, b]`: the overlap shifted by `d`. -/
def reFoldSpan (lo hi a b : Nat) (d : Int) (acc : List Nat) : List Nat :=
  let s := if lo > a then lo else a
  let e := if hi < b then hi else b
  if s ≤ e then acc ++ [(s + d).toNat, (e + d).toNat] else acc

/-- The other cases of the `left` codepoints from `c` on. -/
def reFoldEach (cm : Casing) : Nat → Nat → List Nat → List Nat
  | 0, _, acc => acc
  | left + 1, c, acc =>
    let o := reFold cm c
    reFoldEach cm left (c + 1) (if o ≠ c then acc ++ [o, o] else acc)

def reFoldAt (cm : Casing) : List Nat → List Nat → List Nat
  | lo :: hi :: rs, acc =>
    let a1 := reFoldSpan lo hi 97 122 (-32) acc
    let a2 := reFoldSpan lo hi 65 90 32 a1
    let c := if lo < 128 then 128 else lo
    reFoldAt cm rs
      (if hi ≥ 128 ∧ hi - lo ≤ 1024 then reFoldEach cm (hi + 1 - c) c a2 else a2)
  | _, acc => acc

/-- Ranges plus their other-case ranges under `i`. -/
def reFoldRs (cm : Casing) (fl : Nat) (rs : List Nat) : List Nat :=
  if hasFlag fl fI then reFoldAt cm rs rs else rs

/-! ## Normal form -/

def rePack : List Nat → List Nat
  | lo :: hi :: rs => (lo * 4194304 + hi) :: rePack rs
  | _ => []

/-- The packed ranges merged, `cur` the range still open. -/
def reMerge : List Nat → Option (Nat × Nat) → List Nat
  | [], none => []
  | [], some (lo, hi) => [lo, hi]
  | p :: ps, none => reMerge ps (some (p / 4194304, p % 4194304))
  | p :: ps, some (lo, hi) =>
    let a := p / 4194304
    let b := p % 4194304
    if a ≤ hi + 1 then reMerge ps (some (lo, if b > hi then b else hi))
    else lo :: hi :: reMerge ps (some (a, b))

/-- Sorted, merged ranges. -/
def reNorm (rs : List Nat) : List Nat := reMerge ((rePack rs).insertionSort (· ≤ ·)) none

def reNegAt : List Nat → Nat → List Nat
  | lo :: hi :: rs, start => (if lo > start then [start, lo - 1] else []) ++ reNegAt rs (hi + 1)
  | _, start => if start ≤ reMaxCp then [start, reMaxCp] else []

/-- The complement of ranges over all codepoints. -/
def reNegate (rs : List Nat) : List Nat := reNegAt (reNorm rs) 0

def reInRanges : List Nat → Nat → Bool
  | lo :: hi :: rs, c => if c < lo then false else if c ≤ hi then true else reInRanges rs c
  | _, _ => false

/-! ## Named classes -/

def rsDigit : List Nat := [48, 57]

def rsWord : List Nat := [48, 57, 65, 90, 95, 95, 97, 122]

def rsSpace : List Nat := [9, 13, 32, 32]

/-- The ranges of `[:name:]`; none for an unknown name. -/
def rePosix (name : Str) : List Nat :=
  if name = "alpha".toList then [65, 90, 97, 122]
  else if name = "digit".toList then [48, 57]
  else if name = "alnum".toList then [48, 57, 65, 90, 97, 122]
  else if name = "upper".toList then [65, 90]
  else if name = "lower".toList then [97, 122]
  else if name = "space".toList then [9, 13, 32, 32]
  else if name = "blank".toList then [9, 9, 32, 32]
  else if name = "punct".toList then [33, 47, 58, 64, 91, 96, 123, 126]
  else if name = "xdigit".toList then [48, 57, 65, 70, 97, 102]
  else if name = "word".toList then rsWord
  else if name = "cntrl".toList then [0, 31, 127, 127]
  else if name = "print".toList then [32, 126]
  else if name = "graph".toList then [33, 126]
  else []

/-- An ASCII class with its other cases: what `(?i)` makes of `\w` without the digits. -/
example : reNorm (reFoldAt ⟨id, id⟩ [97, 102] [97, 102]) = [65, 70, 97, 102] := by decide

example : reNegate rsSpace = [0, 8, 14, 31, 33, 1114111] := by decide

/-!
## The pattern parser

A recursive descent over the pattern's codepoints.  The parser's state `ReP` is passed
along: the position, the classes, groups and names met so far, the flags in force, the
first error (empty when there is none) and the node built last, absent after a part that
builds none.  The nodes the source keeps in a list and names by index are a tree here.

The mutual recursion counts `fuel` down on every call; `none` is fuel run out, which the
fuel `regex_compile` starts with rules out.
-/

/-! ## Nodes -/

/-- A parsed pattern node.  A repetition without an upper bound has `hi = none`. -/
inductive ReNode where
  | lit (c : Nat)
  | any (nl : Nat)
  | cls (k : Nat)
  | cat (kids : List ReNode)
  | alt (kids : List ReNode)
  | rep (lo : Nat) (hi : Option Nat) (greedy : Bool) (kid : ReNode)
  | grp (idx : Nat) (kid : ReNode)
  | asr (a : Nat)
  | emp

def aBol : Nat := 0

def aEol : Nat := 1

def aBot : Nat := 2

def aEot : Nat := 3

def aWord : Nat := 4

def aNword : Nat := 5

/-! ## State -/

structure ReP where
  src : Str
  n : Nat
  pos : Nat
  cls : List (List Nat)
  ng : Nat
  names : List Str
  fl : Nat
  err : Str
  id : Option ReNode

def rpPos (p : ReP) (pos : Nat) : ReP := { p with pos := pos }

def rpId (p : ReP) (nd : ReNode) : ReP := { p with id := some nd }

def rpFl (p : ReP) (pos fl : Nat) : ReP := { p with pos := pos, fl := fl, id := none }

def rpFail (p : ReP) (pos : Nat) (msg : Str) : ReP :=
  { p with pos := pos, err := msg ++ " at offset ".toList ++ Decimal.text pos, id := none }

def rpAdd (p : ReP) (pos : Nat) (nd : ReNode) : ReP := { p with pos := pos, id := some nd }

/-- A class node over normalized ranges. -/
def rpClass (p : ReP) (pos : Nat) (rs : List Nat) : ReP :=
  rpAdd { p with cls := p.cls ++ [rs] } pos (.cls p.cls.length)

/-- Where `t` occurs in `s` at or after `start`, counted from there; -1 nowhere. -/
def reFindRel (s t : Str) (start : Nat) : Int :=
  let i := strIndexOf s t start
  if i < 0 then -1 else i - start

def rpCh (p : ReP) (i : Nat) : Int := if i < p.n then strCharAt p.src i else -1

/-! ## Messages -/

def errQuantQuant : Str := "a quantifier cannot follow another quantifier".toList

def errCountLimit : Str := "a counted repetition is limited to 1000".toList

def errCountOrder : Str := "a repetition's maximum is below its minimum".toList

def errNothing : Str := "nothing to repeat".toList

def errTrailing : Str := "a pattern cannot end in `\\`".toList

def errBackref : Str := "backreferences are not supported (matching stays linear)".toList

def errLookaround : Str := "lookaround is not supported (matching stays linear)".toList

def errHexHigh : Str := "a codepoint above 10FFFF".toList

def errHexDigits : Str := "a hex escape needs hex digits".toList

def errClassOpen : Str := "an unterminated character class".toList

def errClassRange : Str := "a class shorthand cannot end a range".toList

def errClassOrder : Str := "a range out of order".toList

def errComment : Str := "an unterminated comment".toList

def errNameOpen : Str := "an unterminated group name".toList

def errGroupOpen : Str := "a missing `)`".toList

def errFlag : Str := "an unknown group or flag".toList

def errQuoted (what name : Str) : Str := what ++ name ++ "`".toList

/-! ## Counts and quantifiers -/

/-- A counted repetition's bounds and the position after it. -/
structure ReCount where
  lo : Nat
  hi : Option Nat
  next : Nat

/-- The end of the digits in what is left, at most twelve positions from `start`. -/
def reDigitsEnd (start : Nat) : Str → Nat → Nat
  | [], i => i
  | c :: s, i =>
    if 48 ≤ c.toNat ∧ c.toNat ≤ 57 ∧ i - start < 12 then reDigitsEnd start s (i + 1) else i

/-- `{n}`, `{n,}`, `{n,m}` or `{,m}` at `i`; anything else leaves `{` a literal. -/
def reCountAt (p : ReP) (i : Nat) : Option ReCount :=
  if rpCh p i ≠ 123 then none
  else
    let e1 := reDigitsEnd p.pos (p.src.drop (i + 1)) (i + 1)
    let lo := if e1 > i + 1 then (strParseInt (strSlice p.src (i + 1) e1)).toNat else 0
    let c := rpCh p e1
    if c = 125 then if e1 > i + 1 then some ⟨lo, some lo, e1 + 1⟩ else none
    else if c ≠ 44 then none
    else
      let e2 := reDigitsEnd p.pos (p.src.drop (e1 + 1)) (e1 + 1)
      if rpCh p e2 ≠ 125 then none
      else if e1 = i + 1 ∧ e2 = e1 + 1 then none
      else
        let hi := if e2 > e1 + 1 then some (strParseInt (strSlice p.src (e1 + 1) e2)).toNat
          else none
        some ⟨lo, hi, e2 + 1⟩

/-- Does a quantifier stand at the position? -/
def reQuantHere (p : ReP) : Bool :=
  let c := rpCh p p.pos
  c == 42 || c == 43 || c == 63 || (reCountAt p p.pos).isSome

/-- `re_quant_p` after a quantifier: a second one is refused. -/
def reQuantAfter (p : ReP) : ReP :=
  if reQuantHere p then rpFail p p.pos errQuantQuant else p

/-- The quantifier at the position, if any, on the node just built. -/
def reQuantP (p : ReP) (kid : ReNode) : ReP :=
  if !reQuantHere p then p
  else
    let c := rpCh p p.pos
    let rc := reCountAt p p.pos
    let lo := if c = 43 then 1 else (rc.map (·.lo)).getD 0
    let hi := if c = 63 then some 1 else rc.bind (·.hi)
    let e := (rc.map (·.next)).getD (p.pos + 1)
    if lo > 1000 ∨ hi.any (· > 1000) then rpFail p p.pos errCountLimit
    else if hi.any (· < lo) then rpFail p p.pos errCountOrder
    else
      let lazy := rpCh p e == 63
      let e2 := if lazy then e + 1 else e
      reQuantAfter (rpAdd p e2 (.rep lo hi (!lazy) kid))

/-! ## Literals and escapes -/

/-- A literal, folded into a two-member class under `i`. -/
def reLitP (cm : Casing) (p : ReP) (pos c : Nat) : ReP :=
  let o := if hasFlag p.fl fI then reFold cm c else c
  if o = c then rpAdd p pos (.lit c) else rpClass p pos (reNorm [c, c, o, o])

/-- A parsed escape: a codepoint, class ranges or an assertion, with the position after
it, or what is wrong and where. -/
inductive ReEsc where
  | cp (c next : Nat)
  | rs (rs : List Nat) (next : Nat)
  | asr (a next : Nat)
  | err (msg : Str) (pos : Nat)

def reHex (c : Nat) : Option Nat :=
  if 48 ≤ c ∧ c ≤ 57 then some (c - 48)
  else if 97 ≤ c ∧ c ≤ 102 then some (c - 87)
  else if 65 ≤ c ∧ c ≤ 70 then some (c - 55)
  else none

/-- The hex digits in what is left, up to the closing brace. -/
def reHexBraced : Str → Nat → Nat → ReEsc
  | [], i, _ => .err errHexDigits i
  | c :: s, i, acc =>
    if c.toNat = 125 then if acc > reMaxCp then .err errHexHigh i else .cp acc (i + 1)
    else
      match reHex c.toNat with
      | none => .err errHexDigits i
      | some d => if acc > reMaxCp then .err errHexHigh i else reHexBraced s (i + 1) (acc * 16 + d)

/-- `want` hex digits of what is left. -/
def reHexFixed : Nat → Str → Nat → Nat → ReEsc
  | 0, _, i, acc => .cp acc i
  | _ + 1, [], i, _ => .err errHexDigits i
  | want + 1, c :: s, i, acc =>
    match reHex c.toNat with
    | none => .err errHexDigits i
    | some d => if acc > reMaxCp then .err errHexHigh i
      else reHexFixed want s (i + 1) (acc * 16 + d)

def isAlnum (c : Int) : Bool :=
  (48 ≤ c && c ≤ 57) || (65 ≤ c && c ≤ 90) || (97 ≤ c && c ≤ 122)

/-- The escape at `i` (the backslash); in a class `\b` is a backspace. -/
def reEsc (p : ReP) (i : Nat) (inClass : Bool) : ReEsc :=
  let c := rpCh p (i + 1)
  let nx := i + 2
  if c < 0 then .err errTrailing i
  else if c = 100 then .rs rsDigit nx
  else if c = 68 then .rs (reNegate rsDigit) nx
  else if c = 119 then .rs rsWord nx
  else if c = 87 then .rs (reNegate rsWord) nx
  else if c = 115 then .rs rsSpace nx
  else if c = 83 then .rs (reNegate rsSpace) nx
  else if c = 98 then if inClass then .cp 8 nx else .asr aWord nx
  else if c = 66 ∧ !inClass then .asr aNword nx
  else if c = 65 ∧ !inClass then .asr aBot nx
  else if (c = 122 ∨ c = 90) ∧ !inClass then .asr aEot nx
  else if c = 110 then .cp 10 nx
  else if c = 116 then .cp 9 nx
  else if c = 114 then .cp 13 nx
  else if c = 102 then .cp 12 nx
  else if c = 118 then .cp 11 nx
  else if c = 97 then .cp 7 nx
  else if c = 101 then .cp 27 nx
  else if c = 48 then .cp 0 nx
  else if c = 120 ∧ rpCh p (i + 2) = 123 then reHexBraced (p.src.drop (i + 3)) (i + 3) 0
  else if c = 120 then reHexFixed 2 (p.src.drop (i + 2)) (i + 2) 0
  else if c = 117 then reHexFixed 4 (p.src.drop (i + 2)) (i + 2) 0
  else if 49 ≤ c ∧ c ≤ 57 then .err errBackref i
  else if isAlnum c then .err (errQuoted "unknown escape `\\".toList [codeChar c]) i
  else .cp c.toNat nx

def reEscapeP (cm : Casing) (p : ReP) : ReP :=
  match reEsc p p.pos false with
  | .err msg pos => rpFail p pos msg
  | .asr a next => rpAdd p next (.asr a)
  | .rs rs next => rpClass p next (reNorm (reFoldRs cm p.fl rs))
  | .cp c next => reLitP cm p next c

/-! ## Classes -/

/-- A parsed character class: its ranges and the position after it, or an error. -/
inductive ReCls where
  | ok (rs : List Nat) (next : Nat)
  | err (msg : Str) (pos : Nat)

/-- One member of a class: an escape or the codepoint at `j`. -/
def reMember (p : ReP) (j : Nat) : ReEsc :=
  if rpCh p j = 92 then reEsc p j true else .cp (rpCh p j).toNat (j + 1)

/-- The member or range at `j` and the position after it. -/
def reClassItem (p : ReP) (j : Nat) : ReCls :=
  match reMember p j with
  | .err msg pos => .err msg pos
  | .rs rs next => .ok rs next
  | .asr lo next | .cp lo next =>
    let d2 := rpCh p (next + 1)
    if rpCh p next = 45 ∧ d2 ≥ 0 ∧ d2 ≠ 93 then
      match reMember p (next + 1) with
      | .err msg pos => .err msg pos
      | .rs _ _ | .asr _ _ => .err errClassRange next
      | .cp hi next2 =>
        if hi < lo then .err errClassOrder next else .ok [lo, hi] next2
    else .ok [lo, lo] next

/-- The name of the class `[:name:]` at `j`, when one stands there. -/
def rePosixAt (p : ReP) (j : Nat) : Option (Str × Nat) :=
  if rpCh p j = 91 ∧ rpCh p (j + 1) = 58 then
    let close := reFindRel p.src ":]".toList (j + 2)
    if close ≥ 0 then
      some (strSlice p.src (j + 2) (j + 2 + close.toNat), j + 4 + close.toNat)
    else none
  else none

def reClassItems (p : ReP) : Nat → Nat → Bool → List Nat → Option ReCls
  | 0, _, _, _ => none
  | fuel + 1, j, first, acc =>
    let c := rpCh p j
    if c < 0 then some (.err errClassOpen p.pos)
    else if c = 93 ∧ !first then some (.ok acc (j + 1))
    else
      match rePosixAt p j with
      | some (name, next) =>
        if rePosix name = [] then
          some (.err ("unknown class [:".toList ++ name ++ ":]".toList) j)
        else reClassItems p fuel next false (acc ++ rePosix name)
      | none =>
        match reClassItem p j with
        | .err msg pos => some (.err msg pos)
        | .ok rs next => reClassItems p fuel next false (acc ++ rs)

def reClassP (cm : Casing) (fuel : Nat) (p : ReP) : Option ReP :=
  let i0 := p.pos + 1
  let neg := rpCh p i0 == 94
  match reClassItems p fuel (if neg then i0 + 1 else i0) true [] with
  | none => none
  | some (.err msg pos) => some (rpFail p pos msg)
  | some (.ok rs next) =>
    let rs := reNorm (reFoldRs cm p.fl rs)
    some (rpClass p next (if neg then reNegate rs else rs))

/-! ## Groups -/

/-- A group name: a letter or `_`, then these or digits. -/
def reIdent : Str → Nat → Bool
  | [], i => 0 < i
  | c :: s, i =>
    let k := c.toNat
    (k == 95 || (65 ≤ k && k ≤ 90) || (97 ≤ k && k ≤ 122) || (0 < i && 48 ≤ k && k ≤ 57)) &&
      reIdent s (i + 1)

/-- The flag a letter names; 0 for any other codepoint. -/
def flagBit (c : Int) : Nat :=
  if c = 105 then fI else if c = 109 then fM else if c = 115 then fS
  else if c = 120 then fX else 0

/-- The end of a line comment in what is left. -/
def reLineEnd : Str → Nat → Nat
  | [], i => i
  | c :: s, i => if c.toNat = 10 then i else reLineEnd s (i + 1)

/-- Codepoints skipped under `x`. -/
def isBlank (c : Int) : Bool := c == 32 || c == 9 || c == 10 || c == 13

/-- Where a group body starts: the position, the flags, and the name when it captures. -/
def rpOpen (p : ReP) (start fl : Nat) (capture : Option Str) : ReP :=
  match capture with
  | some name =>
    { p with pos := start, ng := p.ng + 1, names := p.names ++ [name], fl := fl,
             err := [], id := none }
  | none => { p with pos := start, fl := fl, err := [], id := none }

/-- The end of a `cat`: its parts in a row, if there are several. -/
def reCatEnd (p : ReP) : List ReNode → ReP
  | [] => rpAdd p p.pos .emp
  | [nd] => rpId p nd
  | acc => rpAdd p p.pos (.cat acc)

mutual

/-- `alt := cat ('|' cat)*` -/
def reAltP (cm : Casing) : Nat → ReP → List ReNode → Option ReP
  | 0, _, _ => none
  | fuel + 1, p, acc =>
    match reCatP cm fuel p [] with
    | none => none
    | some c =>
      if c.err ≠ [] then some c
      else
        let acc2 := acc ++ c.id.toList
        if rpCh c c.pos = 124 then reAltP cm fuel (rpPos c (c.pos + 1)) acc2
        else if acc2.length = 1 then some c
        else some (rpAdd c c.pos (.alt acc2))

/-- `cat := repeat*`, up to `|`, `)` or the end. -/
def reCatP (cm : Casing) : Nat → ReP → List ReNode → Option ReP
  | 0, _, _ => none
  | fuel + 1, p, acc =>
    let c := rpCh p p.pos
    if c < 0 ∨ c = 124 ∨ c = 41 then some (reCatEnd p acc)
    else if hasFlag p.fl fX ∧ isBlank c then reCatP cm fuel (rpPos p (p.pos + 1)) acc
    else if hasFlag p.fl fX ∧ c = 35 then
      reCatP cm fuel (rpPos p (reLineEnd (p.src.drop p.pos) p.pos)) acc
    else
      match reRepeatP cm fuel p with
      | none => none
      | some r => if r.err ≠ [] then some r else reCatP cm fuel r (acc ++ r.id.toList)

def reRepeatP (cm : Casing) : Nat → ReP → Option ReP
  | 0, _ => none
  | fuel + 1, p =>
    match reAtomP cm fuel p with
    | none => none
    | some a =>
      if a.err ≠ [] then some a
      else
        match a.id with
        | none => some a
        | some kid => some (reQuantP a kid)

def reAtomP (cm : Casing) : Nat → ReP → Option ReP
  | 0, _ => none
  | fuel + 1, p =>
    let i := p.pos
    let c := rpCh p i
    if c = 40 then reGroupP cm fuel p
    else if c = 91 then reClassP cm (p.n + 1) p
    else if c = 46 then some (rpAdd p (i + 1) (.any (if hasFlag p.fl fS then 1 else 0)))
    else if c = 94 then some (rpAdd p (i + 1) (.asr (if hasFlag p.fl fM then aBol else aBot)))
    else if c = 36 then some (rpAdd p (i + 1) (.asr (if hasFlag p.fl fM then aEol else aEot)))
    else if c = 92 then some (reEscapeP cm p)
    else if c = 42 ∨ c = 43 ∨ c = 63 ∨ (reCountAt p i).isSome then some (rpFail p i errNothing)
    else some (reLitP cm p (i + 1) c.toNat)

def reGroupP (cm : Casing) : Nat → ReP → Option ReP
  | 0, _ => none
  | fuel + 1, p =>
    let i := p.pos + 1
    let c := rpCh p (i + 1)
    let c2 := rpCh p (i + 2)
    if rpCh p i ≠ 63 then reGroupBody cm fuel p i p.fl (some [])
    else if c = 58 then reGroupBody cm fuel p (i + 2) p.fl none
    else if c = 35 then
      let close := reFindRel p.src ")".toList i
      if close < 0 then some (rpFail p p.pos errComment)
      else some (rpFl p (i + close.toNat + 1) p.fl)
    else if c = 61 ∨ c = 33 ∨ (c = 60 ∧ (c2 = 61 ∨ c2 = 33)) then
      some (rpFail p p.pos errLookaround)
    else if c = 80 ∧ c2 = 61 then some (rpFail p p.pos errBackref)
    else if c = 60 ∨ (c = 80 ∧ c2 = 60) then
      let ns := if c = 60 then i + 2 else i + 3
      let close := reFindRel p.src ">".toList ns
      if close < 0 then some (rpFail p p.pos errNameOpen)
      else
        let name := strSlice p.src ns (ns + close.toNat)
        if !reIdent name 0 then some (rpFail p ns (errQuoted "a bad group name `".toList name))
        else if name ∈ p.names then
          some (rpFail p ns (errQuoted "a duplicate group name `".toList name))
        else reGroupBody cm fuel p (ns + close.toNat + 1) p.fl (some name)
    else reFlagsP cm fuel p (i + 1) p.fl true

/-- `(?imsx-imsx)` sets flags for the rest of the group; `(?i:...)` scopes them. -/
def reFlagsP (cm : Casing) : Nat → ReP → Nat → Nat → Bool → Option ReP
  | 0, _, _, _, _ => none
  | fuel + 1, p, j, fl, on =>
    let c := rpCh p j
    if c = 41 then some (rpFl p (j + 1) fl)
    else if c = 58 then reGroupBody cm fuel p (j + 1) fl none
    else if c = 45 ∧ on then reFlagsP cm fuel p (j + 1) fl false
    else if flagBit c = 0 then some (rpFail p j errFlag)
    else reFlagsP cm fuel p (j + 1) (if on then fl ||| flagBit c else Nat.ldiff fl (flagBit c)) on

/-- A group's body, `capture` its name when it captures (empty for an unnamed one). -/
def reGroupBody (cm : Casing) : Nat → ReP → Nat → Nat → Option Str → Option ReP
  | 0, _, _, _, _ => none
  | fuel + 1, p, start, fl, capture =>
    match reAltP cm fuel (rpOpen p start fl capture) [] with
    | none => none
    | some b =>
      if b.err ≠ [] then some b
      else if rpCh b b.pos ≠ 41 then some (rpFail b p.pos errGroupOpen)
      else
        let r := { b with pos := b.pos + 1, fl := p.fl, err := [] }
        if capture.isSome then some (rpAdd r r.pos (.grp p.ng (b.id.getD .emp)))
        else some r

end

/-- The parser before the first codepoint: group 0 is the match. -/
def rpStart (pattern : Str) : ReP :=
  { src := pattern, n := strLen pattern, pos := 0, cls := [], ng := 1, names := [[]], fl := 0,
    err := [], id := none }

/-- Fuel for a pattern: seven calls at most between two codepoints. -/
def reFuel (pattern : Str) : Nat := 8 * strLen pattern + 8

def reParse (cm : Casing) (pattern : Str) : Option ReP :=
  reAltP cm (reFuel pattern) (rpStart pattern) []

end RegexLib

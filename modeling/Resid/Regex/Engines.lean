import Mathlib.Data.Finset.Basic
import Resid.Regex.Program

/-!
# The Pike VM

Threads run in priority order, one per instruction and position: `re_add` adds a thread
and what it reaches without consuming, `re_step` moves the threads over one codepoint,
`re_vm` runs them from a position on.

A thread's instruction is always one of the program (`insAt` has no other reading for it);
`re_add` marks an instruction before it follows it, so one more call than there are
instructions is fuel enough.  The run over the text counts the codepoints left down.
-/

namespace RegexLib

open Runtime

/-- A whole DFA's transition tables; `ok` false: use the lazy DFA. -/
structure Tab where
  ok : Bool
  next : List Nat
  flags : List Nat
  start : Nat
  dense : List Nat
  skip : List Nat

/-- A compiled pattern. -/
structure Regex where
  pattern : Str
  prog : List Nat
  fprog : List Nat
  rprog : List Nat
  cls : List (List Nat)
  mask : List Nat
  ngroups : Nat
  names : List Str
  dfa : Bool
  bounds : List Nat
  ascii : List Nat
  ftab : Tab
  rtab : Tab
  fix : Option Nat
  pre : Str
  bits : List Nat

/-! ## Matching one codepoint -/

/-- The instruction at `pc`. -/
def insAt (prog : List Nat) (pc : Nat) : Nat := prog.getD pc (ins oMatch 0 0)

def reClsHas (re : Regex) (k c : Nat) : Bool :=
  if c < 128 then ((re.mask.getD (k * 4 + c / 32) 0) >>> (c % 32)) &&& 1 == 1
  else reInRanges (re.cls.getD k []) c

/-- Does consuming instruction `x` take codepoint `c` (`c < 0`: no codepoint)? -/
def reTakes (re : Regex) (x : Nat) (c : Int) : Bool :=
  if c < 0 then false
  else if insOp x = oChar then (insA x : Int) == c
  else if insOp x = oAny then c != 10 || insA x == 1
  else if insOp x = oCls then reClsHas re (insA x) c.toNat
  else false

def reWord (c : Int) : Bool :=
  c == 95 || (48 ≤ c && c ≤ 57) || (65 ≤ c && c ≤ 90) || (97 ≤ c && c ≤ 122)

/-- Assertion `a` between `prev` and `cur` (-1 at a text end). -/
def reHolds (a : Nat) (prev cur : Int) : Bool :=
  if a = aBot then prev < 0
  else if a = aEot then cur < 0
  else if a = aBol then prev < 0 || prev == 10
  else if a = aEol then cur < 0 || cur == 10
  else if a = aWord then reWord prev != reWord cur
  else reWord prev == reWord cur

def reAt (s : Str) (n : Nat) (i : Int) : Int :=
  if 0 ≤ i ∧ i < n then strCharAt s i.toNat else -1

/-! ## Threads -/

/-- The threads of a step with their group offsets, and the instructions seen. -/
structure ReT where
  threads : List (Nat × List Int)
  seen : Finset Nat

/-- The next threads and the best match's offsets so far. -/
structure ReS where
  nx : ReT
  best : List Int
  found : Bool

def reThreads : ReT := ⟨[], ∅⟩

/-- Add the thread at `pc` and everything it reaches without consuming. -/
def reAdd (prog : List Nat) (prev cur : Int) (i : Nat) : Nat → ReT → Nat → List Int → ReT
  | 0, t, _, _ => t
  | fuel + 1, t, pc, caps =>
    if pc ∈ t.seen then t
    else
      let t1 : ReT := { t with seen := insert pc t.seen }
      let x := insAt prog pc
      if insOp x = oJmp then reAdd prog prev cur i fuel t1 (insA x) caps
      else if insOp x = oSplit then
        reAdd prog prev cur i fuel (reAdd prog prev cur i fuel t1 (insA x) caps) (insB x) caps
      else if insOp x = oSave then
        reAdd prog prev cur i fuel t1 (pc + 1) (caps.set (insA x) i)
      else if insOp x = oAsr then
        if reHolds (insA x) prev cur then reAdd prog prev cur i fuel t1 (pc + 1) caps else t1
      else { t1 with threads := t1.threads ++ [(pc, caps)] }

/-- Fuel for `reAdd`: every call but the last marks an instruction. -/
def addFuel (prog : List Nat) : Nat := prog.length + 1

def reStep (re : Regex) (prog : List Nat) (c c2 : Int) (i : Nat) :
    List (Nat × List Int) → ReS → ReS
  | [], acc => acc
  | (pc, caps) :: ts, acc =>
    let x := insAt prog pc
    if insOp x = oMatch then { acc with best := caps, found := true }
    else if !reTakes re x c then reStep re prog c c2 i ts acc
    else
      let nx := reAdd prog c c2 (i + 1) (addFuel prog) acc.nx (pc + 1) caps
      reStep re prog c c2 i ts { acc with nx := nx }

/-- The threads at `i` with a new one from the start, while no match has been found. -/
def reEnter (prog : List Nat) (s : Str) (n start : Nat) (anchored : Bool) (init : List Int)
    (i : Nat) (cur : ReT) (found : Bool) : ReT :=
  if !found && (!anchored || i == start) then
    reAdd prog (reAt s n (i - 1 : Int)) (reAt s n i) i (addFuel prog) cur 0 init
  else cur

/-- Leftmost-first match from `start` (only there when `anchored`), `left` codepoints left
at `i`: group offsets, or none at all. -/
def reVm (re : Regex) (prog : List Nat) (s : Str) (n start : Nat) (anchored : Bool)
    (init : List Int) : Nat → Nat → ReT → List Int → Bool → List Int
  | 0, i, cur, best, found =>
    let c1 := reEnter prog s n start anchored init i cur found
    (reStep re prog (reAt s n i) (reAt s n (i + 1 : Int)) i c1.threads ⟨reThreads, best, found⟩).best
  | left + 1, i, cur, best, found =>
    let c1 := reEnter prog s n start anchored init i cur found
    if c1.threads = [] then
      if found || anchored then best
      else reVm re prog s n start anchored init left (i + 1) reThreads best found
    else
      let r := reStep re prog (reAt s n i) (reAt s n (i + 1 : Int)) i c1.threads
        ⟨reThreads, best, found⟩
      reVm re prog s n start anchored init left (i + 1) r.nx r.best r.found

def reUnset (k : Nat) : List Int := List.replicate k (-1)

/-- The VM on `s` from `start`. -/
def reRun (re : Regex) (prog : List Nat) (s : Str) (start : Nat) (anchored : Bool) : List Int :=
  reVm re prog s (strLen s) start anchored (reUnset (2 * re.ngroups)) (strLen s - start) start
    reThreads [] false

/-!
## The lazy DFA

States are ordered instruction lists with flags; bit 0: a match ends here, bit 1: new
starts are still allowed.  States are interned under a key text; transitions are cached.
A cache that grows past 2000 states starts over.
-/

structure Dfa where
  states : List (List Nat)
  flags : List Nat
  index : Str → Option Nat
  trans : Nat → Option Nat

def dfaNew : Dfa := ⟨[], [], fun _ => none, fun _ => none⟩

/-- A DFA state id with the cache it was found or added in. -/
structure DfaS where
  st : Nat
  d : Dfa

/-- An ordered instruction list being built, with the instructions already in it. -/
structure ReCl where
  pcs : List Nat
  seen : Finset Nat

def reClNew : ReCl := ⟨[], ∅⟩

/-- Closure of `pc` into an ordered list (no assertions in a DFA program). -/
def reClose (prog : List Nat) : Nat → Nat → ReCl → ReCl
  | 0, _, a => a
  | fuel + 1, pc, a =>
    if pc ∈ a.seen then a
    else
      let a1 : ReCl := { a with seen := insert pc a.seen }
      let x := insAt prog pc
      if insOp x = oJmp then reClose prog fuel (insA x) a1
      else if insOp x = oSplit then reClose prog fuel (insB x) (reClose prog fuel (insA x) a1)
      else if insOp x = oSave then reClose prog fuel (pc + 1) a1
      else { a1 with pcs := a1.pcs ++ [pc] }

def reMatchAt (prog : List Nat) (pcs : List Nat) : Option Nat :=
  pcs.findIdx? fun pc => insOp (insAt prog pc) == oMatch

def keyPcs : List Nat → Str
  | [] => []
  | pc :: pcs => Decimal.text pc ++ ',' :: keyPcs pcs

/-- The text a state is interned under. -/
def reKey (pcs : List Nat) (fl : Nat) : Str := Decimal.text fl ++ ':' :: keyPcs pcs

/-- Intern a state: cut after a match when leftmost-first (`cut`). -/
def dfaIntern (prog : List Nat) (pcs0 : List Nat) (restart cut : Bool) (d : Dfa) : DfaS :=
  let mi := reMatchAt prog pcs0
  let pcs := if cut then match mi with
    | some k => pcs0.take (k + 1)
    | none => pcs0
    else pcs0
  let fl := (if mi.isSome then 1 else 0) + (if restart then 2 else 0)
  let key := reKey pcs fl
  match d.index key with
  | some found => ⟨found, d⟩
  | none =>
    let id := d.states.length
    ⟨id, { d with states := d.states ++ [pcs], flags := d.flags ++ [fl],
                  index := Function.update d.index key (some id) }⟩

def reMove (re : Regex) (prog : List Nat) (c : Nat) : List Nat → ReCl → ReCl
  | [], acc => acc
  | pc :: pcs, acc =>
    reMove re prog c pcs
      (if reTakes re (insAt prog pc) c then reClose prog (addFuel prog) (pc + 1) acc else acc)

def dfaState (d : Dfa) (st : Nat) : List Nat := d.states.getD st []

def dfaFlags (d : Dfa) (st : Nat) : Nat := d.flags.getD st 0

/-- The state after reading a codepoint of input class `k` (uncached). -/
def dfaStep (re : Regex) (prog : List Nat) (d : Dfa) (st k : Nat) (cut : Bool) : DfaS :=
  let c := re.bounds.getD k 0
  let fl := dfaFlags d st
  let restart := hasFlag fl 2 && !hasFlag fl 1
  let moved := reMove re prog c (dfaState d st) reClNew
  let all := if restart then reClose prog (addFuel prog) 0 moved else moved
  dfaIntern prog all.pcs restart cut d

/-!
## Whole tables and bit-parallel search

A DFA with at most 512 states is built whole at compile time; alternatives of one length,
made of ASCII literals and classes, run shift-and instead.  A span found by either is one
word, `start * 2 ^ 32 + end`, computed in checked arithmetic: `none` is an overflow.
-/

open CheckedInt

/-! ## Building the tables -/

def tabNone : Tab := ⟨false, [], [], 0, [], []⟩

def tabLimit : Nat := 512

/-- bit 0 matching; bit 2 stop: dead, or only the match is left (forward). -/
def tabFlag (fwd : Bool) (fl len : Nat) : Nat :=
  let stop := if fwd then (len == 0 && !hasFlag fl 2) || (hasFlag fl 1 && len == 1) else len == 0
  (fl &&& 1) + (if stop then 4 else 0)

def tabFlags (fwd : Bool) (d : Dfa) : List Nat :=
  (List.range d.states.length).map fun st => tabFlag fwd (dfaFlags d st) (dfaState d st).length

/-- States in discovery order, classes in order: the table fills front to back. -/
def tabFill (re : Regex) (prog : List Nat) (fwd : Bool) (d : Dfa) (st k : Nat)
    (next : List Nat) : Tab :=
  if d.states.length > tabLimit then ⟨false, next, d.flags, 0, next, next⟩
  else if st ≥ d.states.length then ⟨true, next, tabFlags fwd d, 0, [], []⟩
  else if k ≥ re.bounds.length then tabFill re prog fwd d (st + 1) 0 next
  else
    let nx := dfaStep re prog d st k fwd
    tabFill re prog fwd nx.d st (k + 1) (next ++ [nx.st])
termination_by (tabLimit + 1 - st, re.bounds.length - k)
decreasing_by
  · exact Prod.Lex.left _ _ (by omega)
  · exact Prod.Lex.right _ (by omega)

def tabBuild (re : Regex) (prog : List Nat) (fwd : Bool) : Tab :=
  let s0 := dfaIntern prog (reClose prog (addFuel prog) 0 reClNew).pcs fwd fwd dfaNew
  tabFill re prog fwd s0.d 0 0 []

/-- A state with its flags in one word. -/
def tabCode (flags : List Nat) (st : Nat) : Nat := st * 1024 + flags.getD st 0

def tabRows (t : Tab) (ascii : List Nat) (nc : Nat) : List Nat :=
  (List.range (t.flags.length * 128)).map fun i =>
    tabCode t.flags (t.next.getD (i / 128 * nc + ascii.getD (i % 128) 0) 0)

def tabSkip (dense : List Nat) (c0 : Nat) : List Nat :=
  (List.range 128).map fun c => if dense.getD c 0 = c0 then 1 else 0

/-- The ASCII rows of a whole table. -/
def tabDense (t : Tab) (ascii : List Nat) (nc : Nat) : Tab :=
  if !t.ok then t
  else
    let dense := tabRows t ascii nc
    let c0 := tabCode t.flags 0
    { t with dense := dense, skip := if c0 &&& 5 = 0 then tabSkip dense c0 else [] }

/-! ## Bit-parallel matching -/

/-- The alternatives of a pattern. -/
def reBitAlts : ReNode → List ReNode
  | .grp _ kid => reBitAlts kid
  | .alt kids => kids
  | nd => [nd]

mutual

/-- The literal and class nodes of a sequence; nothing when there is anything else. -/
def reBitSeq : ReNode → Option (List ReNode)
  | .lit c => some [.lit c]
  | .cls k => some [.cls k]
  | .grp _ kid => reBitSeq kid
  | .cat kids => reBitCat kids
  | _ => none

def reBitCat : List ReNode → Option (List ReNode)
  | [] => some []
  | nd :: kids => do return (← reBitSeq nd) ++ (← reBitCat kids)

end

def reBitClsAscii (rs : List Nat) : Bool :=
  match rs.getLast? with
  | some hi => hi < 128
  | none => false

def reBitAscii (cls : List (List Nat)) : ReNode → Bool
  | .lit c => c < 128
  | .cls k => reBitClsAscii (cls.getD k [])
  | _ => false

/-- Every alternative has length `l` and only ASCII members. -/
def reBitOk (cls : List (List Nat)) (alts : List (List ReNode)) (l : Nat) : Bool :=
  alts.all fun q => q.length == l && q.all (reBitAscii cls)

def reBitHit (cls : List (List Nat)) (c : Nat) : ReNode → Bool
  | .lit a => a == c
  | .cls k => reInRanges (cls.getD k []) c
  | _ => false

def reBitMaskSeq (cls : List (List Nat)) (c : Nat) : List ReNode → Nat → Nat → Nat
  | [], _, acc => acc
  | nd :: q, bit, acc =>
    reBitMaskSeq cls c q (bit + 1) (if reBitHit cls c nd then acc ||| 1 <<< bit else acc)

/-- Bits of the positions codepoint `c` may take. -/
def reBitMask (cls : List (List Nat)) (l c : Nat) : List (List ReNode) → Nat → Nat → Nat
  | [], _, acc => acc
  | q :: alts, a, acc => reBitMask cls l c alts (a + 1) (reBitMaskSeq cls c q (a * l) acc)

/-- Bit `j` of each of `left` alternatives from `a` on. -/
def reBitMarks (l j : Nat) : Nat → Nat → Nat → Nat
  | 0, _, acc => acc
  | left + 1, a, acc => reBitMarks l j left (a + 1) (acc ||| 1 <<< (a * l + j))

/-- The mask per ASCII codepoint, then the start bits and the match bits; empty when the
pattern is not alternatives of equal-length ASCII sequences. -/
def reBitTable (cls : List (List Nat)) (nd : ReNode) : List Nat :=
  match (reBitAlts nd).mapM reBitSeq with
  | none => []
  | some [] => []
  | some (q :: alts) =>
    let all := q :: alts
    let l := q.length
    if l = 0 ∨ all.length * l > 62 ∨ !reBitOk cls all l then []
    else
      (List.range 128).map (fun c => reBitMask cls l c all 0 0) ++
        [reBitMarks l 0 all.length 0 0, reBitMarks l (l - 1) all.length 0 0]

/-! ## Lengths and prefixes -/

/-- A repetition's longest match, from the kid's and the bound. -/
def repLongest (hi : Option Nat) (kid : Option Nat) : Option Nat :=
  if kid = some 0 then some 0
  else match hi, kid with
    | some b, some m => some (b * m)
    | _, _ => none

/-- Longest of two parts in a row. -/
def sumLongest : Option Nat → Option Nat → Option Nat
  | some a, some b => some (a + b)
  | _, _ => none

/-- Longest of either part. -/
def maxLongest : Option Nat → Option Nat → Option Nat
  | some a, some b => some (max a b)
  | _, _ => none

mutual

/-- The shortest and the longest match of a node, the longest absent when unbounded. -/
def reLens : ReNode → Nat × Option Nat
  | .lit _ => (1, some 1)
  | .any _ => (1, some 1)
  | .cls _ => (1, some 1)
  | .cat kids => reLensCat kids
  | .alt kids => reLensAlt kids
  | .grp _ kid => reLens kid
  | .rep lo hi _ kid => (lo * (reLens kid).1, repLongest hi (reLens kid).2)
  | .asr _ => (0, some 0)
  | .emp => (0, some 0)

def reLensCat : List ReNode → Nat × Option Nat
  | [] => (0, some 0)
  | nd :: kids => ((reLens nd).1 + (reLensCat kids).1, sumLongest (reLens nd).2 (reLensCat kids).2)

def reLensAlt : List ReNode → Nat × Option Nat
  | [] => (0, some 0)
  | [nd] => reLens nd
  | nd :: k :: kids =>
    (min (reLens nd).1 (reLensAlt (k :: kids)).1,
      maxLongest (reLens nd).2 (reLensAlt (k :: kids)).2)

end

/-- The length of every match of a node, when they have one. -/
def reFixed (nd : ReNode) : Option Nat :=
  if (reLens nd).2 = some (reLens nd).1 then some (reLens nd).1 else none

mutual

/-- The literal text every match of a node starts with, after `sb`. -/
def rePrefix : ReNode → StrBuf → Str
  | .lit c, sb => finishText (pushChar sb c)
  | .grp _ kid, sb => rePrefix kid sb
  | .cat kids, sb => rePrefixCat kids sb
  | _, sb => finishText sb

def rePrefixCat : List ReNode → StrBuf → Str
  | [], sb => finishText sb
  | .lit c :: kids, sb => rePrefixCat kids (pushChar sb c)
  | .grp _ kid :: kids, sb =>
    -- a group's prefix continues only when the group is all literal
    let g := rePrefix kid []
    if reFixed kid = some (strLen g) then rePrefixCat kids (sb ++ g) else finishText (sb ++ g)
  | _, sb => finishText sb

end

end RegexLib

import Mathlib.Data.List.Basic
import Resid.Runtime.Text

/-!
# DER elements

Two readers over the bytes of one encoding.  The lenient one (`DerTlv`) walks positions, and
a position is -1 where there is nothing; the strict one (`Der`) checks every element against
the bounds of its parent and refuses what is not DER.

    (derSibling b e parent).ok → e.next + 2 ≤ (derSibling b e parent).next   (next_sibling)
    derElements b parent = derWalk b parent (parent.len + 1 + k) (derChild b parent)
                                                                           (derElements_eq)

## Algorithm

A scan of the source steps from an element to its sibling until the last one of the parent;
here it runs over `derElements`, the elements in that order.  The last of them is the last of
the parent or malformed.
-/

namespace X509

open Runtime

/-- The bits `m` of a byte. -/
def band (a : Int) (m : Nat) : Nat := a.toNat &&& m

/-- Byte `i`, 0 past the end. -/
def at0 (b : List Int) (i : Nat) : Int := b.getD i 0

/-- Bytes `i` to `j`, `j` excluded. -/
def range (b : List Int) (i j : Nat) : List Int := (b.take j).drop i

/-! ## The lenient reader -/

/-- An element; `valLen` is negative when it is malformed. -/
structure DerTlv where
  tag : Int
  cls : Nat
  hdrLen : Int
  valLen : Int

def derClsOf (tag : Int) : Nat := (tag.toNat >>> 6) &&& 3

/-- The big-endian number `bs`, after `acc`. -/
def derReadLenAcc (bs : List Int) (acc : Nat) : Nat :=
  match bs with
  | [] => acc
  | x :: bs => derReadLenAcc bs (acc * 256 + x.toNat)

def derReadLen (data : List Int) (pos : Int) : Int :=
  let n : Int := (data.length : Int) - 1
  if pos < 0 ∨ pos > n then -1
  else
    let b0 := at0 data pos.toNat
    if b0 < 128 then b0
    else if b0 = 128 then -1
    else
      let cnt := b0 - 128
      if cnt > 4 then -1
      else if pos + cnt > n then -1
      else derReadLenAcc (range data (pos.toNat + 1) (pos.toNat + cnt.toNat + 1)) 0

def derHdrLen (data : List Int) (pos : Int) : Int :=
  if pos < 0 ∨ pos ≥ data.length then 1
  else
    let b0 := at0 data pos.toNat
    if b0 < 128 then 1 else b0 - 128 + 1

def derNext (data : List Int) (pos : Int) : DerTlv :=
  if pos < 0 ∨ pos > (data.length : Int) - 1 then ⟨0, 0, 0, -1⟩
  else
    let tag := at0 data pos.toNat
    let len := derReadLen data (pos + 1)
    if len < 0 then ⟨tag, derClsOf tag, 0, -1⟩
    else
      let hlen := derHdrLen data (pos + 1) + 1
      if pos + hlen + len > data.length then ⟨tag, derClsOf tag, 0, -1⟩
      else ⟨tag, derClsOf tag, hlen, len⟩

def derIsSeq (data : List Int) (pos : Int) (wantTag : Nat) : Bool :=
  let t := derNext data pos
  if t.valLen < 0 then false else t.cls == 0 && band t.tag 31 == wantTag

def derContentPos (data : List Int) (pos : Int) : Int :=
  let t := derNext data pos
  if t.valLen < 0 then -1 else pos + t.hdrLen

/-- Bytes `start` to `stop`, both included; none when that is not inside the input. -/
def derSliceSeeded (data : List Int) (start stop : Int) : List Int :=
  if start < 0 ∨ stop ≥ data.length ∨ stop < start then []
  else range data start.toNat (stop.toNat + 1)

def derContent (data : List Int) (pos : Int) : List Int :=
  let t := derNext data pos
  if t.valLen < 0 then []
  else derSliceSeeded data (pos + t.hdrLen) (pos + t.hdrLen + t.valLen - 1)

/-- Just past the element at `pos`. -/
def x509SkipTlv (data : List Int) (pos : Int) : Int :=
  let t := derNext data pos
  if t.valLen < 0 then -1 else pos + t.hdrLen + t.valLen

/-- The text of one byte; a NUL is no text. -/
def strFromCode (b : Int) : Str := finishText [codeChar b]

/-- Bytes as text, a codepoint for each. -/
def derStrAcc (c : List Int) : Str := c.flatMap strFromCode

def derStrValue (data : List Int) (pos : Int) : Str := derStrAcc (derContent data pos)

/-! ## Object identifiers -/

/-- The arcs of `c` after `acc`; nothing when one passes 2^56. -/
def oidRest (c : List Int) (acc : Str) (accv : Nat) (inarc : Bool) : Str :=
  match c with
  | [] => if inarc then acc ++ '.' :: intText accv else acc
  | byte :: c =>
    let cont := band byte 128
    let low := byte.toNat - cont
    if accv > 562949953421311 then []
    else
      let v := accv * 128 + low
      if cont > 0 then oidRest c acc v true
      else oidRest c (acc ++ '.' :: intText v) 0 false

/-- The first subidentifier of `c`, and the octets after it. -/
def oidFirst (c : List Int) (acc : Nat) : Option (Nat × List Int) :=
  match c with
  | [] => none
  | byte :: c =>
    if acc > 562949953421311 then none
    else
      let v := acc * 128 + band byte 127
      if band byte 128 = 0 then some (v, c) else oidFirst c v

def derOidStr (data : List Int) (pos : Int) : Str :=
  let c := derContent data pos
  if c.length = 0 then []
  else if band (c.getLastD 0) 128 ≠ 0 then []
  else
    match oidFirst c 0 with
    | none => []
    | some (v, rest) =>
      let head :=
        if v < 80 then intText (v / 40 : Nat) ++ '.' :: intText (v % 40 : Nat)
        else "2.".toList ++ intText ((v : Int) - 80)
      oidRest rest head 0 false

/-! ## The strict reader -/

/-- An element, its first octet at `pos`, its content from `start`, the next one at `next`. -/
structure Der where
  ok : Bool
  tag : Int
  pos : Nat
  start : Nat
  len : Nat
  next : Nat
  deriving DecidableEq

def derBad : Der := ⟨false, 0, 0, 0, 0, 0⟩

def derFit (tag : Int) (pos start len lim : Nat) : Der :=
  if start + len > lim then derBad else ⟨true, tag, pos, start, len, start + len⟩

/-- The element at `pos`, which must end at or before `stop`: one-octet tag, definite length
in its shortest form. -/
def derAt (b : List Int) (pos stop : Nat) : Der :=
  let lim := min stop b.length
  if pos + 2 > lim then derBad
  else
    let tag := at0 b pos
    if band tag 31 = 31 then derBad
    else
      let l0 := at0 b (pos + 1)
      if l0 < 128 then derFit tag pos (pos + 2) l0.toNat lim
      else
        let cnt := (l0 - 128).toNat
        if cnt = 0 ∨ cnt > 4 ∨ pos + 2 + cnt > lim then derBad
        else if at0 b (pos + 2) = 0 then derBad
        else
          let len := derReadLenAcc (range b (pos + 2) (pos + 2 + cnt)) 0
          if len < 128 then derBad else derFit tag pos (pos + 2 + cnt) len lim

def derEnd (d : Der) : Nat := d.start + d.len

def derChild (b : List Int) (parent : Der) : Der :=
  if !parent.ok || band parent.tag 32 == 0 then derBad else derAt b parent.start (derEnd parent)

def derSibling (b : List Int) (prev parent : Der) : Der :=
  if !prev.ok || !parent.ok then derBad else derAt b prev.next (derEnd parent)

def derIsLast (d parent : Der) : Bool := d.ok && parent.ok && d.next == derEnd parent

def derTop (b : List Int) : Der :=
  let d := derAt b 0 b.length
  if !d.ok || d.next != b.length then derBad else d

def derValue (b : List Int) (d : Der) : List Int := if d.ok then range b d.start d.next else []

def derEncoded (b : List Int) (d : Der) : List Int := if d.ok then range b d.pos d.next else []

/-- The bytes of a non-negative INTEGER, without its sign octet. -/
def derUint (b : List Int) (d : Der) : Option (List Int) :=
  if !d.ok || d.tag != 2 || d.len < 1 then none
  else if at0 b d.start ≥ 128 then none
  else if d.len > 1 && at0 b d.start == 0 && at0 b (d.start + 1) < 128 then none
  else some (range b (if at0 b d.start == 0 && d.len > 1 then d.start + 1 else d.start) d.next)

/-- A small non-negative INTEGER, or -1. -/
def derSmallUint (b : List Int) (d : Der) : Int :=
  match derUint b d with
  | some v => if v.length > 7 then -1 else derReadLenAcc v 0
  | none => -1

/-- No arc starts with 0x80, and none is longer than eight octets. -/
def derOidArcsOk (c : List Int) (run : Nat) : Bool :=
  match c with
  | [] => true
  | x :: c =>
    if run = 0 ∧ x = 128 then false
    else if run ≥ 8 then false
    else derOidArcsOk c (if band x 128 = 0 then 0 else run + 1)

/-- An OBJECT IDENTIFIER as dotted decimal, empty when it is malformed. -/
def derOid (b : List Int) (d : Der) : Str :=
  if !d.ok || d.tag != 6 || d.len < 1 || d.len > 64 then []
  else
    let c := range b d.start d.next
    if band (c.getLastD 0) 128 ≠ 0 then []
    else if !derOidArcsOk c 0 then []
    else
      let b0 := at0 c 0
      if b0 ≥ 128 then []
      else
        let arc1 : Int := if b0 < 40 then 0 else if b0 < 80 then 1 else 2
        oidRest (c.drop 1) (intText arc1 ++ '.' :: intText (b0 - arc1 * 40)) 0 false

/-- The contents of a BIT STRING with no unused bits. -/
def derBits (b : List Int) (d : Der) : Option (List Int) :=
  if !d.ok || d.tag != 3 || d.len < 1 || at0 b d.start != 0 then none
  else some (range b (d.start + 1) d.next)

/-- `e` and the elements of `parent` after it, `fuel` of them at most. -/
def derWalk (b : List Int) (parent : Der) : Nat → Der → List Der
  | 0, _ => []
  | fuel + 1, e =>
    if !e.ok || derIsLast e parent then [e] else e :: derWalk b parent fuel (derSibling b e parent)

/-- The elements of `parent`; each takes two octets at least. -/
def derElements (b : List Int) (parent : Der) : List Der :=
  derWalk b parent (parent.len + 1) (derChild b parent)

/-! ## Where elements end -/

theorem of_derFit {tag : Int} {pos start len lim : Nat} (h : (derFit tag pos start len lim).ok) :
    start + len ≤ lim ∧ derFit tag pos start len lim = ⟨true, tag, pos, start, len, start + len⟩ := by
  unfold derFit at h ⊢
  by_cases hlim : start + len > lim
  · rw [if_pos hlim] at h
    cases h
  · rw [if_neg hlim]
    exact ⟨by omega, rfl⟩

/-- An element read at `pos` ends past its header and inside its bounds. -/
theorem derAt_next {b : List Int} {pos stop : Nat} (h : (derAt b pos stop).ok = true) :
    pos + 2 ≤ (derAt b pos stop).next ∧ (derAt b pos stop).next ≤ stop := by
  have key : ∀ {tag : Int} {start len : Nat}, pos + 2 ≤ start →
      (derFit tag pos start len (min stop b.length)).ok = true →
      pos + 2 ≤ (derFit tag pos start len (min stop b.length)).next ∧
        (derFit tag pos start len (min stop b.length)).next ≤ stop := by
    intro tag start len hs hf
    obtain ⟨hle, heq⟩ := of_derFit hf
    rw [heq]
    exact ⟨by show pos + 2 ≤ start + len; omega, le_trans hle (min_le_left _ _)⟩
  revert h
  unfold derAt
  simp only
  split_ifs <;> intro h
  all_goals first
    | (exact key (by omega) h)
    | (cases h)

theorem next_sibling {b : List Int} {e parent : Der} (h : (derSibling b e parent).ok = true) :
    e.next + 2 ≤ (derSibling b e parent).next ∧
      (derSibling b e parent).next ≤ derEnd parent := by
  revert h
  unfold derSibling
  split_ifs
  · intro h
    cases h
  · exact derAt_next

/-- A malformed element ends a walk at once. -/
theorem derWalk_bad {b : List Int} {parent e : Der} {n : Nat} (hn : n ≠ 0) (h : e.ok = false) :
    derWalk b parent n e = [e] := by
  obtain ⟨m, rfl⟩ := Nat.exists_eq_succ_of_ne_zero hn
  rw [derWalk, h]
  rfl

/-- A walk long enough for the octets that are left is not cut short. -/
theorem derWalk_fuel {b : List Int} {parent : Der} {k : Nat} :
    ∀ {n : Nat} {e : Der}, derEnd parent - e.next + 1 < n →
      derWalk b parent n e = derWalk b parent (n + k) e := by
  intro n
  induction n with
  | zero => intro e h; omega
  | succ n ih =>
    intro e h
    rw [Nat.succ_add, derWalk, derWalk]
    by_cases hstop : (!e.ok || derIsLast e parent) = true
    · rw [if_pos hstop, if_pos hstop]
    · rw [if_neg hstop, if_neg hstop]
      by_cases hs : (derSibling b e parent).ok = true
      · have hnext := next_sibling hs
        rw [ih (by omega)]
      · rw [Bool.not_eq_true] at hs
        rw [derWalk_bad (by omega) hs, derWalk_bad (by omega) hs]

/-- The elements of a parent are all of them, however long the walk may be. -/
theorem derElements_eq (b : List Int) (parent : Der) (k : Nat) :
    derElements b parent = derWalk b parent (parent.len + 1 + k) (derChild b parent) := by
  unfold derElements
  by_cases hc : (derChild b parent).ok = true
  · apply derWalk_fuel
    have hnext : parent.start + 2 ≤ (derChild b parent).next ∧
        (derChild b parent).next ≤ derEnd parent := by
      revert hc
      unfold derChild
      split_ifs
      · intro hc
        cases hc
      · exact derAt_next
    unfold derEnd at hnext ⊢
    omega
  · rw [Bool.not_eq_true] at hc
    rw [derWalk_bad (by omega) hc, derWalk_bad (by omega) hc]

end X509

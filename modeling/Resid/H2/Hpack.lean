import Resid.H2.Huffman

/-!
# Header blocks

A block is a row of fields, read at a position and added to the fields so far: an entry of the
static or the dynamic table, a literal, or a size update, which is read and not acted on.  Entries
are texts `name=value`, newest first, and none is ever dropped.

    (hpReadInt b pos first mask).bad = false → pos ≤ (hpReadInt b pos first mask).next
                                                                          (le_next_hpReadInt)
    (hpReadStr b pos).bad = false → pos < (hpReadStr b pos).next          (lt_next_hpReadStr)
    hpField b pos dyn accf = .go p d f → pos < p                          (lt_of_hpField)

## Algorithm

One field is read by `hpField`, which either ends the block or goes on at a later position.
-/

namespace H2

open Runtime

/-! ## Integers and strings -/

structure HpInt where
  val : Nat
  next : Nat
  bad : Bool

/-- Continuation octets from `pos`, at most 28 bits up. -/
def hpIntCont (b : List UInt8) (pos acc m : Nat) : HpInt :=
  if pos ≥ b.length ∨ m > 28 then ⟨0, pos, true⟩
  else
    let byte := (b.getD pos 0).toNat
    let cont := byte &&& 128
    let low := byte - cont
    let step := acc + low * 2 ^ m
    if cont = 0 then ⟨step, pos, false⟩ else hpIntCont b (pos + 1) step (m + 7)
termination_by 29 - m

/-- An integer whose first octet stands at `pos`, its prefix the bits of `pfxmask`. -/
def hpReadInt (b : List UInt8) (pos first pfxmask : Nat) : HpInt :=
  let v := first &&& pfxmask
  if v < pfxmask then ⟨v, pos, false⟩ else hpIntCont b (pos + 1) v 0

/-- Octets `i` to `stop` as a text, both included. -/
def h2BsAcc (b : List UInt8) (stop i : Nat) (sb : StrBuf) : Str :=
  if i > stop then finishText sb else h2BsAcc b stop (i + 1) (pushChar sb (b.getD i 0).toNat)
termination_by stop + 1 - i

def h2BytesStr (b : List UInt8) (start stop : Nat) : Str := h2BsAcc b stop start []

structure HpStr where
  s : Str
  next : Nat
  huffman : Bool
  bad : Bool

def hpReadStr (b : List UInt8) (pos : Nat) : HpStr :=
  if pos ≥ b.length then ⟨[], pos, false, true⟩
  else
    let first := (b.getD pos 0).toNat
    let huf : Bool := first ≥ 128
    let li := hpReadInt b pos first 127
    if li.bad then ⟨[], li.next, huf, true⟩
    else if li.next + 1 + li.val > b.length then ⟨[], li.next, huf, true⟩
    else if huf then
      let hd := hpHuffStr b (li.next + 1) li.val
      ⟨hd.s, li.next + 1 + li.val, true, hd.bad⟩
    else
      let start := li.next + 1
      let stop := li.next + li.val
      if stop ≥ b.length then ⟨[], start, false, true⟩
      else ⟨h2BytesStr b start stop, stop + 1, false, false⟩

/-! ## Tables -/

def staticTable : List String :=
  [":authority", ":method=GET", ":method=POST", ":path=/", ":path=/index.html", ":scheme=http",
   ":scheme=https", ":status=200", ":status=204", ":status=206", ":status=304", ":status=400",
   ":status=404", ":status=500", "accept-charset", "accept-encoding=gzip, deflate",
   "accept-language", "accept-ranges", "accept", "access-control-allow-origin", "age", "allow",
   "authorization", "cache-control", "content-disposition", "content-encoding",
   "content-language", "content-length", "content-location", "content-range", "content-type",
   "cookie", "date", "etag", "expect", "expires", "from", "host", "if-match", "if-modified-since",
   "if-none-match", "if-range", "if-unmodified-since", "last-modified", "link", "location",
   "max-forwards", "proxy-authenticate", "proxy-authorization", "range", "referer", "refresh",
   "retry-after", "server", "set-cookie", "strict-transport-security", "transfer-encoding",
   "user-agent", "vary", "via", "www-authenticate"]

/-- Entry `i` of the static table, from 1 on; no text out of range. -/
def hpStatic (i : Nat) : Str :=
  if i = 0 then [] else ((staticTable[i - 1]?).getD "").toList

/-- The first index from `i` on of codepoint `c`, or -1. -/
def h2FindChar (s : Str) (c : Int) (i : Nat) : Int :=
  if i ≥ strLen s then -1
  else if strCharAt s i = c then i
  else h2FindChar s c (i + 1)
termination_by strLen s - i

def hpStaticName (ent : Str) : Str :=
  let eq := h2FindChar ent 61 0
  if eq < 0 then ent else strSlice ent 0 eq.toNat

def hpStaticVal (ent : Str) : Str :=
  let eq := h2FindChar ent 61 0
  if eq < 0 then [] else strSlice ent (eq.toNat + 1) (strLen ent)

/-- The text at an index of both tables: static ones first, then the dynamic ones from 62 on. -/
def hpLookup (idx : Nat) (dyn : List Str) : Str :=
  if idx ≥ 1 ∧ idx ≤ 61 then hpStatic idx
  else if idx < 62 ∨ idx - 62 ≥ dyn.length then []
  else dyn.getD (idx - 62) []

def hpInsert (dyn : List Str) (ent : Str) : List Str := [ent] ++ dyn

def hpMaybeInsert (incidx : Bool) (dyn : List Str) (ent : Str) : List Str :=
  if incidx then hpInsert dyn ent else dyn

/-! ## Fields -/

structure HpField where
  name : Str
  value : Str
  deriving DecidableEq

structure HpBlock where
  fields : List HpField
  next : Nat
  dyn : List Str
  bad : Bool
  deriving DecidableEq

/-- What reading one field comes to: the block ends, or goes on at `pos`. -/
inductive HpStep where
  | stop (r : HpBlock)
  | go (pos : Nat) (dyn : List Str) (fields : List HpField)

/-- A literal, its name new or that of an entry. -/
def hpLiteral (b : List UInt8) (pos : Nat) (dyn : List Str) (accf : List HpField)
    (pfxmask first : Nat) (incidx : Bool) : HpStep :=
  let ni := hpReadInt b pos first pfxmask
  if ni.bad then .stop ⟨accf, ni.next, dyn, true⟩
  else
    let ns := hpReadStr b (ni.next + 1)
    let ent := hpLookup ni.val dyn
    let newname : Bool := ni.val = 0
    let name := if newname then ns.s else hpStaticName ent
    let aftername := if newname then ns.next else ni.next + 1
    let namebad : Bool := if newname then ns.bad else ent = []
    if namebad then .stop ⟨accf, aftername, dyn, true⟩
    else
      let vs := hpReadStr b aftername
      if vs.bad then .stop ⟨accf, vs.next, dyn, true⟩
      else
        .go vs.next (hpMaybeInsert incidx dyn (name ++ '=' :: vs.s)) (accf ++ [⟨name, vs.s⟩])

/-- The field at `pos`, by the high bits of its first octet. -/
def hpField (b : List UInt8) (pos : Nat) (dyn : List Str) (accf : List HpField) : HpStep :=
  let first := (b.getD pos 0).toNat
  if first ≥ 128 then
    let ii := hpReadInt b pos first 127
    if ii.bad ∨ ii.val = 0 then .stop ⟨accf, ii.next, dyn, true⟩
    else
      let ent := hpLookup ii.val dyn
      if ent = [] then .stop ⟨accf, ii.next, dyn, true⟩
      else .go (ii.next + 1) dyn (accf ++ [⟨hpStaticName ent, hpStaticVal ent⟩])
  else if first ≥ 64 then hpLiteral b pos dyn accf 63 first true
  else if first ≥ 32 then
    let si := hpReadInt b pos first 31
    if si.bad then .stop ⟨accf, si.next, dyn, true⟩ else .go (si.next + 1) dyn accf
  else hpLiteral b pos dyn accf 15 first false

/-! ## Positions -/

variable {b : List UInt8} {pos : Nat}

theorem le_next_hpIntCont {acc m : Nat} (h : (hpIntCont b pos acc m).bad = false) :
    pos ≤ (hpIntCont b pos acc m).next := by
  induction hn : 29 - m using Nat.strong_induction_on generalizing pos acc m with
  | _ n ih =>
    rw [hpIntCont] at h ⊢
    simp only at h ⊢
    split_ifs at h ⊢ with hend hlast
    · exact Nat.le_refl pos
    · have hnext := ih (29 - (m + 7)) (by omega) h rfl
      omega

theorem le_next_hpReadInt {first pfxmask : Nat} (h : (hpReadInt b pos first pfxmask).bad = false) :
    pos ≤ (hpReadInt b pos first pfxmask).next := by
  unfold hpReadInt at h ⊢
  simp only at h ⊢
  split_ifs at h ⊢
  · exact Nat.le_refl pos
  · exact (Nat.le_succ pos).trans (le_next_hpIntCont h)

theorem lt_next_hpReadStr (h : (hpReadStr b pos).bad = false) : pos < (hpReadStr b pos).next := by
  unfold hpReadStr at h ⊢
  simp only at h ⊢
  split_ifs at h ⊢ with hend hbad
  all_goals
    rw [Bool.not_eq_true] at hbad
    have hle := le_next_hpReadInt hbad
  · show pos < (hpReadInt b pos (b.getD pos 0).toNat 127).next + 1 + _
    omega
  · show pos < (hpReadInt b pos (b.getD pos 0).toNat 127).next + _ + 1
    omega

theorem lt_of_hpLiteral {p pfxmask first : Nat} {dyn d : List Str} {accf f : List HpField}
    {incidx : Bool} (h : hpLiteral b pos dyn accf pfxmask first incidx = .go p d f) : pos < p := by
  unfold hpLiteral at h
  simp only at h
  by_cases hint : (hpReadInt b pos first pfxmask).bad = true
  · rw [if_pos hint] at h
    cases h
  rw [if_neg hint] at h
  rw [Bool.not_eq_true] at hint
  have hname := le_next_hpReadInt hint
  split_ifs at h with hnew hns hvs hns hvs
  · rw [Bool.not_eq_true] at hns hvs
    have h1 := lt_next_hpReadStr hns
    have h2 := lt_next_hpReadStr hvs
    simp only [HpStep.go.injEq] at h
    omega
  · rw [Bool.not_eq_true] at hvs
    have h2 := lt_next_hpReadStr hvs
    simp only [HpStep.go.injEq] at h
    omega

theorem lt_of_hpField {p : Nat} {dyn d : List Str} {accf f : List HpField}
    (h : hpField b pos dyn accf = .go p d f) : pos < p := by
  unfold hpField at h
  simp only at h
  split_ifs at h with hidx hbad hent hlit hsize hbad'
  · rw [not_or, Bool.not_eq_true] at hbad
    have hle := le_next_hpReadInt hbad.1
    simp only [HpStep.go.injEq] at h
    omega
  · exact lt_of_hpLiteral h
  · rw [Bool.not_eq_true] at hbad'
    have hle := le_next_hpReadInt hbad'
    simp only [HpStep.go.injEq] at h
    omega
  · exact lt_of_hpLiteral h

/-- The fields of a block from `pos` to `stop`, `stop` included. -/
def hpDecodeBlock (b : List UInt8) (pos : Nat) (stop : Int) (dyn : List Str)
    (accf : List HpField) : HpBlock :=
  if pos > stop then ⟨accf, pos, dyn, false⟩
  else if pos ≥ b.length then ⟨accf, pos, dyn, true⟩
  else
    match _h : hpField b pos dyn accf with
    | .stop r => r
    | .go p d f => hpDecodeBlock b p stop d f
termination_by b.length - pos
decreasing_by
  have hlt := lt_of_hpField _h
  omega

end H2

import Resid.Cbor.Integer
import Resid.Cbor.Skip
import Resid.Cbor.Utf8

/-!
# The readers

The decoder's verbs, one function each.  A verb reads a head, checks that it is of its type, and
reads what the head promises.  The top frame of the open containers says what is left of a
container or of a string that is read piece by piece.

    cdNext kind …    the next piece of an open string      (cdStrNext, cdBytesNext)
    cdPartNext kind  whether a container goes on           (cdSeqNext, cdMapNext)
    Verb.run v d     the state after the verb `v`
-/

namespace Cbor

open Runtime Serial CheckedInt

/-! ## Open containers -/

def cdPush (d : CborDec) (f : CbFrame) : CborDec := cdAt d d.pos (d.opened ++ [f])

def cdPop (d : CborDec) : CborDec := cdAt d d.pos d.opened.dropLast

/-- The frame with `n` in place of its count. -/
def CbFrame.moved (n : Int) : CbFrame → CbFrame
  | .arr _ => .arr n
  | .map _ => .map n
  | .str _ => .str n
  | .byt _ => .byt n

def cdSetLeft (d : CborDec) (n : Int) : CborDec :=
  match d.opened.getLast? with
  | none => d
  | some f => cdAt d d.pos (d.opened.dropLast ++ [f.moved n])

/-- How many parts the top frame has left, when it is of the kind asked for. -/
structure CbLeft where
  n : Int
  ok : Bool
  why : Str

def cbMiss (why : Str) : CbLeft := ⟨0, false, why⟩

/-- Kinds: 4 array, 5 map, 3 text string, 2 byte string. -/
def cdLeft (d : CborDec) (kind : Nat) : CbLeft :=
  match d.opened.getLast? with
  | none => cbMiss "no container is open".toList
  | some (.arr x) => if kind = 4 then ⟨x, true, []⟩ else cbMiss "no sequence is open".toList
  | some (.map x) => if kind = 5 then ⟨x, true, []⟩ else cbMiss "no map is open".toList
  | some (.str x) => if kind = 3 then ⟨x, true, []⟩ else cbMiss "no string is open".toList
  | some (.byt x) => if kind = 2 then ⟨x, true, []⟩ else cbMiss "no byte string is open".toList

/-- The top frame's kind, 0 when nothing is open. -/
def cdTopKind (d : CborDec) : Nat :=
  match d.opened.getLast? with
  | none => 0
  | some (.arr _) => 4
  | some (.map _) => 5
  | some (.str _) => 3
  | some (.byt _) => 2

/-! ## Scalars -/

def cdUnit (d : CborDec) : Read CborDec := do
  let h ← cdReadHead d "null".toList
  let head := h.value
  if head.mt ≠ 7 ∨ head.ai ≥ 20 ∧ head.ai ≠ 22 ∧ head.ai ≠ 23 then
    .err (invalidType "null".toList (cbHeadName head))
  else .ok h.rest

def cdBool (d : CborDec) : Read (Parsed Bool CborDec) := do
  let h ← cdReadHead d "a boolean".toList
  let head := h.value
  if head.mt ≠ 7 ∨ head.ai ≠ 20 ∧ head.ai ≠ 21 then
    .err (invalidType "a boolean".toList (cbHeadName head))
  else .ok ⟨head.ai = 21, h.rest⟩

/-- Major types 0 and 1, and the simple values 0..19. -/
def cdInt (d : CborDec) : Read (Parsed Int CborDec) := do
  let h ← cdReadHead d "an integer".toList
  let head := h.value
  if head.mt = 7 then
    if head.ai > 19 then .err (invalidType "an integer".toList (cbHeadName head))
    else .ok ⟨head.ai, h.rest⟩
  else if head.mt = 1 then
    if head.arg > 9223372036854775807 then do
      let mag ← .checked (FixedWidth.addChk 64 head.arg 1)
      .err (invalidValue ('-' :: Decimal.text mag) "an Int".toList)
    else do
      let arg ← toInt 64 head.arg
      let neg ← .checked (sub 64 0 arg)
      let v ← .checked (sub 64 neg 1)
      pure ⟨v, h.rest⟩
  else if head.mt ≠ 0 then .err (invalidType "an integer".toList (cbHeadName head))
  else if head.arg > 9223372036854775807 then
    .err (invalidValue (Decimal.text head.arg) "an Int".toList)
  else do
    let v ← toInt 64 head.arg
    pure ⟨v, h.rest⟩

def cdUint (d : CborDec) : Read (Parsed Nat CborDec) := do
  let h ← cdReadHead d "an unsigned integer".toList
  let head := h.value
  if head.mt = 7 then
    if head.ai > 19 then .err (invalidType "an unsigned integer".toList (cbHeadName head))
    else .ok ⟨head.ai, h.rest⟩
  else if head.mt ≠ 0 then .err (invalidType "an unsigned integer".toList (cbHeadName head))
  else .ok ⟨head.arg, h.rest⟩

def cdBignumU128 (d : CborDec) : Read (Parsed Nat CborDec) := cdBignum d

def cdU128 (d : CborDec) : Read (Parsed Nat CborDec) := do
  let h ← cdReadHead d "an unsigned 128-bit integer".toList
  let head := h.value
  if head.mt = 0 then .ok ⟨head.arg, h.rest⟩
  else if head.mt = 6 ∧ head.arg = 2 then cdBignumU128 h.rest
  else .err (invalidType "an unsigned 128-bit integer".toList (cbHeadName head))

/-! ## Strings -/

/-- The next chunk of an indefinite text, and the state past it. -/
def strChunk (d : CborDec) : Read (Parsed Str CborDec) := do
  let h ← cdReadHead d "a string chunk".toList
  let own := h.value
  if own.mt ≠ 3 ∨ own.ai = 31 then
    .err (syntaxError "a text string chunk must be a definite-length text string".toList)
  else do
    let len ← cbFitArg own.arg h.rest
    if len < 0 then .err (eofError "a string chunk".toList)
    else do
      let s ← cbStrAt h.rest.input.val h.rest.pos (h.rest.pos + len.toNat) "a string chunk".toList
      pure ⟨s, cdTake h.rest len.toNat⟩

theorem strChunk_ok {d : CborDec} {r : Parsed Str CborDec} (hok : strChunk d = .ok r) :
    r.rest.input = d.input ∧ d.pos < r.rest.pos ∧ d.pos < d.input.val.length := by
  obtain ⟨h, hread, hok⟩ := Outcome.bind_ok.1 hok
  obtain ⟨hin, hpos, hlt⟩ := cdReadHead_ok hread
  simp only at hok
  split_ifs at hok
  obtain ⟨len, -, hok⟩ := Outcome.bind_ok.1 hok
  split_ifs at hok
  obtain ⟨s, -, hok⟩ := Outcome.bind_ok.1 hok
  cases hok
  refine ⟨hin, ?_, hlt⟩
  show d.pos < h.rest.pos + len.toNat
  omega

/-- The chunks of an indefinite text in order, after what is in the builder. -/
def cdStrChunks (d : CborDec) (b : StrBuf) : Read (Parsed Str CborDec) :=
  if cbAtBreak d then .ok ⟨finishText b, cdTake d 1⟩
  else
    match _hc : strChunk d with
    | .err e => .err e
    | .trap => .trap
    | .ok c => cdStrChunks c.rest (b ++ c.value)
termination_by d.input.val.length - d.pos
decreasing_by
  obtain ⟨hin, hpos, hlt⟩ := strChunk_ok _hc
  rw [hin]
  omega

def cdStr (d : CborDec) : Read (Parsed Str CborDec) := do
  let h ← cdReadHead d "a string".toList
  let head := h.value
  if head.mt ≠ 3 then .err (invalidType "a string".toList (cbHeadName head))
  else if head.ai = 31 then cdStrChunks h.rest []
  else do
    let len ← cbFitArg head.arg h.rest
    if len < 0 then .err (eofError "a string".toList)
    else if h.rest.pos + len.toNat > h.rest.input.val.length then .err (eofError "a string".toList)
    else do
      let s ← cbStrAt h.rest.input.val h.rest.pos (h.rest.pos + len.toNat) "a string".toList
      pure ⟨s, cdTake h.rest len.toNat⟩

/-- `acc` and the number of codepoints from `i` to `stop`. -/
def cbCpCountAt (bs : List UInt8) (i stop acc : Nat) (what : Str) : Read Nat :=
  if i ≥ stop then .ok acc
  else
    match _h : cbCpAt bs i what with
    | .err e => .err e
    | .trap => .trap
    | .ok c => cbCpCountAt bs c.next stop (acc + 1) what
termination_by stop - i
decreasing_by
  have hlt := lt_next_cbCpAt _h
  omega

def cbCpCount (bs : List UInt8) (i stop : Nat) (what : Str) : Read Nat :=
  cbCpCountAt bs i stop 0 what

def cdStrBegin (d : CborDec) : Read (Parsed Int CborDec) := do
  let h ← cdReadHead d "a string".toList
  let head := h.value
  if head.mt ≠ 3 then .err (invalidType "a string".toList (cbHeadName head))
  else if head.ai = 31 then .ok ⟨-1, cdPush h.rest (.str (-1))⟩
  else do
    let len ← cbFitArg head.arg h.rest
    if len < 0 then .err (eofError "a string".toList)
    else do
      let n ← cbCpCount h.rest.input.val h.rest.pos (h.rest.pos + len.toNat) "a string".toList
      pure ⟨n, cdPush h.rest (.str len)⟩

def cdBytesBegin (d : CborDec) : Read (Parsed Int CborDec) := do
  let h ← cdReadHead d "bytes".toList
  let head := h.value
  if head.mt ≠ 2 then .err (invalidType "bytes".toList (cbHeadName head))
  else if head.ai = 31 then .ok ⟨-1, cdPush h.rest (.byt (-1))⟩
  else do
    let len ← cbFitArg head.arg h.rest
    if len < 0 then .err (eofError "bytes".toList) else pure ⟨len, cdPush h.rest (.byt len)⟩

theorem length_cdPop {d : CborDec} {kind : Nat} (h : (cdLeft d kind).ok = true) :
    (cdPop d).opened.length < d.opened.length := by
  show d.opened.dropLast.length < d.opened.length
  have hne : d.opened ≠ [] := by
    intro hnil
    unfold cdLeft at h
    rw [hnil] at h
    cases h
  have hpos := List.length_pos_iff.2 hne
  rw [List.length_dropLast]
  omega

theorem cdChunkHead_opened {d : CborDec} {mt : Nat} {what : Str} {c : Parsed CbChunk CborDec}
    (hok : cdChunkHead d mt what = .ok c) : c.rest.opened = d.opened := by
  obtain ⟨h, -, hok⟩ := Outcome.bind_ok.1 hok
  split_ifs at hok
  obtain ⟨len, -, hok⟩ := Outcome.bind_ok.1 hok
  split_ifs at hok
  cases hok
  rfl

/-- The next piece of the open string of a kind, or -1 at its end: `one` reads a piece where some
are left, and the chunks of an indefinite string are opened one after another. -/
def cdNext (kind : Nat) (frame : Int → CbFrame) (what : Str)
    (one : CborDec → Int → Read (Parsed Int CborDec)) (d : CborDec) : Read (Parsed Int CborDec) :=
  let left := cdLeft d kind
  if _hok : left.ok = false then .err (customError left.why)
  else if left.n ≥ 0 then
    if left.n = 0 then
      -- a definite piece ends: an indefinite string around it goes on
      let d1 := cdPop d
      if cdTopKind d1 = kind then cdNext kind frame what one d1 else .ok ⟨-1, d1⟩
    else one d left.n
  else if cbAtBreak d then .ok ⟨-1, cdTake (cdPop d) 1⟩
  else
    match _hc : cdChunkHead d kind what with
    | .err e => .err e
    | .trap => .trap
    | .ok c =>
      if c.value.len = 0 then cdNext kind frame what one c.rest
      else cdNext kind frame what one (cdPush c.rest (frame c.value.len))
termination_by 2 * (d.input.val.length - d.pos) + d.opened.length
decreasing_by
  · have hlt := length_cdPop (Bool.not_eq_false _ ▸ _hok)
    show 2 * (d.input.val.length - d.pos) + (cdPop d).opened.length < _
    omega
  · obtain ⟨hin, hpos, hlt⟩ := cdChunkHead_pos _hc
    have hopen := cdChunkHead_opened _hc
    rw [hin, hopen]
    omega
  · obtain ⟨hin, hpos, hlt⟩ := cdChunkHead_pos _hc
    have hopen := cdChunkHead_opened _hc
    show 2 * (c.rest.input.val.length - c.rest.pos) + (c.rest.opened ++ [_]).length < _
    rw [hin, hopen, List.length_append, List.length_singleton]
    omega

/-- The codepoint at the read position, of a text with `n` bytes left. -/
def strOne (d : CborDec) (n : Int) : Read (Parsed Int CborDec) := do
  let c ← cbCpAt d.input.val d.pos "a string".toList
  pure ⟨c.cp, cdSetLeft (cdTake d (c.next - d.pos)) (n - (c.next - d.pos : Nat))⟩

def cdStrNext (d : CborDec) : Read (Parsed Int CborDec) :=
  cdNext 3 .str "a string chunk".toList strOne d

/-- The byte at the read position, of a byte string with `n` left. -/
def byteOne (d : CborDec) (n : Int) : Read (Parsed Int CborDec) :=
  if d.pos ≥ d.input.val.length then .err (eofError "bytes".toList)
  else do
    let b ← .checked d.input.val[d.pos]?
    pure ⟨b.toNat, cdSetLeft (cdTake d 1) (n - 1)⟩

def cdBytesNext (d : CborDec) : Read (Parsed Int CborDec) :=
  cdNext 2 .byt "a byte string chunk".toList byteOne d

/-! ## Options -/

/-- null, or undefined, is no value; anything else is one, left unread. -/
def cdOption (d : CborDec) : Read (Parsed Bool CborDec) := do
  let h ← cdPeekHead d d.pos "an option".toList
  if h.mt = 7 ∧ (h.ai = 22 ∨ h.ai = 23) then .ok ⟨false, cdTake d 1⟩ else .ok ⟨true, d⟩

/-! ## Sequences and maps -/

/-- A definite length in entries, or -1 when the head said indefinite. -/
def cdContainerBegin (d : CborDec) (mt : Nat) (what : Str) : Read (Parsed Int CborDec) := do
  let h ← cdReadHead d what
  let head := h.value
  let frame := fun n => if mt = 4 then CbFrame.arr n else CbFrame.map n
  if head.mt ≠ mt then .err (invalidType what (cbHeadName head))
  else if head.ai = 31 then .ok ⟨-1, cdPush h.rest (frame (-1))⟩
  else do
    let len ← cbFitArg head.arg h.rest
    if len < 0 then .err (eofError what) else pure ⟨len, cdPush h.rest (frame len)⟩

def cdSeqBegin (d : CborDec) : Read (Parsed Int CborDec) :=
  cdContainerBegin d 4 "a sequence".toList

def cdMapBegin (d : CborDec) : Read (Parsed Int CborDec) := cdContainerBegin d 5 "a map".toList

/-- An indefinite container's next part, or the break that ends it. -/
def cdIndefiniteNext (d : CborDec) : Read (Parsed Bool CborDec) :=
  if cbAtBreak d then .ok ⟨false, cdTake (cdPop d) 1⟩ else .ok ⟨true, d⟩

/-- Whether the open container of a kind has a part left. -/
def cdPartNext (d : CborDec) (kind : Nat) : Read (Parsed Bool CborDec) :=
  let left := cdLeft d kind
  if left.ok = false then .err (customError left.why)
  else if left.n ≥ 0 then
    if left.n = 0 then .ok ⟨false, cdPop d⟩ else .ok ⟨true, cdSetLeft d (left.n - 1)⟩
  else cdIndefiniteNext d

def cdSeqNext (d : CborDec) : Read (Parsed Bool CborDec) := cdPartNext d 4

def cdMapNext (d : CborDec) : Read (Parsed Bool CborDec) := cdPartNext d 5

def cdMapValue (d : CborDec) : Read CborDec := .ok d

/-! ## Structs -/

def cdStructBegin (d : CborDec) : Read CborDec := do
  let n ← cdContainerBegin d 5 "a struct".toList
  pure n.rest

def cdFieldKey (d : CborDec) (fields : List Str) : Read (Parsed FieldKey CborDec) := do
  let h ← cdReadHead d "a field name".toList
  let head := h.value
  if head.mt ≠ 3 ∨ head.ai = 31 then .err (invalidType "a field name".toList (cbHeadName head))
  else do
    let len ← cbFitArg head.arg h.rest
    if len < 0 then .err (eofError "a field name".toList)
    else do
      let s ← cbStrAt h.rest.input.val h.rest.pos (h.rest.pos + len.toNat) "a field name".toList
      let key := if nameIndex fields s < 0 then .unknownField s
        else .knownField (nameIndex fields s)
      pure ⟨key, cdTake h.rest len.toNat⟩

/-- The next field's key, matched against the names the type knows. -/
def cdField (d : CborDec) (fields : List Str) : Read (Parsed FieldKey CborDec) :=
  let left := cdLeft d 5
  if left.ok = false then .err (customError left.why)
  else if left.n ≥ 0 then
    if left.n = 0 then .ok ⟨.endOfFields, cdPop d⟩
    else cdFieldKey (cdSetLeft d (left.n - 1)) fields
  else if cbAtBreak d then .ok ⟨.endOfFields, cdTake (cdPop d) 1⟩
  else cdFieldKey d fields

/-! ## Variants -/

def unsupported (what : Str) : SerialError :=
  serialError .errUnsupported (what ++ " is not supported by this format".toList)

def cbFieldName : FieldKey → Str
  | .unknownField n => n
  | .knownField _ => []
  | .endOfFields => []

def cdPayloads (d : CborDec) (n : Int) : CborDec := ⟨d.input, d.pos, d.opened, n, d.vmaps⟩

def cdVmaps (d : CborDec) (n : Int) : CborDec := ⟨d.input, d.pos, d.opened, d.payloads, n⟩

/-- The variant's name behind a head that is no tag: a text, or the key of a map of one entry. -/
def variantNameBehind (h : Parsed CbHead CborDec) : Read (Parsed Str CborDec) :=
  let head := h.value
  if head.mt = 3 then
    if head.ai = 31 then .err (unsupported "an indefinite variant name".toList)
    else do
      let len ← cbFitArg head.arg h.rest
      if len < 0 then .err (eofError "a variant name".toList)
      else do
        let s ← cbStrAt h.rest.input.val h.rest.pos (h.rest.pos + len.toNat) "a variant name".toList
        pure ⟨s, cdTake h.rest len.toNat⟩
  else if head.mt ≠ 5 then .err (invalidType "an enum variant".toList (cbHeadName head))
  else if head.ai ≠ 31 ∧ head.arg = 0 then
    .err (syntaxError "a variant map has no name".toList)
  else do
    let len ← if head.ai = 31 then pure (-1) else cbFitArg head.arg h.rest
    if len = -1 ∧ head.ai ≠ 31 then .err (eofError "a variant".toList)
    else do
      let d1 := cdPush h.rest (if head.ai = 31 then .map (-1) else .map len)
      let key ← cdField d1 []
      -- the key used one entry; the payload is the one the variant owes
      let left := if head.ai = 31 then -1 else len - 1
      let d2 := cdSetLeft key.rest left
      let vmaps ← .checked (add 64 d2.vmaps 1)
      let payloads ← .checked (add 64 d2.payloads 1)
      pure ⟨cbFieldName key.value, cdPayloads (cdVmaps d2 vmaps) payloads⟩

/-- A semantic tag is transparent: the variant it wraps names itself. -/
def cdVariantNameAt (d : CborDec) : Read (Parsed Str CborDec) :=
  match _h : cdReadHead d "an enum variant".toList with
  | .err e => .err e
  | .trap => .trap
  | .ok h =>
    if h.value.mt = 6 ∧ h.value.arg ≠ 2 ∧ h.value.arg ≠ 3 then cdVariantNameAt h.rest
    else variantNameBehind h
termination_by d.input.val.length - d.pos
decreasing_by
  obtain ⟨hin, hpos, hlt⟩ := cdReadHead_ok _h
  rw [hin]
  omega

def cdVariant (d : CborDec) (variants : List Str) : Read (Parsed Int CborDec) := do
  let n ← cdVariantNameAt d
  let idx := nameIndex variants n.value
  if idx < 0 then .err (unknownVariant n.value variants) else pure ⟨idx, n.rest⟩

def cdVariantName (d : CborDec) : Read (Parsed VariantName CborDec) := do
  let n ← cdVariantNameAt d
  pure ⟨⟨[], -1, n.value, n.rest.payloads > 0⟩, n.rest⟩

/-- The value follows, and the variant's map stays open. -/
def cdVariantPayload (d : CborDec) : Read CborDec :=
  if d.payloads < 1 then
    .err (customError "read_variant_payload without a payload".toList)
  else .ok (cdPayloads d (d.payloads - 1))

def cdVariantUnit (d : CborDec) : Read CborDec :=
  if d.payloads > 0 then
    .err (customError "read_variant_unit on a variant with a payload".toList)
  else .ok d

/-- Close a variant's map. -/
def cdVariantEnd (d : CborDec) : Read CborDec :=
  if d.payloads > 0 then .err (customError "read_variant_end before the payload".toList)
  else if d.vmaps < 1 then .ok d
  else
    let left := cdLeft d 5
    if left.ok = false then .err (customError left.why)
    else if left.n < 0 then
      if cbAtBreak d = false then
        .err (syntaxError "a variant map has more than one entry".toList)
      else .ok (cdVmaps (cdTake (cdPop d) 1) (d.vmaps - 1))
    else if left.n ≠ 0 then .err (syntaxError "a variant map has more than one entry".toList)
    else .ok (cdVmaps (cdPop d) (d.vmaps - 1))

/-! ## Untyped reads -/

/-- A tag decides: tags 2 and 3 are the bignums, any other tag a variant. -/
def cbPeekKind (head : CbHead) : Peek :=
  if head.mt = 0 then .uint
  else if head.mt = 1 then .int
  else if head.mt = 2 then .bytes
  else if head.mt = 3 then .str
  else if head.mt = 4 then .seq
  else if head.mt = 5 then .map
  else if head.mt = 6 then
    if head.arg = 2 then .u128 else if head.arg = 3 then .i128 else .variant
  else if head.ai = 20 ∨ head.ai = 21 then .bool
  else if head.ai = 22 ∨ head.ai = 23 then .none
  else if head.ai = 25 ∨ head.ai = 26 ∨ head.ai = 27 then .float
  else .int

/-- What comes next, not consumed. -/
def cdPeek (d : CborDec) : Read (Parsed Peek CborDec) := do
  let h ← cdPeekHead d d.pos "a value".toList
  pure ⟨cbPeekKind h, d⟩

def cdEnd (d : CborDec) : Read CborDec :=
  if d.pos < d.input.val.length then
    .err (trailingInput (intText (d.input.val.length - d.pos : Nat) ++ " byte(s)".toList))
  else .ok d

/-! ## The verbs -/

inductive Verb
  | unit | bool | int | uint | i128 | u128 | str | bytes | option
  | strBegin | strNext | bytesBegin | bytesNext
  | seqBegin | seqNext | mapBegin | mapNext | mapValue | structBegin
  | field (fields : List Str)
  | variant (variants : List Str)
  | variantName | variantUnit | variantPayload | variantEnd
  | skip | peek | stop

/-- The state after what was read. -/
def after {T : Type} (x : Read (Parsed T CborDec)) : Read CborDec := do
  let p ← x
  pure p.rest

def Verb.run : Verb → CborDec → Read CborDec
  | .unit, d => cdUnit d
  | .bool, d => after (cdBool d)
  | .int, d => after (cdInt d)
  | .uint, d => after (cdUint d)
  | .i128, d => after (cdI128 d)
  | .u128, d => after (cdU128 d)
  | .str, d => after (cdStr d)
  | .bytes, d => after (cdBytes d)
  | .option, d => after (cdOption d)
  | .strBegin, d => after (cdStrBegin d)
  | .strNext, d => after (cdStrNext d)
  | .bytesBegin, d => after (cdBytesBegin d)
  | .bytesNext, d => after (cdBytesNext d)
  | .seqBegin, d => after (cdSeqBegin d)
  | .seqNext, d => after (cdSeqNext d)
  | .mapBegin, d => after (cdMapBegin d)
  | .mapNext, d => after (cdMapNext d)
  | .mapValue, d => cdMapValue d
  | .structBegin, d => cdStructBegin d
  | .field fields, d => after (cdField d fields)
  | .variant variants, d => after (cdVariant d variants)
  | .variantName, d => after (cdVariantName d)
  | .variantUnit, d => cdVariantUnit d
  | .variantPayload, d => cdVariantPayload d
  | .variantEnd, d => cdVariantEnd d
  | .skip, d => cdSkip d
  | .peek, d => after (cdPeek d)
  | .stop, d => cdEnd d

end Cbor

import Resid.Runtime.Fixed
import Resid.Value.Generic

/-!
# The value decoder

The state is a stack of tokens: values still to read, and the end markers pushed when a
compound is opened, with its parts above its marker and the first part on top.

    vdSeqBegin (tkVal (.vSeq xs) :: rest) = xs.map tkVal ++ tkSeqEnd :: rest    (vdSeqBegin_seq)
-/

namespace Serial

open Runtime

/-! ## The state -/

/-- A string being pulled codepoint by codepoint, and where it is. -/
structure StrAt where
  s : Str
  i : Nat

structure BytesAt where
  bs : List (IntN 64)
  i : Nat

/-- A value still to read, or a compound's marker. -/
inductive VdTok
  | tkVal (v : Value)
  | tkSeqEnd
  | tkMapEnd
  | tkStructEnd
  | tkName (n : Str)
  | tkUnitMark
  | tkPayloadMark
  | tkVariantEnd
  | tkStrAt (sa : StrAt)
  | tkBytesAt (ba : BytesAt)

/-- The tokens still to read, next token on top. -/
structure VDec where
  stack : List VdTok

def valueDecoder (v : Value) : VDec := ⟨[.tkVal v]⟩

/-! ## Tokens -/

def vdPush (d : VDec) (t : VdTok) : VDec := ⟨t :: d.stack⟩

def tokKind : VdTok → Str
  | .tkVal v => valueKind v
  | .tkSeqEnd => "the end of a sequence".toList
  | .tkMapEnd => "the end of a map".toList
  | .tkStructEnd => "the end of a struct".toList
  | .tkName _ => "a field name".toList
  | .tkUnitMark => "a unit variant".toList
  | .tkPayloadMark => "a variant payload".toList
  | .tkVariantEnd => "the end of a variant".toList
  | .tkStrAt _ => "the rest of a string".toList
  | .tkBytesAt _ => "the rest of some bytes".toList

structure VdPop where
  tok : VdTok
  rest : VDec

def vdPop (d : VDec) (expected : Str) : Result VdPop :=
  match d.stack with
  | [] => .error (eofError expected)
  | top :: below => .ok ⟨top, ⟨below⟩⟩

/-- The next value token, or an error naming what was there. -/
def vdValue (d : VDec) (expected : Str) : Result (Parsed Value VDec) := do
  let p ← vdPop d expected
  match p.tok with
  | .tkVal v => parsed v p.rest
  | t => .error (invalidType expected (tokKind t))

def tokRank : VdTok → Nat
  | .tkVal _ => 0
  | .tkSeqEnd => 1
  | .tkMapEnd => 2
  | .tkStructEnd => 3
  | .tkName _ => 4
  | .tkUnitMark => 5
  | .tkPayloadMark => 6
  | .tkVariantEnd => 7
  | .tkStrAt _ => 8
  | .tkBytesAt _ => 9

def tokSame (a b : VdTok) : Bool := tokRank a == tokRank b

/-- Consume one marker token. -/
def vdMark (d : VDec) (want : VdTok) (expected : Str) : Result VDec := do
  let p ← vdPop d expected
  if !tokSame p.tok want then .error (invalidType expected (tokKind p.tok)) else .ok p.rest

/-- Is the top token this marker? -/
def vdAt (d : VDec) (want : VdTok) : Bool :=
  match d.stack with
  | [] => false
  | top :: _ => tokSame top want

/-! ## Scalars -/

def vdUnit (d : VDec) : Result VDec := do
  let p ← vdValue d "unit".toList
  match p.value with
  | .vUnit => .ok p.rest
  | .vNone => .ok p.rest
  | v => .error (invalidType "unit".toList (valueKind v))

def vdBool (d : VDec) : Result (Parsed Bool VDec) := do
  let p ← vdValue d "a boolean".toList
  match p.value with
  | .vBool b => parsed b p.rest
  | v => .error (invalidType "a boolean".toList (valueKind v))

/-- Why an integer read failed: out of range, or not an integer at all. -/
def vdIntError (v : Value) (expected : Str) : SerialError :=
  match asWideUint v with
  | some u => invalidValue (intText u.val) expected
  | none => invalidType expected (valueKind v)

/-- Integers read across width and signedness when the value fits. -/
def vdInt (d : VDec) : Result (Parsed (IntN 64) VDec) := do
  let p ← vdValue d "an integer".toList
  match asWideInt p.value with
  | some w =>
    match IntN.ofInt? 64 w.val with
    | some i => parsed i p.rest
    | none => .error (invalidValue (intText w.val) "an Int".toList)
  | none => .error (vdIntError p.value "an integer".toList)

def vdUint (d : VDec) : Result (Parsed (UIntN 64) VDec) := do
  let p ← vdValue d "an unsigned integer".toList
  match asWideUint p.value with
  | some u =>
    match UIntN.ofInt? 64 u.val with
    | some x => parsed x p.rest
    | none => .error (invalidValue (intText u.val) "a UInt".toList)
  | none =>
    match asWideInt p.value with
    | some neg => .error (invalidValue (intText neg.val) "a non-negative integer".toList)
    | none => .error (invalidType "an unsigned integer".toList (valueKind p.value))

def vdI128 (d : VDec) : Result (Parsed (IntN 128) VDec) := do
  let p ← vdValue d "a 128-bit integer".toList
  match asWideInt p.value with
  | some w => parsed w p.rest
  | none => .error (vdIntError p.value "an Int(128)".toList)

def vdU128 (d : VDec) : Result (Parsed (UIntN 128) VDec) := do
  let p ← vdValue d "an unsigned 128-bit integer".toList
  match asWideUint p.value with
  | some u => parsed u p.rest
  | none =>
    match asWideInt p.value with
    | some neg => .error (invalidValue (intText neg.val) "a non-negative integer".toList)
    | none => .error (invalidType "an unsigned 128-bit integer".toList (valueKind p.value))

def vdFloat (d : VDec) : Result (Parsed Float VDec) := do
  let p ← vdValue d "a float".toList
  match p.value with
  | .vFloat f => parsed f p.rest
  | .vInt i => parsed (Int64.ofInt i.val).toFloat p.rest
  | .vUInt u => parsed (UInt64.ofNat u.val).toFloat p.rest
  | v => .error (invalidType "a float".toList (valueKind v))

def vdStr (d : VDec) : Result (Parsed Str VDec) := do
  let p ← vdValue d "a string".toList
  match p.value with
  | .vStr s => parsed s p.rest
  | v => .error (invalidType "a string".toList (valueKind v))

/-! ## Bytes and streams -/

/-- The value as a byte, or -1. -/
def byteOf (x : Value) : Int :=
  let wide := match asWideInt x with
    | some w => w.val
    | none => -1
  if wide ≥ 0 ∧ wide ≤ 255 then wide else -1

def vdBytesFromSeq : List Value → List (IntN 64) → VDec → Result (Parsed (List (IntN 64)) VDec)
  | [], acc, rest => parsed acc rest
  | x :: xs, acc, rest =>
    if h : 0 ≤ byteOf x ∧ byteOf x ≤ 255 then
      vdBytesFromSeq xs (acc ++ [⟨byteOf x, by rw [CheckedInt.fits_64]; omega⟩]) rest
    else .error (invalidType "a byte".toList (valueKind x))

def vdBytes (d : VDec) : Result (Parsed (List (IntN 64)) VDec) := do
  let p ← vdValue d "bytes".toList
  match p.value with
  | .vBytes bs => parsed bs p.rest
  | .vSeq xs => vdBytesFromSeq xs [] p.rest
  | v => .error (invalidType "bytes".toList (valueKind v))

/-- What a stream answers at its end. -/
def streamEnd : IntN 64 := ⟨-1, by decide⟩

def vdStrBegin (d : VDec) : Result (Parsed Int VDec) := do
  let p ← vdStr d
  parsed (strLen p.value) (vdPush p.rest (.tkStrAt ⟨p.value, 0⟩))

/-- The codepoint under the cursor, or -1 with the cursor gone. -/
def vdStrNext (d : VDec) : Result (Parsed (IntN 64) VDec) := do
  let p ← vdPop d "the rest of a string".toList
  match p.tok with
  | .tkStrAt sa =>
    match sa.s[sa.i]? with
    | some c => parsed (charCode c) (vdPush p.rest (.tkStrAt ⟨sa.s, sa.i + 1⟩))
    | none => parsed streamEnd p.rest
  | t => .error (invalidType "the rest of a string".toList (tokKind t))

def vdBytesBegin (d : VDec) : Result (Parsed Int VDec) := do
  let p ← vdBytes d
  parsed p.value.length (vdPush p.rest (.tkBytesAt ⟨p.value, 0⟩))

def vdBytesNext (d : VDec) : Result (Parsed (IntN 64) VDec) := do
  let p ← vdPop d "the rest of some bytes".toList
  match p.tok with
  | .tkBytesAt ba =>
    match ba.bs[ba.i]? with
    | some b => parsed b (vdPush p.rest (.tkBytesAt ⟨ba.bs, ba.i + 1⟩))
    | none => parsed streamEnd p.rest
  | t => .error (invalidType "the rest of some bytes".toList (tokKind t))

/-! ## Compounds -/

/-- None and unit read as absent, `Some(x)` as present with `x` next; any other value is
present and itself next. -/
def vdOption (d : VDec) : Result (Parsed Bool VDec) := do
  let p ← vdValue d "an option".toList
  match p.value with
  | .vNone => parsed false p.rest
  | .vUnit => parsed false p.rest
  | .vSome x => parsed true (vdPush p.rest (.tkVal x))
  | v => parsed true (vdPush p.rest (.tkVal v))

/-- The last element is pushed first, so the first ends on top. -/
def vdPushValues (d : VDec) : List Value → VDec
  | [] => d
  | x :: xs => vdPush (vdPushValues d xs) (.tkVal x)

def vdPushEntries (d : VDec) : List VEntry → VDec
  | [] => d
  | e :: es => vdPush (vdPush (vdPushEntries d es) (.tkVal e.val)) (.tkVal e.key)

def vdPushFields (d : VDec) : List VField → VDec
  | [] => d
  | f :: fs => vdPush (vdPush (vdPushFields d fs) (.tkVal f.val)) (.tkName f.name)

/-- String-keyed map entries read as struct fields. -/
def vdPushMapFields (d : VDec) : List VEntry → Result VDec
  | [] => .ok d
  | e :: es => do
    let d1 ← vdPushMapFields d es
    match asStr e.key with
    | some k => .ok (vdPush (vdPush d1 (.tkVal e.val)) (.tkName k))
    | none => .error (invalidType "a string field name".toList (valueKind e.key))

def vdSeqBegin (d : VDec) : Result (Parsed Int VDec) := do
  let p ← vdValue d "a sequence".toList
  match p.value with
  | .vSeq xs => parsed xs.length (vdPushValues (vdPush p.rest .tkSeqEnd) xs)
  | v => .error (invalidType "a sequence".toList (valueKind v))

def vdSeqNext (d : VDec) : Result (Parsed Bool VDec) :=
  if vdAt d .tkSeqEnd then do
    let d1 ← vdMark d .tkSeqEnd "the end of a sequence".toList
    parsed false d1
  else parsed true d

def fieldsAsEntries (fs : List VField) : List VEntry := fs.map fun f => ⟨.vStr f.name, f.val⟩

def vdMapBegin (d : VDec) : Result (Parsed Int VDec) := do
  let p ← vdValue d "a map".toList
  match p.value with
  | .vMap es => parsed es.length (vdPushEntries (vdPush p.rest .tkMapEnd) es)
  | .vStruct r =>
    parsed r.fields.length (vdPushEntries (vdPush p.rest .tkMapEnd) (fieldsAsEntries r.fields))
  | v => .error (invalidType "a map".toList (valueKind v))

def vdMapNext (d : VDec) : Result (Parsed Bool VDec) :=
  if vdAt d .tkMapEnd then do
    let d1 ← vdMark d .tkMapEnd "the end of a map".toList
    parsed false d1
  else parsed true d

def vdPass (d : VDec) : Result VDec := .ok d

def vdStructBegin (d : VDec) (name : Str) (_fields : List Str) : Result VDec := do
  let p ← vdValue d "a struct".toList
  match p.value with
  | .vStruct r => .ok (vdPushFields (vdPush p.rest .tkStructEnd) r.fields)
  | .vMap es => vdPushMapFields (vdPush p.rest .tkStructEnd) es
  | v => .error (invalidType ("struct ".toList ++ name) (valueKind v))

def fieldKey (fields : List Str) (n : Str) : FieldKey :=
  let i := nameIndex fields n
  if i ≥ 0 then .knownField i else .unknownField n

def vdField (d : VDec) (fields : List Str) : Result (Parsed FieldKey VDec) := do
  let p ← vdPop d "a field or the end of a struct".toList
  match p.tok with
  | .tkName n => parsed (fieldKey fields n) p.rest
  | .tkStructEnd => parsed .endOfFields p.rest
  | t => .error (invalidType "a field".toList (tokKind t))

def vdVariantMap (es : List VEntry) (rest : VDec) : Result (Parsed VariantName VDec) :=
  match es with
  | [e] =>
    match asStr e.key with
    | some k =>
      parsed ⟨[], -1, k, true⟩
        (vdPush (vdPush (vdPush rest .tkVariantEnd) (.tkVal e.val)) .tkPayloadMark)
    | none => .error (invalidType "a variant name".toList (valueKind e.key))
  | _ => .error (invalidLength es.length "a map with one entry (a variant)".toList)

/-- A variant is a tagged value, a string (unit variant by name) or a map with one string
key (payload variant). -/
def vdVariantName (d : VDec) : Result (Parsed VariantName VDec) := do
  let p ← vdValue d "an enum variant".toList
  match p.value with
  | .vUnitVariant t =>
    parsed ⟨t.enumName, t.index, t.name, false⟩ (vdPush p.rest .tkUnitMark)
  | .vStr s => parsed ⟨[], -1, s, false⟩ (vdPush p.rest .tkUnitMark)
  | .vVariant vp =>
    parsed ⟨vp.tag.enumName, vp.tag.index, vp.tag.name, true⟩
      (vdPush (vdPush (vdPush p.rest .tkVariantEnd) (.tkVal vp.payload)) .tkPayloadMark)
  | .vMap es => vdVariantMap es p.rest
  | v => .error (invalidType "an enum variant".toList (valueKind v))

def vdVariant (d : VDec) (_enumName : Str) (variants : List Str) : Result (Parsed Int VDec) := do
  let p ← vdVariantName d
  let i := nameIndex variants p.value.name
  if i < 0 then .error (unknownVariant p.value.name variants) else parsed i p.rest

def vdVariantUnit (d : VDec) : Result VDec := vdMark d .tkUnitMark "a unit variant".toList

def vdVariantPayload (d : VDec) : Result VDec :=
  vdMark d .tkPayloadMark "a variant with a payload".toList

def vdVariantEnd (d : VDec) : Result VDec :=
  vdMark d .tkVariantEnd "the end of a variant".toList

def vdSkip (d : VDec) : Result VDec := do
  let p ← vdValue d "a value".toList
  .ok p.rest

def peekOf : Value → Peek
  | .vUnit => .unit
  | .vBool _ => .bool
  | .vInt _ => .int
  | .vUInt _ => .uint
  | .vI128 _ => .i128
  | .vU128 _ => .u128
  | .vFloat _ => .float
  | .vStr _ => .str
  | .vBytes _ => .bytes
  | .vNone => .none
  | .vSome _ => .some
  | .vSeq _ => .seq
  | .vMap _ => .map
  | .vStruct r => .struct r.name
  | .vUnitVariant _ => .variant
  | .vVariant _ => .variant

def vdPeekTok (t : VdTok) (d : VDec) : Result (Parsed Peek VDec) :=
  match t with
  | .tkVal v => parsed (peekOf v) d
  | _ => .error (invalidType "a value".toList (tokKind t))

def vdPeek (d : VDec) : Result (Parsed Peek VDec) :=
  match d.stack with
  | [] => .error (eofError "a value".toList)
  | top :: _ => vdPeekTok top d

def vdEnd (d : VDec) : Result VDec :=
  match d.stack with
  | [] => .ok d
  | top :: _ => .error (trailingInput (tokKind top))

instance : Decoder VDec where
  readUnit := vdUnit
  readBool := vdBool
  readInt := vdInt
  readUint := vdUint
  readI128 := vdI128
  readU128 := vdU128
  readFloat := vdFloat
  readStr := vdStr
  readBytes := vdBytes
  readStrBegin := vdStrBegin
  readStrNext := vdStrNext
  readBytesBegin := vdBytesBegin
  readBytesNext := vdBytesNext
  readOption := vdOption
  readSeqBegin := vdSeqBegin
  readSeqNext := vdSeqNext
  readMapBegin := vdMapBegin
  readMapNext := vdMapNext
  readMapValue := vdPass
  readStructBegin := vdStructBegin
  readField := vdField
  readVariant := vdVariant
  readVariantName := vdVariantName
  readVariantUnit := vdVariantUnit
  readVariantPayload := vdVariantPayload
  readVariantEnd := vdVariantEnd
  readSkip := vdSkip
  readPeek := vdPeek
  readEnd := vdEnd

/-- Any decodable type read back out of a value. -/
def fromValue {T : Type} [Decode T VDec] (v : Value) : Option (Result T) :=
  decodeValue (valueDecoder v)

/-! ## Integers come back -/

theorem vdInt_vInt (i : IntN 64) (rest : List VdTok) :
    vdInt ⟨.tkVal (.vInt i) :: rest⟩ = .ok ⟨i, ⟨rest⟩⟩ := by
  show (match IntN.ofInt? 64 i.val with
    | some x => parsed x _
    | none => _) = _
  rw [IntN.ofInt?_val]
  rfl

theorem vdUint_vUInt (u : UIntN 64) (rest : List VdTok) :
    vdUint ⟨.tkVal (.vUInt u) :: rest⟩ = .ok ⟨u, ⟨rest⟩⟩ := by
  show (match UIntN.ofInt? 64 u.val with
    | some x => parsed x _
    | none => _) = _
  rw [UIntN.ofInt?_val]
  rfl

/-! ## What is on the stack -/

theorem vdPushValues_eq (rest : List VdTok) (xs : List Value) :
    vdPushValues ⟨rest⟩ xs = ⟨xs.map .tkVal ++ rest⟩ := by
  induction xs with
  | nil => rfl
  | cons x xs ih =>
    rw [vdPushValues, ih]
    rfl

/-- An entry's tokens: its key, then its value. -/
def entryTokens (e : VEntry) : List VdTok := [.tkVal e.key, .tkVal e.val]

def fieldTokens (f : VField) : List VdTok := [.tkName f.name, .tkVal f.val]

theorem vdPushEntries_eq (rest : List VdTok) (es : List VEntry) :
    vdPushEntries ⟨rest⟩ es = ⟨es.flatMap entryTokens ++ rest⟩ := by
  induction es with
  | nil => rfl
  | cons e es ih =>
    rw [vdPushEntries, ih]
    rfl

theorem vdPushFields_eq (rest : List VdTok) (fs : List VField) :
    vdPushFields ⟨rest⟩ fs = ⟨fs.flatMap fieldTokens ++ rest⟩ := by
  induction fs with
  | nil => rfl
  | cons f fs ih =>
    rw [vdPushFields, ih]
    rfl

theorem vdSeqBegin_seq (xs : List Value) (rest : List VdTok) :
    vdSeqBegin ⟨.tkVal (.vSeq xs) :: rest⟩ =
      .ok ⟨xs.length, ⟨xs.map .tkVal ++ .tkSeqEnd :: rest⟩⟩ := by
  show parsed _ (vdPushValues ⟨.tkSeqEnd :: rest⟩ xs) = _
  rw [vdPushValues_eq]
  rfl

theorem vdMapBegin_map (es : List VEntry) (rest : List VdTok) :
    vdMapBegin ⟨.tkVal (.vMap es) :: rest⟩ =
      .ok ⟨es.length, ⟨es.flatMap entryTokens ++ .tkMapEnd :: rest⟩⟩ := by
  show parsed _ (vdPushEntries ⟨.tkMapEnd :: rest⟩ es) = _
  rw [vdPushEntries_eq]
  rfl

theorem vdStructBegin_struct (r : VRecord) (rest : List VdTok) (name : Str) (fields : List Str) :
    vdStructBegin ⟨.tkVal (.vStruct r) :: rest⟩ name fields =
      .ok ⟨r.fields.flatMap fieldTokens ++ .tkStructEnd :: rest⟩ := by
  show Except.ok (vdPushFields ⟨.tkStructEnd :: rest⟩ r.fields) = _
  rw [vdPushFields_eq]

end Serial

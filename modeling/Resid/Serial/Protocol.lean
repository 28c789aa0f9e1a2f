import Resid.Runtime.Text
import Resid.Runtime.Ints

/-!
# Encode and decode errors

An error has a kind to branch on, a message for people and the path of what failed,
outermost segment first.  The path helpers leave a success alone and put one segment in
front of the path of a failure, so a path grows while the error unwinds outward.

    atField (ok x) name = ok x                                     (atField_ok)
    atIndex (ok x) i = ok x                                        (atIndex_ok)
-/

namespace Serial

open Runtime

inductive ErrorKind
  | errCustom | errEof | errSyntax | errInvalidType | errInvalidValue | errInvalidLength
  | errUnknownField | errMissingField | errDuplicateField | errUnknownVariant | errUnsupported
  | errTrailing
  deriving DecidableEq, Repr

structure SerialError where
  kind : ErrorKind
  msg : Str
  path : List Str
  deriving DecidableEq, Repr

abbrev Result (α : Type) := Except SerialError α

/-- A step that succeeds hands its value on. -/
theorem ok_bind {α β : Type} (x : α) (f : α → Result β) : ((.ok x : Result α) >>= f) = f x := rfl

/-! ## The error builders -/

def serialError (kind : ErrorKind) (msg : Str) : SerialError := ⟨kind, msg, []⟩

def customError (msg : Str) : SerialError := serialError .errCustom msg

def eofError (expected : Str) : SerialError :=
  serialError .errEof ("unexpected end of input, expected ".toList ++ expected)

def invalidType (expected found : Str) : SerialError :=
  serialError .errInvalidType
    ("invalid type: expected ".toList ++ expected ++ ", found ".toList ++ found)

def invalidValue (found expected : Str) : SerialError :=
  serialError .errInvalidValue
    ("invalid value ".toList ++ found ++ ", expected ".toList ++ expected)

def invalidLength (got : Int) (expected : Str) : SerialError :=
  serialError .errInvalidLength
    ("invalid length ".toList ++ intText got ++ ", expected ".toList ++ expected)

/-- The names quoted, with commas and a last "or"; `b` is the text so far. -/
def oneOfAt (names : List Str) (i : Nat) (b : StrBuf) : Str :=
  if h : i ≥ names.length then b
  else
    let sep := if i = 0 then "" else if i = names.length - 1 then " or " else ", "
    oneOfAt names (i + 1) (b ++ sep.toList ++ "`".toList ++ names[i] ++ "`".toList)
termination_by names.length - i

def oneOf (names : List Str) : Str :=
  if names.length = 0 then "nothing".toList else oneOfAt names 0 []

def unknownVariant (name : Str) (expected : List Str) : SerialError :=
  serialError .errUnknownVariant
    ("unknown variant `".toList ++ name ++ "`, expected ".toList ++ oneOf expected)

def trailingInput (what : Str) : SerialError :=
  serialError .errTrailing ("trailing input after the value: ".toList ++ what)

/-! ## Paths -/

def errorAt (e : SerialError) (seg : Str) : SerialError := { e with path := [seg] ++ e.path }

def atSeg {α : Type} (r : Result α) (seg : Str) : Result α :=
  match r with
  | .error e => .error (errorAt e seg)
  | .ok _ => r

def atField {α : Type} (r : Result α) (name : Str) : Result α := atSeg r (".".toList ++ name)

def atIndex {α : Type} (r : Result α) (i : Nat) : Result α :=
  atSeg r ("[".toList ++ intText i ++ "]".toList)

def atKey {α : Type} (r : Result α) (key : Str) : Result α :=
  atSeg r ("[".toList ++ key ++ "]".toList)

def atVariant {α : Type} (r : Result α) (name : Str) : Result α := atSeg r ("::".toList ++ name)

@[simp] theorem atField_ok {α : Type} (x : α) (name : Str) : atField (.ok x) name = .ok x := rfl

@[simp] theorem atIndex_ok {α : Type} (x : α) (i : Nat) : atIndex (.ok x) i = .ok x := rfl

@[simp] theorem atVariant_ok {α : Type} (x : α) (name : Str) :
    atVariant (.ok x) name = .ok x := rfl

/-!
## The format protocols

`Encoder F` says what a format writes and `Decoder F` what it reads, one verb at a time;
`F` is the format's own state, threaded through every call.  `Encode T F` and
`Decode T F` say how a type maps onto the verbs; a decoder answers `none` where it traps
or reads forever.

    sequence   writeSeqBegin (writeSeqElem, element)* writeSeqEnd
    map        writeMapBegin (writeMapKey, key, writeMapValue, value)* writeMapEnd
    struct     writeStructBegin (writeField, value)* writeStructEnd
    option     writeNone | writeSome, value
    variant    writeUnitVariant | writeVariantBegin, payload, writeVariantEnd
-/

/-! ## The decode results -/

/-- A value read from a format, with the format's state after it. -/
structure Parsed (T F : Type) where
  value : T
  rest : F

def parsed {T F : Type} (v : T) (s : F) : Result (Parsed T F) := .ok ⟨v, s⟩

inductive FieldKey
  | knownField (i : Int)
  | unknownField (name : Str)
  | endOfFields

structure VariantName where
  enumName : Str
  index : Int
  name : Str
  hasPayload : Bool

def nameIndexAt : List Str → Str → Int → Int
  | [], _, _ => -1
  | n :: names, name, i => if n = name then i else nameIndexAt names name (i + 1)

/-- The index of `name` in `names`, or -1. -/
def nameIndex (names : List Str) (name : Str) : Int := nameIndexAt names name 0

inductive Peek
  | unit | bool | int | uint | i128 | u128 | float | str | bytes | none | some | seq | map
  | struct (name : Str)
  | variant

/-! ## The verbs -/

class Encoder (F : Type) where
  writeUnit : F → Result F
  writeBool : F → Bool → Result F
  writeInt : F → IntN 64 → Result F
  writeUint : F → UIntN 64 → Result F
  writeI128 : F → IntN 128 → Result F
  writeU128 : F → UIntN 128 → Result F
  writeFloat : F → Float → Result F
  writeStr : F → Str → Result F
  writeBytes : F → List (IntN 64) → Result F
  writeStrBegin : F → (chars bytes : Nat) → Result F
  writeStrChar : F → (cp : IntN 64) → Result F
  writeStrEnd : F → Result F
  writeBytesBegin : F → (len : Nat) → Result F
  writeByte : F → (b : IntN 64) → Result F
  writeBytesEnd : F → Result F
  writeNone : F → Result F
  writeSome : F → Result F
  writeSeqBegin : F → (len : Nat) → Result F
  writeSeqElem : F → Result F
  writeSeqEnd : F → Result F
  writeMapBegin : F → (len : Nat) → Result F
  writeMapKey : F → Result F
  writeMapValue : F → Result F
  writeMapEnd : F → Result F
  writeStructBegin : F → (name : Str) → (len : Nat) → Result F
  writeField : F → (key : Str) → Result F
  writeStructEnd : F → Result F
  writeUnitVariant : F → (enumName : Str) → (index : Int) → (variant : Str) → Result F
  writeVariantBegin : F → (enumName : Str) → (index : Int) → (variant : Str) → Result F
  writeVariantEnd : F → Result F

class Decoder (F : Type) where
  readUnit : F → Result F
  readBool : F → Result (Parsed Bool F)
  readInt : F → Result (Parsed (IntN 64) F)
  readUint : F → Result (Parsed (UIntN 64) F)
  readI128 : F → Result (Parsed (IntN 128) F)
  readU128 : F → Result (Parsed (UIntN 128) F)
  readFloat : F → Result (Parsed Float F)
  readStr : F → Result (Parsed Str F)
  readBytes : F → Result (Parsed (List (IntN 64)) F)
  readStrBegin : F → Result (Parsed Int F)
  readStrNext : F → Result (Parsed (IntN 64) F)
  readBytesBegin : F → Result (Parsed Int F)
  readBytesNext : F → Result (Parsed (IntN 64) F)
  readOption : F → Result (Parsed Bool F)
  readSeqBegin : F → Result (Parsed Int F)
  readSeqNext : F → Result (Parsed Bool F)
  readMapBegin : F → Result (Parsed Int F)
  readMapNext : F → Result (Parsed Bool F)
  readMapValue : F → Result F
  readStructBegin : F → (name : Str) → (fields : List Str) → Result F
  readField : F → (fields : List Str) → Result (Parsed FieldKey F)
  readVariant : F → (enumName : Str) → (variants : List Str) → Result (Parsed Int F)
  readVariantName : F → Result (Parsed VariantName F)
  readVariantUnit : F → Result F
  readVariantPayload : F → Result F
  readVariantEnd : F → Result F
  readSkip : F → Result F
  readPeek : F → Result (Parsed Peek F)
  readEnd : F → Result F

/-! ## The type behaviors and the entry points -/

class Encode (T F : Type) where
  encode : T → F → Result F

class Decode (T F : Type) where
  decode : F → Option (Result (Parsed T F))

export Encode (encode)
export Decode (decode)

/-- Decode one top-level value and check that the input ends after it. -/
def decodeValue {T F : Type} [Decoder F] [Decode T F] (s : F) : Option (Result T) := do
  let r : Result (Parsed T F) ← decode s
  match r with
  | .error e => return .error e
  | .ok p =>
    match Decoder.readEnd p.rest with
    | .error e => return .error e
    | .ok _ => return .ok p.value

end Serial

import Resid.Lib.Recursion
import Resid.Serial.Protocol

/-!
# The value tree

A `Value` holds any data-model value.  Sequences, maps, structs and payload variants nest
other values; everything else is a leaf, and an induction over a tree has one case for
the leaves and one for each way of nesting.
-/

noncomputable section

namespace Serial

open Runtime Recursion

/-! ## The tree -/

/-- A variant's identity: enum name "" and index -1 when the format did not say. -/
structure VTag where
  enumName : Str
  index : Int
  name : Str

mutual

inductive Value
  | vUnit
  | vBool (b : Bool)
  | vInt (i : IntN 64)
  | vUInt (u : UIntN 64)
  | vI128 (w : IntN 128)
  | vU128 (uw : UIntN 128)
  | vFloat (f : Float)
  | vStr (s : Str)
  | vBytes (bs : List (IntN 64))
  | vNone
  | vSome (x : Value)
  | vSeq (xs : List Value)
  | vMap (es : List VEntry)
  | vStruct (r : VRecord)
  | vUnitVariant (t : VTag)
  | vVariant (p : VPayload)

/-- A map entry; keys are any value. -/
structure VEntry where
  key : Value
  val : Value

structure VField where
  name : Str
  val : Value

/-- A struct: its name ("" when the format did not say) and fields in order. -/
structure VRecord where
  name : Str
  fields : List VField

structure VPayload where
  tag : VTag
  payload : Value

end

/-- A value with no value inside. -/
def Value.Leaf : Value → Prop
  | .vSome _ | .vSeq _ | .vMap _ | .vStruct _ | .vVariant _ => False
  | _ => True

theorem Value.nestedInduction {motive : Value → Prop} (leaf : ∀ v : Value, v.Leaf → motive v)
    (some : ∀ x, motive x → motive (.vSome x))
    (seq : ∀ xs, (∀ x ∈ xs, motive x) → motive (.vSeq xs))
    (map : ∀ es, (∀ e ∈ es, motive e.key ∧ motive e.val) → motive (.vMap es))
    (struct : ∀ r, (∀ f ∈ r.fields, motive f.val) → motive (.vStruct r))
    (variant : ∀ p, motive p.payload → motive (.vVariant p)) (v : Value) : motive v := by
  refine @Value.rec motive (fun e => motive e.key ∧ motive e.val) (fun f => motive f.val)
    (fun r => ∀ f ∈ r.fields, motive f.val) (fun p => motive p.payload)
    (fun xs => ∀ x ∈ xs, motive x) (fun es => ∀ e ∈ es, motive e.key ∧ motive e.val)
    (fun fs => ∀ f ∈ fs, motive f.val) (leaf _ trivial) (fun _ => leaf _ trivial)
    (fun _ => leaf _ trivial) (fun _ => leaf _ trivial) (fun _ => leaf _ trivial)
    (fun _ => leaf _ trivial) (fun _ => leaf _ trivial) (fun _ => leaf _ trivial)
    (fun _ => leaf _ trivial) (leaf _ trivial) some seq map struct (fun _ => leaf _ trivial)
    variant (fun _ _ hk hv => ⟨hk, hv⟩) (fun _ _ hv => hv) (fun _ _ hfs => hfs)
    (fun _ _ hp => hp) ?_ ?_ ?_ ?_ ?_ ?_ v
  all_goals first
    | exact List.forall_mem_nil _
    | exact fun _ _ hx hxs => List.forall_mem_cons.2 ⟨hx, hxs⟩

/-! ## Kinds and texts -/

/-- What kind of value `v` is, for error messages. -/
def valueKind : Value → Str
  | .vUnit => "unit".toList
  | .vBool _ => "a boolean".toList
  | .vInt _ => "an integer".toList
  | .vUInt _ => "an unsigned integer".toList
  | .vI128 _ => "a 128-bit integer".toList
  | .vU128 _ => "an unsigned 128-bit integer".toList
  | .vFloat _ => "a float".toList
  | .vStr _ => "a string".toList
  | .vBytes _ => "bytes".toList
  | .vNone => "none".toList
  | .vSome _ => "an option".toList
  | .vSeq _ => "a sequence".toList
  | .vMap _ => "a map".toList
  | .vStruct _ => "a struct".toList
  | .vUnitVariant _ => "a unit variant".toList
  | .vVariant _ => "a newtype variant".toList

/-- How the run time prints a float. -/
class FloatText where
  floatText : Float → Str

export FloatText (floatText)

def showFloat [FloatText] (f : Float) : Str :=
  let t := floatText f
  if '.' ∈ t ∨ 'n' ∈ t ∨ 'e' ∈ t then t else t ++ ".0".toList

def quote (s : Str) : Str := "\"".toList ++ s ++ "\"".toList

def showTag (t : VTag) : Str :=
  if t.enumName = [] then t.name else t.enumName ++ "::".toList ++ t.name

/-- A list in an f-string: its elements between brackets. -/
def intsText (bs : List (IntN 64)) : Str :=
  "[".toList ++ ", ".toList.intercalate (bs.map fun b => intText b.val) ++ "]".toList

/-- What stands before element `i` of a joined list. -/
def sep (i : Nat) : Str := if i = 0 then [] else ", ".toList

mutual

/-- The text of `v`, as in `Point { x: 1, y: [2, 3] }`. -/
def showValue [FloatText] : Value → Str
  | .vUnit => "()".toList
  | .vBool b => (if b then "true" else "false").toList
  | .vInt i => intText i.val
  | .vUInt u => intText u.val ++ "u".toList
  | .vI128 w => intText w.val ++ "i128".toList
  | .vU128 uw => intText uw.val ++ "u128".toList
  | .vFloat f => showFloat f
  | .vStr s => quote s
  | .vBytes bs => "b".toList ++ intsText bs
  | .vNone => "None".toList
  | .vSome x => "Some(".toList ++ showValue x ++ ")".toList
  | .vSeq xs => "[".toList ++ showValues xs 0 [] ++ "]".toList
  | .vMap es => "\x7b".toList ++ showEntries es 0 [] ++ "\x7d".toList
  | .vStruct r => showRecord r
  | .vUnitVariant t => showTag t
  | .vVariant ⟨tag, payload⟩ => showTag tag ++ "(".toList ++ showValue payload ++ ")".toList
termination_by structural v => v

/-- The elements from index `i` on, after the text `b`. -/
def showValues [FloatText] : List Value → Nat → StrBuf → Str
  | [], _, b => b
  | x :: xs, i, b => showValues xs (i + 1) (b ++ sep i ++ showValue x)
termination_by structural xs => xs

def showEntries [FloatText] : List VEntry → Nat → StrBuf → Str
  | [], _, b => b
  | ⟨key, val⟩ :: es, i, b =>
    showEntries es (i + 1) (b ++ sep i ++ showValue key ++ ": ".toList ++ showValue val)
termination_by structural es => es

def showRecord [FloatText] : VRecord → Str
  | ⟨name, fields⟩ =>
    let head := if name = [] then [] else name ++ " ".toList
    if fields.length = 0 then head ++ "\x7b\x7d".toList
    else head ++ "\x7b ".toList ++ showFields fields 0 [] ++ " \x7d".toList
termination_by structural r => r

def showFields [FloatText] : List VField → Nat → StrBuf → Str
  | [], _, b => b
  | ⟨name, val⟩ :: fs, i, b =>
    showFields fs (i + 1) (b ++ sep i ++ name ++ ": ".toList ++ showValue val)
termination_by structural fs => fs

end

/-! ## Lookups -/

/-- An integer value as a signed 128-bit one, when it fits. -/
def asWideInt : Value → Option (IntN 128)
  | .vInt i => some (i.widen (by decide))
  | .vUInt u => some (u.signed (by decide))
  | .vI128 w => some w
  | .vU128 uw =>
    if uw.val ≤ 170141183460469231731687303715884105727 then IntN.ofInt? 128 uw.val else none
  | _ => none

/-- An integer value as an unsigned 128-bit one, when it is not negative. -/
def asWideUint : Value → Option (UIntN 128)
  | .vInt i => if 0 ≤ i.val then UIntN.ofInt? 128 i.val else none
  | .vUInt u => some (u.widen (by decide))
  | .vI128 w => if 0 ≤ w.val then UIntN.ofInt? 128 w.val else none
  | .vU128 uw => some uw
  | _ => none

def asStr : Value → Option Str
  | .vStr s => some s
  | _ => none

/-!
## A value in any format

A `Value` is written to a format by the verbs of its constructors, and read back from a
self-describing one by asking at every step what comes next.  The decoder may be handed a
format that never ends a sequence, so it answers `none` where it reads forever.
-/

variable {F : Type}

/-! ## Encoding -/

section Encoding

variable [Encoder F]

mutual

def encValue : Value → F → Result F
  | .vUnit, s => Encoder.writeUnit s
  | .vBool b, s => Encoder.writeBool s b
  | .vInt i, s => Encoder.writeInt s i
  | .vUInt u, s => Encoder.writeUint s u
  | .vI128 w, s => Encoder.writeI128 s w
  | .vU128 uw, s => Encoder.writeU128 s uw
  | .vFloat f, s => Encoder.writeFloat s f
  | .vStr t, s => Encoder.writeStr s t
  | .vBytes bs, s => Encoder.writeBytes s bs
  | .vNone, s => Encoder.writeNone s
  | .vSome x, s => do
    let s1 ← Encoder.writeSome s
    encValue x s1
  | .vSeq xs, s => do
    let s1 ← Encoder.writeSeqBegin s xs.length
    let s2 ← encValueElems xs 0 s1
    Encoder.writeSeqEnd s2
  | .vMap es, s => do
    let s1 ← Encoder.writeMapBegin s es.length
    let s2 ← encValueEntries es s1
    Encoder.writeMapEnd s2
  | .vStruct r, s => encValueStruct r s
  | .vUnitVariant t, s => Encoder.writeUnitVariant s t.enumName t.index t.name
  | .vVariant p, s => encValueVariant p s
termination_by structural v => v

/-- The elements from index `i` on. -/
def encValueElems : List Value → Nat → F → Result F
  | [], _, s => .ok s
  | x :: xs, i, s => do
    let s1 ← Encoder.writeSeqElem s
    let s2 ← atIndex (encValue x s1) i
    encValueElems xs (i + 1) s2
termination_by structural xs => xs

def encValueEntries : List VEntry → F → Result F
  | [], s => .ok s
  | ⟨key, val⟩ :: es, s => do
    let s1 ← Encoder.writeMapKey s
    let s2 ← encValue key s1
    let s3 ← Encoder.writeMapValue s2
    let s4 ← encValue val s3
    encValueEntries es s4
termination_by structural es => es

def encValueStruct : VRecord → F → Result F
  | ⟨name, fields⟩, s => do
    let s1 ← Encoder.writeStructBegin s name fields.length
    let s2 ← encValueFields fields s1
    Encoder.writeStructEnd s2
termination_by structural r => r

def encValueFields : List VField → F → Result F
  | [], s => .ok s
  | ⟨name, val⟩ :: fs, s => do
    let s1 ← Encoder.writeField s name
    let s2 ← atField (encValue val s1) name
    encValueFields fs s2
termination_by structural fs => fs

def encValueVariant : VPayload → F → Result F
  | ⟨tag, payload⟩, s => do
    let s1 ← Encoder.writeVariantBegin s tag.enumName tag.index tag.name
    let s2 ← atVariant (encValue payload s1) tag.name
    Encoder.writeVariantEnd s2
termination_by structural p => p

end

instance : Encode Value F := ⟨encValue⟩

end Encoding

/-! ## Decoding -/

section Decoding

variable [Decoder F]

def decValueUnit (s : F) : Result (Parsed Value F) := do
  let s1 ← Decoder.readUnit s
  parsed .vUnit s1

def decValueBool (s : F) : Result (Parsed Value F) := do
  let p ← Decoder.readBool s
  parsed (.vBool p.value) p.rest

def decValueInt (s : F) : Result (Parsed Value F) := do
  let p ← Decoder.readInt s
  parsed (.vInt p.value) p.rest

def decValueUint (s : F) : Result (Parsed Value F) := do
  let p ← Decoder.readUint s
  parsed (.vUInt p.value) p.rest

def decValueI128 (s : F) : Result (Parsed Value F) := do
  let p ← Decoder.readI128 s
  parsed (.vI128 p.value) p.rest

def decValueU128 (s : F) : Result (Parsed Value F) := do
  let p ← Decoder.readU128 s
  parsed (.vU128 p.value) p.rest

def decValueFloat (s : F) : Result (Parsed Value F) := do
  let p ← Decoder.readFloat s
  parsed (.vFloat p.value) p.rest

def decValueStr (s : F) : Result (Parsed Value F) := do
  let p ← Decoder.readStr s
  parsed (.vStr p.value) p.rest

def decValueBytes (s : F) : Result (Parsed Value F) := do
  let p ← Decoder.readBytes s
  parsed (.vBytes p.value) p.rest

/-- The calls the decoder makes of itself. -/
inductive DecCall (F : Type)
  | value (s : F)
  | option (s : F)
  | seq (s : F)
  | elems (s : F) (i : Nat) (acc : List Value)
  | map (s : F)
  | entries (s : F) (acc : List VEntry)
  | struct (s : F) (sname : Str)
  | fields (s : F) (sname : Str) (known : List Str) (acc : List VField)
  | field (s : F) (sname : Str) (known : List Str) (name : Str) (acc : List VField)
  | variant (s : F)

section Steps

variable (dec : DecCall F → Option (Result (Parsed Value F)))

def decValueStep (s : F) : Option (Result (Parsed Value F)) :=
  match Decoder.readPeek s with
  | .error e => some (.error e)
  | .ok pk =>
    let s1 := pk.rest
    match pk.value with
    | .unit => some (decValueUnit s1)
    | .bool => some (decValueBool s1)
    | .int => some (decValueInt s1)
    | .uint => some (decValueUint s1)
    | .i128 => some (decValueI128 s1)
    | .u128 => some (decValueU128 s1)
    | .float => some (decValueFloat s1)
    | .str => some (decValueStr s1)
    | .bytes => some (decValueBytes s1)
    | .none => dec (.option s1)
    | .some => dec (.option s1)
    | .seq => dec (.seq s1)
    | .map => dec (.map s1)
    | .struct name => dec (.struct s1 name)
    | .variant => dec (.variant s1)

def decValueOption (s : F) : Option (Result (Parsed Value F)) :=
  match Decoder.readOption s with
  | .error e => some (.error e)
  | .ok tag =>
    if !tag.value then some (parsed .vNone tag.rest)
    else do
      match ← dec (.value tag.rest) with
      | .error e => some (.error e)
      | .ok p => some (parsed (.vSome p.value) p.rest)

def decValueSeq (s : F) : Option (Result (Parsed Value F)) :=
  match Decoder.readSeqBegin s with
  | .error e => some (.error e)
  | .ok n => dec (.elems n.rest 0 [])

def decValueElems (s : F) (i : Nat) (acc : List Value) :
    Option (Result (Parsed Value F)) :=
  match Decoder.readSeqNext s with
  | .error e => some (.error e)
  | .ok more =>
    if !more.value then some (parsed (.vSeq acc) more.rest)
    else do
      match atIndex (← dec (.value more.rest)) i with
      | .error e => some (.error e)
      | .ok p => dec (.elems p.rest (i + 1) (acc ++ [p.value]))

def decValueMap (s : F) : Option (Result (Parsed Value F)) :=
  match Decoder.readMapBegin s with
  | .error e => some (.error e)
  | .ok n => dec (.entries n.rest [])

def decValueEntries [FloatText] (s : F) (acc : List VEntry) :
    Option (Result (Parsed Value F)) :=
  match Decoder.readMapNext s with
  | .error e => some (.error e)
  | .ok more =>
    if !more.value then some (parsed (.vMap acc) more.rest)
    else do
      match ← dec (.value more.rest) with
      | .error e => some (.error e)
      | .ok k =>
        match Decoder.readMapValue k.rest with
        | .error e => some (.error e)
        | .ok s1 =>
          match atKey (← dec (.value s1)) (showValue k.value) with
          | .error e => some (.error e)
          | .ok v => dec (.entries v.rest (acc ++ [⟨k.value, v.value⟩]))

/-- A struct read without knowing its fields: every field comes back with its name. -/
def decValueStruct (s : F) (sname : Str) : Option (Result (Parsed Value F)) :=
  match Decoder.readStructBegin s sname [] with
  | .error e => some (.error e)
  | .ok s1 => dec (.fields s1 sname [] [])

def decValueFields (s : F) (sname : Str) (known : List Str) (acc : List VField) :
    Option (Result (Parsed Value F)) :=
  match Decoder.readField s known with
  | .error e => some (.error e)
  | .ok k =>
    match k.value with
    | .knownField _ =>
      some (.error (customError "a field matched an empty field list".toList))
    | .unknownField name => dec (.field k.rest sname known name acc)
    | .endOfFields => some (parsed (.vStruct ⟨sname, acc⟩) k.rest)

def decValueField (s : F) (sname : Str) (known : List Str) (name : Str)
    (acc : List VField) : Option (Result (Parsed Value F)) := do
  match atField (← dec (.value s)) name with
  | .error e => some (.error e)
  | .ok v => dec (.fields v.rest sname known (acc ++ [⟨name, v.value⟩]))

/-- A variant read without knowing its enum: the format must name it. -/
def decValueVariant (s : F) : Option (Result (Parsed Value F)) :=
  match Decoder.readVariantName s with
  | .error e => some (.error e)
  | .ok v =>
    let tag : VTag := ⟨v.value.enumName, v.value.index, v.value.name⟩
    if !v.value.hasPayload then
      match Decoder.readVariantUnit v.rest with
      | .error e => some (.error e)
      | .ok s1 => some (parsed (.vUnitVariant tag) s1)
    else
      match Decoder.readVariantPayload v.rest with
      | .error e => some (.error e)
      | .ok s2 => do
        match atVariant (← dec (.value s2)) tag.name with
        | .error e => some (.error e)
        | .ok p =>
          match Decoder.readVariantEnd p.rest with
          | .error e => some (.error e)
          | .ok s3 => some (parsed (.vVariant ⟨tag, p.value⟩) s3)

end Steps

def decStep [FloatText] (dec : DecCall F → Option (Result (Parsed Value F))) :
    DecCall F → Option (Result (Parsed Value F))
  | .value s => decValueStep dec s
  | .option s => decValueOption dec s
  | .seq s => decValueSeq dec s
  | .elems s i acc => decValueElems dec s i acc
  | .map s => decValueMap dec s
  | .entries s acc => decValueEntries dec s acc
  | .struct s sname => decValueStruct dec s sname
  | .fields s sname known acc => decValueFields dec s sname known acc
  | .field s sname known name acc => decValueField dec s sname known name acc
  | .variant s => decValueVariant dec s

def decRun [FloatText] : DecCall F → Option (Result (Parsed Value F)) := fix decStep

theorem decStep_calling [FloatText] (c : DecCall F) : Calling fun dec => decStep dec c := by
  cases c with
  | value s =>
    dsimp only [decStep, decValueStep]
    cases (Decoder.readPeek s : Result (Parsed Peek F)) with
    | error e => exact .const _
    | ok pk =>
      dsimp only
      cases pk.value with
      | none | some | seq | map | struct _ | variant => exact .tail _
      | _ => exact .const _
  | option s =>
    dsimp only [decStep, decValueOption]
    cases (Decoder.readOption s : Result (Parsed Bool F)) with
    | error e => exact .const _
    | ok tag => exact .ite (.const _) (.call _ fun r => .const _)
  | seq s =>
    dsimp only [decStep, decValueSeq]
    cases (Decoder.readSeqBegin s : Result (Parsed Int F)) with
    | error e => exact .const _
    | ok n => exact .tail _
  | elems s i acc =>
    dsimp only [decStep, decValueElems]
    cases (Decoder.readSeqNext s : Result (Parsed Bool F)) with
    | error e => exact .const _
    | ok more =>
      refine .ite (.const _) (.call _ fun r => ?_)
      cases atIndex r i with
      | error e => exact .const _
      | ok p => exact .tail _
  | map s =>
    dsimp only [decStep, decValueMap]
    cases (Decoder.readMapBegin s : Result (Parsed Int F)) with
    | error e => exact .const _
    | ok n => exact .tail _
  | entries s acc =>
    dsimp only [decStep, decValueEntries]
    cases (Decoder.readMapNext s : Result (Parsed Bool F)) with
    | error e => exact .const _
    | ok more =>
      refine .ite (.const _) (.call _ fun r => ?_)
      cases r with
      | error e => exact .const _
      | ok k =>
        dsimp only
        cases Decoder.readMapValue k.rest with
        | error e => exact .const _
        | ok s1 =>
          refine .call _ fun r => ?_
          cases atKey r (showValue k.value) with
          | error e => exact .const _
          | ok v => exact .tail _
  | struct s sname =>
    dsimp only [decStep, decValueStruct]
    cases Decoder.readStructBegin s sname [] with
    | error e => exact .const _
    | ok s1 => exact .tail _
  | fields s sname known acc =>
    dsimp only [decStep, decValueFields]
    cases Decoder.readField s known with
    | error e => exact .const _
    | ok k =>
      dsimp only
      cases k.value with
      | unknownField name => exact .tail _
      | _ => exact .const _
  | field s sname known name acc =>
    refine .call _ fun r => ?_
    cases atField r name with
    | error e => exact .const _
    | ok v => exact .tail _
  | variant s =>
    dsimp only [decStep, decValueVariant]
    cases Decoder.readVariantName s with
    | error e => exact .const _
    | ok v =>
      refine .ite (.const _) ?_
      cases Decoder.readVariantPayload v.rest with
      | error e => exact .const _
      | ok s2 => exact .call _ fun r => .const _

theorem decRun_eq [FloatText] (c : DecCall F) : decRun c = decStep decRun c :=
  fix_eq decStep_calling c

def decValue [FloatText] (s : F) : Option (Result (Parsed Value F)) := decRun (.value s)

instance [FloatText] : Decode Value F := ⟨decValue⟩

end Decoding

end Serial

end

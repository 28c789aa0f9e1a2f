import Resid.Lib.Loops
import Resid.Value.Generic

/-!
# The value encoder

Open compounds sit on a stack of frames; a finished value is added to the frame on top,
or becomes a result when nothing is open.  Parts are kept newest first and turned round
once when the compound closes.

    veEmit (e.push .vfSome) v = veEmit e (.vSome v)                        (veEmit_some)
    veEmit (e.push (.vfSeq ch)) v = ok (e.push (.vfSeq (v :: ch)))         (veEmit_seq)
    veSeqEnd (e.push (.vfSeq ch)) = veEmit e (.vSeq ch.reverse)            (veSeqEnd_push)
-/

namespace Serial

open Runtime

/-! ## The state -/

/-- An open map: its entries so far, newest first, and a key awaiting its value. -/
structure VeMap where
  entries : List VEntry
  key : Value
  hasKey : Bool

/-- An open struct: its fields so far, newest first, and the field name awaiting a value. -/
structure VeStruct where
  name : Str
  fields : List VField
  pending : Str

inductive VeFrame
  | vfSeq (ch : List Value)
  | vfMap (m : VeMap)
  | vfStruct (sf : VeStruct)
  | vfVariant (tag : VTag)
  | vfVariantDone (p : VPayload)
  | vfSome
  | vfStr (sc : List (IntN 64))
  | vfBytes (bc : List (IntN 64))

/-- Open frames, innermost on top, and finished values, newest first. -/
structure VEnc where
  stack : List VeFrame
  out : List Value

def valueEncoder : VEnc := ⟨[], []⟩

/-! ## Algorithm -/

/-- A chain's items, oldest first; `acc` holds what was taken off so far. -/
def chainList {α : Type} : List α → List α → List α
  | [], acc => acc.reverse
  | x :: chain, acc => chainList chain (acc ++ [x])

def icList (c : List (IntN 64)) : List (IntN 64) := chainList c []

def vcList (c : List Value) : List Value := chainList c []

def fcList (c : List VField) : List VField := chainList c []

def ecList (c : List VEntry) : List VEntry := chainList c []

def cpsStr : List (IntN 64) → StrBuf → Str
  | [], acc => finishText acc
  | cp :: cps, acc => cpsStr cps (pushChar acc cp.val)

def veWith (e : VEnc) (st : List VeFrame) : VEnc := ⟨st, e.out⟩

def veOpen (e : VEnc) (f : VeFrame) : Result VEnc := .ok (veWith e (f :: e.stack))

def veMapAdd (m : VeMap) (v : Value) : VeMap :=
  if !m.hasKey then ⟨m.entries, v, true⟩ else ⟨⟨m.key, v⟩ :: m.entries, .vUnit, false⟩

mutual

/-- Add a finished value to the top frame, or to the results. -/
def veEmit (e : VEnc) (v : Value) : Result VEnc :=
  match _h : e.stack with
  | [] => .ok ⟨[], v :: e.out⟩
  | top :: below => veEmitInto e top below v
termination_by (e.stack.length, 1)
decreasing_by
  rw [_h, List.length_cons]
  exact Prod.Lex.right _ Nat.zero_lt_one

def veEmitInto (e : VEnc) (top : VeFrame) (below : List VeFrame) (v : Value) : Result VEnc :=
  match top with
  | .vfSeq ch => .ok (veWith e (.vfSeq (v :: ch) :: below))
  | .vfMap m => .ok (veWith e (.vfMap (veMapAdd m v) :: below))
  | .vfStruct sf =>
    .ok (veWith e (.vfStruct ⟨sf.name, ⟨sf.pending, v⟩ :: sf.fields, []⟩ :: below))
  | .vfVariant tag => .ok (veWith e (.vfVariantDone ⟨tag, v⟩ :: below))
  | .vfVariantDone _ => .error (customError "a variant took a second payload".toList)
  -- an option has no end verb: its payload closes it
  | .vfSome => veEmit (veWith e below) (.vSome v)
  | .vfStr _ => .error (customError "a value inside a streamed string".toList)
  | .vfBytes _ => .error (customError "a value inside streamed bytes".toList)
termination_by (below.length + 1, 0)
decreasing_by exact Prod.Lex.left _ _ (Nat.lt_succ_self _)

end

/-- The end verb a frame needs, "" for an option. -/
def veCloser : VeFrame → Str
  | .vfSeq _ => "write_seq_end".toList
  | .vfMap _ => "write_map_end".toList
  | .vfStruct _ => "write_struct_end".toList
  | .vfVariant _ => "write_variant_end".toList
  | .vfVariantDone _ => "write_variant_end".toList
  | .vfSome => "".toList
  | .vfStr _ => "write_str_end".toList
  | .vfBytes _ => "write_bytes_end".toList

def veCloseFrame (e : VEnc) (f : VeFrame) (what : Str) : Result VEnc :=
  match f with
  | .vfSeq ch => veEmit e (.vSeq (vcList ch))
  | .vfMap m => veEmit e (.vMap (ecList m.entries))
  | .vfStruct sf => veEmit e (.vStruct ⟨sf.name, fcList sf.fields⟩)
  | .vfVariant _ => .error (customError (what ++ ": the variant has no payload".toList))
  | .vfVariantDone p => veEmit e (.vVariant p)
  | .vfSome => .error (customError (what ++ ": the option has no payload".toList))
  | .vfStr sc => veEmit e (.vStr (cpsStr (icList sc) []))
  | .vfBytes bc => veEmit e (.vBytes (icList bc))

def veCloseChecked (e : VEnc) (top : VeFrame) (below : List VeFrame) (what : Str) :
    Result VEnc :=
  let closer := veCloser top
  if closer ≠ [] ∧ closer ≠ what then
    .error (customError (what ++ ", but the open value needs ".toList ++ closer))
  else veCloseFrame (veWith e below) top what

/-- Close the top frame and emit what it built. -/
def veClose (e : VEnc) (what : Str) : Result VEnc :=
  match e.stack with
  | [] => .error (customError (what ++ " with nothing open".toList))
  | top :: below => veCloseChecked e top below what

/-- A code point or byte into the open streamed string or bytes. -/
def veStreamInto (e : VEnc) (top : VeFrame) (below : List VeFrame) (x : IntN 64) (str : Bool) :
    Result VEnc :=
  match top with
  | .vfStr sc =>
    if str then .ok (veWith e (.vfStr (x :: sc) :: below))
    else .error (customError "write_byte inside a string".toList)
  | .vfBytes bc =>
    if str then .error (customError "write_str_char inside bytes".toList)
    else .ok (veWith e (.vfBytes (x :: bc) :: below))
  | _ =>
    .error (customError
      (if str then "write_str_char outside a string" else "write_byte outside bytes").toList)

def veStreamAdd (e : VEnc) (x : IntN 64) (str : Bool) : Result VEnc :=
  match e.stack with
  | [] =>
    .error (customError
      (if str then "write_str_char outside a string" else "write_byte outside bytes").toList)
  | top :: below => veStreamInto e top below x str

def veFieldIn (e : VEnc) (top : VeFrame) (below : List VeFrame) (key : Str) : Result VEnc :=
  match top with
  | .vfStruct sf => .ok (veWith e (.vfStruct ⟨sf.name, sf.fields, key⟩ :: below))
  | _ => .error (customError "write_field outside a struct".toList)

def veField (e : VEnc) (key : Str) : Result VEnc :=
  match e.stack with
  | [] => .error (customError "write_field outside a struct".toList)
  | top :: below => veFieldIn e top below key

def vePass (e : VEnc) : Result VEnc := .ok e

def veUnit (e : VEnc) : Result VEnc := veEmit e .vUnit

def veBool (e : VEnc) (v : Bool) : Result VEnc := veEmit e (.vBool v)

def veInt (e : VEnc) (v : IntN 64) : Result VEnc := veEmit e (.vInt v)

def veUint (e : VEnc) (v : UIntN 64) : Result VEnc := veEmit e (.vUInt v)

def veI128 (e : VEnc) (v : IntN 128) : Result VEnc := veEmit e (.vI128 v)

def veU128 (e : VEnc) (v : UIntN 128) : Result VEnc := veEmit e (.vU128 v)

def veFloat (e : VEnc) (v : Float) : Result VEnc := veEmit e (.vFloat v)

def veStr (e : VEnc) (v : Str) : Result VEnc := veEmit e (.vStr v)

def veBytes (e : VEnc) (v : List (IntN 64)) : Result VEnc := veEmit e (.vBytes v)

def veNone (e : VEnc) : Result VEnc := veEmit e .vNone

def veStrBegin (e : VEnc) (_chars _bytes : Nat) : Result VEnc := veOpen e (.vfStr [])

def veStrChar (e : VEnc) (cp : IntN 64) : Result VEnc := veStreamAdd e cp true

def veStrEnd (e : VEnc) : Result VEnc := veClose e "write_str_end".toList

def veBytesBegin (e : VEnc) (_len : Nat) : Result VEnc := veOpen e (.vfBytes [])

def veByte (e : VEnc) (b : IntN 64) : Result VEnc := veStreamAdd e b false

def veBytesEnd (e : VEnc) : Result VEnc := veClose e "write_bytes_end".toList

def veSome (e : VEnc) : Result VEnc := veOpen e .vfSome

def veSeqBegin (e : VEnc) (_len : Nat) : Result VEnc := veOpen e (.vfSeq [])

def veSeqEnd (e : VEnc) : Result VEnc := veClose e "write_seq_end".toList

def veMapBegin (e : VEnc) (_len : Nat) : Result VEnc := veOpen e (.vfMap ⟨[], .vUnit, false⟩)

def veMapEnd (e : VEnc) : Result VEnc := veClose e "write_map_end".toList

def veStructBegin (e : VEnc) (name : Str) (_len : Nat) : Result VEnc :=
  veOpen e (.vfStruct ⟨name, [], []⟩)

def veStructEnd (e : VEnc) : Result VEnc := veClose e "write_struct_end".toList

def veUnitVariant (e : VEnc) (enumName : Str) (index : Int) (variant : Str) : Result VEnc :=
  veEmit e (.vUnitVariant ⟨enumName, index, variant⟩)

def veVariantBegin (e : VEnc) (enumName : Str) (index : Int) (variant : Str) : Result VEnc :=
  veOpen e (.vfVariant ⟨enumName, index, variant⟩)

def veVariantEnd (e : VEnc) : Result VEnc := veClose e "write_variant_end".toList

instance : Encoder VEnc where
  writeUnit := veUnit
  writeBool := veBool
  writeInt := veInt
  writeUint := veUint
  writeI128 := veI128
  writeU128 := veU128
  writeFloat := veFloat
  writeStr := veStr
  writeBytes := veBytes
  writeStrBegin := veStrBegin
  writeStrChar := veStrChar
  writeStrEnd := veStrEnd
  writeBytesBegin := veBytesBegin
  writeByte := veByte
  writeBytesEnd := veBytesEnd
  writeNone := veNone
  writeSome := veSome
  writeSeqBegin := veSeqBegin
  writeSeqElem := vePass
  writeSeqEnd := veSeqEnd
  writeMapBegin := veMapBegin
  writeMapKey := vePass
  writeMapValue := vePass
  writeMapEnd := veMapEnd
  writeStructBegin := veStructBegin
  writeField := veField
  writeStructEnd := veStructEnd
  writeUnitVariant := veUnitVariant
  writeVariantBegin := veVariantBegin
  writeVariantEnd := veVariantEnd

def veResult (e : VEnc) : Result Value :=
  let isOpen := match e.stack with
    | [] => false
    | _ => true
  if isOpen then .error (customError "encoding ended with a compound still open".toList)
  else
    let vs := vcList e.out
    match vs with
    | [v] => .ok v
    | _ =>
      .error (customError
        ("encoding produced ".toList ++ intText vs.length ++ " values, expected 1".toList))

/-- Any encodable value as a value tree. -/
def toValue {T : Type} [Encode T VEnc] (x : T) : Result Value := do
  let e ← encode x valueEncoder
  veResult e

/-! ## Frames -/

theorem chainList_eq {α : Type} (chain acc : List α) :
    chainList chain acc = chain.reverse ++ acc.reverse := by
  induction chain generalizing acc with
  | nil => simp [chainList]
  | cons x chain ih => simp [chainList, ih]

@[simp] theorem icList_eq (c : List (IntN 64)) : icList c = c.reverse := by
  simp [icList, chainList_eq]

@[simp] theorem vcList_eq (c : List Value) : vcList c = c.reverse := by
  simp [vcList, chainList_eq]

@[simp] theorem fcList_eq (c : List VField) : fcList c = c.reverse := by
  simp [fcList, chainList_eq]

@[simp] theorem ecList_eq (c : List VEntry) : ecList c = c.reverse := by
  simp [ecList, chainList_eq]

/-- The state with one more frame open. -/
def VEnc.push (e : VEnc) (f : VeFrame) : VEnc := veWith e (f :: e.stack)

theorem veEmit_push (e : VEnc) (f : VeFrame) (v : Value) :
    veEmit (e.push f) v = veEmitInto (e.push f) f e.stack v := by
  rw [veEmit]
  rfl

theorem veEmit_empty (out : List Value) (v : Value) : veEmit ⟨[], out⟩ v = .ok ⟨[], v :: out⟩ := by
  rw [veEmit]

/-- A finished value into the frame on top, by the frame. -/
theorem veEmit_push_eq (e : VEnc) (f : VeFrame) (v : Value) :
    veEmit (e.push f) v =
      match f with
      | .vfSeq ch => .ok (e.push (.vfSeq (v :: ch)))
      | .vfMap m => .ok (e.push (.vfMap (veMapAdd m v)))
      | .vfStruct sf => .ok (e.push (.vfStruct ⟨sf.name, ⟨sf.pending, v⟩ :: sf.fields, []⟩))
      | .vfVariant tag => .ok (e.push (.vfVariantDone ⟨tag, v⟩))
      | .vfVariantDone _ => .error (customError "a variant took a second payload".toList)
      | .vfSome => veEmit e (.vSome v)
      | .vfStr _ => .error (customError "a value inside a streamed string".toList)
      | .vfBytes _ => .error (customError "a value inside streamed bytes".toList) := by
  rw [veEmit_push]
  cases f <;> rw [veEmitInto] <;> rfl

@[simp] theorem veEmit_seq (e : VEnc) (ch : List Value) (v : Value) :
    veEmit (e.push (.vfSeq ch)) v = .ok (e.push (.vfSeq (v :: ch))) := by
  rw [veEmit_push_eq]

@[simp] theorem veEmit_key (e : VEnc) (es : List VEntry) (k v : Value) :
    veEmit (e.push (.vfMap ⟨es, k, false⟩)) v = .ok (e.push (.vfMap ⟨es, v, true⟩)) := by
  rw [veEmit_push_eq]
  rfl

@[simp] theorem veEmit_value (e : VEnc) (es : List VEntry) (k v : Value) :
    veEmit (e.push (.vfMap ⟨es, k, true⟩)) v =
      .ok (e.push (.vfMap ⟨⟨k, v⟩ :: es, .vUnit, false⟩)) := by
  rw [veEmit_push_eq]
  rfl

@[simp] theorem veEmit_struct (e : VEnc) (sf : VeStruct) (v : Value) :
    veEmit (e.push (.vfStruct sf)) v =
      .ok (e.push (.vfStruct ⟨sf.name, ⟨sf.pending, v⟩ :: sf.fields, []⟩)) := by
  rw [veEmit_push_eq]

@[simp] theorem veEmit_variant (e : VEnc) (tag : VTag) (v : Value) :
    veEmit (e.push (.vfVariant tag)) v = .ok (e.push (.vfVariantDone ⟨tag, v⟩)) := by
  rw [veEmit_push_eq]

@[simp] theorem veEmit_some (e : VEnc) (v : Value) :
    veEmit (e.push .vfSome) v = veEmit e (.vSome v) := by
  rw [veEmit_push_eq]

/-- The end verb of the frame on top closes it. -/
theorem veClose_push (e : VEnc) (f : VeFrame) :
    veClose (e.push f) (veCloser f) = veCloseFrame e f (veCloser f) := by
  show veCloseChecked (e.push f) f e.stack (veCloser f) = _
  rw [veCloseChecked, if_neg fun h => h.2 rfl]
  rfl

/-- What a frame is closed to. -/
theorem veCloseFrame_eq (e : VEnc) (f : VeFrame) (what : Str) :
    veCloseFrame e f what =
      match f with
      | .vfSeq ch => veEmit e (.vSeq ch.reverse)
      | .vfMap m => veEmit e (.vMap m.entries.reverse)
      | .vfStruct sf => veEmit e (.vStruct ⟨sf.name, sf.fields.reverse⟩)
      | .vfVariant _ => .error (customError (what ++ ": the variant has no payload".toList))
      | .vfVariantDone p => veEmit e (.vVariant p)
      | .vfSome => .error (customError (what ++ ": the option has no payload".toList))
      | .vfStr sc => veEmit e (.vStr (cpsStr sc.reverse []))
      | .vfBytes bc => veEmit e (.vBytes bc.reverse) := by
  cases f <;> simp [veCloseFrame]

theorem veSeqEnd_push (e : VEnc) (ch : List Value) :
    veSeqEnd (e.push (.vfSeq ch)) = veEmit e (.vSeq ch.reverse) := by
  rw [veSeqEnd, show "write_seq_end".toList = veCloser (.vfSeq ch) from rfl, veClose_push,
    veCloseFrame_eq]

theorem veStrEnd_push (e : VEnc) (sc : List (IntN 64)) :
    veStrEnd (e.push (.vfStr sc)) = veEmit e (.vStr (cpsStr sc.reverse [])) := by
  rw [veStrEnd, show "write_str_end".toList = veCloser (.vfStr sc) from rfl, veClose_push,
    veCloseFrame_eq]

theorem veBytesEnd_push (e : VEnc) (bc : List (IntN 64)) :
    veBytesEnd (e.push (.vfBytes bc)) = veEmit e (.vBytes bc.reverse) := by
  rw [veBytesEnd, show "write_bytes_end".toList = veCloser (.vfBytes bc) from rfl, veClose_push,
    veCloseFrame_eq]

theorem veMapEnd_push (e : VEnc) (m : VeMap) :
    veMapEnd (e.push (.vfMap m)) = veEmit e (.vMap m.entries.reverse) := by
  rw [veMapEnd, show "write_map_end".toList = veCloser (.vfMap m) from rfl, veClose_push,
    veCloseFrame_eq]

theorem veStructEnd_push (e : VEnc) (sf : VeStruct) :
    veStructEnd (e.push (.vfStruct sf)) = veEmit e (.vStruct ⟨sf.name, sf.fields.reverse⟩) := by
  rw [veStructEnd, show "write_struct_end".toList = veCloser (.vfStruct sf) from rfl,
    veClose_push,
    veCloseFrame_eq]

theorem veVariantEnd_push (e : VEnc) (p : VPayload) :
    veVariantEnd (e.push (.vfVariantDone p)) = veEmit e (.vVariant p) := by
  rw [veVariantEnd, show "write_variant_end".toList = veCloser (.vfVariantDone p) from rfl,
    veClose_push,
    veCloseFrame_eq]

/-- A state with nothing open and one result is that result. -/
theorem veResult_single (v : Value) : veResult ⟨[], [v]⟩ = .ok v := by
  simp [veResult]

end Serial

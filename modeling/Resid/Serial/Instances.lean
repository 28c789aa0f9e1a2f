import Mathlib.Data.Finmap
import Resid.Lib.Recursion
import Resid.Runtime.Dec
import Resid.Runtime.Fixed
import Resid.Serial.Protocol

/-!
# The builtin instances

Each type maps onto the verbs once, for every format.  Integers widen to the 64-bit or
128-bit verbs and are range-checked on the way back, a decimal is its text, fixed-capacity
values are streamed, sets are sequences and maps entries in sorted order, and a result is
a variant.
-/

noncomputable section

namespace Serial

open Runtime Recursion

variable {F : Type}

/-! ## What the run time supplies -/

/-- The `compare` of `Ord(T)`. -/
class OrdBehavior (T : Type) where
  compare : T → T → Int

/-- The order in which the run time lists the elements of a set. -/
class Listing (T : Type) where
  toList : Finset T → List T
  toList_perm : ∀ s : Finset T, (toList s : Multiset T) = s.val

/-- The text of a one-element list. -/
class ShowList (T : Type) where
  shown : T → Str

/-- The value a slot of a list has before it is filled, if the type has one. -/
class ZeroValue (T : Type) where
  zero? : Option T

/-- The elements of a set in order. -/
def sortedList {T : Type} [OrdBehavior T] [Listing T] (s : Finset T) : List T :=
  (Listing.toList s).mergeSort fun a b => OrdBehavior.compare a b ≤ 0

theorem mem_sortedList {T : Type} [OrdBehavior T] [Listing T] {s : Finset T} {x : T} :
    x ∈ sortedList s ↔ x ∈ s := by
  rw [sortedList, List.mem_mergeSort, ← Finset.mem_val, ← Listing.toList_perm s,
    Multiset.mem_coe]

/-! ## Scalars -/

def encBool [Encoder F] (x : Bool) (s : F) : Result F := Encoder.writeBool s x

def decBool [Decoder F] (s : F) : Result (Parsed Bool F) := Decoder.readBool s

instance [Encoder F] : Encode Bool F := ⟨encBool⟩

instance [Decoder F] : Decode Bool F := ⟨fun s => some (decBool s)⟩

/-- The widths the 64-bit verbs carry. -/
inductive Width
  | w8 | w16 | w32 | w64
  deriving DecidableEq

def Width.bits : Width → Nat
  | .w8 => 8
  | .w16 => 16
  | .w32 => 32
  | .w64 => 64

theorem Width.bits_le (w : Width) : w.bits ≤ 64 := by
  cases w <;> decide

def encInt [Encoder F] {w : Width} (x : IntN w.bits) (s : F) : Result F :=
  Encoder.writeInt s (x.widen w.bits_le)

/-- Back to the width it came from; a 64-bit integer needs no check. -/
def decInt [Decoder F] (w : Width) (s : F) : Result (Parsed (IntN w.bits) F) := do
  let p ← Decoder.readInt s
  match IntN.ofInt? w.bits p.value.val with
  | some v => parsed v p.rest
  | none =>
    .error (invalidValue (intText p.value.val)
      ("an Int(".toList ++ intText w.bits ++ ")".toList))

instance [Encoder F] (w : Width) : Encode (IntN w.bits) F := ⟨encInt⟩

instance [Decoder F] (w : Width) : Decode (IntN w.bits) F := ⟨fun s => some (decInt w s)⟩

def encI128 [Encoder F] (x : IntN 128) (s : F) : Result F := Encoder.writeI128 s x

def decI128 [Decoder F] (s : F) : Result (Parsed (IntN 128) F) := Decoder.readI128 s

instance [Encoder F] : Encode (IntN 128) F := ⟨encI128⟩

instance [Decoder F] : Decode (IntN 128) F := ⟨fun s => some (decI128 s)⟩

def encUint [Encoder F] {w : Width} (x : UIntN w.bits) (s : F) : Result F :=
  Encoder.writeUint s (x.widen w.bits_le)

def decUint [Decoder F] (w : Width) (s : F) : Result (Parsed (UIntN w.bits) F) := do
  let p ← Decoder.readUint s
  match UIntN.ofInt? w.bits p.value.val with
  | some v => parsed v p.rest
  | none =>
    .error (invalidValue (intText p.value.val)
      ("a UInt(".toList ++ intText w.bits ++ ")".toList))

instance [Encoder F] (w : Width) : Encode (UIntN w.bits) F := ⟨encUint⟩

instance [Decoder F] (w : Width) : Decode (UIntN w.bits) F := ⟨fun s => some (decUint w s)⟩

def encU128 [Encoder F] (x : UIntN 128) (s : F) : Result F := Encoder.writeU128 s x

def decU128 [Decoder F] (s : F) : Result (Parsed (UIntN 128) F) := Decoder.readU128 s

instance [Encoder F] : Encode (UIntN 128) F := ⟨encU128⟩

instance [Decoder F] : Decode (UIntN 128) F := ⟨fun s => some (decU128 s)⟩

/-! ## Decimals -/

def encDec [Encoder F] {p : Prec} (x : Dec p) (s : F) : Result F := Encoder.writeStr s (format x)

def decimalDigits (t : Str) (i : Nat) (digits : Nat) (dot : Bool) : Bool :=
  if i ≥ strLen t then digits > 0 && strCharAt t (i - 1) != 46
  else
    let c := strCharAt t i
    if c ≥ 48 ∧ c ≤ 57 then decimalDigits t (i + 1) (digits + 1) dot
    else if c = 46 ∧ !dot ∧ digits > 0 then decimalDigits t (i + 1) digits true
    else false
termination_by strLen t - i

/-- Whether `t` is [+-]digits[.digits]. -/
def isDecimalText (t : Str) : Bool :=
  if strLen t = 0 then false
  else
    let c0 := strCharAt t 0
    let start := if c0 = 43 ∨ c0 = 45 then 1 else 0
    decimalDigits t start 0 false

theorem decimalDigits_digit {t r : Str} {i : Nat} {c : Char} (n : Nat) (dot : Bool)
    (h : t.drop i = c :: r) (hc : c.isDigit = true) :
    decimalDigits t i n dot = decimalDigits t (i + 1) (n + 1) dot := by
  have hlt := lt_of_drop h
  have hcode := (Decimal.isDigit_iff c).1 hc
  conv_lhs => rw [decimalDigits]
  rw [if_neg (by omega), strCharAt_of_drop h, if_pos (by omega)]

/-- A run of digits up to the end of the text. -/
theorem decimalDigits_last {t ds : Str} (n : Nat) (dot : Bool) :
    ∀ {i : Nat}, t.drop i = ds → ds ≠ [] → Decimal.AllDigits ds →
      decimalDigits t i n dot = true := by
  induction ds generalizing n with
  | nil =>
    intro i _ hne
    exact absurd rfl hne
  | cons c ds ih =>
    intro i h _ hds
    have hc := hds c List.mem_cons_self
    rw [decimalDigits_digit n dot h hc]
    have hrest := drop_succ_of_drop h
    cases ds with
    | nil =>
      have hend := strLen_le_of_drop hrest
      have hcode := (Decimal.isDigit_iff c).1 hc
      rw [decimalDigits, if_pos hend, Nat.add_sub_cancel, strCharAt_of_drop h]
      simp only [Bool.and_eq_true, decide_eq_true_eq, bne_iff_ne, ne_eq]
      omega
    | cons c' ds' =>
      exact ih (n + 1) hrest (List.cons_ne_nil c' ds')
        fun x hx => hds x (List.mem_cons_of_mem c hx)

/-- A run of digits up to the point. -/
theorem decimalDigits_point {t ds fs : Str} (n : Nat) :
    ∀ {i : Nat}, t.drop i = ds ++ '.' :: fs → (0 < n ∨ ds ≠ []) → Decimal.AllDigits ds →
      ∃ k m, t.drop k = fs ∧ decimalDigits t i n false = decimalDigits t k m true := by
  induction ds generalizing n with
  | nil =>
    intro i h hn _
    have hlt := lt_of_drop h
    have hpos : 0 < n := hn.resolve_right fun hne => hne rfl
    refine ⟨i + 1, n, drop_succ_of_drop h, ?_⟩
    conv_lhs => rw [decimalDigits]
    rw [if_neg (by omega), strCharAt_of_drop h, show (('.' : Char).toNat : Int) = 46 from rfl,
      if_neg (by decide), if_pos (by simpa using hpos)]
  | cons c ds ih =>
    intro i h _ hds
    have hstep := decimalDigits_digit n false h (hds c List.mem_cons_self)
    obtain ⟨k, m, hk, heq⟩ := ih (n + 1) (drop_succ_of_drop h) (Or.inl (by omega))
      fun x hx => hds x (List.mem_cons_of_mem c hx)
    exact ⟨k, m, hk, hstep.trans heq⟩

theorem decimalDigits_parts {t ds fs : Str} {i : Nat} (h : NumberParts ds fs)
    (hdrop : t.drop i = ds ++ Decimal.pointed fs) : decimalDigits t i 0 false = true := by
  by_cases hfs : fs = []
  · rw [Decimal.pointed, if_pos hfs, List.append_nil] at hdrop
    exact decimalDigits_last 0 false hdrop h.nonempty h.digits
  · rw [Decimal.pointed, if_neg hfs] at hdrop
    obtain ⟨k, m, hk, heq⟩ := decimalDigits_point 0 hdrop (Or.inr h.nonempty) h.digits
    rw [heq]
    exact decimalDigits_last m true hk hfs h.frac

/-- What a decimal prints is decimal text. -/
theorem isDecimalText_parts {ds fs : Str} (neg : Bool) (h : NumberParts ds fs) :
    isDecimalText (signText neg ++ (ds ++ Decimal.pointed fs)) = true := by
  obtain ⟨c, r, hcr, hc⟩ := h.head
  have hcode := (Decimal.isDigit_iff c).1 hc
  rw [isDecimalText]
  cases neg with
  | true =>
    have hdrop : (signText true ++ (ds ++ Decimal.pointed fs)).drop 1 =
        ds ++ Decimal.pointed fs := rfl
    have hminus : strCharAt (signText true ++ (ds ++ Decimal.pointed fs)) 0 = 45 := rfl
    rw [if_neg (by simp [strLen, signText]), hminus]
    exact decimalDigits_parts h hdrop
  | false =>
    have hdrop : (signText false ++ (ds ++ Decimal.pointed fs)).drop 0 =
        ds ++ Decimal.pointed fs := rfl
    have hfirst : strCharAt (signText false ++ (ds ++ Decimal.pointed fs)) 0 = c.toNat := by
      exact strCharAt_of_drop (hdrop.trans hcr)
    have hlt : 0 < strLen (signText false ++ (ds ++ Decimal.pointed fs)) :=
      lt_of_drop (hdrop.trans hcr)
    rw [if_neg (by omega), hfirst]
    show decimalDigits _ (if (c.toNat : Int) = 43 ∨ (c.toNat : Int) = 45 then 1 else 0) 0 false = _
    rw [if_neg (by omega)]
    exact decimalDigits_parts h hdrop

/-- A decimal is read at 34 digits and then rounded to its own precision. -/
def decDec [Decoder F] (p : Prec) (s : F) : Option (Result (Parsed (Dec p) F)) :=
  match Decoder.readStr s with
  | .error e => some (.error e)
  | .ok t =>
    if !isDecimalText t.value then
      some (.error (invalidValue ("\"".toList ++ t.value ++ "\"".toList) "decimal text".toList))
    else do
      let wide ← fromStr t.value p34
      let v ← convert p wide
      some (parsed v t.rest)

instance [Encoder F] (p : Prec) : Encode (Dec p) F := ⟨encDec⟩

instance [Decoder F] (p : Prec) : Decode (Dec p) F := ⟨decDec p⟩

/-! ## Text, bytes and unit -/

def encStr [Encoder F] (x : Str) (s : F) : Result F := Encoder.writeStr s x

def decStr [Decoder F] (s : F) : Result (Parsed Str F) := Decoder.readStr s

instance [Encoder F] : Encode Str F := ⟨encStr⟩

instance [Decoder F] : Decode Str F := ⟨fun s => some (decStr s)⟩

/-- A list of integers that encodes as bytes. -/
structure ByteBuf where
  bytes : List (IntN 64)
  deriving DecidableEq

def encBytebuf [Encoder F] (x : ByteBuf) (s : F) : Result F := Encoder.writeBytes s x.bytes

def decBytebuf [Decoder F] (s : F) : Result (Parsed ByteBuf F) := do
  let p ← Decoder.readBytes s
  parsed ⟨p.value⟩ p.rest

instance [Encoder F] : Encode ByteBuf F := ⟨encBytebuf⟩

instance [Decoder F] : Decode ByteBuf F := ⟨fun s => some (decBytebuf s)⟩

/-- The record that stands in for `()`. -/
structure UnitVal where
  unit : Bool
  deriving DecidableEq

/-- The one unit value. -/
def unitVal : UnitVal := ⟨true⟩

def encUnit [Encoder F] (_x : UnitVal) (s : F) : Result F := Encoder.writeUnit s

def decUnit [Decoder F] (s : F) : Result (Parsed UnitVal F) := do
  let s1 ← Decoder.readUnit s
  parsed unitVal s1

instance [Encoder F] : Encode UnitVal F := ⟨encUnit⟩

instance [Decoder F] : Decode UnitVal F := ⟨fun s => some (decUnit s)⟩

/-! ## Options -/

def encOption {T : Type} [Encoder F] [Encode T F] (x : Option T) (s : F) : Result F :=
  match x with
  | some v => do
    let s1 ← Encoder.writeSome s
    encode v s1
  | none => Encoder.writeNone s

def decOption {T : Type} [Decoder F] [Decode T F] (s : F) : Option (Result (Parsed (Option T) F)) :=
  match Decoder.readOption s with
  | .error e => some (.error e)
  | .ok tag =>
    if !tag.value then some (parsed none tag.rest)
    else do
      let r : Result (Parsed T F) ← decode tag.rest
      match r with
      | .error e => some (.error e)
      | .ok p => some (parsed (some p.value) p.rest)

instance {T : Type} [Encoder F] [Encode T F] : Encode (Option T) F := ⟨encOption⟩

instance {T : Type} [Decoder F] [Decode T F] : Decode (Option T) F := ⟨decOption⟩

/-! ## Sequences -/

/-- A collection whose items are read in place, by position. -/
class Indexed (C : Type) (T : outParam Type) where
  items : C → List T

/-- A collection made from its items through a builder; a builder that overflowed answers
the length it was asked for. -/
class Build (C : Type) (B : outParam Type) (T : outParam Type) where
  builder : B
  add : B → T → B
  built : B → Except Nat C

instance {T : Type} : Indexed (List T) T := ⟨id⟩

instance {T : Type} {n : Nat} : Indexed (FixedList T n) T := ⟨FixedList.items⟩

instance {n : Nat} : Indexed (FixedStr n) (IntN 64) := ⟨fun x => x.text.map charCode⟩

instance {n : Nat} : Indexed (FixedBytes n) (IntN 64) := ⟨fun x => x.bytes.map byteCode⟩

instance {T : Type} : Build (List T) (List T) T where
  builder := []
  add b x := b ++ [x]
  built b := .ok b

instance {T : Type} [ZeroValue T] {n : Nat} : Build (FixedList T n) (ListBufN T n) T where
  builder := FixedBuf.empty
  add := FixedBuf.push
  built := ListBufN.tryFinish ZeroValue.zero?

/-- One sequence element at index `i`. -/
def writeElem {T : Type} [Encoder F] [Encode T F] (s : F) (i : Nat) (v : T) : Result F := do
  let s1 ← Encoder.writeSeqElem s
  atIndex (encode v s1) i

/-- The items from index `i` on. -/
def writeItemsAt {T : Type} [Encoder F] [Encode T F] : List T → Nat → F → Result F
  | [], _, s => .ok s
  | x :: xs, i, s => do
    let s1 ← writeElem s i x
    writeItemsAt xs (i + 1) s1

def writeItems {C T : Type} [Encoder F] [Indexed C T] [Encode T F] (xs : C) (s : F) :
    Result F := do
  let s1 ← Encoder.writeSeqBegin s (Indexed.items xs).length
  let s2 ← writeItemsAt (Indexed.items xs) 0 s1
  Encoder.writeSeqEnd s2

/-- The built value and how many elements went in. -/
structure Counted (C : Type) where
  value : C
  count : Nat

def readItemsDone {C B T : Type} [Build C B T] (s : F) (expect : Str) (n : Nat) (acc : B) :
    Result (Parsed (Counted C) F) :=
  match (Build.built acc : Except Nat C) with
  | .ok c => parsed ⟨c, n⟩ s
  | .error want => .error (invalidLength want expect)

def readItemsStep {C B T : Type} [Decoder F] [Build C B T] [Decode T F] (expect : Str)
    (readItemsAt : F × Nat × B → Option (Result (Parsed (Counted C) F))) :
    F × Nat × B → Option (Result (Parsed (Counted C) F)) := fun (s, i, acc) =>
  match Decoder.readSeqNext s with
  | .error e => some (.error e)
  | .ok more =>
    if !more.value then some (readItemsDone more.rest expect i acc)
    else do
      let r : Result (Parsed T F) ← decode more.rest
      match atIndex r i with
      | .error e => some (.error e)
      | .ok el => readItemsAt (el.rest, i + 1, Build.add C acc el.value)

def readItemsAt {C B T : Type} [Decoder F] [Build C B T] [Decode T F] (s : F) (expect : Str)
    (i : Nat) (acc : B) : Option (Result (Parsed (Counted C) F)) :=
  fix (readItemsStep expect) (s, i, acc)

theorem readItemsAt_eq {C B T : Type} [Decoder F] [Build C B T] [Decode T F] (s : F)
    (expect : Str) (i : Nat) (acc : B) : (readItemsAt s expect i acc : Option (Result _)) =
      readItemsStep (C := C) expect (fun x => readItemsAt x.1 expect x.2.1 x.2.2) (s, i, acc) := by
  refine fix_eq ?_ (s, i, acc)
  rintro ⟨s, i, acc⟩
  dsimp only [readItemsStep]
  cases (Decoder.readSeqNext s : Result (Parsed Bool F)) with
  | error e => exact .const _
  | ok more =>
    refine .ite (.const _) (.bind (decode more.rest) fun r => ?_)
    cases atIndex r i with
    | error e => exact .const _
    | ok el => exact .tail _

def readItems {C B T : Type} [Decoder F] [Build C B T] [Decode T F] (s : F) (expect : Str) :
    Option (Result (Parsed (Counted C) F)) :=
  match Decoder.readSeqBegin s with
  | .error e => some (.error e)
  | .ok n => readItemsAt n.rest expect 0 (Build.builder C)

def encList {T : Type} [Encoder F] [Encode T F] (xs : List T) (s : F) : Result F :=
  writeItems xs s

def decList {T : Type} [Decoder F] [Decode T F] (s : F) : Option (Result (Parsed (List T) F)) := do
  let r : Result (Parsed (Counted (List T)) F) ← readItems s "a sequence".toList
  match r with
  | .error e => some (.error e)
  | .ok p => some (parsed p.value.value p.rest)

instance {T : Type} [Encoder F] [Encode T F] : Encode (List T) F := ⟨encList⟩

instance {T : Type} [Decoder F] [Decode T F] : Decode (List T) F := ⟨decList⟩

def encFixedList {T : Type} {n : Nat} [Encoder F] [Encode T F] (xs : FixedList T n) (s : F) :
    Result F := writeItems xs s

/-- A fixed list must get exactly as many elements as it holds. -/
def decFixedList {T : Type} (n : Nat) [Decoder F] [Decode T F] [ZeroValue T] (s : F) :
    Option (Result (Parsed (FixedList T n) F)) := do
  let expect := "a sequence of ".toList ++ intText n
  let r : Result (Parsed (Counted (FixedList T n)) F) ← readItems s expect
  match r with
  | .error e => some (.error e)
  | .ok p =>
    if p.value.count ≠ n then some (.error (invalidLength p.value.count expect))
    else some (parsed p.value.value p.rest)

instance {T : Type} {n : Nat} [Encoder F] [Encode T F] : Encode (FixedList T n) F :=
  ⟨encFixedList⟩

instance {T : Type} {n : Nat} [Decoder F] [Decode T F] [ZeroValue T] :
    Decode (FixedList T n) F := ⟨decFixedList n⟩

/-! ## Streamed text and bytes -/

def writeStrChars [Encoder F] : List (IntN 64) → F → Result F
  | [], s => .ok s
  | cp :: cps, s => do
    let s1 ← Encoder.writeStrChar s cp
    writeStrChars cps s1

def encFixedStr {n : Nat} [Encoder F] (x : FixedStr n) (s : F) : Result F := do
  let s1 ← Encoder.writeStrBegin s (Indexed.items x).length (utf8Count x.text)
  let s2 ← writeStrChars (Indexed.items x) s1
  Encoder.writeStrEnd s2

def decFixedStrStep {n : Nat} [Decoder F]
    (decFixedStrAt : F × StrBufN n → Option (Result (Parsed (FixedStr n) F))) :
    F × StrBufN n → Option (Result (Parsed (FixedStr n) F)) := fun (s, acc) =>
  match Decoder.readStrNext s with
  | .error e => some (.error e)
  | .ok c =>
    if c.value.val ≥ 0 then decFixedStrAt (c.rest, acc.push (codeChar c.value.val))
    else match acc.tryFinish with
      | .ok x => some (parsed x c.rest)
      | .error want =>
        some (.error (invalidLength want
          ("a string of at most ".toList ++ intText n ++ " bytes".toList)))

def decFixedStrAt {n : Nat} [Decoder F] (s : F) (acc : StrBufN n) :
    Option (Result (Parsed (FixedStr n) F)) := fix decFixedStrStep (s, acc)

theorem decFixedStrAt_eq {n : Nat} [Decoder F] (s : F) (acc : StrBufN n) :
    decFixedStrAt s acc = decFixedStrStep (fun x => decFixedStrAt x.1 x.2) (s, acc) := by
  refine fix_eq ?_ (s, acc)
  rintro ⟨s, acc⟩
  dsimp only [decFixedStrStep]
  cases (Decoder.readStrNext s : Result (Parsed (IntN 64) F)) with
  | error e => exact .const _
  | ok c => exact .ite (.tail _) (.const _)

def decFixedStr (n : Nat) [Decoder F] (s : F) : Option (Result (Parsed (FixedStr n) F)) :=
  match Decoder.readStrBegin s with
  | .error e => some (.error e)
  | .ok p => decFixedStrAt p.rest FixedBuf.empty

instance {n : Nat} [Encoder F] : Encode (FixedStr n) F := ⟨encFixedStr⟩

instance {n : Nat} [Decoder F] : Decode (FixedStr n) F := ⟨decFixedStr n⟩

def writeBytesItems [Encoder F] : List (IntN 64) → F → Result F
  | [], s => .ok s
  | b :: bs, s => do
    let s1 ← Encoder.writeByte s b
    writeBytesItems bs s1

def encFixedBytes {n : Nat} [Encoder F] (x : FixedBytes n) (s : F) : Result F := do
  let s1 ← Encoder.writeBytesBegin s (Indexed.items x).length
  let s2 ← writeBytesItems (Indexed.items x) s1
  Encoder.writeBytesEnd s2

def decFixedBytesStep {n : Nat} [Decoder F]
    (decFixedBytesAt : F × BytesBufN n → Option (Result (Parsed (FixedBytes n) F))) :
    F × BytesBufN n → Option (Result (Parsed (FixedBytes n) F)) := fun (s, acc) =>
  match Decoder.readBytesNext s with
  | .error e => some (.error e)
  | .ok c =>
    if c.value.val ≥ 0 then
      if c.value.val > 255 then
        some (.error (invalidValue (intText c.value.val) "a byte".toList))
      else decFixedBytesAt (c.rest, acc.push (UInt8.ofNat c.value.val.toNat))
    else match acc.tryFinish with
      | .ok x => some (parsed x c.rest)
      | .error want =>
        some (.error (invalidLength want ("at most ".toList ++ intText n ++ " bytes".toList)))

def decFixedBytesAt {n : Nat} [Decoder F] (s : F) (acc : BytesBufN n) :
    Option (Result (Parsed (FixedBytes n) F)) := fix decFixedBytesStep (s, acc)

theorem decFixedBytesAt_eq {n : Nat} [Decoder F] (s : F) (acc : BytesBufN n) :
    decFixedBytesAt s acc = decFixedBytesStep (fun x => decFixedBytesAt x.1 x.2) (s, acc) := by
  refine fix_eq ?_ (s, acc)
  rintro ⟨s, acc⟩
  dsimp only [decFixedBytesStep]
  cases (Decoder.readBytesNext s : Result (Parsed (IntN 64) F)) with
  | error e => exact .const _
  | ok c => exact .ite (.ite (.const _) (.tail _)) (.const _)

def decFixedBytes (n : Nat) [Decoder F] (s : F) : Option (Result (Parsed (FixedBytes n) F)) :=
  match Decoder.readBytesBegin s with
  | .error e => some (.error e)
  | .ok p => decFixedBytesAt p.rest FixedBuf.empty

instance {n : Nat} [Encoder F] : Encode (FixedBytes n) F := ⟨encFixedBytes⟩

instance {n : Nat} [Decoder F] : Decode (FixedBytes n) F := ⟨decFixedBytes n⟩

/-! ## Sets and maps -/

def encSet {T : Type} [Encoder F] [Encode T F] [OrdBehavior T] [Listing T] (xs : Finset T) (s : F) :
    Result F := encList (sortedList xs) s

def setFrom {T : Type} [DecidableEq T] (xs : List T) (acc : Finset T) : Finset T :=
  xs.foldl (fun acc x => insert x acc) acc

def decSet {T : Type} [Decoder F] [Decode T F] [DecidableEq T] (s : F) :
    Option (Result (Parsed (Finset T) F)) := do
  let r : Result (Parsed (List T) F) ← decList s
  match r with
  | .error e => some (.error e)
  | .ok p => some (parsed (setFrom p.value ∅) p.rest)

instance {T : Type} [Encoder F] [Encode T F] [OrdBehavior T] [Listing T] : Encode (Finset T) F :=
  ⟨encSet⟩

instance {T : Type} [Decoder F] [Decode T F] [DecidableEq T] : Decode (Finset T) F := ⟨decSet⟩

abbrev MapOf (K V : Type) := Finmap fun _ : K => V

/-- One map entry. -/
def writeEntry {K V : Type} [Encoder F] [Encode K F] [Encode V F] (s : F) (k : K) (v : V) :
    Result F := do
  let s1 ← Encoder.writeMapKey s
  let s2 ← encode k s1
  let s3 ← Encoder.writeMapValue s2
  encode v s3

def encMapAt {K V : Type} [Encoder F] [Encode K F] [Encode V F] [DecidableEq K]
    (m : MapOf K V) : List K → F → Result F
  | [], s => .ok s
  | k :: keys, s =>
    match m.lookup k with
    | some v => do
      let s1 ← writeEntry s k v
      encMapAt m keys s1
    | none => encMapAt m keys s

def encMap {K V : Type} [Encoder F] [Encode K F] [Encode V F] [DecidableEq K] [OrdBehavior K]
    [Listing K] (m : MapOf K V) (s : F) : Result F := do
  let keys := sortedList m.keys
  let s1 ← Encoder.writeMapBegin s keys.length
  let s2 ← encMapAt m keys s1
  Encoder.writeMapEnd s2

def decMapStep {K V : Type} [Decoder F] [Decode K F] [Decode V F] [DecidableEq K] [ShowList K]
    (decMapAt : F × MapOf K V → Option (Result (Parsed (MapOf K V) F))) :
    F × MapOf K V → Option (Result (Parsed (MapOf K V) F)) := fun (s, acc) =>
  match Decoder.readMapNext s with
  | .error e => some (.error e)
  | .ok more =>
    if !more.value then some (parsed acc more.rest)
    else do
      let rk : Result (Parsed K F) ← decode more.rest
      match rk with
      | .error e => some (.error e)
      | .ok k =>
        match Decoder.readMapValue k.rest with
        | .error e => some (.error e)
        | .ok s1 => do
          let r : Result (Parsed V F) ← decode s1
          let shown := ShowList.shown k.value
          match atKey r (strSlice shown 1 (strLen shown - 1)) with
          | .error e => some (.error e)
          | .ok v => decMapAt (v.rest, acc.insert k.value v.value)

def decMapAt {K V : Type} [Decoder F] [Decode K F] [Decode V F] [DecidableEq K] [ShowList K]
    (s : F) (acc : MapOf K V) : Option (Result (Parsed (MapOf K V) F)) := fix decMapStep (s, acc)

theorem decMapAt_eq {K V : Type} [Decoder F] [Decode K F] [Decode V F] [DecidableEq K]
    [ShowList K] (s : F) (acc : MapOf K V) :
    decMapAt s acc = decMapStep (fun x => decMapAt x.1 x.2) (s, acc) := by
  refine fix_eq ?_ (s, acc)
  rintro ⟨s, acc⟩
  dsimp only [decMapStep]
  cases (Decoder.readMapNext s : Result (Parsed Bool F)) with
  | error e => exact .const _
  | ok more =>
    refine .ite (.const _) (.bind (decode more.rest) fun rk => ?_)
    cases rk with
    | error e => exact .const _
    | ok k =>
      dsimp only
      cases Decoder.readMapValue k.rest with
      | error e => exact .const _
      | ok s1 =>
        refine .bind (decode s1) fun r => ?_
        cases atKey r _ with
        | error e => exact .const _
        | ok v => exact .tail _

def decMap {K V : Type} [Decoder F] [Decode K F] [Decode V F] [DecidableEq K] [ShowList K]
    (s : F) : Option (Result (Parsed (MapOf K V) F)) :=
  match Decoder.readMapBegin s with
  | .error e => some (.error e)
  | .ok n => decMapAt n.rest ∅

instance {K V : Type} [Encoder F] [Encode K F] [Encode V F] [DecidableEq K] [OrdBehavior K]
    [Listing K] : Encode (MapOf K V) F := ⟨encMap⟩

instance {K V : Type} [Decoder F] [Decode K F] [Decode V F] [DecidableEq K] [ShowList K] :
    Decode (MapOf K V) F := ⟨decMap⟩

/-! ## Results -/

inductive ResultVal (T E : Type)
  | ok (v : T)
  | err (e : E)
  deriving DecidableEq

def resultVariants : List Str := ["Ok".toList, "Err".toList]

/-- A variant with one payload: begin, payload, end. -/
def writeNewtypeVariant {T : Type} [Encoder F] [Encode T F] (s : F) (enumName : Str) (index : Int)
    (variant : Str) (payload : T) : Result F := do
  let s1 ← Encoder.writeVariantBegin s enumName index variant
  let s2 ← atVariant (encode payload s1) variant
  Encoder.writeVariantEnd s2

def encResult {T E : Type} [Encoder F] [Encode T F] [Encode E F] (r : ResultVal T E) (s : F) :
    Result F :=
  match r with
  | .ok v => writeNewtypeVariant s "Result".toList 0 "Ok".toList v
  | .err e => writeNewtypeVariant s "Result".toList 1 "Err".toList e

def readNewtypePayload {T : Type} [Decoder F] [Decode T F] (s : F) (variant : Str) :
    Option (Result (Parsed T F)) :=
  match Decoder.readVariantPayload s with
  | .error e => some (.error e)
  | .ok s1 => do
    let r : Result (Parsed T F) ← decode s1
    match atVariant r variant with
    | .error e => some (.error e)
    | .ok p =>
      match Decoder.readVariantEnd p.rest with
      | .error e => some (.error e)
      | .ok s2 => some (parsed p.value s2)

def decResult {T E : Type} [Decoder F] [Decode T F] [Decode E F] (s : F) :
    Option (Result (Parsed (ResultVal T E) F)) :=
  match Decoder.readVariant s "Result".toList resultVariants with
  | .error e => some (.error e)
  | .ok v =>
    if v.value = 0 then do
      let r : Result (Parsed T F) ← readNewtypePayload v.rest "Ok".toList
      match r with
      | .error e => some (.error e)
      | .ok p => some (parsed (.ok p.value) p.rest)
    else do
      let r : Result (Parsed E F) ← readNewtypePayload v.rest "Err".toList
      match r with
      | .error e => some (.error e)
      | .ok p => some (parsed (.err p.value) p.rest)

instance {T E : Type} [Encoder F] [Encode T F] [Encode E F] : Encode (ResultVal T E) F :=
  ⟨encResult⟩

instance {T E : Type} [Decoder F] [Decode T F] [Decode E F] : Decode (ResultVal T E) F :=
  ⟨decResult⟩

end Serial

end

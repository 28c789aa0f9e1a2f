import Resid.Lib.Retract
import Resid.Serial.Instances
import Resid.Value.Identity

/-!
# How the builtin types travel

A `Travel T` says what tree each value of `T` is encoded as and what the decoder makes of
that tree, `none` where it traps; what comes back once comes back unchanged ever after.
There is one for each builtin type, and one for each type former over those of its parts.

    (h.back x).map ok = fromValue (h.tree x)                         (Travel.fromValue)
-/

noncomputable section

namespace Serial

open Runtime Loops Retract

/-- The outcome of decoding onto a stack that leaves `rest`. -/
def answer {T : Type} (rest : List VdTok) (x : Option T) : Option (Result (Parsed T VDec)) :=
  x.map fun y => .ok ⟨y, ⟨rest⟩⟩

structure Travel (T : Type) [Encode T VEnc] [Decode T VDec] where
  tree : T → Value
  back : T → Option T
  encodes : ∀ x, EncodesAs x (tree x)
  decodes : ∀ x rest, (decode (⟨.tkVal (tree x) :: rest⟩ : VDec)) = answer rest (back x)
  settles : Settles back

/-- What comes out of encoding and decoding again. -/
theorem Travel.fromValue {T : Type} [Encode T VEnc] [Decode T VDec] (h : Travel T) (x : T) :
    toValue x = .ok (h.tree x) ∧
      (fromValue (h.tree x) : Option (Result T)) = (h.back x).map .ok := by
  constructor
  · exact (h.encodes x).toValue
  · rw [Serial.fromValue, decodeValue, valueDecoder, h.decodes x []]
    cases h.back x with
    | none => rfl
    | some y => rfl

/-- Encoding into a value and decoding again. -/
def RoundTrips {T : Type} [Encode T VEnc] [Decode T VDec] (x : T) : Prop :=
  ∃ v, toValue x = .ok v ∧ fromValue v = some (.ok x)

theorem Travel.roundTrips_iff {T : Type} [Encode T VEnc] [Decode T VDec] (h : Travel T) (x : T) :
    RoundTrips x ↔ h.back x = some x := by
  obtain ⟨hto, hfrom⟩ := h.fromValue x
  constructor
  · rintro ⟨v, hv, hx⟩
    rw [hto] at hv
    cases hv
    rw [hfrom] at hx
    obtain ⟨y, hy, heq⟩ := Option.map_eq_some_iff.1 hx
    cases heq
    exact hy
  · intro hx
    refine ⟨h.tree x, hto, ?_⟩
    rw [hfrom, hx]
    rfl

/-- A type whose values all come back. -/
def Travel.exact {T : Type} [Encode T VEnc] [Decode T VDec] (tree : T → Value)
    (encodes : ∀ x : T, EncodesAs x (tree x)) (decodes : ∀ x : T, DecodesAs (tree x) x) :
    Travel T where
  tree := tree
  back := some
  encodes := encodes
  decodes := decodes
  settles := settles_some

/-! ## Scalars -/

def travelBool : Travel Bool := .exact .vBool (fun _ _ => rfl) (fun _ _ => rfl)

def travelInt (w : Width) : Travel (IntN w.bits) :=
  .exact (fun x => .vInt (x.widen w.bits_le)) (fun _ _ => rfl) fun x rest => by
    show some (vdInt ⟨.tkVal (.vInt (x.widen w.bits_le)) :: rest⟩ >>= _) = _
    rw [vdInt_vInt, ok_bind]
    simp only [IntN.widen_val, IntN.ofInt?_val]
    rfl

def travelUint (w : Width) : Travel (UIntN w.bits) :=
  .exact (fun x => .vUInt (x.widen w.bits_le)) (fun _ _ => rfl) fun x rest => by
    show some (vdUint ⟨.tkVal (.vUInt (x.widen w.bits_le)) :: rest⟩ >>= _) = _
    rw [vdUint_vUInt, ok_bind]
    simp only [UIntN.widen_val, UIntN.ofInt?_val]
    rfl

def travelI128 : Travel (IntN 128) := .exact .vI128 (fun _ _ => rfl) (fun _ _ => rfl)

def travelU128 : Travel (UIntN 128) := .exact .vU128 (fun _ _ => rfl) (fun _ _ => rfl)

def travelStr : Travel Str := .exact .vStr (fun _ _ => rfl) (fun _ _ => rfl)

def travelByteBuf : Travel ByteBuf :=
  .exact (fun x => .vBytes x.bytes) (fun _ _ => rfl) (fun _ _ => rfl)

/-- Every unit value comes back as the one unit value. -/
def travelUnit : Travel UnitVal where
  tree _ := .vUnit
  back _ := some unitVal
  encodes _ _ := rfl
  decodes _ _ := rfl
  settles := by
    intro x y h
    cases h
    rfl

/-- A decimal comes back rounded to 34 digits. -/
def travelDec (p : Prec) : Travel (Dec p) where
  tree x := .vStr (format x)
  back := reread
  encodes _ _ := rfl
  decodes x rest := by
    show decDec p (⟨.tkVal (.vStr (format x)) :: rest⟩ : VDec) = _
    have hread : Decoder.readStr (⟨.tkVal (.vStr (format x)) :: rest⟩ : VDec) =
        .ok ⟨format x, ⟨rest⟩⟩ := rfl
    have htext : isDecimalText (format x) = true :=
      isDecimalText_parts x.isNeg (numberParts_format x)
    rw [decDec, hread]
    show (if !isDecimalText (format x) then _ else fromStr (format x) p34 >>= fun wide =>
      convert p wide >>= fun v => some (parsed v (⟨rest⟩ : VDec))) = _
    rw [htext, if_neg (by decide), fromStr_format, answer, reread]
    cases convert p34 x with
    | none => rfl
    | some wide =>
      show (convert p wide >>= _) = Option.map _ (convert p wide)
      cases convert p wide with
      | none => rfl
      | some v => rfl
  settles := fun _ _ h => (reread_eq_some_iff _).2 (fits34_of_reread h)

/-! ## Options -/

variable {T : Type} [Encode T VEnc] [Decode T VDec]

def Travel.option (h : Travel T) : Travel (Option T) where
  tree
    | none => .vNone
    | some x => .vSome (h.tree x)
  back
    | none => some none
    | some x => (h.back x).map some
  encodes x e := by
    cases x with
    | none => rfl
    | some x => exact (h.encodes x (e.push .vfSome)).trans (veEmit_some e (h.tree x))
  decodes x rest := by
    cases x with
    | none => rfl
    | some x =>
      show ((decode (⟨.tkVal (h.tree x) :: rest⟩ : VDec) : Option (Result (Parsed T VDec))) >>= _) =
        answer rest ((h.back x).map some)
      rw [h.decodes]
      cases h.back x with
      | none => rfl
      | some y => rfl
  settles := by
    intro x y hxy
    cases x with
    | none =>
      cases hxy
      rfl
    | some x =>
      obtain ⟨z, hz, rfl⟩ := Option.map_eq_some_iff.1 hxy
      show (h.back z).map some = _
      rw [h.settles x z hz]
      rfl

/-! ## Sequences -/

theorem Travel.writeItemsAt_push (h : Travel T) (e : VEnc) (xs : List T) :
    writeItemsAt xs 0 (e.push (.vfSeq [])) = .ok (e.push (.vfSeq (xs.map h.tree).reverse)) := by
  refine (advance (fun done todo =>
    writeItemsAt todo done.length (e.push (.vfSeq (done.map h.tree).reverse))) xs ?_).trans ?_
  · intro done x todo _
    have hx : encode x (e.push (.vfSeq (done.map h.tree).reverse)) =
        .ok (e.push (.vfSeq ((done ++ [x]).map h.tree).reverse)) := by
      rw [List.map_append, List.reverse_append]
      exact (h.encodes x _).trans (veEmit_seq e _ (h.tree x))
    show (atIndex (encode x (e.push (.vfSeq (done.map h.tree).reverse))) done.length >>= _) = _
    rw [hx, atIndex_ok, ok_bind, List.length_append]
    rfl
  · rw [writeItemsAt]

theorem Travel.writeItems_eq (h : Travel T) {C : Type} [Indexed C T] (xs : C) (e : VEnc) :
    writeItems xs e = veEmit e (.vSeq ((Indexed.items xs).map h.tree)) := by
  show (writeItemsAt (Indexed.items xs) 0 (e.push (.vfSeq [])) >>= veSeqEnd) = _
  rw [h.writeItemsAt_push, ok_bind, veSeqEnd_push, List.reverse_reverse]

/-- The loop over the elements of a sequence: it reads them all, or traps at one. -/
theorem Travel.readItemsAt_tokens (h : Travel T) {C B : Type} [Build C B T]
    (rest : List VdTok) (expect : Str) (xs : List T) :
    ∀ (i : Nat) (acc : B),
      (readItemsAt (⟨xs.map (fun x => .tkVal (h.tree x)) ++ .tkSeqEnd :: rest⟩ : VDec) expect i acc :
        Option (Result (Parsed (Counted C) VDec))) =
      (xs.mapM h.back).map fun ys =>
        readItemsDone ⟨rest⟩ expect (i + xs.length) (ys.foldl (Build.add C) acc) := by
  induction xs with
  | nil =>
    intro i acc
    rw [readItemsAt_eq, readItemsStep]
    rfl
  | cons x xs ih =>
    intro i acc
    rw [readItemsAt_eq, readItemsStep]
    show ((decode (⟨.tkVal (h.tree x) :: (xs.map (fun x => .tkVal (h.tree x)) ++
      .tkSeqEnd :: rest)⟩ : VDec) : Option (Result (Parsed T VDec))) >>= _) = _
    rw [h.decodes, List.mapM_cons]
    cases h.back x with
    | none => rfl
    | some y =>
      show readItemsAt (⟨xs.map (fun x => .tkVal (h.tree x)) ++ .tkSeqEnd :: rest⟩ : VDec) expect
        (i + 1) (Build.add C acc y) = _
      rw [ih, List.length_cons, show i + 1 + xs.length = i + (xs.length + 1) by omega]
      show _ = Option.map _ (xs.mapM h.back >>= fun ys => pure (y :: ys))
      cases xs.mapM h.back with
      | none => rfl
      | some ys => rfl

theorem Travel.readItems_tokens (h : Travel T) {C B : Type} [Build C B T] (rest : List VdTok)
    (expect : Str) (xs : List T) :
    (readItems (⟨.tkVal (.vSeq (xs.map h.tree)) :: rest⟩ : VDec) expect :
        Option (Result (Parsed (Counted C) VDec))) =
      (xs.mapM h.back).map fun ys =>
        readItemsDone ⟨rest⟩ expect xs.length (ys.foldl (Build.add C) (Build.builder C)) := by
  have hbegin : Decoder.readSeqBegin (⟨.tkVal (.vSeq (xs.map h.tree)) :: rest⟩ : VDec) = _ :=
    vdSeqBegin_seq _ rest
  rw [readItems, hbegin]
  show readItemsAt (⟨(xs.map h.tree).map .tkVal ++ .tkSeqEnd :: rest⟩ : VDec) expect 0
    (Build.builder C) = _
  rw [List.map_map, show VdTok.tkVal ∘ h.tree = fun x => .tkVal (h.tree x) from rfl,
    h.readItemsAt_tokens, Nat.zero_add]

omit [Encode T VEnc] [Decode T VDec] in
theorem foldl_listAdd (ys acc : List T) :
    ys.foldl (Build.add (List T)) acc = acc ++ ys := by
  induction ys generalizing acc with
  | nil => exact (List.append_nil acc).symm
  | cons y ys ih =>
    rw [List.foldl_cons, ih]
    show acc ++ [y] ++ ys = _
    rw [List.append_assoc]
    rfl

theorem Travel.decList_tokens (h : Travel T) (rest : List VdTok) (xs : List T) :
    decList (⟨.tkVal (.vSeq (xs.map h.tree)) :: rest⟩ : VDec) = answer rest (xs.mapM h.back) := by
  rw [decList, h.readItems_tokens, answer]
  cases xs.mapM h.back with
  | none => rfl
  | some ys =>
    rw [Option.map_some, foldl_listAdd]
    rfl

def Travel.list (h : Travel T) : Travel (List T) where
  tree xs := .vSeq (xs.map h.tree)
  back xs := xs.mapM h.back
  encodes xs e := h.writeItems_eq xs e
  decodes xs rest := h.decList_tokens rest xs
  settles := h.settles.mapM

/-- The elements that come back of a fixed list are as many as it has. -/
def Travel.fixedBack (h : Travel T) {n : Nat} (x : FixedList T n) : Option (FixedList T n) :=
  match hys : x.items.mapM h.back with
  | none => none
  | some ys => some ⟨ys, (mapM_length hys).trans x.length_eq⟩

theorem Travel.fixedBack_eq_some (h : Travel T) {n : Nat} {x y : FixedList T n} :
    h.fixedBack x = some y ↔ x.items.mapM h.back = some y.items := by
  rw [Travel.fixedBack]
  split
  · next hnone =>
    rw [hnone]
    constructor
    · intro hc
      cases hc
    · intro hc
      cases hc
  · next ys hys =>
    constructor
    · intro hc
      cases hc
      exact hys
    · intro hc
      cases hys.symm.trans hc
      rfl

theorem Travel.fixedBack_eq_none (h : Travel T) {n : Nat} {x : FixedList T n} :
    x.items.mapM h.back = none → h.fixedBack x = none := by
  intro hnone
  rw [Travel.fixedBack]
  split
  · rfl
  · next ys hys =>
    rw [hnone] at hys
    cases hys

def Travel.fixedList [ZeroValue T] (h : Travel T) (n : Nat) : Travel (FixedList T n) where
  tree x := .vSeq (x.items.map h.tree)
  back := h.fixedBack
  encodes x e := h.writeItems_eq x e
  decodes x rest := by
    show decFixedList n (⟨.tkVal (.vSeq (x.items.map h.tree)) :: rest⟩ : VDec) = _
    rw [decFixedList]
    simp only [h.readItems_tokens]
    cases hys : x.items.mapM h.back with
    | none =>
      rw [h.fixedBack_eq_none hys]
      rfl
    | some ys =>
      have hlen := (mapM_length hys).trans x.length_eq
      have hback : h.fixedBack x = some ⟨ys, hlen⟩ := h.fixedBack_eq_some.2 hys
      have hbuilt : (Build.built (ys.foldl (Build.add (FixedList T n)) (Build.builder (FixedList T n))) :
          Except Nat (FixedList T n)) = .ok ⟨ys, hlen⟩ :=
        ListBufN.tryFinish_items ZeroValue.zero? ⟨ys, hlen⟩
      rw [hback, Option.map_some, readItemsDone, hbuilt]
      show (if x.items.length ≠ n then _ else _) = _
      rw [if_neg (by simpa using x.length_eq)]
      rfl
  settles := by
    intro x y hxy
    rw [h.fixedBack_eq_some] at hxy ⊢
    exact h.settles.mapM _ _ hxy

/-! ## Streamed text and bytes -/

theorem writeStrChars_push (e : VEnc) (cps : List (IntN 64)) :
    writeStrChars cps (e.push (.vfStr [])) = .ok (e.push (.vfStr cps.reverse)) := by
  refine (advance (fun done todo =>
    writeStrChars todo (e.push (.vfStr done.reverse))) cps ?_).trans ?_
  · intro done cp todo _
    rw [List.reverse_append]
    rfl
  · rw [writeStrChars]

theorem writeBytesItems_push (e : VEnc) (bs : List (IntN 64)) :
    writeBytesItems bs (e.push (.vfBytes [])) = .ok (e.push (.vfBytes bs.reverse)) := by
  refine (advance (fun done todo =>
    writeBytesItems todo (e.push (.vfBytes done.reverse))) bs ?_).trans ?_
  · intro done b todo _
    rw [List.reverse_append]
    rfl
  · rw [writeBytesItems]

theorem cpsStr_charCode (s : Str) : ∀ acc, cpsStr (s.map charCode) acc = finishText (acc ++ s) := by
  induction s with
  | nil =>
    intro acc
    rw [List.append_nil]
    rfl
  | cons c s ih =>
    intro acc
    rw [List.map_cons, cpsStr, pushChar, codeChar_charCode, ih, List.append_assoc]
    rfl

theorem decFixedStrAt_tokens {n : Nat} (x : FixedStr n) (rest : List VdTok) :
    decFixedStrAt (⟨.tkStrAt ⟨x.text, 0⟩ :: rest⟩ : VDec) (FixedBuf.empty : StrBufN n) =
      some (.ok ⟨x, ⟨rest⟩⟩) := by
  refine (advance_split (fun done _ =>
    decFixedStrAt (⟨.tkStrAt ⟨x.text, done.length⟩ :: rest⟩ : VDec)
      (FixedBuf.empty.pushAll done : StrBufN n)) x.text ?_).trans ?_
  · intro done c todo htext
    have hget : x.text[done.length]? = some c := by
      rw [htext, List.getElem?_append_right (Nat.le_refl _), Nat.sub_self]
      rfl
    have hnext : Decoder.readStrNext (⟨.tkStrAt ⟨x.text, done.length⟩ :: rest⟩ : VDec) =
        .ok ⟨charCode c, ⟨.tkStrAt ⟨x.text, done.length + 1⟩ :: rest⟩⟩ := by
      dsimp only [Decoder.readStrNext, vdStrNext, vdPop, bind, Except.bind]
      rw [hget]
      rfl
    have hpos : (charCode c).val ≥ 0 := Int.natCast_nonneg _
    conv_lhs => rw [decFixedStrAt_eq, decFixedStrStep, hnext]
    show (if (charCode c).val ≥ 0 then _ else _) = _
    rw [if_pos hpos, codeChar_charCode, FixedBuf.pushAll_append, List.length_append]
    rfl
  · have hend : Decoder.readStrNext (⟨.tkStrAt ⟨x.text, x.text.length⟩ :: rest⟩ : VDec) =
        .ok ⟨streamEnd, ⟨rest⟩⟩ := by
      dsimp only [Decoder.readStrNext, vdStrNext, vdPop, bind, Except.bind]
      rw [List.getElem?_eq_none (Nat.le_refl _)]
      rfl
    rw [decFixedStrAt_eq, decFixedStrStep, hend]
    dsimp only
    rw [if_neg (by decide), StrBufN.tryFinish_text]
    rfl

def travelFixedStr (n : Nat) : Travel (FixedStr n) :=
  .exact (fun x => .vStr x.text)
    (fun x e => by
      show (writeStrChars (x.text.map charCode) (e.push (.vfStr [])) >>= veStrEnd) = _
      rw [writeStrChars_push, ok_bind, veStrEnd_push, List.reverse_reverse, cpsStr_charCode,
        List.nil_append, finishText_of_noNul x.noNul])
    fun x rest => decFixedStrAt_tokens x rest

theorem decFixedBytesAt_tokens {n : Nat} (x : FixedBytes n) (rest : List VdTok) :
    decFixedBytesAt (⟨.tkBytesAt ⟨x.bytes.map byteCode, 0⟩ :: rest⟩ : VDec)
      (FixedBuf.empty : BytesBufN n) = some (.ok ⟨x, ⟨rest⟩⟩) := by
  refine (advance_split (fun done _ =>
    decFixedBytesAt (⟨.tkBytesAt ⟨x.bytes.map byteCode, done.length⟩ :: rest⟩ : VDec)
      (FixedBuf.empty.pushAll done : BytesBufN n)) x.bytes ?_).trans ?_
  · intro done b todo hbytes
    have hget : (x.bytes.map byteCode)[done.length]? = some (byteCode b) := by
      rw [hbytes, List.getElem?_map, List.getElem?_append_right (Nat.le_refl _), Nat.sub_self]
      rfl
    have hnext : Decoder.readBytesNext
        (⟨.tkBytesAt ⟨x.bytes.map byteCode, done.length⟩ :: rest⟩ : VDec) =
        .ok ⟨byteCode b, ⟨.tkBytesAt ⟨x.bytes.map byteCode, done.length + 1⟩ :: rest⟩⟩ := by
      dsimp only [Decoder.readBytesNext, vdBytesNext, vdPop, bind, Except.bind]
      rw [hget]
      rfl
    have hcode : (byteCode b).val = (b.toNat : Int) := rfl
    have hlt := b.toNat_lt
    conv_lhs => rw [decFixedBytesAt_eq, decFixedBytesStep, hnext]
    show (if (byteCode b).val ≥ 0 then if (byteCode b).val > 255 then _ else _ else _) = _
    rw [if_pos (by omega), if_neg (by omega), hcode, Int.toNat_natCast, UInt8.ofNat_toNat,
      FixedBuf.pushAll_append, List.length_append]
    rfl
  · have hend : Decoder.readBytesNext
        (⟨.tkBytesAt ⟨x.bytes.map byteCode, x.bytes.length⟩ :: rest⟩ : VDec) =
        .ok ⟨streamEnd, ⟨rest⟩⟩ := by
      dsimp only [Decoder.readBytesNext, vdBytesNext, vdPop, bind, Except.bind]
      rw [List.getElem?_eq_none (by rw [List.length_map])]
      rfl
    rw [decFixedBytesAt_eq, decFixedBytesStep, hend]
    dsimp only
    rw [if_neg (by decide), BytesBufN.tryFinish_bytes]
    rfl

def travelFixedBytes (n : Nat) : Travel (FixedBytes n) :=
  .exact (fun x => .vBytes (x.bytes.map byteCode))
    (fun x e => by
      show (writeBytesItems (x.bytes.map byteCode) (e.push (.vfBytes [])) >>= veBytesEnd) = _
      rw [writeBytesItems_push, ok_bind, veBytesEnd_push, List.reverse_reverse])
    fun x rest => decFixedBytesAt_tokens x rest

/-! ## Sets -/

section Sets

variable [DecidableEq T] [OrdBehavior T] [Listing T]

omit [Encode T VEnc] [Decode T VDec] [OrdBehavior T] [Listing T] in
theorem mem_setFrom {xs : List T} {acc : Finset T} {x : T} :
    x ∈ setFrom xs acc ↔ x ∈ xs ∨ x ∈ acc := by
  induction xs generalizing acc with
  | nil => simp [setFrom]
  | cons y xs ih =>
    show x ∈ setFrom xs (insert y acc) ↔ _
    rw [ih, Finset.mem_insert, List.mem_cons]
    tauto

omit [Encode T VEnc] [Decode T VDec] in
theorem setFrom_sortedList (s : Finset T) : setFrom (sortedList s) ∅ = s := by
  ext x
  rw [mem_setFrom, mem_sortedList]
  simp

def Travel.setBack (h : Travel T) (s : Finset T) : Option (Finset T) :=
  ((sortedList s).mapM h.back).map fun ys => setFrom ys ∅

/-- A set is left alone exactly when each of its elements is. -/
theorem Travel.setBack_self_iff (h : Travel T) (s : Finset T) :
    h.setBack s = some s ↔ ∀ x ∈ s, h.back x = some x := by
  constructor
  · intro hs x hx
    obtain ⟨ys, hys, rfl⟩ := Option.map_eq_some_iff.1 hs
    have hmem : x ∈ ys := by simpa using mem_setFrom.1 hx
    exact mapM_settled h.settles hys x hmem
  · intro hall
    have hys : (sortedList s).mapM h.back = some (sortedList s) :=
      mapM_self_iff.2 fun x hx => hall x (mem_sortedList.1 hx)
    rw [Travel.setBack, hys, Option.map_some, setFrom_sortedList]

theorem Travel.setBack_settles (h : Travel T) : Settles h.setBack := by
  intro s s' hs
  obtain ⟨ys, hys, rfl⟩ := Option.map_eq_some_iff.1 hs
  rw [h.setBack_self_iff]
  intro x hx
  have hmem : x ∈ ys := by simpa using mem_setFrom.1 hx
  exact mapM_settled h.settles hys x hmem

def Travel.set (h : Travel T) : Travel (Finset T) where
  tree s := .vSeq ((sortedList s).map h.tree)
  back := h.setBack
  encodes s e := h.writeItems_eq (sortedList s) e
  decodes s rest := by
    show decSet (⟨.tkVal (.vSeq ((sortedList s).map h.tree)) :: rest⟩ : VDec) = _
    rw [decSet, h.decList_tokens, Travel.setBack]
    cases (sortedList s).mapM h.back with
    | none => rfl
    | some ys => rfl
  settles := h.setBack_settles

end Sets

/-! ## Maps -/

section Maps

variable {V : Type} [Encode V VEnc] [Decode V VDec]

/-- What comes back of an entry, its key first. -/
def entryBack (hk : Travel T) (hv : Travel V) (e : T × V) : Option (T × V) :=
  (hk.back e.1).bind fun k => (hv.back e.2).map fun v => (k, v)

def entryTree (hk : Travel T) (hv : Travel V) (e : T × V) : VEntry := ⟨hk.tree e.1, hv.tree e.2⟩

theorem entryBack_self_iff (hk : Travel T) (hv : Travel V) (e : T × V) :
    entryBack hk hv e = some e ↔ hk.back e.1 = some e.1 ∧ hv.back e.2 = some e.2 := by
  constructor
  · intro h
    obtain ⟨k, hk', h1⟩ := Option.bind_eq_some_iff.1 h
    obtain ⟨v, hv', rfl⟩ := Option.map_eq_some_iff.1 h1
    exact ⟨hk', hv'⟩
  · rintro ⟨hk', hv'⟩
    rw [entryBack, hk', hv']
    rfl

theorem entryBack_settles (hk : Travel T) (hv : Travel V) : Settles (entryBack hk hv) := by
  intro x y h
  obtain ⟨k, hk', h1⟩ := Option.bind_eq_some_iff.1 h
  obtain ⟨v, hv', rfl⟩ := Option.map_eq_some_iff.1 h1
  exact (entryBack_self_iff hk hv (k, v)).2 ⟨hk.settles _ _ hk', hv.settles _ _ hv'⟩

variable [DecidableEq T]

theorem encMapAt_push (hk : Travel T) (hv : Travel V) (m : MapOf T V) (e : VEnc) (keys : List T) :
    ∀ es, encMapAt m keys (e.push (.vfMap ⟨es, .vUnit, false⟩)) =
      .ok (e.push (.vfMap
        ⟨((entriesAt m keys).map (entryTree hk hv)).reverse ++ es, .vUnit, false⟩)) := by
  induction keys with
  | nil =>
    intro es
    rfl
  | cons k keys ih =>
    intro es
    cases hlook : m.lookup k with
    | none =>
      rw [encMapAt, hlook, entriesAt, List.filterMap_cons, hlook]
      exact ih es
    | some v =>
      have hkey : encode k (e.push (.vfMap ⟨es, .vUnit, false⟩)) =
          .ok (e.push (.vfMap ⟨es, hk.tree k, true⟩)) :=
        (hk.encodes k _).trans (veEmit_key e es .vUnit (hk.tree k))
      have hval : encode v (e.push (.vfMap ⟨es, hk.tree k, true⟩)) =
          .ok (e.push (.vfMap ⟨entryTree hk hv (k, v) :: es, .vUnit, false⟩)) :=
        (hv.encodes v _).trans (veEmit_value e es (hk.tree k) (hv.tree v))
      have hentry : writeEntry (e.push (.vfMap ⟨es, .vUnit, false⟩)) k v =
          .ok (e.push (.vfMap ⟨entryTree hk hv (k, v) :: es, .vUnit, false⟩)) := by
        show (encode k (e.push (.vfMap ⟨es, .vUnit, false⟩)) >>= _) = _
        rw [hkey, ok_bind]
        exact hval
      have hentries : entriesAt m (k :: keys) = (k, v) :: entriesAt m keys := by
        rw [entriesAt, List.filterMap_cons, hlook]
        rfl
      rw [encMapAt, hlook, hentries, List.map_cons, List.reverse_cons, List.append_assoc]
      show (writeEntry (e.push (.vfMap ⟨es, .vUnit, false⟩)) k v >>= _) = _
      rw [hentry, ok_bind, ih]
      rfl

theorem decMapAt_tokens [ShowList T] (hk : Travel T) (hv : Travel V) (rest : List VdTok)
    (es : List (T × V)) :
    ∀ acc : MapOf T V,
      decMapAt (⟨(es.map (entryTree hk hv)).flatMap entryTokens ++ .tkMapEnd :: rest⟩ : VDec) acc =
        answer rest ((es.mapM (entryBack hk hv)).map fun es' => fromEntries es' acc) := by
  induction es with
  | nil =>
    intro acc
    rw [decMapAt_eq, decMapStep]
    rfl
  | cons en es ih =>
    intro acc
    rw [decMapAt_eq, decMapStep, List.mapM_cons]
    show ((decode (⟨.tkVal (hk.tree en.1) :: .tkVal (hv.tree en.2) ::
      ((es.map (entryTree hk hv)).flatMap entryTokens ++ .tkMapEnd :: rest)⟩ : VDec) :
        Option (Result (Parsed T VDec))) >>= _) = _
    rw [hk.decodes, entryBack]
    cases hk.back en.1 with
    | none => rfl
    | some k =>
      show ((decode (⟨.tkVal (hv.tree en.2) ::
        ((es.map (entryTree hk hv)).flatMap entryTokens ++ .tkMapEnd :: rest)⟩ : VDec) :
          Option (Result (Parsed V VDec))) >>= _) = _
      rw [hv.decodes]
      cases hv.back en.2 with
      | none => rfl
      | some v =>
        show decMapAt (⟨(es.map (entryTree hk hv)).flatMap entryTokens ++
          .tkMapEnd :: rest⟩ : VDec) (acc.insert k v) = _
        rw [ih]
        show _ = answer rest (Option.map _
          (es.mapM (entryBack hk hv) >>= fun es' => pure ((k, v) :: es')))
        cases es.mapM (entryBack hk hv) with
        | none => rfl
        | some es' => rfl

variable [OrdBehavior T] [Listing T]

omit [Encode T VEnc] [Decode T VDec] [DecidableEq T] in
theorem sortedList_nodup (s : Finset T) : (sortedList s).Nodup := by
  have hperm : (sortedList s).Perm (Listing.toList s) := List.mergeSort_perm _ _
  rw [hperm.nodup_iff, ← Multiset.coe_nodup, Listing.toList_perm]
  exact s.nodup

/-- The entries of a map in the order of its keys. -/
def entries (m : MapOf T V) : List (T × V) := entriesAt m (sortedList m.keys)

omit [Encode T VEnc] [Decode T VDec] [Encode V VEnc] [Decode V VDec] in
theorem mem_entries {m : MapOf T V} {k : T} {v : V} : (k, v) ∈ entries m ↔ m.lookup k = some v := by
  rw [entries, mem_entriesAt, mem_sortedList, Finmap.mem_keys]
  constructor
  · exact fun h => h.2
  · exact fun h => ⟨Finmap.mem_iff.2 ⟨v, h⟩, h⟩

omit [Encode T VEnc] [Decode T VDec] [Encode V VEnc] [Decode V VDec] in
theorem fromEntries_entries (m : MapOf T V) : fromEntries (entries m) ∅ = m :=
  fromEntries_eq m (sortedList_nodup m.keys) fun k => by rw [mem_sortedList, Finmap.mem_keys]

def mapBack (hk : Travel T) (hv : Travel V) (m : MapOf T V) : Option (MapOf T V) :=
  ((entries m).mapM (entryBack hk hv)).map fun es => fromEntries es ∅

theorem entryBack_of_mapBack {hk : Travel T} {hv : Travel V} {m m' : MapOf T V}
    (h : mapBack hk hv m = some m') {k : T} {v : V} (hlook : m'.lookup k = some v) :
    entryBack hk hv (k, v) = some (k, v) := by
  obtain ⟨es, hes, rfl⟩ := Option.map_eq_some_iff.1 h
  rcases mem_of_lookup_fromEntries hlook with hmem | hempty
  · exact mapM_settled (entryBack_settles hk hv) hes _ hmem
  · rw [Finmap.lookup_empty] at hempty
    cases hempty

/-- A map is left alone exactly when each of its keys and values is. -/
theorem mapBack_self_iff (hk : Travel T) (hv : Travel V) (m : MapOf T V) :
    mapBack hk hv m = some m ↔
      ∀ k v, m.lookup k = some v → hk.back k = some k ∧ hv.back v = some v := by
  constructor
  · intro h k v hlook
    exact (entryBack_self_iff hk hv (k, v)).1 (entryBack_of_mapBack h hlook)
  · intro hall
    have hes : (entries m).mapM (entryBack hk hv) = some (entries m) := by
      rw [mapM_self_iff]
      rintro ⟨k, v⟩ hmem
      exact (entryBack_self_iff hk hv (k, v)).2 (hall k v (mem_entries.1 hmem))
    rw [mapBack, hes, Option.map_some, fromEntries_entries]

theorem mapBack_settles (hk : Travel T) (hv : Travel V) : Settles (mapBack hk hv) := by
  intro m m' h
  rw [mapBack_self_iff]
  intro k v hlook
  exact (entryBack_self_iff hk hv (k, v)).1 (entryBack_of_mapBack h hlook)

def Travel.map [ShowList T] (hk : Travel T) (hv : Travel V) : Travel (MapOf T V) where
  tree m := .vMap ((entries m).map (entryTree hk hv))
  back := mapBack hk hv
  encodes m e := by
    show (encMapAt m (sortedList m.keys) (e.push (.vfMap ⟨[], .vUnit, false⟩)) >>= veMapEnd) = _
    rw [encMapAt_push hk hv, ok_bind, veMapEnd_push, List.append_nil, List.reverse_reverse]
    rfl
  decodes m rest := by
    have hbegin : Decoder.readMapBegin
        (⟨.tkVal (.vMap ((entries m).map (entryTree hk hv))) :: rest⟩ : VDec) = _ :=
      vdMapBegin_map _ rest
    show decMap (⟨.tkVal (.vMap ((entries m).map (entryTree hk hv))) :: rest⟩ : VDec) = _
    rw [decMap, hbegin]
    exact decMapAt_tokens hk hv rest (entries m) ∅
  settles := mapBack_settles hk hv

end Maps

/-! ## Results -/

theorem Travel.newtype_encodes (h : Travel T) (tag : VTag) (x : T) (e : VEnc) :
    writeNewtypeVariant e tag.enumName tag.index tag.name x =
      veEmit e (.vVariant ⟨tag, h.tree x⟩) := by
  have hx : encode x (e.push (.vfVariant tag)) = .ok (e.push (.vfVariantDone ⟨tag, h.tree x⟩)) :=
    (h.encodes x _).trans (veEmit_variant e tag (h.tree x))
  show (atVariant (encode x (e.push (.vfVariant tag))) tag.name >>= veVariantEnd) = _
  rw [hx, atVariant_ok, ok_bind, veVariantEnd_push]

theorem Travel.newtype_decodes (h : Travel T) (x : T) (variant : Str) (rest : List VdTok) :
    readNewtypePayload
        (⟨.tkPayloadMark :: .tkVal (h.tree x) :: .tkVariantEnd :: rest⟩ : VDec) variant =
      answer rest (h.back x) := by
  rw [readNewtypePayload]
  show ((decode (⟨.tkVal (h.tree x) :: .tkVariantEnd :: rest⟩ : VDec) :
    Option (Result (Parsed T VDec))) >>= _) = _
  rw [h.decodes]
  cases h.back x with
  | none => rfl
  | some y => rfl

def Travel.result {E : Type} [Encode E VEnc] [Decode E VDec] (h : Travel T) (he : Travel E) :
    Travel (ResultVal T E) where
  tree
    | .ok v => .vVariant ⟨⟨"Result".toList, 0, "Ok".toList⟩, h.tree v⟩
    | .err e => .vVariant ⟨⟨"Result".toList, 1, "Err".toList⟩, he.tree e⟩
  back
    | .ok v => (h.back v).map .ok
    | .err e => (he.back e).map .err
  encodes r e := by
    cases r with
    | ok v => exact h.newtype_encodes ⟨"Result".toList, 0, "Ok".toList⟩ v e
    | err v => exact he.newtype_encodes ⟨"Result".toList, 1, "Err".toList⟩ v e
  decodes r rest := by
    cases r with
    | ok v =>
      show (readNewtypePayload (⟨.tkPayloadMark :: .tkVal (h.tree v) :: .tkVariantEnd ::
        rest⟩ : VDec) "Ok".toList >>= _) = answer rest ((h.back v).map ResultVal.ok)
      rw [h.newtype_decodes]
      cases h.back v with
      | none => rfl
      | some y => rfl
    | err v =>
      show (readNewtypePayload (⟨.tkPayloadMark :: .tkVal (he.tree v) :: .tkVariantEnd ::
        rest⟩ : VDec) "Err".toList >>= _) = answer rest ((he.back v).map ResultVal.err)
      rw [he.newtype_decodes]
      cases he.back v with
      | none => rfl
      | some y => rfl
  settles := by
    intro x y hxy
    cases x with
    | ok v =>
      obtain ⟨w, hw, rfl⟩ := Option.map_eq_some_iff.1 hxy
      show (h.back w).map _ = _
      rw [h.settles v w hw]
      rfl
    | err v =>
      obtain ⟨w, hw, rfl⟩ := Option.map_eq_some_iff.1 hxy
      show (he.back w).map _ = _
      rw [he.settles v w hw]
      rfl

end Serial

end

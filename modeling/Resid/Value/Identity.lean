import Resid.Value.Generic
import Resid.Value.Encoder
import Resid.Value.Decoder

/-!
# Values through the value format

`EncodesAs x v` says that encoding `x` onto any open state emits `v`, and `DecodesAs v x`
that decoding from any stack with `v` on top reads `x` and leaves the rest.  A type whose
encoding reads back carries its values through `toValue` and `fromValue`, and a `Value`
is carried as itself.

    EncodesAs x v → toValue x = ok v                                 (EncodesAs.toValue)
    DecodesAs v x → fromValue v = some (ok x)                        (DecodesAs.fromValue)
    toValue v = ok v ∧ fromValue v = some (ok v)                     (value_identity)
-/

namespace Serial

open Runtime Loops

/-! ## What a value travels as -/

section

variable {T : Type}

def EncodesAs [Encode T VEnc] (x : T) (v : Value) : Prop := ∀ e : VEnc, encode x e = veEmit e v

def DecodesAs [Decode T VDec] (v : Value) (x : T) : Prop :=
  ∀ rest : List VdTok,
    (decode (⟨.tkVal v :: rest⟩ : VDec) : Option (Result (Parsed T VDec))) =
      some (.ok ⟨x, ⟨rest⟩⟩)

/-- From a fresh encoder: nothing open and one result. -/
theorem EncodesAs.fresh [Encode T VEnc] {x : T} {v : Value} (h : EncodesAs x v) :
    encode x valueEncoder = .ok (⟨[], [v]⟩ : VEnc) := by
  rw [h, valueEncoder, veEmit_empty]

theorem EncodesAs.toValue [Encode T VEnc] {x : T} {v : Value} (h : EncodesAs x v) :
    toValue x = .ok v := by
  rw [Serial.toValue, h.fresh]
  exact veResult_single v

/-- From a decoder on `v` alone: no token left. -/
theorem DecodesAs.fresh [Decode T VDec] {x : T} {v : Value} (h : DecodesAs v x) :
    (decode (valueDecoder v) : Option (Result (Parsed T VDec))) = some (.ok ⟨x, ⟨[]⟩⟩) := h []

theorem DecodesAs.fromValue [Decode T VDec] {x : T} {v : Value} (h : DecodesAs v x) :
    fromValue v = some (.ok x) := by
  rw [Serial.fromValue, decodeValue, h.fresh]
  rfl

end

/-! ## Encoding a value -/

theorem encValueElems_push (e : VEnc) {xs : List Value} (hxs : ∀ x ∈ xs, EncodesAs x x) :
    encValueElems xs 0 (e.push (.vfSeq [])) = .ok (e.push (.vfSeq xs.reverse)) := by
  refine (advance (fun done todo =>
    encValueElems todo done.length (e.push (.vfSeq done.reverse))) xs ?_).trans ?_
  · intro done x todo hx
    have hx' : encValue x (e.push (.vfSeq done.reverse)) =
        .ok (e.push (.vfSeq (done ++ [x]).reverse)) := by
      rw [List.reverse_append]
      exact (hxs x hx _).trans (veEmit_seq e done.reverse x)
    show (atIndex (encValue x (e.push (.vfSeq done.reverse))) done.length >>= _) = _
    rw [hx', atIndex_ok, ok_bind, List.length_append]
    rfl
  · rw [encValueElems]

theorem encValueEntries_push (e : VEnc) {es : List VEntry}
    (hes : ∀ en ∈ es, EncodesAs en.key en.key ∧ EncodesAs en.val en.val) :
    encValueEntries es (e.push (.vfMap ⟨[], .vUnit, false⟩)) =
      .ok (e.push (.vfMap ⟨es.reverse, .vUnit, false⟩)) := by
  refine (advance (fun done todo =>
    encValueEntries todo (e.push (.vfMap ⟨done.reverse, .vUnit, false⟩))) es ?_).trans ?_
  · rintro done ⟨k, v⟩ todo hkv
    have hkey : encValue k (e.push (.vfMap ⟨done.reverse, .vUnit, false⟩)) =
        .ok (e.push (.vfMap ⟨done.reverse, k, true⟩)) :=
      ((hes _ hkv).1 _).trans (veEmit_key e done.reverse .vUnit k)
    have hval : encValue v (e.push (.vfMap ⟨done.reverse, k, true⟩)) =
        .ok (e.push (.vfMap ⟨(done ++ [VEntry.mk k v]).reverse, .vUnit, false⟩)) := by
      rw [List.reverse_append]
      exact ((hes _ hkv).2 _).trans (veEmit_value e done.reverse k v)
    show (encValue k (e.push (.vfMap ⟨done.reverse, .vUnit, false⟩)) >>= _) = _
    rw [hkey, ok_bind]
    show (encValue v (e.push (.vfMap ⟨done.reverse, k, true⟩)) >>= _) = _
    rw [hval, ok_bind]
  · rw [encValueEntries]

theorem encValueFields_push (e : VEnc) (name : Str) {fs : List VField}
    (hfs : ∀ f ∈ fs, EncodesAs f.val f.val) :
    encValueFields fs (e.push (.vfStruct ⟨name, [], []⟩)) =
      .ok (e.push (.vfStruct ⟨name, fs.reverse, []⟩)) := by
  refine (advance (fun done todo =>
    encValueFields todo (e.push (.vfStruct ⟨name, done.reverse, []⟩))) fs ?_).trans ?_
  · rintro done ⟨fname, v⟩ todo hf
    have hval : encValue v (e.push (.vfStruct ⟨name, done.reverse, fname⟩)) =
        .ok (e.push (.vfStruct ⟨name, (done ++ [VField.mk fname v]).reverse, []⟩)) := by
      rw [List.reverse_append]
      exact (hfs _ hf _).trans (veEmit_struct e ⟨name, done.reverse, fname⟩ v)
    show (atField (encValue v (e.push (.vfStruct ⟨name, done.reverse, fname⟩))) fname >>= _) = _
    rw [hval, atField_ok, ok_bind]
  · rw [encValueFields]

/-- A value is emitted as itself, onto whatever is open. -/
theorem encValue_self (v : Value) : EncodesAs v v := by
  induction v using Value.nestedInduction with
  | leaf v hv =>
    intro e
    cases v with
    | vSome _ | vSeq _ | vMap _ | vStruct _ | vVariant _ => exact hv.elim
    | _ => rfl
  | some x ih =>
    intro e
    exact (ih (e.push .vfSome)).trans (veEmit_some e x)
  | seq xs ih =>
    intro e
    show (encValueElems xs 0 (e.push (.vfSeq [])) >>= veSeqEnd) = _
    rw [encValueElems_push e ih, ok_bind, veSeqEnd_push, List.reverse_reverse]
  | map es ih =>
    intro e
    show (encValueEntries es (e.push (.vfMap ⟨[], .vUnit, false⟩)) >>= veMapEnd) = _
    rw [encValueEntries_push e ih, ok_bind, veMapEnd_push, List.reverse_reverse]
  | struct r ih =>
    intro e
    obtain ⟨name, fields⟩ := r
    show (encValueFields fields (e.push (.vfStruct ⟨name, [], []⟩)) >>= veStructEnd) = _
    rw [encValueFields_push e name ih, ok_bind, veStructEnd_push, List.reverse_reverse]
  | variant p ih =>
    intro e
    obtain ⟨tag, payload⟩ := p
    have hpayload : encValue payload (e.push (.vfVariant tag)) =
        .ok (e.push (.vfVariantDone ⟨tag, payload⟩)) :=
      (ih _).trans (veEmit_variant e tag payload)
    show (atVariant (encValue payload (e.push (.vfVariant tag))) tag.name >>= veVariantEnd) = _
    rw [hpayload, atVariant_ok, ok_bind, veVariantEnd_push]

/-! ## Decoding a value -/

variable [FloatText]

theorem decValueElems_tokens (rest : List VdTok) {xs : List Value}
    (hxs : ∀ x ∈ xs, DecodesAs x x) :
    decRun (.elems (⟨xs.map .tkVal ++ .tkSeqEnd :: rest⟩ : VDec) 0 []) =
      some (.ok ⟨.vSeq xs, ⟨rest⟩⟩) := by
  refine (advance (fun done todo =>
    decRun (.elems (⟨todo.map .tkVal ++ .tkSeqEnd :: rest⟩ : VDec) done.length done)) xs
      ?_).trans ?_
  · intro done x todo hx
    have hx' : decValue (⟨.tkVal x :: (todo.map .tkVal ++ .tkSeqEnd :: rest)⟩ : VDec) =
        some (.ok ⟨x, ⟨todo.map .tkVal ++ .tkSeqEnd :: rest⟩⟩) := hxs x hx _
    rw [decRun_eq, decStep, decValueElems]
    show (decValue (⟨.tkVal x :: (todo.map .tkVal ++ .tkSeqEnd :: rest)⟩ : VDec) >>= _) = _
    rw [hx', List.length_append]
    rfl
  · rw [decRun_eq, decStep, decValueElems]
    rfl

theorem decValueEntries_tokens (rest : List VdTok) {es : List VEntry}
    (hes : ∀ en ∈ es, DecodesAs en.key en.key ∧ DecodesAs en.val en.val) :
    decRun (.entries (⟨es.flatMap entryTokens ++ .tkMapEnd :: rest⟩ : VDec) []) =
      some (.ok ⟨.vMap es, ⟨rest⟩⟩) := by
  refine (advance (fun done todo =>
    decRun (.entries (⟨todo.flatMap entryTokens ++ .tkMapEnd :: rest⟩ : VDec) done)) es
      ?_).trans ?_
  · rintro done ⟨k, v⟩ todo hkv
    have hkey : ∀ below, decValue (⟨.tkVal k :: below⟩ : VDec) = some (.ok ⟨k, ⟨below⟩⟩) :=
      (hes _ hkv).1
    have hval : ∀ below, decValue (⟨.tkVal v :: below⟩ : VDec) = some (.ok ⟨v, ⟨below⟩⟩) :=
      (hes _ hkv).2
    rw [decRun_eq, decStep, decValueEntries]
    show (decValue (⟨.tkVal k :: .tkVal v ::
      (todo.flatMap entryTokens ++ .tkMapEnd :: rest)⟩ : VDec) >>= _) = _
    rw [hkey]
    show (decValue (⟨.tkVal v :: (todo.flatMap entryTokens ++ .tkMapEnd :: rest)⟩ : VDec) >>= _)
      = _
    rw [hval]
    rfl
  · rw [decRun_eq, decStep, decValueEntries]
    rfl

theorem decValueFields_tokens (rest : List VdTok) (sname : Str) {fs : List VField}
    (hfs : ∀ f ∈ fs, DecodesAs f.val f.val) :
    decRun (.fields (⟨fs.flatMap fieldTokens ++ .tkStructEnd :: rest⟩ : VDec) sname [] []) =
      some (.ok ⟨.vStruct ⟨sname, fs⟩, ⟨rest⟩⟩) := by
  refine (advance (fun done todo =>
    decRun (.fields (⟨todo.flatMap fieldTokens ++ .tkStructEnd :: rest⟩ : VDec) sname [] done)) fs
      ?_).trans ?_
  · rintro done ⟨name, v⟩ todo hf
    have hval : ∀ below, decValue (⟨.tkVal v :: below⟩ : VDec) = some (.ok ⟨v, ⟨below⟩⟩) :=
      hfs _ hf
    rw [decRun_eq, decStep, decValueFields]
    show decRun (.field (⟨.tkVal v :: (todo.flatMap fieldTokens ++ .tkStructEnd :: rest)⟩ : VDec)
      sname [] name done) = _
    rw [decRun_eq, decStep, decValueField, show decRun (.value _) = _ from hval _]
    rfl
  · rw [decRun_eq, decStep, decValueFields]
    rfl

/-- A value on top of the stack is read as itself, and what is below it is left. -/
theorem decValue_self (v : Value) : DecodesAs v v := by
  induction v using Value.nestedInduction with
  | leaf v hv =>
    intro rest
    show decRun (.value _) = _
    rw [decRun_eq, decStep, decValueStep]
    cases v with
    | vSome _ | vSeq _ | vMap _ | vStruct _ | vVariant _ => exact hv.elim
    | vInt i =>
      show some (vdInt ⟨.tkVal (.vInt i) :: rest⟩ >>= _) = _
      rw [vdInt_vInt]
      rfl
    | vUInt u =>
      show some (vdUint ⟨.tkVal (.vUInt u) :: rest⟩ >>= _) = _
      rw [vdUint_vUInt]
      rfl
    | vNone =>
      show decRun (.option _) = _
      rw [decRun_eq, decStep, decValueOption]
      rfl
    | vUnitVariant t =>
      show decRun (.variant _) = _
      rw [decRun_eq, decStep, decValueVariant]
      rfl
    | _ => rfl
  | some x ih =>
    intro rest
    have hx : decValue (⟨.tkVal x :: rest⟩ : VDec) = some (.ok ⟨x, ⟨rest⟩⟩) := ih rest
    show decRun (.value _) = _
    rw [decRun_eq, decStep, decValueStep]
    show decRun (.option (⟨.tkVal (.vSome x) :: rest⟩ : VDec)) = _
    rw [decRun_eq, decStep, decValueOption]
    show (decValue (⟨.tkVal x :: rest⟩ : VDec) >>= _) = _
    rw [hx]
    rfl
  | seq xs ih =>
    intro rest
    show decRun (.value _) = _
    rw [decRun_eq, decStep, decValueStep]
    show decRun (.seq (⟨.tkVal (.vSeq xs) :: rest⟩ : VDec)) = _
    rw [decRun_eq, decStep, decValueSeq, show Decoder.readSeqBegin (⟨.tkVal (.vSeq xs) :: rest⟩ : VDec) = _ from
      vdSeqBegin_seq xs rest]
    exact decValueElems_tokens rest ih
  | map es ih =>
    intro rest
    show decRun (.value _) = _
    rw [decRun_eq, decStep, decValueStep]
    show decRun (.map (⟨.tkVal (.vMap es) :: rest⟩ : VDec)) = _
    rw [decRun_eq, decStep, decValueMap, show Decoder.readMapBegin (⟨.tkVal (.vMap es) :: rest⟩ : VDec) = _ from
      vdMapBegin_map es rest]
    exact decValueEntries_tokens rest ih
  | struct r ih =>
    intro rest
    obtain ⟨name, fields⟩ := r
    show decRun (.value _) = _
    rw [decRun_eq, decStep, decValueStep]
    show decRun (.struct (⟨.tkVal (.vStruct ⟨name, fields⟩) :: rest⟩ : VDec) name) = _
    rw [decRun_eq, decStep, decValueStruct, show Decoder.readStructBegin
      (⟨.tkVal (.vStruct ⟨name, fields⟩) :: rest⟩ : VDec) name [] = _ from
      vdStructBegin_struct ⟨name, fields⟩ rest name []]
    exact decValueFields_tokens rest name ih
  | variant p ih =>
    intro rest
    obtain ⟨tag, payload⟩ := p
    have hp : decValue (⟨.tkVal payload :: .tkVariantEnd :: rest⟩ : VDec) =
        some (.ok ⟨payload, ⟨.tkVariantEnd :: rest⟩⟩) := ih _
    show decRun (.value _) = _
    rw [decRun_eq, decStep, decValueStep]
    show decRun (.variant (⟨.tkVal (.vVariant ⟨tag, payload⟩) :: rest⟩ : VDec)) = _
    rw [decRun_eq, decStep, decValueVariant]
    show (decValue (⟨.tkVal payload :: .tkVariantEnd :: rest⟩ : VDec) >>= _) = _
    rw [hp]
    rfl

/-- Both stack machines are the identity on trees: the encoder ends with nothing open and
`v` as its one result, the decoder with `v` and no token left. -/
theorem value_identity (v : Value) :
    (encode v valueEncoder = .ok (⟨[], [v]⟩ : VEnc) ∧ toValue v = .ok v) ∧
      (decode (valueDecoder v) : Option (Result (Parsed Value VDec))) =
        some (.ok ⟨v, ⟨[]⟩⟩) ∧ (fromValue v : Option (Result Value)) = some (.ok v) :=
  ⟨⟨(encValue_self v).fresh, (encValue_self v).toValue⟩, (decValue_self v).fresh,
    (decValue_self v).fromValue⟩

end Serial

import Resid.Serial.Travel

/-!
# The builtin types and what they lose

`Ty` is the grammar of the types with a builtin instance.  A value comes back from its
tree exactly when each decimal in it has at most 34 digits and each unit in it is the one
unit value.

    fromValue (tree of x) = some (ok x) ↔ Kept t x                   (builtin_roundTrip_iff)
-/

noncomputable section

namespace Serial

open Runtime Retract

inductive Ty
  | bool
  | int (w : Width)
  | uint (w : Width)
  | i128
  | u128
  | dec (p : Prec)
  | str
  | fixedStr (n : Nat)
  | bytes (n : Nat)
  | byteBuf
  | unit
  | option (t : Ty)
  | list (t : Ty)
  | fixedList (t : Ty) (n : Nat)
  | set (t : Ty)
  | map (k v : Ty)
  | result (t e : Ty)

/-- The values of a type. -/
def Ty.Den : Ty → Type
  | .bool => Bool
  | .int w => IntN w.bits
  | .uint w => UIntN w.bits
  | .i128 => IntN 128
  | .u128 => UIntN 128
  | .dec p => Dec p
  | .str => Str
  | .fixedStr n => FixedStr n
  | .bytes n => FixedBytes n
  | .byteBuf => ByteBuf
  | .unit => UnitVal
  | .option t => Option t.Den
  | .list t => List t.Den
  | .fixedList t n => FixedList t.Den n
  | .set t => Finset t.Den
  | .map k v => MapOf k.Den v.Den
  | .result t e => ResultVal t.Den e.Den

def Ty.decEq : (t : Ty) → DecidableEq t.Den
  | .bool => inferInstanceAs (DecidableEq Bool)
  | .int w => inferInstanceAs (DecidableEq (IntN w.bits))
  | .uint w => inferInstanceAs (DecidableEq (UIntN w.bits))
  | .i128 => inferInstanceAs (DecidableEq (IntN 128))
  | .u128 => inferInstanceAs (DecidableEq (UIntN 128))
  | .dec p => inferInstanceAs (DecidableEq (Dec p))
  | .str => inferInstanceAs (DecidableEq Str)
  | .fixedStr n => inferInstanceAs (DecidableEq (FixedStr n))
  | .bytes n => inferInstanceAs (DecidableEq (FixedBytes n))
  | .byteBuf => inferInstanceAs (DecidableEq ByteBuf)
  | .unit => inferInstanceAs (DecidableEq UnitVal)
  | .option t =>
    have := t.decEq
    inferInstanceAs (DecidableEq (Option t.Den))
  | .list t =>
    have := t.decEq
    inferInstanceAs (DecidableEq (List t.Den))
  | .fixedList t n =>
    have := t.decEq
    inferInstanceAs (DecidableEq (FixedList t.Den n))
  | .set t =>
    have := t.decEq
    inferInstanceAs (DecidableEq (Finset t.Den))
  | .map k v =>
    have := k.decEq
    have := v.decEq
    inferInstanceAs (DecidableEq (Finmap fun _ : k.Den => v.Den))
  | .result t e =>
    have := t.decEq
    have := e.decEq
    inferInstanceAs (DecidableEq (ResultVal t.Den e.Den))

instance (t : Ty) : DecidableEq t.Den := t.decEq

section Instances

variable [∀ t : Ty, OrdBehavior t.Den] [∀ t : Ty, Listing t.Den] [∀ t : Ty, ShowList t.Den]
  [∀ t : Ty, ZeroValue t.Den] (F : Type)

/-- The builtin `Encode` instance of a type. -/
@[reducible] def Ty.encode [Encoder F] : (t : Ty) → Encode t.Den F
  | .bool => inferInstanceAs (Encode Bool F)
  | .int w => inferInstanceAs (Encode (IntN w.bits) F)
  | .uint w => inferInstanceAs (Encode (UIntN w.bits) F)
  | .i128 => inferInstanceAs (Encode (IntN 128) F)
  | .u128 => inferInstanceAs (Encode (UIntN 128) F)
  | .dec p => inferInstanceAs (Encode (Dec p) F)
  | .str => inferInstanceAs (Encode Str F)
  | .fixedStr n => inferInstanceAs (Encode (FixedStr n) F)
  | .bytes n => inferInstanceAs (Encode (FixedBytes n) F)
  | .byteBuf => inferInstanceAs (Encode ByteBuf F)
  | .unit => inferInstanceAs (Encode UnitVal F)
  | .option t =>
    have := t.encode
    inferInstanceAs (Encode (Option t.Den) F)
  | .list t =>
    have := t.encode
    inferInstanceAs (Encode (List t.Den) F)
  | .fixedList t n =>
    have := t.encode
    inferInstanceAs (Encode (FixedList t.Den n) F)
  | .set t =>
    have := t.encode
    inferInstanceAs (Encode (Finset t.Den) F)
  | .map k v =>
    have := k.encode
    have := v.encode
    inferInstanceAs (Encode (MapOf k.Den v.Den) F)
  | .result t e =>
    have := t.encode
    have := e.encode
    inferInstanceAs (Encode (ResultVal t.Den e.Den) F)

/-- The builtin `Decode` instance of a type. -/
@[reducible] def Ty.decode [Decoder F] : (t : Ty) → Decode t.Den F
  | .bool => inferInstanceAs (Decode Bool F)
  | .int w => inferInstanceAs (Decode (IntN w.bits) F)
  | .uint w => inferInstanceAs (Decode (UIntN w.bits) F)
  | .i128 => inferInstanceAs (Decode (IntN 128) F)
  | .u128 => inferInstanceAs (Decode (UIntN 128) F)
  | .dec p => inferInstanceAs (Decode (Dec p) F)
  | .str => inferInstanceAs (Decode Str F)
  | .fixedStr n => inferInstanceAs (Decode (FixedStr n) F)
  | .bytes n => inferInstanceAs (Decode (FixedBytes n) F)
  | .byteBuf => inferInstanceAs (Decode ByteBuf F)
  | .unit => inferInstanceAs (Decode UnitVal F)
  | .option t =>
    have := t.decode
    inferInstanceAs (Decode (Option t.Den) F)
  | .list t =>
    have := t.decode
    inferInstanceAs (Decode (List t.Den) F)
  | .fixedList t n =>
    have := t.decode
    inferInstanceAs (Decode (FixedList t.Den n) F)
  | .set t =>
    have := t.decode
    inferInstanceAs (Decode (Finset t.Den) F)
  | .map k v =>
    have := k.decode
    have := v.decode
    inferInstanceAs (Decode (MapOf k.Den v.Den) F)
  | .result t e =>
    have := t.decode
    have := e.decode
    inferInstanceAs (Decode (ResultVal t.Den e.Den) F)

instance [Encoder F] (t : Ty) : Encode t.Den F := t.encode F

instance [Decoder F] (t : Ty) : Decode t.Den F := t.decode F

end Instances

/-! ## Travelling -/

/-- The decimals of a value have at most 34 digits, its units are the one unit value. -/
def Ty.Kept : (t : Ty) → t.Den → Prop
  | .dec _, x => Dec.Fits34 x
  | .unit, x => x = unitVal
  | .option t, x => ∀ y, x = some y → t.Kept y
  | .list t, x => ∀ y ∈ (show List t.Den from x), t.Kept y
  | .fixedList t _, x => ∀ y ∈ FixedList.items x, t.Kept y
  | .set t, x => ∀ y ∈ (show Finset t.Den from x), t.Kept y
  | .map k v, x => ∀ y z, Finmap.lookup y x = some z → k.Kept y ∧ v.Kept z
  | .result t e, x => (∀ y, x = .ok y → t.Kept y) ∧ ∀ y, x = .err y → e.Kept y
  | _, _ => True

/-- The number 1.0000000000000000000000000000000001, of 35 digits. -/
def longDec : Dec ⟨35, by decide⟩ := .num ⟨false, 10 ^ 34 + 1, -34, by decide⟩

theorem longDec_lost : ¬ RoundTrips longDec := by
  rw [(travelDec _).roundTrips_iff]
  show ¬ reread longDec = some longDec
  decide

variable [∀ t : Ty, OrdBehavior t.Den] [∀ t : Ty, Listing t.Den] [∀ t : Ty, ShowList t.Den]
  [∀ t : Ty, ZeroValue t.Den]

def Ty.travel : (t : Ty) → Travel t.Den
  | .bool => travelBool
  | .int w => travelInt w
  | .uint w => travelUint w
  | .i128 => travelI128
  | .u128 => travelU128
  | .dec p => travelDec p
  | .str => travelStr
  | .fixedStr n => travelFixedStr n
  | .bytes n => travelFixedBytes n
  | .byteBuf => travelByteBuf
  | .unit => travelUnit
  | .option t => t.travel.option
  | .list t => t.travel.list
  | .fixedList t n => t.travel.fixedList n
  | .set t => t.travel.set
  | .map k v => k.travel.map v.travel
  | .result t e => t.travel.result e.travel

/-- A value comes back as itself exactly when nothing in it is lost. -/
theorem travel_back_iff : ∀ (t : Ty) (x : t.Den), t.travel.back x = some x ↔ t.Kept x := by
  intro t
  induction t with
  | dec p => exact fun x => reread_eq_some_iff x
  | unit =>
    intro x
    constructor
    · intro h
      exact (Option.some.inj h).symm
    · rintro rfl
      rfl
  | option t ih =>
    intro x
    cases x with
    | none =>
      constructor
      · intro _ y hy
        cases hy
      · intro _
        rfl
    | some y =>
      have hmap : (t.travel.back y).map some = some (some y) ↔ t.travel.back y = some y := by
        simp
      refine (hmap.trans (ih y)).trans ?_
      constructor
      · rintro hy z ⟨⟩
        exact hy
      · exact fun h => h y rfl
  | list t ih =>
    intro x
    refine mapM_self_iff.trans ?_
    exact forall₂_congr fun y _ => ih y
  | fixedList t n ih =>
    intro x
    refine (t.travel.fixedBack_eq_some.trans mapM_self_iff).trans ?_
    exact forall₂_congr fun y _ => ih y
  | set t ih =>
    intro x
    refine (t.travel.setBack_self_iff x).trans ?_
    exact forall₂_congr fun y _ => ih y
  | map k v ihk ihv =>
    intro x
    refine (mapBack_self_iff k.travel v.travel x).trans ?_
    exact forall₃_congr fun y z _ => and_congr (ihk y) (ihv z)
  | result t e iht ihe =>
    intro x
    cases x with
    | ok y =>
      have hmap : (t.travel.back y).map (ResultVal.ok (E := e.Den)) = some (.ok y) ↔
          t.travel.back y = some y := by
        simp
      refine (hmap.trans (iht y)).trans ?_
      constructor
      · intro hy
        constructor
        · rintro z ⟨⟩
          exact hy
        · intro z hz
          cases hz
      · exact fun h => h.1 y rfl
    | err y =>
      have hmap : (e.travel.back y).map (ResultVal.err (T := t.Den)) = some (.err y) ↔
          e.travel.back y = some y := by
        simp
      refine (hmap.trans (ihe y)).trans ?_
      constructor
      · intro hy
        constructor
        · intro z hz
          cases hz
        · rintro z ⟨⟩
          exact hy
      · exact fun h => h.2 y rfl
  | _ => exact fun _ => ⟨fun _ => trivial, fun _ => rfl⟩

/-- A value of a builtin type round trips exactly when its decimals have at most 34 digits
and exponents in range there, and its units are the one unit value. -/
theorem builtin_roundTrip_iff (t : Ty) (x : t.Den) : RoundTrips x ↔ t.Kept x :=
  (t.travel.roundTrips_iff x).trans (travel_back_iff t x)

end Serial

end

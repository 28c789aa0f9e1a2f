import Resid.Layout.Stands
import Resid.Runtime.Ints

/-!
# The serializer writes what a record is

`Writes` states which bytes a record is written as: each value's bytes at its place, padding
before it and behind the last.  `BytesTraps` are the records that reach a field with no bytes and
no error: a failed condition's argument is no Int, or a length field below zero.

    Typed … → lyBytes ex ts left t vs = ok bs ↔ Writes ex ts left t vs bs       (agrees_bytes)
    Typed … → lyBytes ex ts left t vs = abort ↔ BytesTraps ex ts left t vs
-/

namespace Layout

open Runtime CheckedInt

variable {ex : Exprs} {ts : List LyT} {t : LyT} {f : LyF} {done : List LyF} {env : Env}

/-! ## Record values -/

/-- A value of the field's type. -/
inductive ValueTyped (sub : LyT → List Val → Prop) (ts : List LyT) (f : LyF) : Val → Prop
  | int (hbits : 0 < lyIntBits f.ty) (n : Int) (h : InRange f.ty n) : ValueTyped sub ts f (.int n)
  | bytes (hty : f.ty = bytesTy) (bs : List UInt8) (h : bs.length ≤ listMax) :
    ValueTyped sub ts f (.bytes bs)
  | nested (hbits : lyIntBits f.ty = 0) (hty : f.ty ≠ bytesTy) (n : LyT)
      (hn : lyType ts f.ty = some n) (vs : List Val) (h : sub n vs) :
    ValueTyped sub ts f (.record vs)

/-- One value of its type for each field that is not reserved. -/
def FieldsTyped (sub : LyT → List Val → Prop) (ts : List LyT) : List LyF → List Val → Prop
  | [], vs => vs = []
  | f :: fs, vs =>
    if f.rsv > 0 then FieldsTyped sub ts fs vs
    else
      match vs with
      | [] => False
      | v :: vs => ValueTyped sub ts f v ∧ FieldsTyped sub ts fs vs

/-- A record value of the type `t`. -/
def Typed (ts : List LyT) : (left : Nat) → LyT → List Val → Prop
  | 0, _, _ => False
  | left + 1, t, vs => FieldsTyped (Typed ts left) ts t.fs vs

/-! ## What is written -/

/-- The bytes of a field's value. -/
inductive ValueWrites (sub : LyT → List Val → List UInt8 → Prop) (ts : List LyT) (t : LyT)
    (f : LyF) (env : Env) : Val → List UInt8 → Prop
  | int (hbits : 0 < lyIntBits f.ty) (n : Int) :
    ValueWrites sub ts t f env (.int n) (encode (t.kind = .be) f.ty n)
  | bytes (hty : f.ty = bytesTy) (bs : List UInt8) (hn : lyLen f env = bs.length) :
    ValueWrites sub ts t f env (.bytes bs) bs
  | nested (hbits : lyIntBits f.ty = 0) (hty : f.ty ≠ bytesTy) (n : LyT)
      (hn : lyType ts f.ty = some n) (vs : List Val) (bs : List UInt8) (h : sub n vs bs) :
    ValueWrites sub ts t f env (.record vs) bs

/-- What the fields `fs` add to `acc`, the fields before them ending at `off`. -/
def FieldsWrite (sub : LyT → List Val → List UInt8 → Prop) (ex : Exprs) (ts : List LyT) (t : LyT) :
    (fs : List LyF) → (vs : List Val) → Env → (off : Int) → (acc out : List UInt8) → Prop
  | [], vs, _, off, acc, out => vs = [] ∧ out = acc ++ lyTail ts t off
  | f :: fs, vs, env, off, acc, out =>
    let o := lyPlace ts t f off
    if f.rsv > 0 then
      FieldsWrite sub ex ts t fs vs env (o + lyWidth ts f) (acc ++ lyPad off o ++ lyZeros f.rsv) out
    else
      match vs with
      | [] => False
      | v :: vs => ∃ bs, ValueWrites sub ts t f env v bs ∧ Passes ex f (env ++ [(f.name, v)]) ∧
          FieldsWrite sub ex ts t fs vs (env ++ [(f.name, v)]) (o + lyWidth ts f)
            (acc ++ lyPad off o ++ bs) out

/-- The record `vs` of type `t` is written as `bs`. -/
def Writes (ex : Exprs) (ts : List LyT) : (left : Nat) → LyT → List Val → List UInt8 → Prop
  | 0, _, _, _ => False
  | left + 1, t, vs, bs => FieldsWrite (Writes ex ts left) ex ts t t.fs vs [] 0 [] bs

/-! ## Traps -/

/-- A value with no bytes and no error: a failed condition's argument is no Int, or the length
field is below zero, or a nested record traps. -/
inductive ValueTraps (traps : LyT → List Val → Prop) (ex : Exprs) (ts : List LyT) (f : LyF)
    (env : Env) (v : Val) : Prop
  | args (hlen : ∀ bs, v = .bytes bs → lyLen f env = bs.length)
      (harg : ArgTraps ex f (env ++ [(f.name, v)]))
  | length (hvar : Variable f) (hneg : lyLen f env < 0)
  | nested (hbits : lyIntBits f.ty = 0) (hty : f.ty ≠ bytesTy) (n : LyT)
      (hn : lyType ts f.ty = some n) (vs : List Val) (hv : v = .record vs)
      (hpass : Passes ex f (env ++ [(f.name, v)])) (h : traps n vs)

/-- The first of the fields that is not written traps. -/
def FieldsBytesTrap (sub : LyT → List Val → List UInt8 → Prop) (traps : LyT → List Val → Prop)
    (ex : Exprs) (ts : List LyT) (t : LyT) : (fs : List LyF) → (vs : List Val) → Env → Prop
  | [], _, _ => False
  | f :: fs, vs, env =>
    if f.rsv > 0 then FieldsBytesTrap sub traps ex ts t fs vs env
    else
      match vs with
      | [] => False
      | v :: vs => ValueTraps traps ex ts f env v ∨
          (∃ bs, ValueWrites sub ts t f env v bs) ∧ Passes ex f (env ++ [(f.name, v)]) ∧
            FieldsBytesTrap sub traps ex ts t fs vs (env ++ [(f.name, v)])

def BytesTraps (ex : Exprs) (ts : List LyT) : (left : Nat) → LyT → List Val → Prop
  | 0, _, _ => False
  | left + 1, t, vs =>
    FieldsBytesTrap (Writes ex ts left) (BytesTraps ex ts left) ex ts t t.fs vs []

/-! ## One field -/

section Field

variable {sub : LyT → List Val → Out (List UInt8)} {st : LyT → List Val → List UInt8 → Prop}
  {tr : LyT → List Val → Prop} {v : Val}

theorem toU64_len {n : Nat} (h : n ≤ listMax) : toU64 n = .ok n := by
  unfold listMax at h
  unfold toU64
  rw [if_pos (by omega), Int.toNat_natCast]

/-- The check of a length that another field gives. -/
theorem lyBytesLen_eq {size : Nat} (hsize : size ≤ listMax) (hlt : lyLen f env < 2 ^ 64) :
    (lyBytesLen t f env size = .ok () ↔ lyLen f env = size) ∧
      (lyBytesLen t f env size = .abort ↔ strIsInt f.len = false ∧ lyLen f env < 0) := by
  unfold lyLen at hlt ⊢
  unfold lyBytesLen
  cases hint : strIsInt f.len with
  | true =>
    simp only [if_true]
    split_ifs with hne
    · simp [Ne.symm hne]
    · simp [not_not.1 hne]
  | false =>
    simp only [hint, Bool.false_eq_true, if_false, toU64_len hsize, Out.ok_bind] at hlt ⊢
    rcases Int.lt_or_le (lyInt env f.len) 0 with hneg | hpos
    · have hwant : toU64 (lyInt env f.len) = .abort := if_neg (by omega)
      rw [hwant, Out.abort_bind]
      simp [hneg]
      omega
    · have hwant : toU64 (lyInt env f.len) = .ok (lyInt env f.len).toNat := if_pos ⟨hpos, hlt⟩
      rw [hwant, Out.ok_bind]
      split_ifs with hne
      · simp
        omega
      · simp
        omega

/-- What a nested serializer writes is what is written, and it aborts at its traps. -/
def SubBytes (sub : LyT → List Val → Out (List UInt8)) (st : LyT → List Val → List UInt8 → Prop)
    (tr : LyT → List Val → Prop) (n : LyT) (vs : List Val) : Prop :=
  (∀ bs, sub n vs = .ok bs ↔ st n vs bs) ∧ (sub n vs = .abort ↔ tr n vs)

/-- A step writes what its value is written as and aborts where the value traps. -/
structure BytesAgrees (sub : LyT → List Val → Out (List UInt8))
    (st : LyT → List Val → List UInt8 → Prop) (tr : LyT → List Val → Prop) (ex : Exprs)
    (ts : List LyT) (t : LyT) (f : LyF) (env : Env) (v : Val) : Prop where
  ok : ∀ e bs, lyBytesField sub ex ts t f v env = .ok (e, bs) ↔
    e = env ++ [(f.name, v)] ∧ ValueWrites st ts t f env v bs ∧ Passes ex f (env ++ [(f.name, v)])
  abort : lyBytesField sub ex ts t f v env = .abort ↔ ValueTraps tr ex ts f env v

theorem bytes_int (hbits : 0 < lyIntBits f.ty) (hlen : f.len = []) (n : Int) :
    BytesAgrees sub st tr ex ts t f env (.int n) := by
  have hfield : lyBytesField sub ex ts t f (.int n) env =
      lyBind ex t f env "BadInput".toList (.int n) >>= fun env' =>
        .ok (env', encode (t.kind = .be) f.ty n) := by
    unfold lyBytesField
    rw [if_pos hbits]
    rfl
  constructor
  · intro e bs
    rw [hfield, Out.bind_ok]
    constructor
    · rintro ⟨env', hbind, hpair⟩
      obtain ⟨rfl, hpass⟩ := lyBind_ok.1 hbind
      cases hpair
      exact ⟨rfl, .int hbits n, hpass⟩
    · rintro ⟨rfl, hw, hpass⟩
      refine ⟨_, lyBind_ok.2 ⟨rfl, hpass⟩, ?_⟩
      cases hw
      rfl
  · rw [hfield, Out.bind_abort, lyBind_abort]
    constructor
    · rintro (harg | ⟨_, -, h⟩)
      · exact .args nofun harg
      · cases h
    · rintro (⟨-, harg⟩ | ⟨hvar, -⟩ | ⟨h, -⟩)
      · exact .inl harg
      · exact absurd hlen hvar.1
      · omega

theorem bytes_bytes (hty : f.ty = bytesTy) (hlen : f.len ≠ []) (hlt : lyLen f env < 2 ^ 64)
    {bs : List UInt8} (hsize : bs.length ≤ listMax) :
    BytesAgrees sub st tr ex ts t f env (.bytes bs) := by
  have hbits : lyIntBits f.ty = 0 := by rw [hty, lyIntBits_bytesTy]
  obtain ⟨hok, habort⟩ := lyBytesLen_eq (t := t) (f := f) hsize hlt
  have hfield : lyBytesField sub ex ts t f (.bytes bs) env =
      lyBytesLen t f env bs.length >>= fun _ =>
        lyBind ex t f env "BadInput".toList (.bytes bs) >>= fun env' => .ok (env', bs) := by
    unfold lyBytesField
    rw [if_neg (by omega), if_pos hty]
    rfl
  constructor
  · intro e out
    rw [hfield, Out.bind_ok]
    constructor
    · rintro ⟨⟨⟩, hl, hrest⟩
      obtain ⟨env', hbind, hpair⟩ := Out.bind_ok.1 hrest
      obtain ⟨rfl, hpass⟩ := lyBind_ok.1 hbind
      cases hpair
      exact ⟨rfl, .bytes hty bs (hok.1 hl), hpass⟩
    · rintro ⟨rfl, hw, hpass⟩
      cases hw with
      | bytes _ _ hn =>
        exact ⟨(), hok.2 hn, Out.bind_ok.2 ⟨_, lyBind_ok.2 ⟨rfl, hpass⟩, rfl⟩⟩
  · rw [hfield, Out.bind_abort, habort]
    constructor
    · rintro (⟨hint, hneg⟩ | ⟨⟨⟩, hl, hrest⟩)
      · exact .length ⟨hlen, hint⟩ hneg
      · rcases Out.bind_abort.1 hrest with hbind | ⟨_, -, h⟩
        · refine .args (fun bs' hbs => ?_) (lyBind_abort.1 hbind)
          cases hbs
          exact hok.1 hl
        · cases h
    · rintro (⟨hl, harg⟩ | ⟨hvar, hneg⟩ | ⟨-, h, -⟩)
      · exact .inr ⟨(), hok.2 (hl bs rfl), Out.bind_abort.2 (.inl (lyBind_abort.2 harg))⟩
      · exact .inl ⟨hvar.2, hneg⟩
      · exact absurd hty h

theorem bytes_nested (hbits : lyIntBits f.ty = 0) (hty : f.ty ≠ bytesTy) (hlen : f.len = []) {n : LyT}
    (hn : lyType ts f.ty = some n) {vs : List Val} (hsub : SubBytes sub st tr n vs) :
    BytesAgrees sub st tr ex ts t f env (.record vs) := by
  obtain ⟨hok, habort⟩ := hsub
  have hfield : lyBytesField sub ex ts t f (.record vs) env =
      lyBind ex t f env "BadInput".toList (.record vs) >>= fun env' =>
        sub n vs >>= fun bs => .ok (env', bs) := by
    unfold lyBytesField
    rw [if_neg (by omega), if_neg hty, hn]
    rfl
  constructor
  · intro e out
    rw [hfield, Out.bind_ok]
    constructor
    · rintro ⟨env', hbind, hrest⟩
      obtain ⟨bs, hbs, hpair⟩ := Out.bind_ok.1 hrest
      obtain ⟨rfl, hpass⟩ := lyBind_ok.1 hbind
      cases hpair
      exact ⟨rfl, .nested hbits hty n hn vs out ((hok out).1 hbs), hpass⟩
    · rintro ⟨rfl, hw, hpass⟩
      cases hw with
      | nested _ _ m hm _ bs h =>
        rw [hn] at hm
        cases hm
        exact ⟨_, lyBind_ok.2 ⟨rfl, hpass⟩, Out.bind_ok.2 ⟨_, (hok _).2 h, rfl⟩⟩
  · rw [hfield, Out.bind_abort, lyBind_abort]
    constructor
    · rintro (harg | ⟨env', hbind, hrest⟩)
      · exact .args nofun harg
      · rcases Out.bind_abort.1 hrest with h | ⟨_, -, h⟩
        · obtain ⟨-, hpass⟩ := lyBind_ok.1 hbind
          exact .nested hbits hty n hn vs rfl hpass (habort.1 h)
        · cases h
    · rintro (⟨-, harg⟩ | ⟨hvar, -⟩ | ⟨-, -, m, hm, vs', hv, hpass, h⟩)
      · exact .inl harg
      · exact absurd hlen hvar.1
      · rw [hn] at hm
        cases hm
        cases hv
        exact .inr ⟨_, lyBind_ok.2 ⟨rfl, hpass⟩, Out.bind_abort.2 (.inl (habort.2 h))⟩

theorem bytes_field (hacc : Accepted ts) (ht : t ∈ ts) {rest : List LyF}
    (hfs : t.fs = done ++ f :: rest) (hrsv : f.rsv = 0) (henv : EnvOk done env)
    {ty : LyT → List Val → Prop} (hv : ValueTyped ty ts f v)
    (hsub : ∀ n vs, lyType ts f.ty = some n → ty n vs → SubBytes sub st tr n vs) :
    BytesAgrees sub st tr ex ts t f env v := by
  have hfield := hacc.field ht hfs
  cases hv with
  | int hbits n =>
    refine bytes_int hbits ?_ n
    by_contra hne
    rw [(hfield.len_ne hrsv).1 hne, lyIntBits_bytesTy] at hbits
    omega
  | bytes hty bs hsize =>
    refine bytes_bytes hty ((hfield.len_ne hrsv).2 hty) ?_ hsize
    unfold lyLen
    cases hfield with
    | reserved h => omega
    | int _ hbits =>
      rw [hty, lyIntBits_bytesTy] at hbits
      omega
    | fixed _ _ hint hn =>
      have hlt := strParseInt_lt f.len
      rw [if_pos hint]
      omega
    | var _ _ _ hint lf hlf hlbits =>
      rw [if_neg (by simp [hint])]
      exact (henv.len hlf hlbits).lt
    | nested _ _ h => exact absurd hty h
  | nested hbits hty n hn vs h =>
    refine bytes_nested hbits hty ?_ hn (hsub n vs hn h)
    by_contra hne
    exact hty ((hfield.len_ne hrsv).1 hne)

end Field

/-! ## Records -/

theorem ValueTyped.int_inRange {ty : LyT → List Val → Prop} {v : Val} (h : ValueTyped ty ts f v)
    (hbits : 0 < lyIntBits f.ty) : ∃ n, v = .int n ∧ InRange f.ty n := by
  cases h with
  | int _ n h => exact ⟨n, rfl, h⟩
  | bytes hty =>
    rw [hty, lyIntBits_bytesTy] at hbits
    omega
  | nested hzero => omega

theorem bytes_fields {sub : LyT → List Val → Out (List UInt8)}
    {st : LyT → List Val → List UInt8 → Prop} {tr ty : LyT → List Val → Prop}
    (hacc : Accepted ts) (ht : t ∈ ts)
    (hsub : ∀ f ∈ t.fs, ∀ n vs, lyType ts f.ty = some n → ty n vs → SubBytes sub st tr n vs)
    {fs : List LyF} (hfs : t.fs = done ++ fs) (henv : EnvOk done env) {vs : List Val}
    (hvs : FieldsTyped ty ts fs vs) (off : Int) (acc : List UInt8) :
    (∀ out, lyBytesFields sub ex ts t fs vs env off acc = .ok out ↔
        FieldsWrite st ex ts t fs vs env off acc out) ∧
      (lyBytesFields sub ex ts t fs vs env off acc = .abort ↔
        FieldsBytesTrap st tr ex ts t fs vs env) := by
  induction fs generalizing done env vs off acc with
  | nil =>
    cases hvs
    constructor
    · intro out
      simp [lyBytesFields, FieldsWrite, eq_comm]
    · simp [lyBytesFields, FieldsBytesTrap]
  | cons f fs ih =>
    have hf : f ∈ t.fs := by simp [hfs]
    have hfs' : t.fs = (done ++ [f]) ++ fs := by simp [hfs]
    unfold lyBytesFields FieldsWrite FieldsBytesTrap
    unfold FieldsTyped at hvs
    by_cases hrsv : f.rsv > 0
    · simp only [if_pos hrsv] at hvs ⊢
      exact ih hfs' (henv.reserved hrsv) hvs _ _
    · simp only [if_neg hrsv] at hvs ⊢
      cases vs with
      | nil => exact hvs.elim
      | cons v vs =>
        obtain ⟨hv, hvs⟩ := hvs
        have hfield : BytesAgrees sub st tr ex ts t f env v :=
          bytes_field hacc ht hfs (by omega) henv hv (hsub f hf)
        have hnext := ih hfs' (henv.value hv.int_inRange) hvs
        constructor
        · intro out
          rw [Out.bind_ok]
          constructor
          · rintro ⟨⟨e, bs⟩, hx, hy⟩
            obtain ⟨rfl, hw, hpass⟩ := (hfield.ok e bs).1 hx
            exact ⟨bs, hw, hpass, ((hnext _ _).1 out).1 hy⟩
          · rintro ⟨bs, hw, hpass, hy⟩
            exact ⟨(_, bs), (hfield.ok _ bs).2 ⟨rfl, hw, hpass⟩, ((hnext _ _).1 out).2 hy⟩
        · rw [Out.bind_abort, hfield.abort]
          constructor
          · rintro (h | ⟨⟨e, bs⟩, hx, hy⟩)
            · exact .inl h
            · obtain ⟨rfl, hw, hpass⟩ := (hfield.ok e bs).1 hx
              exact .inr ⟨⟨bs, hw⟩, hpass, (hnext _ _).2.1 hy⟩
          · rintro (h | ⟨⟨bs, hw⟩, hpass, hy⟩)
            · exact .inl h
            · exact .inr ⟨(_, bs), (hfield.ok _ bs).2 ⟨rfl, hw, hpass⟩, (hnext _ _).2.2 hy⟩

/-- The serializer writes exactly what a record is written as, and aborts exactly at its traps. -/
theorem agrees_bytes (hacc : Accepted ts) {left : Nat} (ht : t ∈ ts)
    {vs : List Val} (hvs : Typed ts left t vs) :
    SubBytes (lyBytes ex ts left) (Writes ex ts left) (BytesTraps ex ts left) t vs := by
  induction left generalizing t vs with
  | zero => exact hvs.elim
  | succ left ih =>
    exact bytes_fields hacc ht (fun f hf n vs hn h => ih (mem_of_lyType hn) h)
      (List.nil_append t.fs).symm EnvOk.nil hvs 0 []

end Layout

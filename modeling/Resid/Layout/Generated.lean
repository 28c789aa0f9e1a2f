import Resid.Runtime.Text
import Resid.Lib.CheckedInt
import Resid.Lib.FixedWidth

/-!
# Layout types

A record type with a byte layout: `c_abi` follows C (natural alignment, tail padding), `le` and
`be` are packed in that byte order.  A field is an integer, bytes with a length, another layout
type, or reserved bytes.

## Algorithm

Sizes and alignments recurse through the types that fields name.  `ly_depth` refuses nesting
past 16, so every function that recurses takes the levels of nesting that are left.
-/

namespace Layout

open Runtime

inductive Kind
  | cAbi
  | le
  | be
deriving DecidableEq

def Kind.text : Kind → Str
  | .cAbi => "c_abi".toList
  | .le => "le".toList
  | .be => "be".toList

/-- The constructor a failed check answers with: its name and its arguments. -/
structure Ctor where
  name : Str
  args : List Str
deriving DecidableEq

/-- A field: its name and type text, its conditions with their constructors, its `@len` (empty
for none), or the size of an `@reserved(n)`, which has none of these, and where it starts. -/
structure LyF where
  name : Str
  ty : Str
  checks : List (Str × Option Ctor)
  len : Str
  rsv : Nat
  pos : Int
  bare : 0 < rsv → name = [] ∧ ty = [] ∧ checks = [] ∧ len = []

/-- A letter, a digit or an underscore. -/
def lyIdent (c : Char) : Bool :=
  (97 ≤ c.toNat && c.toNat ≤ 122) || (65 ≤ c.toNat && c.toNat ≤ 90) ||
    (48 ≤ c.toNat && c.toNat ≤ 57) || c.toNat == 95

/-- A layout type; its name is the identifier the declaration binds. -/
structure LyT where
  name : Str
  kind : Kind
  fs : List LyF
  pos : Int
  ident : name ≠ [] ∧ name.all lyIdent = true

/-! ## Field kinds -/

/-- An integer field's width in bits; 0 when the type is not one. -/
def lyIntBits (t : Str) : Nat :=
  if t = "UInt(8)".toList ∨ t = "Int(8)".toList then 8
  else if t = "UInt(16)".toList ∨ t = "Int(16)".toList then 16
  else if t = "UInt(32)".toList ∨ t = "Int(32)".toList then 32
  else if t = "UInt(64)".toList ∨ t = "Int(64)".toList then 64
  else 0

def lySigned (t : Str) : Bool := strStartsWith t "Int(".toList

def bytesTy : Str := "List(UInt(8))".toList

/-- Types only the runtime builds. -/
def lyRuntimeType (t : Str) : Bool :=
  t == "ChallengeRecord".toList || t == "ReplayableRecord".toList || t == "ExportKey".toList ||
    t == "ChannelExporter".toList || t == "EvidenceTime".toList ||
    strStartsWith t "ChannelSealed".toList || t == "Anchor".toList

/-- The first layout type of that name. -/
def lyType (ts : List LyT) (name : Str) : Option LyT := ts.find? fun t => t.name == name

/-- The first of the fields with that name. -/
def lyField (fs : List LyF) (name : Str) : Option LyF := fs.find? fun f => f.name == name

/-! ## Alignment and size -/

def lyTypeAlign (align : LyF → Nat) (t : LyT) : Nat :=
  t.fs.foldl (fun acc f => if align f > acc then align f else acc) 1

/-- A field's alignment under c_abi. -/
def lyAlign (ts : List LyT) : (left : Nat) → LyF → Nat
  | 0, f => if f.rsv > 0 then 1 else if lyIntBits f.ty > 0 then lyIntBits f.ty / 8 else 1
  | left + 1, f =>
    if f.rsv > 0 then 1
    else if lyIntBits f.ty > 0 then lyIntBits f.ty / 8
    else
      match lyType ts f.ty with
      | some t => lyTypeAlign (lyAlign ts left) t
      | none => 1

def lyRound (x : Int) (a : Nat) : Int := (x + a - 1) / a * a

/-- The fixed part's size, from the fields `fs` of `t` at offset `off` on; -1 when a field of
variable size is not the last. -/
def lySizeAt (align : LyF → Nat) (size : LyF → Int) (t : LyT) : List LyF → (off : Int) → Int
  | [], off => if t.kind = .cAbi then lyRound off (lyTypeAlign align t) else off
  | f :: fs, off =>
    let sz := size f
    let o := if t.kind = .cAbi then lyRound off (align f) else off
    if sz < 0 then
      if fs.isEmpty then if t.kind = .cAbi then lyRound o (lyTypeAlign align t) else o else -1
    else lySizeAt align size t fs (o + sz)

/-- A field's fixed size, a nested type's being `nested`; -1 when it is variable. -/
def lyFsizeWith (nested : LyT → Int) (ts : List LyT) (f : LyF) : Int :=
  if f.rsv > 0 then f.rsv
  else if lyIntBits f.ty > 0 then (lyIntBits f.ty / 8 : Nat)
  else if f.len ≠ [] ∧ strIsInt f.len = true then strParseInt f.len
  else if f.len ≠ [] then -1
  else
    match lyType ts f.ty with
    | some t => nested t
    | none => -1

def lyTypeSize (ts : List LyT) : (left : Nat) → LyT → Int
  | 0, _ => -1
  | left + 1, t => lySizeAt (lyAlign ts left) (lyFsizeWith (lyTypeSize ts left) ts) t t.fs 0

def lyFsize (ts : List LyT) (left : Nat) : LyF → Int := lyFsizeWith (lyTypeSize ts left) ts

/-- The offset of field `i` of the fields `fs`, the first at `off`. -/
def lyOffAt (align : LyF → Nat) (size : LyF → Int) : List LyF → (off : Int) → (i : Nat) → Int
  | [], off, _ => off
  | f :: _, off, 0 => lyRound off (align f)
  | f :: fs, off, i + 1 => lyOffAt align size fs (lyRound off (align f) + size f) i

/-- The levels of nesting that are computed. -/
def lyLevels : Nat := 17

/-- The c_abi offset of field `i`. -/
def lyRoundExpr (ts : List LyT) (t : LyT) (i : Nat) : Int :=
  lyOffAt (lyAlign ts lyLevels) (lyFsize ts lyLevels) t.fs 0 i

/-! ## Rules -/

/-- An error's code, message and position. -/
structure LyErr where
  code : Str
  msg : Str
  pos : Int
deriving DecidableEq

def lyTypeHasVar (t : LyT) : Bool := t.fs.any fun f => f.len ≠ [] && !strIsInt f.len

/-- What is wrong with a field, its message behind the field's name. -/
def lyFieldErr (t : LyT) (f : LyF) (code : String) (msg : Str) : Option LyErr :=
  some ⟨code.toList, t.name ++ ".".toList ++ f.name ++ ": ".toList ++ msg, f.pos⟩

/-- The rules for a field whose type is the layout type `n`. -/
def lyCheckNested (ts : List LyT) (t : LyT) (f : LyF) (n : LyT) : Option LyErr :=
  if n.name = t.name then
    lyFieldErr t f "E0272" "a layout type cannot contain itself".toList
  else if n.kind ≠ t.kind then
    lyFieldErr t f "E0272" ("a nested layout type must have the same layout (".toList ++
      t.kind.text ++ ")".toList)
  else if t.kind = .cAbi ∧ lyTypeSize ts lyLevels n < 0 then
    lyFieldErr t f "E0272" "under c_abi a nested type has a fixed size".toList
  else if t.kind = .cAbi ∧ lyTypeHasVar n = true then
    lyFieldErr t f "E0272" "under c_abi a nested type has no variable-length field".toList
  else none

/-- The rules for a length that names a field, `done` the fields before this one. -/
def lyCheckLen (t : LyT) (done : List LyF) (f : LyF) (last : Bool) : Option LyErr :=
  match lyField done f.len with
  | none => lyFieldErr t f "E0272" ("@len(".toList ++ f.len ++
      ") names no earlier field (lengths look backward)".toList)
  | some lf =>
    if lyIntBits lf.ty = 0 then
      lyFieldErr t f "E0272" ("@len(".toList ++ f.len ++ ") must name an integer field".toList)
    else if t.kind = .cAbi ∧ last = false then
      lyFieldErr t f "E0272" ("under c_abi only the last field has a variable length (a " ++
        "flexible array member)").toList
    else none

/-- The rules for one field, `last` when none is after it. -/
def lyCheckField (ts : List LyT) (t : LyT) (done : List LyF) (f : LyF) (last : Bool) :
    Option LyErr :=
  let sec := strIndexOf f.ty "Secret(".toList 0 ≥ 0
  if f.rsv > 0 then none
  else if lyRuntimeType f.ty then
    lyFieldErr t f "E0274" ("a ".toList ++ f.ty ++ (" is built only by the runtime, so no layout " ++
      "field holds one (parsing outside bytes must never forge it)").toList)
  else if strStartsWith f.ty "Challenge(".toList then
    lyFieldErr t f "E0272" "Challenge(N) fields arrive with channels (PLAN-labels phase 3)".toList
  else if sec ∧ f.checks.length > 0 then
    lyFieldErr t f "E0273" ("a Secret field takes no @check (a failed check would publish a " ++
      "bit of it)").toList
  else if sec then
    lyFieldErr t f "E0272" ("Secret fields arrive with channels and per-field secrecy " ++
      "(PLAN-labels phase 3)").toList
  else if lyIntBits f.ty = 0 ∧ f.ty ≠ bytesTy ∧ (lyType ts f.ty).isNone then
    lyFieldErr t f "E0272" (("a layout field is UInt(8|16|32|64), Int(8|16|32|64), " ++
      "List(UInt(8)) with @len, or another layout type; got ").toList ++ f.ty)
  else if f.ty = bytesTy ∧ f.len = [] then
    lyFieldErr t f "E0272" "a List(UInt(8)) field needs @len(field) or @len(count)".toList
  else if f.ty ≠ bytesTy ∧ f.len ≠ [] then
    lyFieldErr t f "E0272" "@len applies to List(UInt(8)) fields".toList
  else
    match if f.len ≠ [] ∧ strIsInt f.len = false then lyCheckLen t done f last else none with
    | some e => some e
    | none =>
      if f.len ≠ [] ∧ strIsInt f.len = true ∧ strParseInt f.len < 0 then
        lyFieldErr t f "E0272" "a negative length".toList
      else (lyType ts f.ty).bind (lyCheckNested ts t f)

/-- Nothing when the type is well formed. -/
def lyCheck (ts : List LyT) (t : LyT) : (done fs : List LyF) → Option LyErr
  | [], [] => some ⟨"E0272".toList, "layout type ".toList ++ t.name ++ " has no fields".toList, t.pos⟩
  | _ :: _, [] => none
  | done, f :: fs =>
    match lyCheckField ts t done f fs.isEmpty with
    | some e => some e
    | none => lyCheck ts t (done ++ [f]) fs

/-- The depth the nesting reaches from depth `17 - left` on, as far as 17. -/
def lyDepth (ts : List LyT) : (left : Nat) → LyT → Nat
  | 0, _ => 17
  | left + 1, t =>
    t.fs.foldl (fun best f =>
      let sub := match lyType ts f.ty with
        | some n => lyDepth ts left n
        | none => 17 - (left + 1)
      if sub > best then sub else best) (17 - (left + 1))

def lyCheckAll (ts : List LyT) : List LyT → Option LyErr
  | [] => none
  | t :: rest =>
    match lyCheck ts t [] t.fs with
    | some e => some e
    | none =>
      if lyDepth ts lyLevels t > 16 then
        some ⟨"E0272".toList, "layout type ".toList ++ t.name ++
          " nests too deep or contains itself".toList, t.pos⟩
      else if (lyType rest t.name).isSome then
        some ⟨"E0272".toList, "layout type ".toList ++ t.name ++ " is declared twice".toList, t.pos⟩
      else lyCheckAll ts rest

end Layout

/-!
## What the generated code does

For each layout type the compiler writes `T_parse_at`, `T_parse` and `T_bytes`.  Below is what
the statements written for a type do when they run: a statement answers, returns an error, or
aborts where an index, an addition or a conversion traps.  A record value is the values of its
fields, reserved bytes apart, in their order.

### Algorithm

The parser runs over the fields at a current offset; under `c_abi` field `i` stands at its C
offset from the start.  The serializer appends to what the fields before have written.
-/

namespace Layout

open Runtime CheckedInt

/-! ## Values and outcomes -/

inductive Val
  | int (n : Int)
  | bytes (bs : List UInt8)
  | record (vs : List Val)

/-- The fields bound so far. -/
abbrev Env := List (Str × Val)

/-- A string literal as it is written, a text, or a number. -/
inductive Arg
  | literal (src : Str)
  | text (s : Str)
  | num (n : Int)
deriving DecidableEq

structure DeviceError where
  ctor : Str
  args : List Arg
deriving DecidableEq

inductive Out (α : Type)
  | ok (a : α)
  | err (e : DeviceError)
  | abort

namespace Out

variable {α β : Type}

def bind (x : Out α) (f : α → Out β) : Out β :=
  match x with
  | ok a => f a
  | err e => err e
  | abort => abort

instance : Monad Out where
  pure := ok
  bind := bind

/-- A checked operation: nothing where it traps. -/
def checked : Option α → Out α
  | some a => ok a
  | none => abort

@[simp] theorem ok_bind (a : α) (f : α → Out β) : (ok a >>= f) = f a := rfl

@[simp] theorem err_bind (e : DeviceError) (f : α → Out β) : (err e >>= f) = err e := rfl

@[simp] theorem abort_bind (f : α → Out β) : ((abort : Out α) >>= f) = abort := rfl

@[simp] theorem pure_eq (a : α) : (pure a : Out α) = ok a := rfl

theorem bind_ok {x : Out α} {f : α → Out β} {b : β} :
    (x >>= f) = ok b ↔ ∃ a, x = ok a ∧ f a = ok b := by
  cases x with
  | ok a => simp
  | err e => simp
  | abort => simp

theorem bind_abort {x : Out α} {f : α → Out β} :
    (x >>= f) = abort ↔ x = abort ∨ ∃ a, x = ok a ∧ f a = abort := by
  cases x with
  | ok a => simp
  | err e => simp
  | abort => simp

end Out

/-- What the conditions and the arguments of constructors compute from the fields bound; both
are pure and do not trap. -/
structure Exprs where
  cond : Str → Env → Bool
  value : Str → Env → Int

/-! ## Checked steps -/

def addI (a b : Int) : Out Int := .checked (add 64 a b)

/-- `(Int) n` of a wider or unsigned value. -/
def toInt (n : Int) : Out Int := .checked (check 64 n)

/-- `(UInt(64)) n` of a signed value. -/
def toU64 (n : Int) : Out Nat := if 0 ≤ n ∧ n < 2 ^ 64 then .ok n.toNat else .abort

/-- `b[i]`. -/
def byteAt (b : List UInt8) (i : Int) : Out UInt8 :=
  if 0 ≤ i then .checked b[i.toNat]? else .abort

/-- `b[lo..hi]`, the bounds clamped. -/
def slice (b : List UInt8) (lo hi : Int) : List UInt8 :=
  (b.drop lo.toNat).take (hi.toNat - lo.toNat)

def wrappingI (bits : Nat) (v : Nat) : Int := (BitVec.ofNat bits v).toInt

def wrappingU64 (n : Int) : Nat := (n % 2 ^ 64).toNat

/-! ## Helpers -/

/-- Bytes `n - left` to `n` of the `n` at `p`, each or-ed to its place. -/
def lyRdAt (b : List UInt8) (p : Int) (n : Nat) (be : Bool) : (left acc : Nat) → Out Nat
  | 0, acc => .ok acc
  | left + 1, acc => do
    let i := n - (left + 1)
    let sh := if be then (n - 1 - i) * 8 else i * 8
    let x ← byteAt b (← addI p i)
    lyRdAt b p n be left (acc ||| FixedWidth.shlLow 64 x.toNat sh)

def lyRd (b : List UInt8) (p : Int) (n : Nat) (be : Bool) : Out Nat := lyRdAt b p n be n 0

def lyWrAt (v n : Nat) (be : Bool) : (left : Nat) → (acc : List UInt8) → List UInt8
  | 0, acc => acc
  | left + 1, acc =>
    let i := n - (left + 1)
    let sh := if be then (n - 1 - i) * 8 else i * 8
    lyWrAt v n be left (acc ++ [UInt8.ofNat ((v >>> sh) &&& 255)])

def lyWr (v n : Nat) (be : Bool) : List UInt8 := lyWrAt v n be n []

def lyZeros (n : Int) : List UInt8 := List.replicate n.toNat 0

/-! ## Conditions -/

/-- The arguments of a constructor: string literals as they are, others as Int. -/
def lyCtorArgs (ex : Exprs) (env : Env) : List Str → Out (List Arg)
  | [] => .ok []
  | a :: as => do
    let x ← if strStartsWith a ['"'] then .ok (Arg.literal a)
      else do let n ← toInt (ex.value a env); pure (Arg.num n)
    let xs ← lyCtorArgs ex env as
    pure (x :: xs)

/-- The error of a failed check: the default quotes the condition, a named constructor gets the
type's name and its arguments. -/
def lyErr (ex : Exprs) (tname : Str) (f : LyF) (env : Env) (check : Str × Option Ctor)
    (dflt : Str) : Out DeviceError :=
  match check.2 with
  | none => .ok ⟨dflt, [.text tname, .text (f.name ++ ": ".toList ++ check.1)]⟩
  | some c => do
    let args ← lyCtorArgs ex env c.args
    pure ⟨c.name, .text tname :: args⟩

def lyChecks (ex : Exprs) (tname : Str) (f : LyF) (env : Env) (dflt : Str) :
    List (Str × Option Ctor) → Out Unit
  | [] => .ok ()
  | c :: cs =>
    if !ex.cond c.1 env then do
      let e ← lyErr ex tname f env c dflt
      .err e
    else lyChecks ex tname f env dflt cs

def badReply (tname why : Str) : DeviceError := ⟨"BadReply".toList, [.text tname, .text why]⟩

def badInput (tname why : Str) : DeviceError := ⟨"BadInput".toList, [.text tname, .text why]⟩

def lyTrunc (tname what : Str) : DeviceError := badReply tname (what ++ ": truncated".toList)

/-- The value of an integer field bound before. -/
def lyInt (env : Env) (name : Str) : Int :=
  match env.lookup name with
  | some (.int n) => n
  | _ => 0

/-! ## The parser -/

/-- A parsed record and where it ended. -/
structure At where
  v : List Val
  stop : Int

/-- Binds a field to its value and checks its conditions. -/
def lyBind (ex : Exprs) (t : LyT) (f : LyF) (env : Env) (dflt : Str) (v : Val) : Out Env := do
  let env' := env ++ [(f.name, v)]
  lyChecks ex t.name f env' dflt f.checks
  pure env'

/-- The bytes left must hold the length that a field named. -/
def lyVarLen (t : LyT) (done : List LyF) (f : LyF) (env : Env) (size : Nat) (start : Int) :
    Out Int := do
  let n := lyInt env f.len
  if (lyField done f.len).any (fun lf => lySigned lf.ty) && decide (n < 0) then
    .err (badReply t.name (f.name ++ ": negative length".toList))
  else do
    let want ← toU64 n
    let have' ← toU64 (← .checked (sub 64 size start))
    if want > have' then .err (lyTrunc t.name f.name) else toInt n

/-- Where field `i` starts; `p` is the current offset. -/
def lyFieldStart (ts : List LyT) (t : LyT) (base : Int) (i : Nat) (p : Int) : Out Int :=
  if t.kind = .cAbi then addI base (lyRoundExpr ts t i) else .ok p

def lyParseInt (ex : Exprs) (t : LyT) (b : List UInt8) (f : LyF) (env : Env) (start : Int) :
    Out (Env × Int) := do
  let stop ← addI start (lyIntBits f.ty / 8 : Nat)
  if stop > b.length then .err (lyTrunc t.name f.name)
  else do
    let u ← lyRd b start (lyIntBits f.ty / 8) (t.kind = .be)
    let v := if lySigned f.ty then wrappingI (lyIntBits f.ty) u else u
    let env' ← lyBind ex t f env "BadReply".toList (.int v)
    pure (env', stop)

/-- The `n` bytes at `start`. -/
def lyTake (ex : Exprs) (t : LyT) (b : List UInt8) (f : LyF) (env : Env) (start n : Int) :
    Out (Env × Int) := do
  let stop ← addI start n
  if stop > b.length then .err (lyTrunc t.name f.name)
  else do
    let env' ← lyBind ex t f env "BadReply".toList (.bytes (slice b start stop))
    pure (env', stop)

def lyParseBytes (ex : Exprs) (t : LyT) (b : List UInt8) (done : List LyF) (f : LyF) (env : Env)
    (start : Int) : Out (Env × Int) :=
  if strIsInt f.len then lyTake ex t b f env start (strParseInt f.len)
  else do
    let n ← lyVarLen t done f env b.length start
    lyTake ex t b f env start n

def lyParseNested (sub : LyT → Int → Out At) (ex : Exprs) (ts : List LyT) (t : LyT) (f : LyF)
    (env : Env) (start : Int) : Out (Env × Int) :=
  match lyType ts f.ty with
  | none => .abort
  | some n => do
    let r ← sub n start
    let env' ← lyBind ex t f env "BadReply".toList (.record r.v)
    pure (env', r.stop)

/-- The statements for field `f` behind the fields `done`, at `start`. -/
def lyParseField (sub : LyT → Int → Out At) (ex : Exprs) (ts : List LyT) (t : LyT)
    (b : List UInt8) (done : List LyF) (f : LyF) (env : Env) (start : Int) : Out (Env × Int) :=
  if f.rsv > 0 then do
    let stop ← addI start f.rsv
    if stop > b.length then .err (lyTrunc t.name "reserved bytes".toList) else pure (env, stop)
  else if lyIntBits f.ty > 0 then lyParseInt ex t b f env start
  else if f.ty = bytesTy then lyParseBytes ex t b done f env start
  else lyParseNested sub ex ts t f env start

def lyParseFields (sub : LyT → Int → Out At) (ex : Exprs) (ts : List LyT) (t : LyT)
    (b : List UInt8) (base : Int) : (done fs : List LyF) → Env → Int → Out (Env × Int)
  | _, [], env, p => .ok (env, p)
  | done, f :: fs, env, p => do
    let start ← lyFieldStart ts t base done.length p
    let r ← lyParseField sub ex ts t b done f env start
    lyParseFields sub ex ts t b base (done ++ [f]) fs r.1 r.2

/-- Where a parsed record ends, its last field at `p`. -/
def lyRecordStop (ts : List LyT) (t : LyT) (base p : Int) : Out Int :=
  if t.kind = .cAbi then do
    let all ← addI base (lyTypeSize ts lyLevels t)
    pure (if p > all then p else all)
  else .ok p

/-- `T_parse_at`, `left` the levels of nesting that may still be entered. -/
def lyParseAt (ex : Exprs) (ts : List LyT) (b : List UInt8) : (left : Nat) → LyT → Int → Out At
  | 0, _, _ => .abort
  | left + 1, t, at' =>
    if at' < 0 ∨ at' > b.length then
      .err (badReply t.name "offset outside the bytes".toList)
    else do
      let r ← lyParseFields (lyParseAt ex ts b left) ex ts t b at' [] t.fs [] at'
      let stop ← lyRecordStop ts t at' r.2
      pure ⟨r.1.map Prod.snd, stop⟩

/-- `T_parse`: packed types must be consumed exactly. -/
def lyParse (ex : Exprs) (ts : List LyT) (t : LyT) (b : List UInt8) : Out (List Val) := do
  let r ← lyParseAt ex ts b lyLevels t 0
  if t.kind ≠ .cAbi ∧ r.stop ≠ b.length then .err (badReply t.name "trailing bytes".toList)
  else pure r.v

/-! ## The serializer -/

/-- The length of a list of bytes must be the one its field names or gives. -/
def lyBytesLen (t : LyT) (f : LyF) (env : Env) (size : Nat) : Out Unit :=
  if strIsInt f.len then
    if (size : Int) ≠ strParseInt f.len then
      .err (badInput t.name (f.name ++ ": length ".toList ++ f.len))
    else .ok ()
  else do
    let has ← toU64 size
    let want ← toU64 (lyInt env f.len)
    if has ≠ want then .err (badInput t.name (f.name ++ ": length is not ".toList ++ f.len))
    else .ok ()

/-- A field's own bytes, and the fields bound after it. -/
def lyBytesField (sub : LyT → List Val → Out (List UInt8)) (ex : Exprs) (ts : List LyT) (t : LyT)
    (f : LyF) (v : Val) (env : Env) : Out (Env × List UInt8) :=
  if lyIntBits f.ty > 0 then
    match v with
    | .int n => do
      let env' ← lyBind ex t f env "BadInput".toList v
      let u := if lySigned f.ty then wrappingU64 n else n.toNat
      pure (env', lyWr u (lyIntBits f.ty / 8) (t.kind = .be))
    | _ => .abort
  else if f.ty = bytesTy then
    match v with
    | .bytes bs => do
      lyBytesLen t f env bs.length
      let env' ← lyBind ex t f env "BadInput".toList v
      pure (env', bs)
    | _ => .abort
  else
    match v, lyType ts f.ty with
    | .record vs, some n => do
      let env' ← lyBind ex t f env "BadInput".toList v
      let bs ← sub n vs
      pure (env', bs)
    | _, _ => .abort

/-- What a field adds to the running offset behind its padding. -/
def lyWidth (ts : List LyT) (f : LyF) : Int :=
  if f.rsv > 0 then f.rsv
  else if lyIntBits f.ty > 0 then (lyIntBits f.ty / 8 : Nat)
  else if f.ty = bytesTy then if strIsInt f.len then strParseInt f.len else 0
  else
    match lyType ts f.ty with
    | some n => lyTypeSize ts lyLevels n
    | none => 0

/-- Where a field goes when the fields before it end at `off`. -/
def lyPlace (ts : List LyT) (t : LyT) (f : LyF) (off : Int) : Int :=
  if t.kind = .cAbi then lyRound off (lyAlign ts lyLevels f) else off

/-- The padding between `off` and `o`. -/
def lyPad (off o : Int) : List UInt8 := if o > off then lyZeros (o - off) else []

/-- The tail padding behind fields that end at `off`. -/
def lyTail (ts : List LyT) (t : LyT) (off : Int) : List UInt8 :=
  let pad := if t.kind = .cAbi then lyTypeSize ts lyLevels t - off else 0
  if pad > 0 ∧ lyTypeHasVar t = false then lyZeros pad else []

/-- What is written for the fields `fs` of `t` behind `acc`; `off` is the running offset. -/
def lyBytesFields (sub : LyT → List Val → Out (List UInt8)) (ex : Exprs) (ts : List LyT) (t : LyT) :
    (fs : List LyF) → (vs : List Val) → Env → (off : Int) → (acc : List UInt8) → Out (List UInt8)
  | [], [], _, off, acc => .ok (acc ++ lyTail ts t off)
  | [], _ :: _, _, _, _ => .abort
  | f :: fs, vs, env, off, acc =>
    let o := lyPlace ts t f off
    if f.rsv > 0 then
      lyBytesFields sub ex ts t fs vs env (o + lyWidth ts f) (acc ++ lyPad off o ++ lyZeros f.rsv)
    else
      match vs with
      | [] => .abort
      | v :: vs => do
        let r ← lyBytesField sub ex ts t f v env
        lyBytesFields sub ex ts t fs vs r.1 (o + lyWidth ts f) (acc ++ lyPad off o ++ r.2)

/-- `T_bytes`, `left` the levels of nesting that may still be entered. -/
def lyBytes (ex : Exprs) (ts : List LyT) : (left : Nat) → LyT → List Val → Out (List UInt8)
  | 0, _, _ => .abort
  | left + 1, t, vs => lyBytesFields (lyBytes ex ts left) ex ts t t.fs vs [] 0 []

end Layout

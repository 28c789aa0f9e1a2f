import Resid.Runtime.Text

/-!
# Integrity labels

`lb_fn` walks the checked body of one function and gives its summary: whether the result is
External (`x`), which parameters reach or select it (`d`) and the kinds of the sources behind it
(`k`, bit 1 chosen outside, bit 2 drawn at random or provisioned).

## Algorithm

Every expression has the join of its operands as its label; an information-acquiring call starts a
new one, a call of a function goes by that function's summary.  `pc` is the join of the conditions
around the walk: a `return` and the early exit of `?` join it into the result `res`, a `break` or
`continue` into `brk`.  A loop whose `brk` comes out External where `pc` was Internal, or with a
parameter that `pc` has not, walks its body a second time under both.

Explanations (`why`, `src`) and the control over disclosures (`rb`) read labels and change none;
they are left out.
-/

namespace Labels

open Runtime

/-! ## The checked graph of one body -/

/-- What the definition column says of a node: nothing, a builtin, a function, a type or a variant,
or another node, which a walk may have bound. -/
inductive Def where
  | unresolved
  | builtin
  | fn (f : Nat)
  | data (d : Nat)
  | binder (d : Nat)
deriving DecidableEq

mutual

/-- Expression nodes, `op` for every kind that only joins its kids.  The receiver of a method call
is its first kid; a lambda's parameters are nodes that nothing binds. -/
inductive Expr where
  | lit (id : Nat)
  | ref (id : Nat) (text : Str) (d : Def)
  | call (id : Nat) (text : Str) (d : Def) (args : List Expr)
  | mcall (id : Nat) (text : Str) (d : Def) (kids : List Expr)
  | named (id : Nat) (text : Str) (a : Expr)
  | choose (id : Nat) (cond a : Expr) (b : Option Expr)
  | matchArms (id : Nat) (scrut : Expr) (arms : List Arm)
  | bexpr (id : Nat) (binds : List Bind) (last : Expr) (semi : Bool)
  | orelse (id : Nat) (a b : Expr)
  | tryExit (id : Nat) (a : Expr)
  | lambda (id : Nat) (params : List Nat) (body : Expr)
  | field (id : Nat) (text : Str) (d : Def) (a : Expr)
  | spawn (id : Nat) (body : Stmt)
  | pat (id : Nat) (a : Expr)
  | op (id : Nat) (kids : List Expr)

inductive Arm where
  | mk (names : List Nat) (body : Expr)

/-- A binding `T x = e`, with or without a predicate on its type. -/
inductive Bind where
  | mk (id : Nat) (e : Expr)

inductive Stmt where
  | block (ss : List Stmt)
  | bind (b : Bind)
  | letpat (id : Nat) (e : Expr)
  | destr (names : List Nat) (e : Expr)
  | ret (id : Nat) (e : Option Expr)
  | brk (id : Nat)
  | cont (id : Nat)
  | cond (id : Nat) (c : Expr) (branches : List Stmt)
  | while (id : Nat) (c : Expr) (body : Stmt)
  | for (id : Nat) (it : Expr) (body : Stmt)
  | with (binds : List Bind) (body : Stmt)
  | expr (id : Nat) (e : Expr)

end

def Arm.body : Arm → Expr
  | .mk _ body => body

def Bind.value : Bind → Expr
  | .mk _ e => e

@[simp] theorem Arm.body_mk (ns : List Nat) (body : Expr) : (Arm.mk ns body).body = body := rfl

/-! ## Labels -/

/-- `x` is -1 or the node that made the value External. -/
structure LbV where
  x : Int
  d : BitVec 64
  k : BitVec 64
deriving DecidableEq

def lvIn : LbV := ⟨-1, 0, 0⟩

def lvJoin (a b : LbV) : LbV := ⟨if a.x ≥ 0 then a.x else b.x, a.d ||| b.d, a.k ||| b.k⟩

def lbBit (i : Nat) : BitVec 64 :=
  if i < 62 then (1 : BitVec 64) <<< i else (1 : BitVec 64) <<< 62

/-- What stops the walk: a builtin without an entry in the table, or `E0286` at an argument of a
`@decides` function or at one itself. -/
inductive LbErr where
  | noLabel (text : Str) (id : Nat)
  | decidesArg (f arg : Nat)
  | decides (f : Nat)
deriving DecidableEq

/-- Walk state: `env` from binder nodes to labels, `sum` from functions to summaries; what a map
does not hold is Internal. -/
structure LbT where
  env : Nat → LbV
  sum : Nat → LbV
  res : LbV
  brk : LbV
  err : Option LbErr

structure LbE where
  v : LbV
  t : LbT

/-- A function as its callers see it: the native module it is linked to, whether it is a primitive
of the standard library and the inputs that one verifies. -/
structure LbFn where
  text : Str
  params : List (Nat × Str)
  link : Option Str
  primitive : Bool
  inputs : List Str
  decides : Bool

/-- Fixed for one run: the behaviors a program declares, its type names, the nodes that are in the
standard library, the origins of the fields of signed evidence, the functions, and whether this is
the last pass. -/
structure LbC where
  bnames : Str → Bool
  types : Str → Bool
  inStd : Nat → Bool
  origin : Def → Str
  fns : Nat → LbFn
  last : Bool

namespace LbT

def setRes (t : LbT) (r : LbV) : LbT := { t with res := r }

def setBrk (t : LbT) (b : LbV) : LbT := { t with brk := b }

def bind (t : LbT) (id : Nat) (v : LbV) : LbT := { t with env := Function.update t.env id v }

/-- The first error stands. -/
def fail (t : LbT) (e : LbErr) : LbT := if t.err = none then { t with err := some e } else t

end LbT

/-- The label of node `id` given the join of what reaches it. -/
def lbAt (id : Nat) (j : LbV) (t : LbT) : LbE :=
  if j.x < 0 then ⟨j, t⟩ else ⟨⟨id, j.d, j.k⟩, t⟩

def lbKind (what : Str) : BitVec 64 :=
  if strStartsWith what "randomness: ".toList || what == "provisioned key".toList then 2 else 1

/-- An information-acquiring effect at node `id`. -/
def lbSource (id : Nat) (what : Str) (t : LbT) : LbE := ⟨⟨id, 0, lbKind what⟩, t⟩

/-! ## The source table -/

def oneOf (n : Str) (names : List String) : Bool := names.any fun s => n == s.toList

def startsWithOne (n : Str) (names : List String) : Bool :=
  names.any fun s => strStartsWith n s.toList

/-- 1: the result joins the arguments; 2: an information-acquiring effect; 3: a CPU feature query;
4: a provisioned key; 0: no entry. -/
def lbBuiltin (c : LbC) (n : Str) : Nat :=
  if strStartsWith n "resid_raw_".toList then
    let what := strSlice n 10 (strLen n)
    if oneOf what ["cpuid", "cpuid_ab"] then 3
    else if oneOf what ["arch", "nr", "bits_f64", "bits_f128", "f128_bits", "popcount"] then 1
    else 2
  else if strStartsWith n "resid_cpu_has_".toList then 3
  else if startsWithOne n ["resid_tcp_", "resid_unix_", "resid_term_", "resid_dbg_", "resid_disp_",
    "resid_clock_", "resid_device_"] then 2
  else if strStartsWith n "resid_chal_".toList then 2
  else if n == "resid_tr_read".toList then 2
  else if n == "resid_tr_note".toList then 1
  else if oneOf n ["resid_crypto_random_byte", "resid_random_os", "resid_random_cpu",
    "resid_read_line", "resid_read_byte", "resid_mem_mark", "resid_mem_since_mark",
    "resid_stack_left"] then 2
  else if oneOf n ["print", "println", "eprintln", "print_bytes"] then 2
  else if oneOf n ["resid_test_plan", "resid_test_summary", "resid_test_run_closure",
    "resid_test_run"] then 2
  else if startsWithOne n ["str_", "resid_fmt_", "checked_", "wrapping_", "saturating_"] then 1
  else if startsWithOne n ["ct_", "aesni_"] ||
    oneOf n ["gf128_mul_hw", "sha256_compress_hw", "sha512_compress_hw"] then 1
  else if oneOf n ["Some", "Ok", "Err", "None", "abs", "min", "max", "clamp", "sqrt",
    "classify"] then 1
  else if oneOf n ["assert", "rt_assert", "known", "rt_known", "expect", "comptime_print", "todo",
    "unimplemented"] then 1
  else if n == "provisioned_key".toList then 4
  else if n == "assumed".toList then 1
  else if oneOf n ["declassify", "secret", "secret_join", "secret_split"] then 1
  else if oneOf n ["resid_arena_push", "resid_arena_pop", "resid_bulk_push", "resid_bulk_pop",
    "resid_list_str_persist_copy", "resid_dec_persist"] then 1
  else if oneOf n ["resid_internals", "resid_internals_set", "resid_rtmod", "resid_rtmod_set",
    "resid_quiet", "resid_quiet_set", "resid_mem_limit_set"] then 1
  else if oneOf n ["abs_i64", "min_i64", "max_i64", "clamp_i64", "sort"] then 1
  else if oneOf n ["StrBuf", "ListBuf", "BytesBuf", "splat", "lanes", "select", "Reverse"] then 1
  else if oneOf n ["Eq", "Ord", "Bounded", "Hash", "Show", "Serialize", "Allocator"] then 1
  else if c.types n then 1
  else 0

/-- The effect a source builtin names. -/
def lbBuiltinWhat (n : Str) : Str :=
  if startsWithOne n ["resid_tcp_", "resid_unix_"] then "network: ".toList ++ n
  else if strStartsWith n "resid_term_".toList then "terminal: ".toList ++ n
  else if strStartsWith n "resid_dbg_".toList then "process (ptrace): ".toList ++ n
  else if strStartsWith n "resid_disp_".toList then "display: ".toList ++ n
  else if strStartsWith n "resid_clock_".toList then "clock: ".toList ++ n
  else if strStartsWith n "resid_device_".toList then "device: ".toList ++ n
  else if oneOf n ["resid_crypto_random_byte", "resid_random_os", "resid_random_cpu"] then
    "randomness: ".toList ++ n
  else if oneOf n ["resid_read_line", "resid_read_byte"] then "standard input: ".toList ++ n
  else if oneOf n ["print", "println", "eprintln", "print_bytes"] then
    "standard output: whether ".toList ++ n ++ " wrote".toList
  else "runtime: ".toList ++ n

/-- Provider families a method call acquires through. -/
def lbProvider (n : Str) : Bool :=
  oneOf n ["filesystem", "environment", "git", "args", "process", "clock", "device", "network",
    "random", "terminal", "display"]

/-- The effect of a method call on a provider, none for any other call. -/
def lbProviderWhat (text : Str) : List Expr → Option Str
  | .ref _ rt .builtin :: _ => if lbProvider rt then some (rt ++ ".".toList ++ text) else none
  | _ => none

/-- A field of signed evidence that the requester or the host chose. -/
def fieldWhat (c : LbC) (d : Def) (text : Str) : Option Str :=
  let o := c.origin d
  if o == "relayed".toList || o == "host".toList then
    some ("a field the ".toList ++
      (if o == "host".toList then "host".toList else "requester".toList) ++
      " chose in signed evidence: .".toList ++ text)
  else none

def spawnWhat : Str := "spawn: a region's result and its failure".toList

/-! ## Summaries -/

/-- The index of parameter `name` of a function. -/
def lbParamIndex (fn : LbFn) (name : Str) : Option Nat :=
  fn.params.findIdx? fun p => p.2 == name

/-- The parameters the annotation of a primitive lists as inputs, as a mask. -/
def lbInputsMask (fn : LbFn) : BitVec 64 :=
  fn.inputs.foldl (fun acc n => match lbParamIndex fn n with
    | some i => acc ||| lbBit i
    | none => acc) 0

/-- The summary a call of `f` goes by: of a primitive, what it verifies does not reach the
result. -/
def lbSummary (c : LbC) (f : Nat) (s : LbV) : LbV :=
  if (c.fns f).primitive then ⟨-1, s.d &&& (0 - 1 - lbInputsMask (c.fns f)), 0⟩ else s

/-- Positional argument `i` is parameter `i`, a named one the parameter of its name. -/
def argIndex (fn : LbFn) (i : Nat) : Expr → Option Nat
  | .named _ text _ => lbParamIndex fn text
  | _ => some i

def argReaches (fn : LbFn) (mask : BitVec 64) (i : Nat) (a : Expr) : Bool :=
  match argIndex fn i a with
  | some i => decide (mask &&& lbBit i ≠ 0)
  | none => true

def argDecides (fn : LbFn) (mask : BitVec 64) (i : Nat) (a : Expr) : Bool :=
  match argIndex fn i a with
  | some i => decide (mask &&& lbBit i ≠ 0)
  | none => false

/-- Binds the nodes of a destructuring or of a match arm. -/
def lbBindKids (v : LbV) : List Nat → LbT → LbT
  | [], t => t
  | k :: ks, t =>
    let r := lbAt k v t
    lbBindKids v ks (r.t.bind k r.v)

/-- A loop body walked once, and again under its own breaks where these tell something new. -/
def lbLoop (walk : LbV → LbT → LbT) (pc : LbV) (t : LbT) : LbT :=
  let outer := t.brk
  let t1 := walk pc (t.setBrk lvIn)
  let b := t1.brk
  if (b.x ≥ 0 ∧ pc.x < 0) ∨ b.d &&& (0 - 1 - pc.d) ≠ 0 then
    (walk (lvJoin pc b) (t1.setBrk lvIn)).setBrk outer
  else t1.setBrk outer

/-- A call of function `f` by its summary: `kids` joins every argument, `args` those a mask lets
through, and `decides` looks at those a `@decides` function depends on. -/
def lbApply (c : LbC) (id f : Nat) (kids : LbT → LbE) (args : BitVec 64 → LbV → LbT → LbE)
    (decides : BitVec 64 → LbT → LbT) (t : LbT) : LbE :=
  match (c.fns f).link with
  | some m => lbSource id ("native module ".toList ++ m ++ ": ".toList ++ (c.fns f).text) (kids t).t
  | none =>
    let s := lbSummary c f (t.sum f)
    let a := args s.d ⟨s.x, 0, s.k⟩ t
    lbAt id a.v (if c.last && (c.fns f).decides then decides s.d a.t else a.t)

/-! ## The walk -/

mutual

def lbE (c : LbC) (e : Expr) (pc : LbV) (t : LbT) : LbE :=
  match e with
  | .lit _ => ⟨lvIn, t⟩
  | .ref id _ d =>
    match d with
    | .unresolved | .builtin => ⟨lvIn, t⟩
    -- a function used as a value carries what its own result acquires
    | .fn f => lbAt id ⟨(t.sum f).x, 0, (t.sum f).k⟩ t
    | .data d | .binder d => lbAt id (t.env d) t
  | .call id text d args =>
    match d with
    | .builtin =>
      let b := if c.bnames text then 1 else lbBuiltin c text
      let a := lbKids c id args pc lvIn t
      if b = 0 then ⟨a.v, a.t.fail (.noLabel text id)⟩
      else if b = 2 then lbSource id (lbBuiltinWhat text) a.t
      else if b = 4 then lbSource id "provisioned key".toList a.t
      else if b = 3 then
        -- both paths of a dispatch in the standard library compute the same function
        if c.inStd id then a else lbSource id ("CPU feature query: ".toList ++ text) a.t
      else a
    | .fn f => lbApply c id f (fun t => lbKids c id args pc lvIn t)
      (fun mask acc t => lbArgs c f args 0 mask pc acc t)
      (fun mask t => lbDecidesArgs c f mask args 0 pc t) t
    | .binder d => lbKids c id args pc (t.env d) t
    | .data _ | .unresolved => lbKids c id args pc lvIn t
  | .mcall id text d kids =>
    match d with
    | .fn f => lbApply c id f (fun t => lbKids c id kids pc lvIn t)
      (fun mask acc t => lbArgs c f kids 0 mask pc acc t)
      (fun mask t => lbDecidesArgs c f mask kids 0 pc t) t
    | _ =>
      match lbProviderWhat text kids with
      -- the receiver, a provider, is no value of its own
      | some what => lbSource id what (lbKids c id kids pc lvIn t).t
      | none => lbKids c id kids pc lvIn t
  | .named id _ a =>
    let r := lbE c a pc t
    lbAt id (lvJoin lvIn r.v) r.t
  | .choose id cond a b =>
    let cd := lbE c cond pc t
    let pc2 := lvJoin pc cd.v
    let ra := lbE c a pc2 cd.t
    let rb := match b with
      | some b => lbE c b pc2 ra.t
      | none => ⟨lvIn, ra.t⟩
    lbAt id (lvJoin cd.v (lvJoin ra.v rb.v)) rb.t
  | .matchArms id scrut arms =>
    let s := lbE c scrut pc t
    lbArms c id arms (lvJoin pc s.v) s.v s.v s.t
  | .bexpr id binds last semi =>
    let r := lbE c last pc (lbBinds c binds pc t)
    if semi then ⟨lvIn, r.t⟩ else lbAt id r.v r.t
  | .orelse id a b =>
    let ra := lbE c a pc t
    let rb := lbE c b (lvJoin pc ra.v) ra.t
    lbAt id (lvJoin ra.v rb.v) rb.t
  | .tryExit id a =>
    -- an early return on the tag of `a`
    let ra := lbE c a pc t
    let r := lbAt id ra.v ra.t
    ⟨r.v, r.t.setRes (lvJoin r.t.res (lvJoin r.v pc))⟩
  | .lambda id _ body =>
    let b := lbE c body lvIn (t.setRes lvIn)
    lbAt id (lvJoin b.v b.t.res) (b.t.setRes t.res)
  | .field id text d a =>
    let r := lbE c a pc t
    let v := lbAt id (lvJoin lvIn r.v) r.t
    match fieldWhat c d text with
    | some what =>
      let s := lbSource id what v.t
      ⟨lvJoin v.v s.v, s.t⟩
    | none => v
  | .spawn id body =>
    let b := lbS c body lvIn (t.setRes lvIn)
    lbSource id spawnWhat (b.setRes t.res)
  | .pat id a =>
    let ra := lbE c a pc t
    let r := lbAt id ra.v ra.t
    ⟨r.v, r.t.bind id r.v⟩
  | .op id kids => lbKids c id kids pc lvIn t
termination_by structural e

/-- The join of the kids into node `id`. -/
def lbKids (c : LbC) (id : Nat) (es : List Expr) (pc acc : LbV) (t : LbT) : LbE :=
  match es with
  | [] => lbAt id acc t
  | e :: es =>
    let a := lbE c e pc t
    lbKids c id es pc (lvJoin acc a.v) a.t
termination_by structural es

/-- Arguments, joined where the summary says the parameter reaches the result. -/
def lbArgs (c : LbC) (f : Nat) (es : List Expr) (i : Nat) (mask : BitVec 64) (pc acc : LbV)
    (t : LbT) : LbE :=
  match es with
  | [] => ⟨acc, t⟩
  | e :: es =>
    let v := lbE c e pc t
    lbArgs c f es (i + 1) mask pc
      (if argReaches (c.fns f) mask i e then lvJoin acc v.v else acc) v.t
termination_by structural es

/-- `E0286` at the caller: an argument that a `@decides` function's result depends on is not chosen
outside. -/
def lbDecidesArgs (c : LbC) (f : Nat) (mask : BitVec 64) (es : List Expr) (i : Nat) (pc : LbV)
    (t : LbT) : LbT :=
  match es with
  | [] => t
  | e :: es =>
    if t.err ≠ none then t
    else
      let v := (lbE c e pc t).v
      lbDecidesArgs c f mask es (i + 1) pc
        (if argDecides (c.fns f) mask i e = true ∧ v.x ≥ 0 ∧ v.k &&& 1 ≠ 0 then t.fail (.decidesArg f i) else t)
termination_by structural es

def lbArms (c : LbC) (id : Nat) (arms : List Arm) (pc sv acc : LbV) (t : LbT) : LbE :=
  match arms with
  | [] => lbAt id acc t
  | .mk names body :: arms =>
    let b := lbE c body pc (lbBindKids sv names t)
    lbArms c id arms pc sv (lvJoin acc b.v) b.t
termination_by structural arms

def lbBind (c : LbC) (b : Bind) (pc : LbV) (t : LbT) : LbT :=
  match b with
  | .mk id e =>
    let v := lbE c e pc t
    let r := lbAt id v.v v.t
    r.t.bind id r.v
termination_by structural b

def lbBinds (c : LbC) (bs : List Bind) (pc : LbV) (t : LbT) : LbT :=
  match bs with
  | [] => t
  | b :: bs => if t.err ≠ none then t else lbBinds c bs pc (lbBind c b pc t)
termination_by structural bs

def lbS (c : LbC) (s : Stmt) (pc : LbV) (t : LbT) : LbT :=
  match s with
  | .block ss => lbSeq c ss pc t
  | .bind b => lbBind c b pc t
  | .letpat id e =>
    let v := lbE c e pc t
    let r := lbAt id v.v v.t
    r.t.bind id r.v
  | .destr names e =>
    let v := lbE c e pc t
    lbBindKids v.v names v.t
  | .ret id e =>
    -- a return chosen by a condition is selected by it
    let v := match e with
      | some e => lbE c e pc t
      | none => ⟨lvIn, t⟩
    let r := lbAt id (lvJoin v.v pc) v.t
    r.t.setRes (lvJoin r.t.res r.v)
  | .brk _ | .cont _ => t.setBrk (lvJoin t.brk pc)
  | .cond _ cnd branches =>
    let cd := lbE c cnd pc t
    lbSeq c branches (lvJoin pc cd.v) cd.t
  | .while _ cnd body =>
    let cd := lbE c cnd pc t
    lbLoop (fun pc t => lbS c body pc t) (lvJoin pc cd.v) cd.t
  | .for id it body =>
    let i := lbE c it pc t
    let r := lbAt id i.v i.t
    lbLoop (fun pc t => lbS c body pc t) (lvJoin pc i.v) (r.t.bind id r.v)
  | .with binds body => lbS c body pc (lbBinds c binds pc t)
  | .expr id e =>
    let r := lbE c e pc t
    (lbAt id (lvJoin lvIn r.v) r.t).t
termination_by structural s

def lbSeq (c : LbC) (ss : List Stmt) (pc : LbV) (t : LbT) : LbT :=
  match ss with
  | [] => t
  | s :: ss => if t.err ≠ none then t else lbSeq c ss pc (lbS c s pc t)
termination_by structural ss

end

/-! ## Functions -/

def lbParams (params : List (Nat × Str)) (i : Nat) (t : LbT) : LbT :=
  match params with
  | [] => t
  | p :: ps => lbParams ps (i + 1) (t.bind p.1 ⟨-1, lbBit i, 0⟩)

/-- One function's summary from its body. -/
def lbFn (c : LbC) (f : Nat) (body : Stmt) (t : LbT) : LbT :=
  let t1 := lbParams (c.fns f).params 0 { t with res := lvIn, brk := lvIn }
  let t2 := lbS c body lvIn t1
  let now := lvJoin (t2.sum f) t2.res
  let dbad := c.last ∧ (c.fns f).decides ∧ now.x ≥ 0 ∧ now.k &&& 1 ≠ 0
  let t3 := if dbad then t2.fail (.decides f) else t2
  { t3 with sum := Function.update t3.sum f now, res := lvIn, brk := lvIn }

end Labels

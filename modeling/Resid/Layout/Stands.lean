import Resid.Layout.Offsets
import Resid.Layout.Words

/-!
# What stands in bytes

A layout type says which bytes stand for which record.  `Stands` states it without a parser: each
field stands at its start, its value passes the field's conditions, and the next field follows.
`Traps` are the inputs at which a reached field has no value and no error either.

    ValueStands … p v q, Passes ex f (env ++ [(f.name, v)])  →  FieldStands … p … q
    EnvOk done env → lyField done f.len = some lf → InRange lf.ty (lyInt env f.len)   (EnvOk.len)
-/

namespace Layout

open Runtime CheckedInt

variable {ex : Exprs} {ts : List LyT} {b : List UInt8} {t : LyT} {f : LyF} {done : List LyF}
  {env env' : Env}

/-! ## Conditions -/

/-- The conditions of a field hold of the fields bound. -/
def Passes (ex : Exprs) (f : LyF) (env : Env) : Prop := ∀ c ∈ f.checks, ex.cond c.1 env = true

/-- The first condition that fails answers with a constructor one of whose arguments is no Int. -/
def ArgTraps (ex : Exprs) (f : LyF) (env : Env) : Prop :=
  ∃ pre c ctor post, f.checks = pre ++ (c, some ctor) :: post ∧
    (∀ x ∈ pre, ex.cond x.1 env = true) ∧ ex.cond c env = false ∧
      ∃ a ∈ ctor.args, strStartsWith a ['"'] = false ∧ ¬ Fits 64 (ex.value a env)

theorem toInt_of_fits {n : Int} (h : Fits 64 n) : toInt n = .ok n := by
  unfold toInt
  rw [check_of_fits h]
  rfl

theorem toInt_of_not_fits {n : Int} (h : ¬ Fits 64 n) : toInt n = .abort := by
  unfold toInt check
  rw [if_neg h]
  rfl

theorem lyCtorArgs_abort (as : List Str) :
    lyCtorArgs ex env as = .abort ↔
      ∃ a ∈ as, strStartsWith a ['"'] = false ∧ ¬ Fits 64 (ex.value a env) := by
  induction as with
  | nil => simp [lyCtorArgs]
  | cons a as ih =>
    rw [lyCtorArgs]
    cases hlit : strStartsWith a ['"'] with
    | true => simp [Out.bind_abort, ih, hlit]
    | false =>
      by_cases hfit : Fits 64 (ex.value a env)
      · simp [Out.bind_abort, ih, hlit, hfit, toInt_of_fits hfit]
      · simp [hlit, hfit, toInt_of_not_fits hfit]

variable {dflt tname : Str} {v : Val}

theorem lyErr_abort (c : Str × Option Ctor) : lyErr ex tname f env c dflt = .abort ↔
      ∃ ctor, c.2 = some ctor ∧
        ∃ a ∈ ctor.args, strStartsWith a ['"'] = false ∧ ¬ Fits 64 (ex.value a env) := by
  unfold lyErr
  cases hc : c.2 with
  | none => simp
  | some ctor =>
    simp only [Out.bind_abort, lyCtorArgs_abort, Out.pure_eq]
    simp

theorem lyChecks_ok (cs : List (Str × Option Ctor)) :
    lyChecks ex tname f env dflt cs = .ok () ↔ ∀ c ∈ cs, ex.cond c.1 env = true := by
  induction cs with
  | nil => simp [lyChecks]
  | cons c cs ih =>
    rw [lyChecks]
    cases hc : ex.cond c.1 env with
    | true => simp [hc, ih]
    | false => simp [hc, Out.bind_ok]

theorem lyChecks_abort (cs : List (Str × Option Ctor)) : lyChecks ex tname f env dflt cs = .abort ↔
      ∃ pre c ctor post, cs = pre ++ (c, some ctor) :: post ∧
        (∀ x ∈ pre, ex.cond x.1 env = true) ∧ ex.cond c env = false ∧
          ∃ a ∈ ctor.args, strStartsWith a ['"'] = false ∧ ¬ Fits 64 (ex.value a env) := by
  induction cs with
  | nil => simp [lyChecks]
  | cons c cs ih =>
    rw [lyChecks]
    cases hc : ex.cond c.1 env with
    | true =>
      simp only [Bool.not_true, Bool.false_eq_true, if_false, ih]
      constructor
      · rintro ⟨pre, d, ctor, post, rfl, hpre, hd, harg⟩
        refine ⟨c :: pre, d, ctor, post, rfl, ?_, hd, harg⟩
        intro x hx
        rcases List.mem_cons.1 hx with rfl | hx
        · exact hc
        · exact hpre x hx
      · rintro ⟨pre, d, ctor, post, heq, hpre, hd, harg⟩
        cases pre with
        | nil =>
          cases heq
          exact absurd hc (by simp [hd])
        | cons x pre =>
          cases heq
          exact ⟨pre, d, ctor, post, rfl, fun y hy => hpre y (List.mem_cons_of_mem _ hy), hd, harg⟩
    | false =>
      simp only [Bool.not_false, if_true, Out.bind_abort, lyErr_abort]
      constructor
      · rintro (⟨ctor, hctor, harg⟩ | ⟨e, -, h⟩)
        · refine ⟨[], c.1, ctor, cs, ?_, by simp, hc, harg⟩
          rw [← hctor]
          rfl
        · cases h
      · rintro ⟨pre, d, ctor, post, heq, hpre, hd, harg⟩
        cases pre with
        | nil =>
          cases heq
          exact .inl ⟨ctor, rfl, harg⟩
        | cons x pre =>
          cases heq
          exact absurd (hpre c List.mem_cons_self) (by simp [hc])

theorem lyBind_ok : lyBind ex t f env dflt v = .ok env' ↔
      env' = env ++ [(f.name, v)] ∧ Passes ex f (env ++ [(f.name, v)]) := by
  unfold lyBind Passes
  rw [Out.bind_ok, ← lyChecks_ok]
  constructor
  · rintro ⟨⟨⟩, h, hv⟩
    exact ⟨(Out.ok.inj hv).symm, h⟩
  · rintro ⟨rfl, h⟩
    exact ⟨(), h, rfl⟩

theorem lyBind_abort :
    lyBind ex t f env dflt v = .abort ↔ ArgTraps ex f (env ++ [(f.name, v)]) := by
  unfold lyBind ArgTraps
  simp only [Out.bind_abort, Out.pure_eq, lyChecks_abort]
  simp

/-! ## What stands where -/

/-- The length of a field of bytes: a constant, or what the field it names holds. -/
def lyLen (f : LyF) (env : Env) : Int :=
  if strIsInt f.len then strParseInt f.len else lyInt env f.len

/-- The value of a field behind `env` that stands at `p` and ends at the last argument. -/
inductive ValueStands (sub : LyT → Nat → List Val → Nat → Prop) (ts : List LyT) (b : List UInt8)
    (t : LyT) (f : LyF) (env : Env) (p : Nat) : Val → Nat → Prop
  | int (hbits : 0 < lyIntBits f.ty) (hq : p + lyIntBits f.ty / 8 ≤ b.length) :
    ValueStands sub ts b t f env p
      (.int (decode (t.kind = .be) f.ty ((b.drop p).take (lyIntBits f.ty / 8))))
      (p + lyIntBits f.ty / 8)
  | bytes (hty : f.ty = bytesTy) (n : Nat) (hn : lyLen f env = n) (hq : p + n ≤ b.length) :
    ValueStands sub ts b t f env p (.bytes ((b.drop p).take n)) (p + n)
  | nested (hbits : lyIntBits f.ty = 0) (hty : f.ty ≠ bytesTy) (n : LyT)
      (hn : lyType ts f.ty = some n) (vs : List Val) (q : Nat) (h : sub n p vs q) :
    ValueStands sub ts b t f env p (.record vs) q

/-- A field from `p` on: reserved bytes, or a value that passes the field's conditions. -/
inductive FieldStands (sub : LyT → Nat → List Val → Nat → Prop) (ex : Exprs) (ts : List LyT)
    (b : List UInt8) (t : LyT) (f : LyF) (env : Env) (p : Nat) : Env → Nat → Prop
  | reserved (hrsv : 0 < f.rsv) (hq : p + f.rsv ≤ b.length) :
    FieldStands sub ex ts b t f env p env (p + f.rsv)
  | value (hrsv : f.rsv = 0) (v : Val) (q : Nat) (hv : ValueStands sub ts b t f env p v q)
      (hpass : Passes ex f (env ++ [(f.name, v)])) :
    FieldStands sub ex ts b t f env p (env ++ [(f.name, v)]) q

/-- Where a field starts: at its C offset from `base`, or where the one before ended. -/
def lyStart (ts : List LyT) (t : LyT) (base i p : Nat) : Nat :=
  if t.kind = .cAbi then base + (lyRoundExpr ts t i).toNat else p

/-- The fields `fs` behind the `i` fields before them, from `p` on. -/
def FieldsStand (sub : LyT → Nat → List Val → Nat → Prop) (ex : Exprs) (ts : List LyT)
    (b : List UInt8) (t : LyT) (base : Nat) :
    (i : Nat) → List LyF → Env → (p : Nat) → Env → (q : Nat) → Prop
  | _, [], env, p, env', q => env' = env ∧ q = p
  | i, f :: fs, env, p, env', q => ∃ e m,
    FieldStands sub ex ts b t f env (lyStart ts t base i p) e m ∧
      FieldsStand sub ex ts b t base (i + 1) fs e m env' q

/-- Where a record ends: a C type keeps its tail padding. -/
def lyStop (ts : List LyT) (t : LyT) (base p : Nat) : Nat :=
  if t.kind = .cAbi then max p (base + (lyTypeSize ts lyLevels t).toNat) else p

/-- The record `vs` of type `t` stands at `p` and ends at `q`. -/
def Stands (ex : Exprs) (ts : List LyT) (b : List UInt8) :
    (left : Nat) → LyT → (p : Nat) → List Val → (q : Nat) → Prop
  | 0, _, _, _, _ => False
  | left + 1, t, p, vs, q => p ≤ b.length ∧ ∃ env m,
    FieldsStand (Stands ex ts b left) ex ts b t p 0 t.fs [] p env m ∧
      vs = env.map Prod.snd ∧ q = lyStop ts t p m

/-! ## Traps -/

/-- Behind the fields before it, a field at `p` has no value and no error: a failed condition's
argument is no Int, or the bytes end in the padding before a variable field, or a nested record
traps. -/
inductive FieldTraps (sub : LyT → Nat → List Val → Nat → Prop) (traps : LyT → Nat → Prop)
    (ex : Exprs) (ts : List LyT) (b : List UInt8) (t : LyT) (f : LyF) (env : Env) (p : Nat) : Prop
  | args (hrsv : f.rsv = 0) (v : Val) (q : Nat) (hv : ValueStands sub ts b t f env p v q)
      (harg : ArgTraps ex f (env ++ [(f.name, v)]))
  | gap (hvar : Variable f) (hn : 0 ≤ lyLen f env) (hgap : b.length < p)
  | nested (hrsv : f.rsv = 0) (hbits : lyIntBits f.ty = 0) (hty : f.ty ≠ bytesTy) (n : LyT)
      (hn : lyType ts f.ty = some n) (h : traps n p)

/-- The first of the fields that does not stand traps. -/
def FieldsTrap (sub : LyT → Nat → List Val → Nat → Prop) (traps : LyT → Nat → Prop) (ex : Exprs)
    (ts : List LyT) (b : List UInt8) (t : LyT) (base : Nat) :
    (i : Nat) → List LyF → Env → (p : Nat) → Prop
  | _, [], _, _ => False
  | i, f :: fs, env, p =>
    FieldTraps sub traps ex ts b t f env (lyStart ts t base i p) ∨
      ∃ e m, FieldStands sub ex ts b t f env (lyStart ts t base i p) e m ∧
        FieldsTrap sub traps ex ts b t base (i + 1) fs e m

def Traps (ex : Exprs) (ts : List LyT) (b : List UInt8) : (left : Nat) → LyT → (p : Nat) → Prop
  | 0, _, _ => False
  | left + 1, t, p => p ≤ b.length ∧
    FieldsTrap (Stands ex ts b left) (Traps ex ts b left) ex ts b t p 0 t.fs [] p

/-! ## The fields bound -/

/-- The integer fields before are bound to values of their types. -/
structure EnvOk (done : List LyF) (env : Env) : Prop where
  fresh : ∀ name, lyField done name = none → env.lookup name = none
  int : ∀ name lf, lyField done name = some lf → 0 < lyIntBits lf.ty →
    ∃ n, env.lookup name = some (.int n) ∧ InRange lf.ty n

theorem EnvOk.nil : EnvOk [] [] := ⟨fun _ _ => rfl, fun _ _ h => nomatch h⟩

theorem lyField_append (done : List LyF) (f : LyF) (name : Str) :
    lyField (done ++ [f]) name =
      (lyField done name).or (if f.name = name then some f else none) := by
  unfold lyField
  by_cases h : f.name = name
  · simp [h]
  · simp [h]

theorem EnvOk.reserved (h : EnvOk done env) (hrsv : 0 < f.rsv) : EnvOk (done ++ [f]) env := by
  constructor
  · intro name hnone
    rw [lyField_append, Option.or_eq_none_iff] at hnone
    exact h.fresh name hnone.1
  · intro name lf hlf hbits
    rw [lyField_append] at hlf
    cases hdone : lyField done name with
    | some g =>
      rw [hdone, Option.some_or] at hlf
      cases hlf
      exact h.int name lf hdone hbits
    | none =>
      rw [hdone, Option.none_or] at hlf
      split_ifs at hlf
      cases hlf
      rw [(f.bare hrsv).2.1] at hbits
      exact absurd hbits (by decide)

theorem EnvOk.value (h : EnvOk done env)
    (hv : 0 < lyIntBits f.ty → ∃ n, v = .int n ∧ InRange f.ty n) :
    EnvOk (done ++ [f]) (env ++ [(f.name, v)]) := by
  constructor
  · intro name hnone
    rw [lyField_append, Option.or_eq_none_iff] at hnone
    have hne : f.name ≠ name := fun he => absurd hnone.2 (by simp [he])
    rw [List.lookup_append, h.fresh name hnone.1, Option.none_or]
    simp [List.lookup_cons, beq_false_of_ne (Ne.symm hne)]
  · intro name lf hlf hbits
    rw [lyField_append] at hlf
    cases hdone : lyField done name with
    | some g =>
      rw [hdone, Option.some_or] at hlf
      cases hlf
      obtain ⟨n, hn, hrange⟩ := h.int name lf hdone hbits
      exact ⟨n, by rw [List.lookup_append, hn, Option.some_or], hrange⟩
    | none =>
      rw [hdone, Option.none_or] at hlf
      split_ifs at hlf with hname
      cases hlf
      obtain ⟨n, rfl, hrange⟩ := hv hbits
      refine ⟨n, ?_, hrange⟩
      rw [List.lookup_append, h.fresh name hdone, Option.none_or]
      simp [hname]

/-- The length that a variable field names. -/
theorem EnvOk.len (h : EnvOk done env) {lf : LyF} (hlf : lyField done f.len = some lf)
    (hbits : 0 < lyIntBits lf.ty) : InRange lf.ty (lyInt env f.len) := by
  obtain ⟨n, hn, hrange⟩ := h.int f.len lf hlf hbits
  unfold lyInt
  rwa [hn]

end Layout

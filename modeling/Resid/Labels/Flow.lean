import Mathlib.Data.Set.Lattice
import Resid.Labels.Walk

/-!
# What reaches and selects a result

`Value e o` says that the origin `o` (a source chosen outside, one drawn at random, a parameter)
reaches the value of `e`, `Escapes conds e o` that it reaches or selects an early exit `?` in `e`
under the conditions `conds`, and `Selects conds s o` that it reaches or selects a result that `s`
returns.  A name stands for what it is bound to; bindings are immutable.

    guards conds s     the conditions around the breaks and continues of a loop with body s

Two things are left open, so that one relation says both what flows and what the labels follow:
`draws`, whether the arguments of an acquiring call reach its value, and `again`, when the breaks
of a loop select what its body returns.
-/

namespace Labels

open Runtime

/-- Where a value comes from.  Parameters past the 62nd share one origin. -/
inductive Origin where
  | outside
  | random
  | param (i : Nat)
deriving DecidableEq

def Origin.isSource : Origin → Bool
  | .outside | .random => true
  | .param _ => false

/-- The origin that a source of effect `what` is. -/
def originOf (what : Str) : Origin := if lbKind what = 2 then .random else .outside

/-- The label carries the origin. -/
def LbV.Has (v : LbV) : Origin → Prop
  | .outside => v.k.getLsbD 0 = true
  | .random => v.k.getLsbD 1 = true
  | .param i => v.d.getLsbD i = true

/-! ## Names -/

mutual

/-- The binders an expression walks, with what each is bound to. -/
def binds : Expr → List (Nat × Expr)
  | .lit _ | .ref .. => []
  | .call _ _ _ args | .mcall _ _ _ args | .op _ args => kidsBinds args
  | .named _ _ a | .tryExit _ a | .field _ _ _ a | .lambda _ _ a => binds a
  | .choose _ c a b => binds c ++ (binds a ++ (match b with | some b => binds b | none => []))
  | .matchArms _ s arms => binds s ++ armsBinds s arms
  | .bexpr _ bs last _ => bindsBinds bs ++ binds last
  | .orelse _ a b => binds a ++ binds b
  | .spawn _ body => stmtBinds body
  | .pat id a => binds a ++ [(id, a)]

def kidsBinds : List Expr → List (Nat × Expr)
  | [] => []
  | e :: es => binds e ++ kidsBinds es

/-- An arm binds the payloads of what is matched. -/
def armsBinds (s : Expr) : List Arm → List (Nat × Expr)
  | [] => []
  | .mk names body :: arms => names.map (fun n => (n, s)) ++ (binds body ++ armsBinds s arms)

def bindsBinds : List Bind → List (Nat × Expr)
  | [] => []
  | .mk id e :: bs => binds e ++ ((id, e) :: bindsBinds bs)

def stmtBinds : Stmt → List (Nat × Expr)
  | .block ss => seqBinds ss
  | .bind (.mk id e) | .letpat id e => binds e ++ [(id, e)]
  | .destr names e => binds e ++ names.map fun n => (n, e)
  | .ret _ e => match e with | some e => binds e | none => []
  | .brk _ | .cont _ => []
  | .cond _ c branches => binds c ++ seqBinds branches
  | .while _ c body => binds c ++ stmtBinds body
  | .for id it body => binds it ++ ((id, it) :: stmtBinds body)
  | .with bs body => bindsBinds bs ++ stmtBinds body
  | .expr _ e => binds e

def seqBinds : List Stmt → List (Nat × Expr)
  | [] => []
  | s :: ss => stmtBinds s ++ seqBinds ss

end

def names (bs : List (Nat × Expr)) : List Nat := bs.map (·.1)

mutual

/-- Every name is in `K` or bound before it is read. -/
def resolved (K : List Nat) : Expr → Bool
  | .lit _ => true
  | .ref _ _ d => match d with
    | .data d | .binder d => K.contains d
    | _ => true
  | .call _ _ d args => (match d with
    | .binder d => K.contains d
    | _ => true) && kidsResolved K args
  | .mcall _ _ _ args | .op _ args => kidsResolved K args
  | .named _ _ a | .tryExit _ a | .field _ _ _ a | .lambda _ _ a | .pat _ a => resolved K a
  | .choose _ c a b => resolved K c && (resolved (K ++ names (binds c)) a && (match b with
    | some b => resolved (K ++ names (binds c) ++ names (binds a)) b
    | none => true))
  | .matchArms _ s arms => resolved K s && armsResolved (K ++ names (binds s)) s arms
  | .bexpr _ bs last _ => bindsResolved K bs && resolved (K ++ names (bindsBinds bs)) last
  | .orelse _ a b => resolved K a && resolved (K ++ names (binds a)) b
  | .spawn _ body => stmtResolved K body

def kidsResolved (K : List Nat) : List Expr → Bool
  | [] => true
  | e :: es => resolved K e && kidsResolved (K ++ names (binds e)) es

def armsResolved (K : List Nat) (s : Expr) : List Arm → Bool
  | [] => true
  | .mk ns body :: arms => resolved (K ++ ns) body &&
    armsResolved (K ++ ns ++ names (binds body)) s arms

def bindsResolved (K : List Nat) : List Bind → Bool
  | [] => true
  | .mk id e :: bs => resolved K e && bindsResolved (K ++ names (binds e) ++ [id]) bs

def stmtResolved (K : List Nat) : Stmt → Bool
  | .block ss => seqResolved K ss
  | .bind (.mk _ e) | .letpat _ e | .destr _ e | .expr _ e => resolved K e
  | .ret _ e => match e with | some e => resolved K e | none => true
  | .brk _ | .cont _ => true
  | .cond _ c branches => resolved K c && seqResolved (K ++ names (binds c)) branches
  | .while _ c body => resolved K c && stmtResolved (K ++ names (binds c)) body
  | .for id it body => resolved K it && stmtResolved (K ++ names (binds it) ++ [id]) body
  | .with bs body => bindsResolved K bs && stmtResolved (K ++ names (bindsBinds bs)) body

def seqResolved (K : List Nat) : List Stmt → Bool
  | [] => true
  | s :: ss => stmtResolved K s && seqResolved (K ++ names (stmtBinds s)) ss

end

/-- A function body in its program. -/
structure Frame where
  c : LbC
  sum : Nat → LbV
  params : List Nat
  binds : List (Nat × Expr)

/-- No two binders share a node. -/
def Frame.Unique (F : Frame) : Prop := (F.params ++ names F.binds).Nodup

def frameOf (c : LbC) (sum : Nat → LbV) (f : Nat) (body : Stmt) : Frame :=
  ⟨c, sum, (c.fns f).params.map (·.1), stmtBinds body⟩

/-! ## What an expression is made of -/

/-- The expressions a node walks, each with the conditions around it.  The bodies of closures and
regions exit on their own. -/
def parts (conds : List Expr) : Expr → List (List Expr × Expr)
  | .lit _ | .ref .. | .lambda .. | .spawn .. => []
  | .call _ _ _ args | .mcall _ _ _ args | .op _ args => args.map fun a => (conds, a)
  | .named _ _ a | .tryExit _ a | .field _ _ _ a | .pat _ a => [(conds, a)]
  | .choose _ c a b => (conds, c) :: (c :: conds, a) :: b.toList.map fun b => (c :: conds, b)
  | .matchArms _ s arms => (conds, s) :: arms.map fun a => (s :: conds, a.body)
  | .bexpr _ bs last _ => (bs.map fun b => (conds, b.value)) ++ [(conds, last)]
  | .orelse _ a b => [(conds, a), (a :: conds, b)]

/-- The effect of a call of a function linked to a native module. -/
def linkWhat (c : LbC) (f : Nat) : Option Str :=
  (c.fns f).link.map fun m => "native module ".toList ++ m ++ ": ".toList ++ (c.fns f).text

/-- The effect an expression acquires its value by. -/
def acquires (c : LbC) : Expr → Option Str
  | .call id text .builtin _ =>
    if c.bnames text then none
    else match lbBuiltin c text with
      | 2 => some (lbBuiltinWhat text)
      | 3 => if c.inStd id then none else some ("CPU feature query: ".toList ++ text)
      | 4 => some "provisioned key".toList
      | _ => none
  | .call _ _ (.fn f) _ | .mcall _ _ (.fn f) _ => linkWhat c f
  | .mcall _ text _ kids => lbProviderWhat text kids
  | .spawn .. => some spawnWhat
  | .field _ text d _ => fieldWhat c d text
  | _ => none

/-- The arguments at the parameters that a mask lists. -/
def reaching (fn : LbFn) (mask : BitVec 64) : Nat → List Expr → List Expr
  | _, [] => []
  | i, a :: as =>
    if argReaches fn mask i a then a :: reaching fn mask (i + 1) as
    else reaching fn mask (i + 1) as

/-- What a call of a function passes on to its value. -/
def passed (F : Frame) (f : Nat) (args : List Expr) : List Expr :=
  match (F.c.fns f).link with
  | some _ => []
  | none => reaching (F.c.fns f) (lbSummary F.c f (F.sum f)).d 0 args

/-- The expressions whose values an expression joins. -/
def operands (F : Frame) : Expr → List Expr
  | .lit _ | .ref .. | .spawn .. => []
  | .call id text .builtin args =>
    if acquires F.c (.call id text .builtin args) = none then args else []
  | .call _ _ (.fn f) args | .mcall _ _ (.fn f) args => passed F f args
  | .call _ _ _ args | .op _ args => args
  | .mcall _ text _ kids => if lbProviderWhat text kids = none then kids else []
  | .named _ _ a | .tryExit _ a | .field _ _ _ a | .pat _ a | .lambda _ _ a => [a]
  | .choose _ c a b => c :: a :: b.toList
  | .matchArms _ s arms => s :: arms.map Arm.body
  | .bexpr _ _ last semi => if semi then [] else [last]
  | .orelse _ a b => [a, b]

/-- The arguments an acquiring call is made with.  A provisioned key is the operator's word, whoever
chose it. -/
def drawnArgs (c : LbC) (e : Expr) : List Expr :=
  match e with
  | .call _ _ _ args | .mcall _ _ _ args =>
    match acquires c e with
    | some what => if what = "provisioned key".toList then [] else args
    | none => []
  | _ => []

/-- The summary a function contributes as a value, or as the callee. -/
def summaryOf (F : Frame) : Expr → Option LbV
  | .ref _ _ (.fn f) => some (F.sum f)
  | .call _ _ (.fn f) _ | .mcall _ _ (.fn f) _ =>
    match (F.c.fns f).link with
    | some _ => none
    | none => some (lbSummary F.c f (F.sum f))
  | _ => none

/-- The name an expression reads, or calls a closure by. -/
def nameOf : Expr → Option Nat
  | .ref _ _ (.data d) | .ref _ _ (.binder d) | .call _ _ (.binder d) _ => some d
  | _ => none

/-! ## The relations -/

mutual

inductive Value (F : Frame) (draws : Prop) : Expr → Origin → Prop
  | source {e : Expr} {what : Str} : acquires F.c e = some what → Value F draws e (originOf what)
  | summary {e : Expr} {s : LbV} {o : Origin} : summaryOf F e = some s → o.isSource = true →
      s.Has o → Value F draws e o
  | param {e : Expr} {d i : Nat} : nameOf e = some d → F.params[i]? = some d →
      Value F draws e (.param (min i 62))
  | bound {e e' : Expr} {d : Nat} {o : Origin} : nameOf e = some d → (d, e') ∈ F.binds →
      Value F draws e' o → Value F draws e o
  | operand {e a : Expr} {o : Origin} : a ∈ operands F e → Value F draws a o → Value F draws e o
  | drawn {e a : Expr} {o : Origin} : draws → a ∈ drawnArgs F.c e → Value F draws a o →
      Value F draws e o
  -- calling a closure takes its early exits with it
  | closure {id : Nat} {params : List Nat} {body : Expr} {o : Origin} : Escapes F draws [] body o →
      Value F draws (.lambda id params body) o

inductive Escapes (F : Frame) (draws : Prop) : List Expr → Expr → Origin → Prop
  | value {conds : List Expr} {id : Nat} {a : Expr} {o : Origin} : Value F draws a o →
      Escapes F draws conds (.tryExit id a) o
  | cond {conds : List Expr} {id : Nat} {c a : Expr} {o : Origin} : c ∈ conds → Value F draws c o →
      Escapes F draws conds (.tryExit id a) o
  | part {conds conds' : List Expr} {e e' : Expr} {o : Origin} : (conds', e') ∈ parts conds e →
      Escapes F draws conds' e' o → Escapes F draws conds e o

end

mutual

/-- The conditions around a break or continue that an expression makes: those in a region. -/
def strays : Expr → List Expr
  | .lit _ | .ref .. => []
  | .call _ _ _ args | .mcall _ _ _ args | .op _ args => kidsStrays args
  | .named _ _ a | .tryExit _ a | .field _ _ _ a | .lambda _ _ a | .pat _ a => strays a
  | .choose _ c a b => strays c ++ (strays a ++ (match b with | some b => strays b | none => []))
  | .matchArms _ s arms => strays s ++ armsStrays arms
  | .bexpr _ bs last _ => bindsStrays bs ++ strays last
  | .orelse _ a b => strays a ++ strays b
  | .spawn _ body => guards [] body

def kidsStrays : List Expr → List Expr
  | [] => []
  | e :: es => strays e ++ kidsStrays es

def armsStrays : List Arm → List Expr
  | [] => []
  | .mk _ body :: arms => strays body ++ armsStrays arms

def bindsStrays : List Bind → List Expr
  | [] => []
  | .mk _ e :: bs => strays e ++ bindsStrays bs

/-- The conditions around the breaks and continues of `s`; the loops in `s` keep their own. -/
def guards (conds : List Expr) : Stmt → List Expr
  | .block ss => seqGuards conds ss
  | .bind (.mk _ e) | .letpat _ e | .destr _ e | .expr _ e => strays e
  | .ret _ e => match e with | some e => strays e | none => []
  | .brk _ | .cont _ => conds
  | .cond _ c branches => strays c ++ seqGuards (c :: conds) branches
  | .while _ c _ => strays c
  | .for _ it _ => strays it
  | .with bs body => bindsStrays bs ++ guards conds body

def seqGuards (conds : List Expr) : List Stmt → List Expr
  | [] => []
  | s :: ss => guards conds s ++ seqGuards conds ss

end

/-- The expressions a statement walks, each with the conditions around it. -/
def exprs (conds : List Expr) : Stmt → List (List Expr × Expr)
  | .block _ | .brk _ | .cont _ => []
  | .bind (.mk _ e) | .letpat _ e | .destr _ e | .expr _ e => [(conds, e)]
  | .ret _ e => e.toList.map fun e => (conds, e)
  | .cond _ c _ | .while _ c _ => [(conds, c)]
  | .for _ it _ => [(conds, it)]
  | .with bs _ => bs.map fun b => (conds, b.value)

/-- The statements it walks. -/
def subs (conds : List Expr) : Stmt → List (List Expr × Stmt)
  | .block ss => ss.map fun s => (conds, s)
  | .cond _ c branches => branches.map fun s => (c :: conds, s)
  | .while _ c body => [(c :: conds, body)]
  | .for _ it body => [(it :: conds, body)]
  | .with _ body => [(conds, body)]
  | _ => []

/-- The condition of a loop, the list it runs over for one, and its body. -/
def loopOf : Stmt → Option (Expr × Stmt)
  | .while _ c body => some (c, body)
  | .for _ it body => some (it, body)
  | _ => none

inductive Selects (F : Frame) (draws : Prop) (again : List Expr → List Expr → Prop) :
    List Expr → Stmt → Origin → Prop
  | value {conds : List Expr} {id : Nat} {e : Expr} {o : Origin} : Value F draws e o →
      Selects F draws again conds (.ret id (some e)) o
  | cond {conds : List Expr} {id : Nat} {c : Expr} {e : Option Expr} {o : Origin} : c ∈ conds →
      Value F draws c o → Selects F draws again conds (.ret id e) o
  | escape {conds conds' : List Expr} {s : Stmt} {e : Expr} {o : Origin} :
      (conds', e) ∈ exprs conds s → Escapes F draws conds' e o → Selects F draws again conds s o
  | sub {conds conds' : List Expr} {s s' : Stmt} {o : Origin} : (conds', s') ∈ subs conds s →
      Selects F draws again conds' s' o → Selects F draws again conds s o
  -- a break or continue decides which iterations there are
  | guard {conds : List Expr} {s body : Stmt} {c : Expr} {o : Origin} :
      loopOf s = some (c, body) → again (c :: conds) (guards (c :: conds) body) →
      Selects F draws again (c :: conds ++ guards (c :: conds) body) body o →
      Selects F draws again conds s o

/-! ## Simplifying

What a constructor binds, resolves and passes on. -/

attribute [simp] binds kidsBinds armsBinds bindsBinds stmtBinds seqBinds
attribute [simp] strays kidsStrays armsStrays bindsStrays guards seqGuards

/-! ## The two readings -/

/-- Every flow. -/
def Reaches (F : Frame) (body : Stmt) (o : Origin) : Prop :=
  Selects F True (fun _ _ => True) [] body o

/-- The breaks tell something new of a loop: the first source of its conditions, or a parameter. -/
def TellsMore (F : Frame) (conds gs : List Expr) : Prop :=
  ((∃ g ∈ gs, ∃ o, o.isSource = true ∧ Value F False g o) ∧
    ∀ c ∈ conds, ∀ o, o.isSource = true → ¬Value F False c o) ∨
  ∃ i, (∃ g ∈ gs, Value F False g (.param i)) ∧ ∀ c ∈ conds, ¬Value F False c (.param i)

/-- The flows that pass no argument of an acquiring call and, of the loops, only breaks that tell
something new. -/
def Followed (F : Frame) (body : Stmt) (o : Origin) : Prop :=
  Selects F False (TellsMore F) [] body o

end Labels

import Resid.Reduce.Coerce

/-!
# Tail calls

A function's body ends in a value or in a tail call.  The evaluator follows the tail calls in a
loop and gives the value the result type of the last function alone; as ordinary calls each of
the functions would take its callee's value to its own result type.

    gyTramp's value = the last callee's, in its type                    (gyTramp_value)
    ordinary's value = the same, taken back through every frame         (ordinary_value)
    they are equal ↔ it flows back and the first type is the last       (sameAsOrdinary_iff)
-/

namespace Reduce.Flow

open Runtime Reduce

/-! ## Algorithm -/

/-- Known bindings: names, values, types. -/
structure RdE where
  ns : List Str
  vs : List Str
  ts : List Str

/-- Counters, the call depth and the memo. -/
structure GY where
  steps : Int
  depth : Int
  fuel : Int
  lim : Int
  mem : Int
  bx : Int
  memo : Str → Option Str

/-- How statements end: at their end, with a value, without one, in a tail call, by a break
or a continue. -/
inductive How where
  | ran | value | fail | tail | brk | cont
deriving DecidableEq

structure YR where
  how : How
  v : Str
  ty : Str
  st : GY
  tfi : Nat
  tvs : List Str
  tts : List Str

/-- What the loop over tail calls carries. -/
structure GYH where
  how : Bool
  v : Str
  ty : Str
  steps : Int
  fuel : Int
  mem : Int
  bx : Int
  err : Str

def gyR (how : How) (st : GY) : YR := ⟨how, [], [], st, 0, [], []⟩

def gyRet (v ty : Str) (st : GY) : YR := ⟨.value, v, ty, st, 0, [], []⟩

def rdStepBytes : Int := 1024

def gyTick (s : GY) : GY :=
  { s with steps := s.steps + 1, fuel := s.fuel - 1, mem := s.mem - rdStepBytes }

def gyOver (s : GY) : Bool := s.steps > s.lim || s.fuel ≤ 0 || s.mem ≤ 0

def gySpent (s : GY) : GY := { s with bx := s.bx + 1 }

def gyMemo (s : GY) (k v : Str) : GY :=
  { s with memo := fun q => if q = k then some v else s.memo q }

def gyLens : List Str → Int
  | [] => 0
  | x :: xs => (strLen x : Int) + gyLens xs

def errKey : Str := "__ERR__".toList

/-- A function of the program: its parameters, their types, its result type and whether it
has a body here. -/
structure GXF where
  pns : List Str
  pts : List Str
  ret : Str
  body : Bool

/-- The functions of a program and the evaluation of their bodies, which meets a tail call
only behind a statement, and a statement is a step. -/
structure GYC where
  fn : Nat → GXF
  stmts : Nat → RdE → GY → YR
  spends : ∀ g env s, (stmts g env s).how = .tail → (stmts g env s).st.fuel < s.fuel

/-- Parameters bound to known arguments, nothing when one does not flow. -/
def rdBindEnv : List Str → List Str → List Str → List Str → Option RdE
  | pn :: pns, pt :: pts, v :: vs, t :: ts =>
    let ty := if t = pt then pt else rdCoerceV t pt v
    if ty = [] then none
    else (rdBindEnv pns pts vs ts).map fun e => ⟨pn :: e.ns, v :: e.vs, ty :: e.ts⟩
  | _, _, _, _ => some ⟨[], [], []⟩

/-- A returned value coerced to the declared result. -/
def gyRetAs (c : GYC) (fi : Nat) (r : YR) : YR :=
  if r.how ≠ .value then r
  else
    let cty := rdCoerceV r.ty (rdNormTy (c.fn fi).ret) r.v
    if cty = [] then gyR .fail r.st else gyRet r.v cty r.st

def gyHend (how : Bool) (v ty : Str) (st : GY) : GYH :=
  ⟨how, v, ty, st.steps, st.fuel, st.mem, st.bx, (st.memo errKey).getD []⟩

/-- `s` with the counters and the error the loop carries. -/
def gyCount (s : GY) (h : GYH) : GY :=
  { s with
    steps := h.steps
    fuel := h.fuel
    mem := h.mem
    bx := h.bx
    memo := if h.err ≠ [] then (gyMemo s errKey h.err).memo else s.memo }

/-- One function of the loop: it does not run, its body ends, or it ends in a tail call. -/
inductive Frame where
  | stopped (s : GY)
  | ended (n : YR)
  | passed (n : YR)

def gyFrame (c : GYC) (st : GY) (g : Nat) (vs ts : List Str) (h : GYH) : Frame :=
  let s0 := gyCount st h
  if (c.fn g).body = false then .stopped s0
  else if gyOver s0 = true then .stopped (gySpent s0)
  else if (c.fn g).pns.length ≠ ts.length then .stopped s0
  else
    match rdBindEnv (c.fn g).pns (c.fn g).pts vs ts with
    | none => .stopped s0
    | some env =>
      let n0 := c.stmts g env s0
      if n0.how ≠ .tail then .ended n0 else .passed n0

/-- A tail call leaves less fuel than its function began with, and it began with some. -/
theorem passed_spends {c : GYC} {st : GY} {g : Nat} {vs ts : List Str} {h : GYH} {n : YR}
    (hf : gyFrame c st g vs ts h = .passed n) : n.st.fuel.toNat < h.fuel.toNat := by
  unfold gyFrame at hf
  dsimp only at hf
  split at hf
  · cases hf
  split at hf
  · cases hf
  next hover =>
  split at hf
  · cases hf
  split at hf
  · cases hf
  next env _ =>
  split at hf
  · cases hf
  next htail =>
  cases hf
  have hfuel : 0 < h.fuel := by
    unfold gyOver at hover
    simp only [Bool.or_eq_true, decide_eq_true_eq, not_or, Int.not_le] at hover
    exact hover.1.2
  have hless := c.spends g env (gyCount st h) (not_not.1 htail)
  have hs0 : (gyCount st h).fuel = h.fuel := rfl
  omega

/-- What goes on to the next function: the counters of `n`, the meter back at the loop's
start but for the arguments. -/
def gyNext (st : GY) (n : YR) : GYH :=
  { gyHend false [] [] n.st with mem := st.mem - gyLens n.tvs }

/-- One function after another, from the state the loop began in. -/
def gyHop (c : GYC) (st : GY) (g : Nat) (vs ts : List Str) (h : GYH) : GYH :=
  match _hf : gyFrame c st g vs ts h with
  | .stopped s => gyHend false [] [] s
  | .ended n0 =>
    let n := gyRetAs c g n0
    gyHend (n.how == .value) n.v n.ty n.st
  | .passed n0 => gyHop c st n0.tfi n0.tvs n0.tts (gyNext st n0)
termination_by h.fuel.toNat
decreasing_by exact passed_spends _hf

def gyTramp (c : GYC) (fi : Nat) (r : YR) : YR :=
  if r.how ≠ .tail then gyRetAs c fi r
  else
    let h := gyHop c r.st r.tfi r.tvs r.tts (gyHend false [] [] r.st)
    let s1 := gyCount r.st h
    if h.how then gyRet h.v h.ty s1 else gyR .fail s1

/-! ## Ordinary calls -/

def valueOf (r : YR) : Option (Str × Str) := if r.how = .value then some (r.v, r.ty) else none

/-- A value and its type, taken to the result type of `g`. -/
def gyFlow (c : GYC) (g : Nat) (r : Str × Str) : Option (Str × Str) :=
  let cty := rdCoerceV r.2 (rdNormTy (c.fn g).ret) r.1
  if cty = [] then none else some (r.1, cty)

/-- The call of `g` where a tail call is a call like any other: its value comes back and is
taken to the result type of `g`. -/
def gyCall (c : GYC) (st : GY) (g : Nat) (vs ts : List Str) (h : GYH) : Option (Str × Str) :=
  match _hf : gyFrame c st g vs ts h with
  | .stopped _ => none
  | .ended n0 => valueOf (gyRetAs c g n0)
  | .passed n0 => (gyCall c st n0.tfi n0.tvs n0.tts (gyNext st n0)).bind (gyFlow c g)
termination_by h.fuel.toNat
decreasing_by exact passed_spends _hf

/-- The value of a call of `fi` whose body ended in `r`, all calls being ordinary ones. -/
def ordinary (c : GYC) (fi : Nat) (r : YR) : Option (Str × Str) :=
  if r.how ≠ .tail then valueOf (gyRetAs c fi r)
  else (gyCall c r.st r.tfi r.tvs r.tts (gyHend false [] [] r.st)).bind (gyFlow c fi)

/-! ## The chain of calls -/

/-- A chain of tail calls that ends: the functions that made one, the last one, and the value
its body returned. -/
structure Chain where
  frames : List Nat
  last : Nat
  v : Str
  ty : Str

def gyChain (c : GYC) (st : GY) (g : Nat) (vs ts : List Str) (h : GYH) : Option Chain :=
  match _hf : gyFrame c st g vs ts h with
  | .stopped _ => none
  | .ended n0 => if n0.how = .value then some ⟨[], g, n0.v, n0.ty⟩ else none
  | .passed n0 => (gyChain c st n0.tfi n0.tvs n0.tts (gyNext st n0)).map fun ch =>
    { ch with frames := g :: ch.frames }
termination_by h.fuel.toNat
decreasing_by exact passed_spends _hf

/-- A value taken back through the functions that made the calls, the last of them first. -/
def back (c : GYC) : List Nat → Str × Str → Option (Str × Str)
  | [], r => some r
  | g :: fs, r => (back c fs r).bind (gyFlow c g)

theorem valueOf_retAs (c : GYC) (g : Nat) (r : YR) :
    valueOf (gyRetAs c g r) = if r.how = .value then gyFlow c g (r.v, r.ty) else none := by
  unfold gyRetAs valueOf gyFlow
  by_cases hv : r.how = .value
  · rw [if_neg (not_not.2 hv), if_pos hv]
    dsimp only
    split
    · rfl
    · rfl
  · rw [if_pos hv, if_neg hv, if_neg hv]

/-- What the loop answers, as a value. -/
def hopValue (h : GYH) : Option (Str × Str) := if h.how then some (h.v, h.ty) else none

theorem hopValue_ended (n : YR) :
    hopValue (gyHend (n.how == .value) n.v n.ty n.st) = valueOf n := by
  unfold hopValue valueOf gyHend
  by_cases hv : n.how = .value
  · rw [if_pos hv, if_pos (beq_iff_eq.2 hv)]
  · rw [if_neg hv, if_neg (fun h => hv (beq_iff_eq.1 h))]

section Runs

variable (c : GYC) (st : GY)

/-- The loop ends with the last function's value in that function's type; the induction is on
the functions still to run. -/
theorem gyHop_value (g : Nat) (vs ts : List Str) (h : GYH) :
    hopValue (gyHop c st g vs ts h) =
      (gyChain c st g vs ts h).bind fun ch => gyFlow c ch.last (ch.v, ch.ty) := by
  induction g, vs, ts, h using gyHop.induct c st with
  | case1 g vs ts h s hf =>
    rw [gyHop, gyChain, hf]
    rfl
  | case2 g vs ts h n0 hf =>
    rw [gyHop, gyChain, hf]
    dsimp only
    rw [hopValue_ended, valueOf_retAs]
    split
    · rfl
    · rfl
  | case3 g vs ts h n0 hf ih =>
    rw [gyHop, gyChain, hf]
    rw [ih, Option.bind_map]
    rfl

/-- As ordinary calls the value comes back through every function of the chain. -/
theorem gyCall_value (g : Nat) (vs ts : List Str) (h : GYH) :
    gyCall c st g vs ts h = (gyChain c st g vs ts h).bind fun ch =>
      (gyFlow c ch.last (ch.v, ch.ty)).bind (back c ch.frames) := by
  induction g, vs, ts, h using gyCall.induct c st with
  | case1 g vs ts h s hf =>
    rw [gyCall, gyChain, hf]
    rfl
  | case2 g vs ts h n0 hf =>
    rw [gyCall, gyChain, hf]
    dsimp only
    rw [valueOf_retAs]
    split
    · exact (Option.bind_fun_some _).symm
    · rfl
  | case3 g vs ts h n0 hf ih =>
    rw [gyCall, gyChain, hf]
    dsimp only
    rw [ih, Option.bind_map, Option.bind_assoc]
    congr 1
    funext ch
    exact Option.bind_assoc _ _ _

end Runs

/-! ## What comes back -/

/-- The type of a value that has flowed into the result of `g`. -/
def slotTy (c : GYC) (g : Nat) : Str := rdNormTy (rdNormTy (c.fn g).ret)

/-- The value `v` flows from the result of `g` into that of `f`. -/
def FlowsInto (c : GYC) (v : Str) (f g : Nat) : Prop :=
  rdCoerceV (slotTy c g) (rdNormTy (c.fn f).ret) v ≠ []

theorem gyFlow_of_ne {c : GYC} {g : Nat} {v ty : Str}
    (h : rdCoerceV ty (rdNormTy (c.fn g).ret) v ≠ []) :
    gyFlow c g (v, ty) = some (v, slotTy c g) := by
  have hty := (rdCoerceV_cases ty (rdNormTy (c.fn g).ret) v).resolve_left h
  unfold gyFlow
  rw [if_neg h, hty]
  rfl

theorem gyFlow_of_eq {c : GYC} {g : Nat} {v ty : Str}
    (h : rdCoerceV ty (rdNormTy (c.fn g).ret) v = []) : gyFlow c g (v, ty) = none := if_pos h

/-- A value comes back when it flows from each function into the one that called it. -/
theorem back_eq (c : GYC) (v : Str) (fs : List Nat) (l : Nat) :
    ((fs ++ [l]).IsChain (FlowsInto c v) →
      back c fs (v, slotTy c l) = some (v, slotTy c (fs.headD l))) ∧
    (¬ (fs ++ [l]).IsChain (FlowsInto c v) → back c fs (v, slotTy c l) = none) := by
  induction fs with
  | nil =>
    exact ⟨fun _ => rfl, fun h => absurd (List.IsChain.singleton l) h⟩
  | cons f fs ih =>
    have hhead : ∃ g r, fs ++ [l] = g :: r ∧ fs.headD l = g := by
      cases fs with
      | nil => exact ⟨l, [], rfl, rfl⟩
      | cons g r => exact ⟨g, r ++ [l], rfl, rfl⟩
    obtain ⟨g, r, hcons, hg⟩ := hhead
    rw [List.cons_append, hcons, List.isChain_cons_cons, ← hcons]
    constructor
    · rintro ⟨hflow, hrest⟩
      rw [back, ih.1 hrest, hg, Option.bind_some]
      exact gyFlow_of_ne hflow
    · intro hnot
      by_cases hrest : (fs ++ [l]).IsChain (FlowsInto c v)
      · have hflow : ¬ FlowsInto c v f g := fun h => hnot ⟨h, hrest⟩
        rw [back, ih.1 hrest, hg, Option.bind_some]
        exact gyFlow_of_eq (not_not.1 hflow)
      · rw [back, ih.2 hrest]
        rfl

/-- The condition on a chain that `fi` began: when the last function takes its value, the value
flows back through all of them, and the first has the last one's result type. -/
def FlowsBack (c : GYC) (fi : Nat) (ch : Chain) : Prop :=
  rdCoerceV ch.ty (rdNormTy (c.fn ch.last).ret) ch.v ≠ [] →
    (fi :: ch.frames ++ [ch.last]).IsChain (FlowsInto c ch.v) ∧ slotTy c fi = slotTy c ch.last

theorem gyTramp_value (c : GYC) (fi : Nat) {r : YR} (h : r.how = .tail) :
    valueOf (gyTramp c fi r) =
      hopValue (gyHop c r.st r.tfi r.tvs r.tts (gyHend false [] [] r.st)) := by
  unfold gyTramp hopValue
  rw [if_neg (not_not.2 h)]
  dsimp only
  split
  · rfl
  · rfl

theorem ordinary_value (c : GYC) (fi : Nat) {r : YR} (h : r.how = .tail) :
    ordinary c fi r =
      (gyChain c r.st r.tfi r.tvs r.tts (gyHend false [] [] r.st)).bind fun ch =>
        (gyFlow c ch.last (ch.v, ch.ty)).bind (back c (fi :: ch.frames)) := by
  unfold ordinary
  rw [if_neg (not_not.2 h), gyCall_value, Option.bind_assoc]
  congr 1
  funext ch
  exact Option.bind_assoc _ _ _

/-- What the loop answers is what ordinary calls answer, exactly on the chains that flow back. -/
theorem sameAsOrdinary_iff (c : GYC) (fi : Nat) (r : YR) :
    valueOf (gyTramp c fi r) = ordinary c fi r ↔
      (r.how = .tail → ∀ ch,
        gyChain c r.st r.tfi r.tvs r.tts (gyHend false [] [] r.st) = some ch →
          FlowsBack c fi ch) := by
  by_cases htail : r.how = .tail
  · rw [gyTramp_value c fi htail, ordinary_value c fi htail, gyHop_value]
    cases hch : gyChain c r.st r.tfi r.tvs r.tts (gyHend false [] [] r.st) with
    | none => simp
    | some ch =>
      simp only [htail, Option.bind_some, Option.some_inj, forall_eq', forall_const]
      by_cases hlast : rdCoerceV ch.ty (rdNormTy (c.fn ch.last).ret) ch.v = []
      · rw [gyFlow_of_eq hlast]
        exact iff_of_true rfl fun h => absurd hlast h
      · rw [gyFlow_of_ne hlast, Option.bind_some]
        obtain ⟨hback, hstuck⟩ := back_eq c ch.v (fi :: ch.frames) ch.last
        by_cases hchain : (fi :: ch.frames ++ [ch.last]).IsChain (FlowsInto c ch.v)
        · rw [hback hchain, List.headD_cons, Option.some_inj, Prod.mk.injEq]
          exact ⟨fun h _ => ⟨hchain, h.2.symm⟩, fun h => ⟨rfl, (h hlast).2.symm⟩⟩
        · rw [hstuck hchain]
          exact iff_of_false (by simp) fun h => hchain (h hlast).1
  · refine iff_of_true ?_ fun h => absurd h htail
    unfold gyTramp ordinary
    rw [if_pos htail, if_pos htail]

/-! ## A chain that widens -/

/-- `Int f() { return g(); }` and `Int(16) g() { return i16(300); }`. -/
def widening : GYC where
  fn g := ⟨[], [], if g = 0 then "Int".toList else "Int(16)".toList, true⟩
  stmts g _ s :=
    if g = 0 then { gyR .tail (gyTick s) with tfi := 1 }
    else gyRet "300".toList "Int(16)".toList (gyTick s)
  spends g env s h := by
    by_cases hg : g = 0
    · rw [if_pos hg]
      show s.fuel - 1 < s.fuel
      omega
    · rw [if_neg hg] at h
      cases h

def start : GY := ⟨0, 0, 100, 100, 1000000, 0, fun _ => none⟩

/-- The loop gives the value of `f` the type of `g`. -/
theorem widening_differs :
    valueOf (gyTramp widening 0 (widening.stmts 0 ⟨[], [], []⟩ start)) ≠
      ordinary widening 0 (widening.stmts 0 ⟨[], [], []⟩ start) := by
  have hloop : valueOf (gyTramp widening 0 (widening.stmts 0 ⟨[], [], []⟩ start)) =
      some ("300".toList, "Int(16)".toList) := by decide +kernel
  have hcalls : ordinary widening 0 (widening.stmts 0 ⟨[], [], []⟩ start) =
      some ("300".toList, "Int".toList) := by decide +kernel
  rw [hloop, hcalls]
  decide

end Reduce.Flow

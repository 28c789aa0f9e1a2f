import Resid.Regex.Parser
import Resid.Lib.CheckedInt

/-!
# Programs of the regular expressions

The compiler from pattern nodes to packed instructions, forward and reversed (the reversed
program reads right to left and has no saves), and the input classes of the tables.

    insOp (ins op a b) = op, insA (ins op a b) = a                    (insOp_ins, insA_ins)
-/

namespace RegexLib

open Runtime

/-! ## Instructions, packed: op | a << 4 | b << 33 -/

def oChar : Nat := 0

def oAny : Nat := 1

def oCls : Nat := 2

def oSplit : Nat := 3

def oJmp : Nat := 4

def oSave : Nat := 5

def oMatch : Nat := 6

def oAsr : Nat := 7

def ins (op a b : Nat) : Nat := op + a * 16 + b * 8589934592

def insOp (x : Nat) : Nat := x &&& 15

def insA (x : Nat) : Nat := (x >>> 4) &&& 536870911

def insB (x : Nat) : Nat := x >>> 33

theorem insOp_eq (x : Nat) : insOp x = x % 16 := Nat.and_two_pow_sub_one_eq_mod x 4

theorem insA_eq (x : Nat) : insA x = x / 16 % 536870912 := by
  rw [insA, Nat.shiftRight_eq_div_pow]
  exact Nat.and_two_pow_sub_one_eq_mod (x / 16) 29

@[simp] theorem insOp_ins {op a b : Nat} (h : op < 16) : insOp (ins op a b) = op := by
  rw [insOp_eq, ins]
  omega

/-- The first operand as it is read back: what does not fit its 29 bits is lost. -/
theorem insA_ins_mod {op a b : Nat} (h : op < 16) : insA (ins op a b) = a % 536870912 := by
  rw [insA_eq, ins]
  omega

@[simp] theorem insA_ins {op a b : Nat} (h : op < 16) (ha : a < 536870912) :
    insA (ins op a b) = a := by
  rw [insA_ins_mod h, Nat.mod_eq_of_lt ha]

/-! ## Sizes -/

mutual

/-- The instructions for a node; `rev`: of the reversed language, without saves. -/
def reSize (rev : Bool) : ReNode → Nat
  | .emp => 0
  | .cat kids => reSizeSum rev kids
  | .alt kids => reSizeSum rev kids + 2 * (kids.length - 1)
  | .grp _ kid => reSize rev kid + if rev then 0 else 2
  | .rep lo none _ kid => if lo = 0 then reSize rev kid + 2 else lo * reSize rev kid + 1
  | .rep lo (some hi) _ kid => lo * reSize rev kid + (hi - lo) * (reSize rev kid + 1)
  | _ => 1

def reSizeSum (rev : Bool) : List ReNode → Nat
  | [] => 0
  | nd :: kids => reSize rev nd + reSizeSum rev kids

end

open CheckedInt

mutual

/-- `re_size` as it runs, in checked arithmetic: `none` is an overflow. -/
def reSizeAt (rev : Bool) : ReNode → Option Int
  | .emp => some 0
  | .cat kids => reSizeSumAt rev kids 0
  | .alt kids => do add 64 (← reSizeSumAt rev kids 0) (← mul 64 2 (kids.length - 1 : Nat))
  | .grp _ kid => do add 64 (← reSizeAt rev kid) (if rev then 0 else 2)
  | .rep lo none _ kid => do
    let s ← reSizeAt rev kid
    if lo = 0 then add 64 s 2 else add 64 (← mul 64 lo s) 1
  | .rep lo (some hi) _ kid => do
    let s ← reSizeAt rev kid
    let must ← mul 64 lo s
    add 64 must (← mul 64 (hi - lo : Nat) (← add 64 s 1))
  | _ => some 1

def reSizeSumAt (rev : Bool) : List ReNode → Int → Option Int
  | [], acc => some acc
  | nd :: kids, acc => do reSizeSumAt rev kids (← add 64 acc (← reSizeAt rev nd))

end

theorem reSizeSumAt_cons (rev : Bool) (nd : ReNode) (kids : List ReNode) (acc : Int) :
    reSizeSumAt rev (nd :: kids) acc =
      (reSizeAt rev nd).bind fun k => (add 64 acc k).bind fun a => reSizeSumAt rev kids a := by
  rfl

/-! ## Emission -/

/-- An assertion read right to left. -/
def reFlip (a : Nat) : Nat :=
  if a = aBol then aEol else if a = aEol then aBol else if a = aBot then aEot
  else if a = aEot then aBot else a

/-- The fork that opens or closes a repetition. -/
def reFork (greedy : Bool) (more out : Nat) : Nat :=
  if greedy then ins oSplit more out else ins oSplit out more

/-- `n` copies of the kid's `s` instructions. -/
def reEmitCopies (kid : Nat → List Nat) (s : Nat) : Nat → Nat → List Nat
  | 0, _ => []
  | n + 1, pc => kid pc ++ reEmitCopies kid s n (pc + s)

/-- `n` optional copies of the kid's `s` instructions. -/
def reEmitOpts (kid : Nat → List Nat) (s : Nat) (greedy : Bool) : Nat → Nat → List Nat
  | 0, _ => []
  | n + 1, pc =>
    reFork greedy (pc + 1) (pc + s + 1) :: kid (pc + 1) ++
      reEmitOpts kid s greedy n (pc + s + 1)

/-- `x*` is `(x+)?`: an empty pass through `x` leaves the loop, not the thread. -/
def reEmitRep (kid : Nat → List Nat) (s lo : Nat) (hi : Option Nat) (greedy : Bool)
    (pc : Nat) : List Nat :=
  match hi with
  | none =>
    if lo = 0 then
      let out := pc + s + 2
      reFork greedy (pc + 1) out :: kid (pc + 1) ++ [reFork greedy (pc + 1) out]
    else
      let lp := pc + (lo - 1) * s
      reEmitCopies kid s (lo - 1) pc ++ kid lp ++ [reFork greedy lp (lp + s + 1)]
  | some hi => reEmitCopies kid s lo pc ++ reEmitOpts kid s greedy (hi - lo) (pc + lo * s)

mutual

def reEmit (rev : Bool) : ReNode → Nat → List Nat
  | .lit c, _ => [ins oChar c 0]
  | .any nl, _ => [ins oAny nl 0]
  | .cls k, _ => [ins oCls k 0]
  | .asr a, _ => [ins oAsr (if rev then reFlip a else a) 0]
  | .emp, _ => []
  | .cat kids, pc => reEmitSeq rev kids pc
  | .alt kids, pc => reEmitAlt rev kids pc (pc + reSize rev (.alt kids))
  | .grp idx kid, pc =>
    if rev then reEmit rev kid pc
    else ins oSave (2 * idx) 0 :: reEmit rev kid (pc + 1) ++ [ins oSave (2 * idx + 1) 0]
  | .rep lo hi greedy kid, pc =>
    reEmitRep (fun i => reEmit rev kid i) (reSize rev kid) lo hi greedy pc

/-- The kids in order, last kid first when reversed. -/
def reEmitSeq (rev : Bool) : List ReNode → Nat → List Nat
  | [], _ => []
  | nd :: kids, pc =>
    if rev then reEmitSeq rev kids pc ++ reEmit rev nd (pc + reSizeSum rev kids)
    else reEmit rev nd pc ++ reEmitSeq rev kids (pc + reSize rev nd)

/-- SPLIT next, rest; kid; JMP end -- the last alternative falls through. -/
def reEmitAlt (rev : Bool) : List ReNode → Nat → Nat → List Nat
  | [], _, _ => []
  | [nd], pc, _ => reEmit rev nd pc
  | nd :: k :: kids, pc, stop =>
    let s := reSize rev nd
    ins oSplit (pc + 1) (pc + s + 2) :: reEmit rev nd (pc + 1) ++
      ins oJmp stop 0 :: reEmitAlt rev (k :: kids) (pc + s + 2) stop

end

mutual

/-- Does an assertion stand anywhere in the pattern? -/
def reHasAsr : ReNode → Bool
  | .asr _ => true
  | .cat kids => reHasAsrs kids
  | .alt kids => reHasAsrs kids
  | .grp _ kid => reHasAsr kid
  | .rep _ _ _ kid => reHasAsr kid
  | _ => false

def reHasAsrs : List ReNode → Bool
  | [] => false
  | nd :: kids => reHasAsr nd || reHasAsrs kids

end

/-! ## ASCII masks and input classes -/

def reMaskBits (rs : List Nat) (base : Nat) : Nat → Nat → Nat → Nat
  | 0, _, acc => acc
  | left + 1, b, acc =>
    reMaskBits rs base left (b + 1) (if reInRanges rs (base + b) then acc ||| 1 <<< b else acc)

def reMaskWord (rs : List Nat) (base : Nat) : Nat := reMaskBits rs base 32 0 0

/-- 4 x 32-bit ASCII membership words per class. -/
def reMasks (cls : List (List Nat)) : List Nat :=
  cls.flatMap fun rs => [reMaskWord rs 0, reMaskWord rs 32, reMaskWord rs 64, reMaskWord rs 96]

def reCutRs : List Nat → List Nat
  | lo :: hi :: rs => lo :: (hi + 1) :: reCutRs rs
  | _ => []

/-- The points where one instruction's answer can change. -/
def reCutIns (cls : List (List Nat)) (x : Nat) : List Nat :=
  if insOp x = oChar then [insA x, insA x + 1]
  else if insOp x = oAny then [10, 11]
  else if insOp x = oCls then reCutRs (cls.getD (insA x) [])
  else []

/-- DFA input classes: every point where some instruction's answer can change. -/
def reCuts (cls : List (List Nat)) (prog : List Nat) : List Nat :=
  0 :: prog.flatMap (reCutIns cls)

def reUniq : List Nat → Option Nat → List Nat
  | [], _ => []
  | x :: xs, last =>
    if some x ≠ last ∧ x ≤ reMaxCp then x :: reUniq xs (some x) else reUniq xs last

/-- The class of codepoint `c` among the bounds from `lo` to `hi`: the last at or below it. -/
def reBclass (bounds : List Nat) (c lo hi : Nat) : Nat :=
  if h : hi - lo ≤ 1 then lo
  else
    let mid := (lo + hi) / 2
    if bounds.getD mid 0 ≤ c then reBclass bounds c mid hi else reBclass bounds c lo mid
termination_by hi - lo

def reAscii (bounds : List Nat) : List Nat :=
  (List.range 128).map fun c => reBclass bounds c 0 bounds.length

end RegexLib

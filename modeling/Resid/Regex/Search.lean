import Resid.Regex.Engines

/-!
# Compiling and matching

`regex_compile`, the match of a whole text and the escaping of a literal one.
-/

namespace RegexLib

open Runtime CheckedInt

/-! ## Compiling -/

def errTooLarge : Str := "the pattern compiles too large (over 200000 instructions)".toList

def errUnbalanced (pos : Nat) : Str :=
  "an unbalanced `)` at offset ".toList ++ Decimal.text pos

/-- The compiled pattern of a parsed one. -/
def reBuild (pattern : Str) (r : ReP) (nd : ReNode) : Regex :=
  let body := ins oSave 0 0 :: reEmit false nd 1 ++ [ins oSave 1 0]
  let prog := body ++ [ins oMatch 0 0]
  let rprog := reEmit true nd 0 ++ [ins oMatch 0 0]
  let bounds := reUniq ((reCuts r.cls prog).insertionSort (· ≤ ·)) none
  let ascii := reAscii bounds
  let re0 : Regex :=
    { pattern := pattern, prog := prog, fprog := body ++ [ins oAsr aEot 0, ins oMatch 0 0],
      rprog := rprog, cls := r.cls, mask := reMasks r.cls, ngroups := r.ng, names := r.names,
      dfa := !reHasAsr nd, bounds := bounds, ascii := ascii, ftab := tabNone, rtab := tabNone,
      fix := none, pre := [], bits := [] }
  if reHasAsr nd then re0
  else
    let ft := tabBuild re0 prog true
    let rt := if ft.ok then tabBuild re0 rprog false else tabNone
    { re0 with
      ftab := tabDense ft ascii bounds.length
      rtab := if rt.ok then tabDense rt ascii bounds.length else tabNone
      fix := reFixed nd
      pre := rePrefix nd []
      bits := reBitTable r.cls nd }

/-- Compile a pattern, or say why it is not one; `none` is an overflow on the way. -/
def regexCompile (cm : Casing) (pattern : Str) : Option (Except Str Regex) :=
  match reParse cm pattern with
  | none => none
  | some r =>
    if r.err ≠ [] then some (.error r.err)
    else if r.pos < r.n then some (.error (errUnbalanced r.pos))
    else
      let nd := r.id.getD .emp
      match reSizeAt false nd with
      | none => none
      | some size =>
        if size > 200000 then some (.error errTooLarge) else some (.ok (reBuild pattern r nd))

/-! ## One search -/

/-- Whether the pattern matches all of `s`. -/
def regexFullMatch (re : Regex) (s : Str) : Bool := !(reRun re re.fprog s 0 true).isEmpty

/-! ## Escaping -/

def reMetas : Str := "\\.+*?()|[]\x7b\x7d^$#&-~".toList

/-- What is left, every metacharacter behind a backslash. -/
def reEscAt : Str → StrBuf → Str
  | [], sb => finishText sb
  | c :: s, sb =>
    let sb1 := if strContains reMetas [c] then pushChar sb 92 else sb
    reEscAt s (pushChar sb1 c.toNat)

def regexEscape (s : Str) : Str := reEscAt s []

end RegexLib

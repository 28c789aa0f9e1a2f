import Resid.Lib.Recursion
import Resid.Runtime.Text

/-!
# Strict JSON

A parsed value keeps the byte span its text takes.  The parser reads the bytes by index;
`b[i]?` is `none` exactly where the source finds `i` at or past the end.  It answers with
the value, the position after it and an error that is empty on success.

## Algorithm

`jsonParse` reads one value between whitespace and refuses anything after it.  `jsValue`
dispatches on the first byte; `jsArray` and `jsObject` read their items one at a time and
come back to `jsValue` one level deeper.
-/

noncomputable section

namespace Verify

open Runtime Recursion

mutual

/-- A JSON value; an object keeps its keys and values in text order. -/
inductive Json
  | jNull
  | jBool (v : Bool)
  | jNum (n : Int)
  | jStr (s : Str)
  | jArr (xs : List JsonAt)
  | jObj (ks : List Str) (vs : List JsonAt)

/-- A value and its byte span [`start`, `stop`) in the text. -/
inductive JsonAt
  | mk (v : Json) (start stop : Nat)

end

def JsonAt.v : JsonAt → Json
  | .mk v _ _ => v

def JsonAt.start : JsonAt → Nat
  | .mk _ i _ => i

def JsonAt.stop : JsonAt → Nat
  | .mk _ _ j => j

@[simp] theorem JsonAt.start_mk (v : Json) (i j : Nat) : (JsonAt.mk v i j).start = i := rfl

@[simp] theorem JsonAt.stop_mk (v : Json) (i j : Nat) : (JsonAt.mk v i j).stop = j := rfl

/-- Parser state: the value read, the next position, and an error or "". -/
structure JsP where
  at' : JsonAt
  pos : Nat
  err : Str

def jsFail (e : Str) (pos : Nat) : JsP := ⟨.mk .jNull pos pos, pos, e⟩

/-- The state after a value that was read whole, from `start` up to `stop`. -/
def jsRead (v : Json) (start stop : Nat) : JsP := ⟨.mk v start stop, stop, []⟩

/-! ## Leaves -/

def isWs (c : Int) : Bool := c == 32 || c == 9 || c == 10 || c == 13

def jsWs (b : List Int) (i : Nat) : Nat :=
  if h : i < b.length then
    if isWs b[i] then jsWs b (i + 1) else i
  else i
termination_by b.length - i

def isDigit (c : Int) : Bool := decide (c ≥ 48) && decide (c ≤ 57)

def jsDigits (b : List Int) (i : Nat) : Nat :=
  if h : i < b.length then
    if isDigit b[i] then jsDigits b (i + 1) else i
  else i
termination_by b.length - i

/-- The digits from `i` to `e` read after `acc`. -/
def jsInt (b : List Int) (i e : Nat) (acc : Int) : Int :=
  if i ≥ e then acc else jsInt b (i + 1) e (acc * 10 + (b.getD i 0 - 48))
termination_by e - i

/-- Integers only: no fraction or exponent, no leading zero, at most 18 digits. -/
def jsNumber (b : List Int) (i : Nat) : JsP :=
  let neg := b[i]? == some 45
  let d0 := if neg then i + 1 else i
  let e := jsDigits b d0
  let n := e - d0
  if n = 0 ∨ n > 18 ∨ (n > 1 ∧ b[d0]? = some 48) then jsFail "a malformed number".toList i
  else if b[e]? = some 46 ∨ b[e]? = some 101 ∨ b[e]? = some 69 then
    jsFail "a number with a fraction or exponent".toList i
  else
    let v := jsInt b d0 e 0
    jsRead (.jNum (if neg then 0 - v else v)) i e

def bytesOf (w : String) : List Int := w.toList.map fun c => (c.toNat : Int)

def jsWordAt (b : List Int) (i : Nat) (w : List Int) (k : Nat) : Bool :=
  if h : k ≥ w.length then true
  else b[i + k]? == some w[k] && jsWordAt b i w (k + 1)
termination_by w.length - k

def jsWord (b : List Int) (i : Nat) (w : String) : Bool := jsWordAt b i (bytesOf w) 0

/-- String scanner state: the decoded text, the next position, and an error or "". -/
structure JsS where
  v : Str
  pos : Nat
  err : Str

/-- The character an escape stands for, -1 for an escape outside the ASCII ones. -/
def jsEscape (e : Int) : Int :=
  if e = 34 then 34 else if e = 92 then 92 else if e = 47 then 47 else if e = 98 then 8
  else if e = 102 then 12 else if e = 110 then 10 else if e = 114 then 13
  else if e = 116 then 9 else 0 - 1

/-- A string after its opening quote, `acc` the text decoded so far. -/
def jsString (b : List Int) (i : Nat) (acc : Str) : JsS :=
  if h : i ≥ b.length then ⟨[], i, "an unterminated string".toList⟩
  else
    let c := b[i]
    if c = 34 then ⟨acc, i + 1, []⟩
    else if c < 32 ∨ c > 126 then
      ⟨[], i, "a control or non-ASCII character in a string".toList⟩
    else if c ≠ 92 then jsString b (i + 1) (acc ++ [codeChar c])
    else if h1 : i + 1 ≥ b.length then ⟨[], i, "an unterminated escape".toList⟩
    else
      let r := jsEscape b[i + 1]
      if r < 0 then ⟨[], i, "an escape outside the ASCII ones".toList⟩
      else jsString b (i + 2) (acc ++ [codeChar r])
termination_by b.length - i

def jsHas (ks : List Str) (k : Str) (i : Nat) : Bool :=
  if h : i < ks.length then ks[i] == k || jsHas ks k (i + 1) else false
termination_by ks.length - i

/-! ## Values -/

def jsValueStep (b : List Int) (jsArray : Nat → Nat → Nat → List JsonAt → Bool → Option JsP)
    (jsObject : Nat → Nat → Nat → List Str → List JsonAt → Bool → Option JsP) (i depth : Nat) :
    Option JsP :=
  if depth > 32 then some (jsFail "nested too deep".toList i)
  else
    match b[i]? with
    | none => some (jsFail "unexpected end".toList i)
    | some c =>
      if c = 123 then jsObject (jsWs b (i + 1)) i depth [] [] true
      else if c = 91 then jsArray (jsWs b (i + 1)) i depth [] true
      else if c = 34 then
        let s := jsString b (i + 1) []
        if s.err ≠ [] then some (jsFail s.err s.pos)
        else some (jsRead (.jStr s.v) i s.pos)
      else if jsWord b i "true" then some (jsRead (.jBool true) i (i + 4))
      else if jsWord b i "false" then some (jsRead (.jBool false) i (i + 5))
      else if jsWord b i "null" then some (jsRead .jNull i (i + 4))
      else if c = 45 ∨ (c ≥ 48 ∧ c ≤ 57) then some (jsNumber b i)
      else some (jsFail "unexpected character".toList i)

def jsArrayStep (b : List Int) (jsValue : Nat → Nat → Option JsP)
    (jsArray : Nat → Nat → Nat → List JsonAt → Bool → Option JsP) (i start depth : Nat)
    (acc : List JsonAt) (first : Bool) : Option JsP :=
  if b[i]? = some 93 ∧ first then some (jsRead (.jArr acc) start (i + 1))
  else if acc.length > 4096 then some (jsFail "an array of more than 4096 values".toList i)
  else do
      let v ← jsValue i (depth + 1)
      if v.err ≠ [] then some v
      else
        let j := jsWs b v.pos
        if b[j]? = some 44 then jsArray (jsWs b (j + 1)) start depth (acc ++ [v.at']) false
        else if b[j]? = some 93 then some (jsRead (.jArr (acc ++ [v.at'])) start (j + 1))
        else some (jsFail "expected , or ] in an array".toList j)

def jsObjectStep (b : List Int) (jsValue : Nat → Nat → Option JsP)
    (jsObject : Nat → Nat → Nat → List Str → List JsonAt → Bool → Option JsP)
    (i start depth : Nat) (ks : List Str) (vs : List JsonAt) (first : Bool) : Option JsP :=
  if b[i]? = some 125 ∧ first then some (jsRead (.jObj ks vs) start (i + 1))
  else if ks.length > 1024 then
    some (jsFail "an object of more than 1024 members".toList i)
  else if b[i]? ≠ some 34 then some (jsFail "expected a member name".toList i)
  else
    let k := jsString b (i + 1) []
    if k.err ≠ [] then some (jsFail k.err k.pos)
    else if jsHas ks k.v 0 then
      some (jsFail ("a duplicate member \x60".toList ++ k.v ++ "\x60".toList) i)
    else
      let colon := jsWs b k.pos
      if b[colon]? ≠ some 58 then some (jsFail "expected :".toList colon)
      else do
          let v ← jsValue (jsWs b (colon + 1)) (depth + 1)
          if v.err ≠ [] then some v
          else
            let j := jsWs b v.pos
            if b[j]? = some 44 then
              jsObject (jsWs b (j + 1)) start depth (ks ++ [k.v]) (vs ++ [v.at']) false
            else if b[j]? = some 125 then
              some (jsRead (.jObj (ks ++ [k.v]) (vs ++ [v.at'])) start (j + 1))
            else some (jsFail "expected , or \x7d in an object".toList j)

/-- The calls the three readers make of each other. -/
inductive JsCall
  | value (i depth : Nat)
  | array (i start depth : Nat) (acc : List JsonAt) (first : Bool)
  | object (i start depth : Nat) (ks : List Str) (vs : List JsonAt) (first : Bool)

def jsStep (b : List Int) (js : JsCall → Option JsP) : JsCall → Option JsP
  | .value i depth =>
    jsValueStep b (fun i start depth acc first => js (.array i start depth acc first))
      (fun i start depth ks vs first => js (.object i start depth ks vs first)) i depth
  | .array i start depth acc first =>
    jsArrayStep b (fun i depth => js (.value i depth))
      (fun i start depth acc first => js (.array i start depth acc first)) i start depth acc first
  | .object i start depth ks vs first =>
    jsObjectStep b (fun i depth => js (.value i depth))
      (fun i start depth ks vs first => js (.object i start depth ks vs first)) i start depth ks vs
      first

def jsValue (b : List Int) (i depth : Nat) : Option JsP := fix (jsStep b) (.value i depth)

def jsArray (b : List Int) (i start depth : Nat) (acc : List JsonAt) (first : Bool) :
    Option JsP := fix (jsStep b) (.array i start depth acc first)

def jsObject (b : List Int) (i start depth : Nat) (ks : List Str) (vs : List JsonAt)
    (first : Bool) : Option JsP := fix (jsStep b) (.object i start depth ks vs first)

theorem jsStep_calling (b : List Int) (c : JsCall) : Calling fun js => jsStep b js c := by
  cases c with
  | value i depth =>
    refine .ite (.const _) ?_
    cases b[i]? with
    | none => exact .const _
    | some c => exact .ite (.tail _) (.ite (.tail _) (.const _))
  | array i start depth acc first =>
    refine .ite (.const _) (.ite (.const _) (.call _ fun v => ?_))
    exact .ite (.const _) (.ite (.tail _) (.const _))
  | object i start depth ks vs first =>
    refine .ite (.const _) (.ite (.const _) (.ite (.const _) (.ite (.const _) ?_)))
    refine .ite (.const _) (.ite (.const _) (.call _ fun v => ?_))
    exact .ite (.const _) (.ite (.tail _) (.const _))

theorem jsValue_eq (b : List Int) (i depth : Nat) :
    jsValue b i depth = jsValueStep b (jsArray b) (jsObject b) i depth :=
  fix_eq (jsStep_calling b) (.value i depth)

theorem jsArray_eq (b : List Int) (i start depth : Nat) (acc : List JsonAt) (first : Bool) :
    jsArray b i start depth acc first =
      jsArrayStep b (jsValue b) (jsArray b) i start depth acc first :=
  fix_eq (jsStep_calling b) (.array i start depth acc first)

theorem jsObject_eq (b : List Int) (i start depth : Nat) (ks : List Str) (vs : List JsonAt)
    (first : Bool) : jsObject b i start depth ks vs first =
      jsObjectStep b (jsValue b) (jsObject b) i start depth ks vs first :=
  fix_eq (jsStep_calling b) (.object i start depth ks vs first)

/-- Parses the bytes `b` as exactly one JSON value. -/
def jsonParse (b : List Int) : Option (Except Str JsonAt) :=
  if b.length > 1048576 then some (.error "JSON text over 1 MiB".toList)
  else do
      let p ← jsValue b (jsWs b 0) 0
      if p.err ≠ [] then some (.error (p.err ++ " at ".toList ++ intText p.pos))
      else if jsWs b p.pos ≠ b.length then
        some (.error "trailing data after the JSON value".toList)
      else some (.ok p.at')

/-!
## The grammar of the strict JSON

`Value lim room off t v`: the bytes `t`, standing at offset `off`, are the text of `v`, with
at most `room` more levels of nesting below it and no container over the limits `lim`.
`Padded` puts whitespace around a value and gives the span of its text.

    Document lim b v  →  Document lim b v'  →  v = v'      (by the parser, `JsonExact`)
    Value lim room off t v → Value lim room off' t (v moved by off' - off)   (Value.move)
    Value lim room off t v, every container in v within lim' → Value lim' room off t v
                                                                             (Value.tighten)
-/

/-- The most values an array and the most members an object may hold. -/
structure Limits where
  values : Nat
  members : Nat

/-- The limits the format states. -/
def Limits.stated : Limits := ⟨4096, 1024⟩

def Blank (w : List Int) : Prop := ∀ c ∈ w, isWs c = true

/-- Read as decimal digits. -/
def numeralValue (ds : List Int) : Int := ds.foldl (fun acc c => acc * 10 + (c - 48)) 0

/-- One to eighteen digits, no leading zero. -/
structure Numeral (ds : List Int) : Prop where
  digits : ∀ c ∈ ds, isDigit c = true
  nonempty : 0 < ds.length
  short : ds.length ≤ 18
  noLeadingZero : 1 < ds.length → ds[0]? ≠ some 48

/-- The short escapes: the byte after the backslash and the byte it stands for. -/
def escapes : List (Int × Int) :=
  [(34, 34), (92, 92), (47, 47), (98, 8), (102, 12), (110, 10), (114, 13), (116, 9)]

/-- The bytes between the quotes of a string and the text they spell. -/
inductive Chars : List Int → Str → Prop
  | nil : Chars [] []
  | plain {c : Int} {t : List Int} {s : Str} :
      32 ≤ c → c ≤ 126 → c ≠ 34 → c ≠ 92 → Chars t s → Chars (c :: t) (codeChar c :: s)
  | escape {e r : Int} {t : List Int} {s : Str} :
      (e, r) ∈ escapes → Chars t s → Chars (92 :: e :: t) (codeChar r :: s)

/-- A member's name up to its colon. -/
inductive Name : List Int → Str → Prop
  | mk {w n w' : List Int} {k : Str} :
      Blank w → Chars n k → Blank w' → Name (w ++ 34 :: n ++ 34 :: w' ++ [58]) k

mutual

inductive Value (lim : Limits) : Nat → Nat → List Int → Json → Prop
  | null {room off : Nat} : Value lim room off (bytesOf "null") .jNull
  | true {room off : Nat} : Value lim room off (bytesOf "true") (.jBool .true)
  | false {room off : Nat} : Value lim room off (bytesOf "false") (.jBool .false)
  | num {room off : Nat} {ds : List Int} :
      Numeral ds → Value lim room off ds (.jNum (numeralValue ds))
  | neg {room off : Nat} {ds : List Int} :
      Numeral ds → Value lim room off (45 :: ds) (.jNum (-numeralValue ds))
  | str {room off : Nat} {t : List Int} {s : Str} :
      Chars t s → Value lim room off (34 :: t ++ [34]) (.jStr s)
  | emptyArr {room off : Nat} {w : List Int} :
      Blank w → Value lim room off (91 :: w ++ [93]) (.jArr [])
  | arr {room off : Nat} {t : List Int} {xs : List JsonAt} :
      Items lim room (off + 1) t xs → xs.length ≤ lim.values →
        Value lim (room + 1) off (91 :: t ++ [93]) (.jArr xs)
  | emptyObj {room off : Nat} {w : List Int} :
      Blank w → Value lim room off (123 :: w ++ [125]) (.jObj [] [])
  | obj {room off : Nat} {t : List Int} {ks : List Str} {vs : List JsonAt} :
      Members lim room (off + 1) t ks vs → ks.Nodup → ks.length ≤ lim.members →
        Value lim (room + 1) off (123 :: t ++ [125]) (.jObj ks vs)

/-- A value with whitespace around it; the span is the value's own text. -/
inductive Padded (lim : Limits) : Nat → Nat → List Int → JsonAt → Prop
  | mk {room off : Nat} {w t w' : List Int} {v : Json} :
      Blank w → Value lim room (off + w.length) t v → Blank w' →
        Padded lim room off (w ++ t ++ w')
          (.mk v (off + w.length) (off + w.length + t.length))

/-- One value or more, with commas between them. -/
inductive Items (lim : Limits) : Nat → Nat → List Int → List JsonAt → Prop
  | last {room off : Nat} {t : List Int} {v : JsonAt} :
      Padded lim room off t v → Items lim room off t [v]
  | more {room off : Nat} {t r : List Int} {v : JsonAt} {vs : List JsonAt} :
      Padded lim room off t v → Items lim room (off + t.length + 1) r vs →
        Items lim room off (t ++ 44 :: r) (v :: vs)

/-- One member or more, with commas between them. -/
inductive Members (lim : Limits) : Nat → Nat → List Int → List Str → List JsonAt → Prop
  | last {room off : Nat} {n t : List Int} {k : Str} {v : JsonAt} :
      Name n k → Padded lim room (off + n.length) t v → Members lim room off (n ++ t) [k] [v]
  | more {room off : Nat} {n t r : List Int} {k : Str} {v : JsonAt} {ks : List Str}
      {vs : List JsonAt} :
      Name n k → Padded lim room (off + n.length) t v →
        Members lim room (off + (n ++ t).length + 1) r ks vs →
          Members lim room off (n ++ t ++ 44 :: r) (k :: ks) (v :: vs)

end

/-- At most 1 MiB of text: one value, only whitespace around it. -/
structure Document (lim : Limits) (b : List Int) (v : JsonAt) : Prop where
  size : b.length ≤ 1048576
  text : Padded lim 32 0 b v

/-! ## The values inside a value -/

/-- `Part p v`: `p` is `v` or a value inside it. -/
inductive Part (p : JsonAt) : JsonAt → Prop
  | self : Part p p
  | item {x : JsonAt} {xs : List JsonAt} {i j : Nat} :
      x ∈ xs → Part p x → Part p (.mk (.jArr xs) i j)
  | member {x : JsonAt} {ks : List Str} {vs : List JsonAt} {i j : Nat} :
      x ∈ vs → Part p x → Part p (.mk (.jObj ks vs) i j)

/-- A container that holds more than the limits allow. -/
def Json.over (lim : Limits) : Json → Prop
  | .jArr xs => lim.values < xs.length
  | .jObj ks _ => lim.members < ks.length
  | _ => False

mutual

/-- The value with its spans moved `k` bytes back. -/
def JsonAt.back (k : Nat) : JsonAt → JsonAt
  | .mk v i j => .mk (v.back k) (i - k) (j - k)
termination_by structural v => v

def Json.back (k : Nat) : Json → Json
  | .jNull => .jNull
  | .jBool v => .jBool v
  | .jNum n => .jNum n
  | .jStr s => .jStr s
  | .jArr xs => .jArr (JsonAt.backAll k xs)
  | .jObj ks vs => .jObj ks (JsonAt.backAll k vs)
termination_by structural v => v

def JsonAt.backAll (k : Nat) : List JsonAt → List JsonAt
  | [] => []
  | x :: xs => x.back k :: JsonAt.backAll k xs
termination_by structural xs => xs

end

@[simp] theorem JsonAt.length_backAll (k : Nat) (xs : List JsonAt) :
    (JsonAt.backAll k xs).length = xs.length := by
  induction xs with
  | nil => rfl
  | cons x xs ih => simp only [JsonAt.backAll, List.length_cons, ih]

/-! ## Moving a text -/

variable {lim lim' : Limits}

mutual

/-- A value's text is its text at any offset. -/
theorem Value.back {room k off : Nat} {t : List Int} {v : Json} :
    Value lim room (k + off) t v → Value lim room off t (v.back k)
  | .null => .null
  | .true => .true
  | .false => .false
  | .num h => .num h
  | .neg h => .neg h
  | .str h => .str h
  | .emptyArr h => .emptyArr h
  | .arr h hlen => by
    refine .arr (Items.back ?_) (by rw [JsonAt.length_backAll]; exact hlen)
    rw [← Nat.add_assoc]
    exact h
  | .emptyObj h => .emptyObj h
  | .obj h hnd hlen => by
    refine .obj (Members.back ?_) hnd hlen
    rw [← Nat.add_assoc]
    exact h

theorem Padded.back {room k off : Nat} {t : List Int} {v : JsonAt} :
    Padded lim room (k + off) t v → Padded lim room off t (v.back k)
  | .mk (w := w) (t := u) (v := x) hw h hw' => by
    have hstart : k + off + w.length - k = off + w.length := by omega
    have hstop : k + off + w.length + u.length - k = off + w.length + u.length := by omega
    rw [JsonAt.back, hstart, hstop]
    refine .mk hw (Value.back ?_) hw'
    rw [← Nat.add_assoc]
    exact h

theorem Items.back {room k off : Nat} {t : List Int} {xs : List JsonAt} :
    Items lim room (k + off) t xs → Items lim room off t (JsonAt.backAll k xs)
  | .last h => .last (Padded.back h)
  | .more h hs => by
    refine .more (Padded.back h) (Items.back ?_)
    simpa only [Nat.add_assoc] using hs

theorem Members.back {room k off : Nat} {t : List Int} {ks : List Str} {vs : List JsonAt} :
    Members lim room (k + off) t ks vs → Members lim room off t ks (JsonAt.backAll k vs)
  | .last hn h => by
    refine .last hn (Padded.back ?_)
    rw [← Nat.add_assoc]
    exact h
  | .more hn h hs => by
    refine .more hn (Padded.back ?_) (Members.back ?_)
    · rw [← Nat.add_assoc]
      exact h
    · simpa only [Nat.add_assoc] using hs

end

mutual

/-- More room for nesting refuses no text. -/
theorem Value.mono {room room' off : Nat} {t : List Int} {v : Json} (hle : room ≤ room') :
    Value lim room off t v → Value lim room' off t v
  | .null => .null
  | .true => .true
  | .false => .false
  | .num h => .num h
  | .neg h => .neg h
  | .str h => .str h
  | .emptyArr h => .emptyArr h
  | .arr h hlen => by
    obtain ⟨r, rfl⟩ : ∃ r, room' = r + 1 := ⟨room' - 1, by omega⟩
    exact .arr (Items.mono (by omega) h) hlen
  | .emptyObj h => .emptyObj h
  | .obj h hnd hlen => by
    obtain ⟨r, rfl⟩ : ∃ r, room' = r + 1 := ⟨room' - 1, by omega⟩
    exact .obj (Members.mono (by omega) h) hnd hlen

theorem Padded.mono {room room' off : Nat} {t : List Int} {v : JsonAt} (hle : room ≤ room') :
    Padded lim room off t v → Padded lim room' off t v
  | .mk hw h hw' => .mk hw (Value.mono hle h) hw'

theorem Items.mono {room room' off : Nat} {t : List Int} {xs : List JsonAt}
    (hle : room ≤ room') : Items lim room off t xs → Items lim room' off t xs
  | .last h => .last (Padded.mono hle h)
  | .more h hs => .more (Padded.mono hle h) (Items.mono hle hs)

theorem Members.mono {room room' off : Nat} {t : List Int} {ks : List Str}
    {vs : List JsonAt} (hle : room ≤ room') :
    Members lim room off t ks vs → Members lim room' off t ks vs
  | .last hn h => .last hn (Padded.mono hle h)
  | .more hn h hs => .more hn (Padded.mono hle h) (Members.mono hle hs)

end

/-! ## The texts of the parts -/

/-- The text `t`, standing at `off`, has the text of `p` exactly where `p` says it is. -/
def Spans (lim : Limits) (room off : Nat) (t : List Int) (p : JsonAt) : Prop :=
  ∃ pre u post, t = pre ++ u ++ post ∧ p.start = off + pre.length ∧
    p.stop = p.start + u.length ∧ Value lim room p.start u p.v

theorem Spans.extend {room off : Nat} {pre u post : List Int} {p : JsonAt}
    (h : Spans lim room (off + pre.length) u p) : Spans lim room off (pre ++ u ++ post) p := by
  obtain ⟨pre', t, post', rfl, hstart, hstop, ht⟩ := h
  refine ⟨pre ++ pre', t, post' ++ post, ?_, ?_, hstop, ht⟩
  · simp only [List.append_assoc]
  · rw [hstart, List.length_append]
    omega

theorem Spans.mono {room room' off : Nat} {t : List Int} {p : JsonAt} (hle : room ≤ room')
    (h : Spans lim room off t p) : Spans lim room' off t p := by
  obtain ⟨pre, u, post, ht, hstart, hstop, hu⟩ := h
  exact ⟨pre, u, post, ht, hstart, hstop, hu.mono hle⟩

theorem Items.mem {room off : Nat} {t : List Int} {xs : List JsonAt} {x : JsonAt} :
    Items lim room off t xs → x ∈ xs →
      ∃ pre u post, t = pre ++ u ++ post ∧ Padded lim room (off + pre.length) u x
  | .last (t := t) h, hx => by
    obtain rfl := List.mem_singleton.1 hx
    exact ⟨[], t, [], by simp, h⟩
  | .more (t := t) (r := r) h hs, hx => by
    rcases List.mem_cons.1 hx with rfl | hx
    · exact ⟨[], t, 44 :: r, by simp, h⟩
    · obtain ⟨pre, u, post, rfl, hu⟩ := Items.mem hs hx
      refine ⟨t ++ 44 :: pre, u, post, by simp, ?_⟩
      have hoff : off + (t ++ 44 :: pre).length = off + t.length + 1 + pre.length := by
        rw [List.length_append, List.length_cons]
        omega
      rw [hoff]
      exact hu

theorem Members.mem {room off : Nat} {t : List Int} {ks : List Str} {vs : List JsonAt}
    {x : JsonAt} :
    Members lim room off t ks vs → x ∈ vs →
      ∃ pre u post, t = pre ++ u ++ post ∧ Padded lim room (off + pre.length) u x
  | .last (n := n) (t := t) _ h, hx => by
    obtain rfl := List.mem_singleton.1 hx
    exact ⟨n, t, [], by simp, h⟩
  | .more (n := n) (t := t) (r := r) _ h hs, hx => by
    rcases List.mem_cons.1 hx with rfl | hx
    · exact ⟨n, t, 44 :: r, by simp, h⟩
    · obtain ⟨pre, u, post, rfl, hu⟩ := Members.mem hs hx
      refine ⟨n ++ t ++ 44 :: pre, u, post, by simp, ?_⟩
      have hoff : off + (n ++ t ++ 44 :: pre).length = off + (n ++ t).length + 1 + pre.length := by
        rw [List.length_append, List.length_cons]
        omega
      rw [hoff]
      exact hu

/-- Every value inside a value spans exactly the bytes of its text. -/
theorem Padded.part {p v : JsonAt} (hp : Part p v) {room off : Nat} {t : List Int}
    (h : Padded lim room off t v) : Spans lim room off t p := by
  induction hp generalizing room off t with
  | self =>
    cases h with
    | mk hw hv hw' => exact ⟨_, _, _, rfl, rfl, rfl, hv⟩
  | item hx hp ih =>
    obtain @⟨_, _, w, t, w', v, hw, hv, hw'⟩ := h
    cases hv with
    | emptyArr => cases hx
    | arr hs =>
      obtain ⟨pre, u, post, rfl, hu⟩ := hs.mem hx
      apply Spans.extend
      have hin : Spans lim _ (off + w.length) ([91] ++ (pre ++ u ++ post) ++ [93]) _ :=
        Spans.extend (Spans.extend (ih hu))
      exact hin.mono (Nat.le_succ _)
  | member hx hp ih =>
    obtain @⟨_, _, w, t, w', v, hw, hv, hw'⟩ := h
    cases hv with
    | emptyObj => cases hx
    | obj hs =>
      obtain ⟨pre, u, post, rfl, hu⟩ := hs.mem hx
      apply Spans.extend
      have hin : Spans lim _ (off + w.length) ([123] ++ (pre ++ u ++ post) ++ [125]) _ :=
        Spans.extend (Spans.extend (ih hu))
      exact hin.mono (Nat.le_succ _)

theorem Value.not_over {room off : Nat} {t : List Int} {v : Json} (h : Value lim room off t v) :
    ¬ v.over lim := by
  intro hover
  cases h with
  | arr h hlen => exact Nat.not_lt.2 hlen hover
  | obj h hnd hlen => exact Nat.not_lt.2 hlen hover
  | emptyArr => exact Nat.not_lt_zero _ hover
  | emptyObj => exact Nat.not_lt_zero _ hover
  | _ => exact hover

/-- No container inside a value is over the limits its text was read under. -/
theorem Padded.not_over {p v : JsonAt} (hp : Part p v) {room off : Nat} {t : List Int}
    (h : Padded lim room off t v) : ¬ p.v.over lim := by
  obtain ⟨pre, u, post, -, -, -, hu⟩ := h.part hp
  exact hu.not_over

mutual

/-- A text whose containers all keep tighter limits is a text under those. -/
theorem Value.tighten {room off : Nat} {t : List Int} {v : Json}
    (hover : ∀ i j p, Part p (.mk v i j) → ¬ p.v.over lim') :
    Value lim room off t v → Value lim' room off t v
  | .null => .null
  | .true => .true
  | .false => .false
  | .num h => .num h
  | .neg h => .neg h
  | .str h => .str h
  | .emptyArr h => .emptyArr h
  | .arr h _ =>
    .arr (Items.tighten (fun _ hx p hp => hover 0 0 p (.item hx hp)) h)
      (Nat.not_lt.1 (hover 0 0 _ .self))
  | .emptyObj h => .emptyObj h
  | .obj h hnd _ =>
    .obj (Members.tighten (fun _ hx p hp => hover 0 0 p (.member hx hp)) h) hnd
      (Nat.not_lt.1 (hover 0 0 _ .self))

theorem Padded.tighten {room off : Nat} {t : List Int} {v : JsonAt}
    (hover : ∀ p, Part p v → ¬ p.v.over lim') :
    Padded lim room off t v → Padded lim' room off t v
  | .mk (v := x) hw h hw' => by
    refine .mk hw (Value.tighten (fun i j p hp => ?_) h) hw'
    cases hp with
    | self => exact fun h => hover _ .self h
    | item hx hp => exact hover _ (.item hx hp)
    | member hx hp => exact hover _ (.member hx hp)

theorem Items.tighten {room off : Nat} {t : List Int} {xs : List JsonAt}
    (hover : ∀ x ∈ xs, ∀ p, Part p x → ¬ p.v.over lim') :
    Items lim room off t xs → Items lim' room off t xs
  | .last h => .last (Padded.tighten (hover _ List.mem_cons_self) h)
  | .more h hs =>
    .more (Padded.tighten (hover _ List.mem_cons_self) h)
      (Items.tighten (fun x hx => hover x (List.mem_cons_of_mem _ hx)) hs)

theorem Members.tighten {room off : Nat} {t : List Int} {ks : List Str} {vs : List JsonAt}
    (hover : ∀ x ∈ vs, ∀ p, Part p x → ¬ p.v.over lim') :
    Members lim room off t ks vs → Members lim' room off t ks vs
  | .last hn h => .last hn (Padded.tighten (hover _ List.mem_cons_self) h)
  | .more hn h hs =>
    .more hn (Padded.tighten (hover _ List.mem_cons_self) h)
      (Members.tighten (fun x hx => hover x (List.mem_cons_of_mem _ hx)) hs)

end

end Verify

end

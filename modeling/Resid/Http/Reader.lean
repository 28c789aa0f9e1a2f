import Resid.Http.Request
import Resid.Lib.Recursion
import Resid.Net.World

/-!
# Reading a request

A transport adds bytes to a buffer; the reader asks it for more until a head, a line or a
body is whole, or a bound is passed.  A transport is an immutable value: each read hands
back its next state, and the buffer carries it.

## Algorithm

`hsReadRequest` finds the end of the head, parses it, and reads the body its headers
announce: nothing, a counted number of bytes, or chunks up to their trailer.
-/

noncomputable section

namespace Http

open Runtime Net Recursion

variable {ρ T : Type}

/-- What a fill produced; `eof` is set when the peer is done. -/
structure WireIn (T : Type) where
  conn : T
  data : List Int
  eof : Bool

/-- What a send produced: the transport advanced, and whether every byte went out. -/
structure WireOut (T : Type) where
  conn : T
  ok : Bool

/-- A connection that can be read, written, closed and given a deadline. -/
class Wire (ρ T : Type) where
  wireFill : T → List Int → Int → Int → Eff ρ (WireIn T)
  wireSend : T → List Int → Eff ρ (WireOut T)
  wireClose : T → Eff ρ Bool
  wireDeadline : T → Int → Eff ρ Unit

export Wire (wireFill wireSend wireClose wireDeadline)

/-- Bytes read ahead of what has been consumed, with the transport they came from. -/
structure HsBuf (T : Type) where
  conn : T
  data : List Int
  eof : Bool

def hsFillStep [Wire ρ T] (want cap : Int) (hsFill : HsBuf T → Eff ρ (HsBuf T)) (b : HsBuf T) :
    Eff ρ (HsBuf T) := do
  if b.eof ∨ (b.data.length : Int) ≥ want ∨ (b.data.length : Int) > cap then return b
  else
    let i : WireIn T ← wireFill b.conn b.data want cap
    let out : HsBuf T := ⟨i.conn, i.data, i.eof⟩
    if out.eof ∨ (out.data.length : Int) ≥ want ∨ (out.data.length : Int) > cap then return out
    else hsFill out

/-- Read until `b` holds `want` bytes, the peer is done, or the total would pass `cap`. -/
def hsFill [Wire ρ T] (b : HsBuf T) (want cap : Int) : Eff ρ (HsBuf T) :=
  fixM (hsFillStep want cap) b

theorem hsFill_eq [Wire ρ T] (b : HsBuf T) (want cap : Int) :
    (hsFill b want cap : Eff ρ _) = hsFillStep want cap (fun b => hsFill b want cap) b := by
  refine fixM_eq (fun b w => ?_) b
  refine .iteM (.const _) (.run _ (fun i w => ?_) w)
  exact .iteM (.const _) (.tail _)

/-- Where a head or a line ends: at an index, nowhere before the end of the input, or past
its size bound. -/
inductive HsEnd
  | at (i : Nat)
  | eof
  | past
  deriving DecidableEq

structure HsHead (T : Type) where
  buf : HsBuf T
  stop : HsEnd

def hsReadHeadStep [Wire ρ T] (headMax : Int) (hsReadHead : HsBuf T × Nat → Eff ρ (HsHead T)) :
    HsBuf T × Nat → Eff ρ (HsHead T) := fun (b, start) => do
  match hsFind b.data [13, 10, 13, 10] start with
  | some i => return ⟨b, if (i : Int) + 4 > headMax then .past else .at i⟩
  | none =>
    if (b.data.length : Int) > headMax then return ⟨b, .past⟩
    else if b.eof then return ⟨b, .eof⟩
    else
      let nextFrom := b.data.length - 3
      let more : HsBuf T ← hsFill b (b.data.length + 1) (headMax + 16384)
      hsReadHead (more, nextFrom)

/-- Where the head ends, the search resumed at `start`. -/
def hsReadHead [Wire ρ T] (b : HsBuf T) (start : Nat) (headMax : Int) : Eff ρ (HsHead T) :=
  fixM (hsReadHeadStep headMax) (b, start)

theorem hsReadHead_eq [Wire ρ T] (b : HsBuf T) (start : Nat) (headMax : Int) :
    (hsReadHead b start headMax : Eff ρ _) =
      hsReadHeadStep headMax (fun x => hsReadHead x.1 x.2 headMax) (b, start) := by
  refine fixM_eq ?_ (b, start)
  rintro ⟨b, start⟩ w
  dsimp only [hsReadHeadStep]
  cases hsFind b.data [13, 10, 13, 10] start with
  | some i => exact .const _
  | none => exact .iteM (.const _) (.iteM (.const _) (.run _ (fun _ _ => .tail _) w))

def hsReadLineStep [Wire ρ T] (max : Int) (hsReadLine : HsBuf T → Eff ρ (HsHead T))
    (b : HsBuf T) : Eff ρ (HsHead T) := do
  match hsFind b.data [13, 10] 0 with
  | some i => return ⟨b, if (i : Int) > max then .past else .at i⟩
  | none =>
    if (b.data.length : Int) > max then return ⟨b, .past⟩
    else if b.eof then return ⟨b, .eof⟩
    else
      let more : HsBuf T ← hsFill b (b.data.length + 1) (max + 16384)
      hsReadLine more

/-- Where the line at the front of the buffer ends. -/
def hsReadLine [Wire ρ T] (b : HsBuf T) (max : Int) : Eff ρ (HsHead T) :=
  fixM (hsReadLineStep max) b

theorem hsReadLine_eq [Wire ρ T] (b : HsBuf T) (max : Int) :
    (hsReadLine b max : Eff ρ _) = hsReadLineStep max (fun b => hsReadLine b max) b := by
  refine fixM_eq (fun b w => ?_) b
  unfold hsReadLineStep
  cases hsFind b.data [13, 10] 0 with
  | some i => exact .const _
  | none => exact .iteM (.const _) (.iteM (.const _) (.run _ (fun _ _ => .tail _) w))

def hsReadLineAtStep [Wire ρ T] (start : Nat) (max : Int)
    (hsReadLineAt : HsBuf T × Nat → Eff ρ (HsHead T)) :
    HsBuf T × Nat → Eff ρ (HsHead T) := fun (b, resume) => do
  match hsFind b.data [13, 10] resume with
  | some i => return ⟨b, if (i : Int) - start > max then .past else .at i⟩
  | none =>
    if (b.data.length : Int) - start > max then return ⟨b, .past⟩
    else if b.eof then return ⟨b, .eof⟩
    else
      let nextFrom := if (b.data.length : Int) - 1 > start then b.data.length - 1 else start
      let more : HsBuf T ← hsFill b (b.data.length + 1) (start + max + 16384)
      hsReadLineAt (more, nextFrom)

/-- Where the line that starts at `start` ends, the search resumed at `resume`. -/
def hsReadLineAt [Wire ρ T] (b : HsBuf T) (start resume : Nat) (max : Int) :
    Eff ρ (HsHead T) := fixM (hsReadLineAtStep start max) (b, resume)

theorem hsReadLineAt_eq [Wire ρ T] (b : HsBuf T) (start resume : Nat) (max : Int) :
    (hsReadLineAt b start resume max : Eff ρ _) =
      hsReadLineAtStep start max (fun x => hsReadLineAt x.1 start x.2 max) (b, resume) := by
  refine fixM_eq ?_ (b, resume)
  rintro ⟨b, resume⟩ w
  dsimp only [hsReadLineAtStep]
  cases hsFind b.data [13, 10] resume with
  | some i => exact .const _
  | none => exact .iteM (.const _) (.iteM (.const _) (.run _ (fun _ _ => .tail _) w))

/-- A request with its body read, and the bytes left over for the next one. -/
structure HsReq (T : Type) where
  req : HttpRequest
  rest : HsBuf T

def hsFail (status : Int) (rest : HsBuf T) : HsReq T := ⟨hsReject status, rest⟩

/-- The request with the body it came with. -/
def HttpRequest.withBody (r : HttpRequest) (body : List Int) : HttpRequest :=
  { r with body := body, ok := true, status := 0 }

/-- The buffer from byte `i` on. -/
def HsBuf.from (b : HsBuf T) (i : Nat) : HsBuf T := { b with data := b.data.drop i }

/-- Most chunks one body may arrive in. -/
def hsChunksMax : Nat := 4096

def hsChunkTrailersStep [Wire ρ T] (r : HttpRequest) (acc : List Int)
    (hsChunkTrailers : HsBuf T × Nat → Eff ρ (HsReq T)) :
    HsBuf T × Nat → Eff ρ (HsReq T) := fun (b0, lines) => do
  let ln : HsHead T ← hsReadLine b0 8192
  match ln.stop with
  | .at e =>
    let lb := ln.buf
    if !hsCtlFree lb.data 0 e then return hsFail 400 lb
    else
      let rest := lb.from (e + 2)
      if e > 0 then
        if lines ≥ 64 then return hsFail 400 rest
        else hsChunkTrailers (rest, lines + 1)
      else return ⟨r.withBody acc, rest⟩
  | _ => return hsFail 400 ln.buf

/-- Trailer fields up to the blank line are read and dropped, 64 lines at most. -/
def hsChunkTrailers [Wire ρ T] (r : HttpRequest) (b0 : HsBuf T) (acc : List Int) (lines : Nat) :
    Eff ρ (HsReq T) := fixM (hsChunkTrailersStep r acc) (b0, lines)

theorem hsChunkTrailers_eq [Wire ρ T] (r : HttpRequest) (b0 : HsBuf T) (acc : List Int)
    (lines : Nat) : (hsChunkTrailers r b0 acc lines : Eff ρ _) =
      hsChunkTrailersStep r acc (fun x => hsChunkTrailers r x.1 acc x.2) (b0, lines) := by
  refine fixM_eq (fun x w => .run _ (fun ln w => ?_) w) (b0, lines)
  cases ln.stop with
  | «at» e =>
    refine .iteM (.const _) (.iteM ?_ (.const _))
    exact .iteM (.const _) (.tail _)
  | eof => exact .const _
  | past => exact .const _

/-- Where chunked coding has come to: the size line at `start`, `total` bytes in `count` chunks
so far. -/
structure HsChunked (T : Type) where
  buf : HsBuf T
  start : Nat
  acc : List Int
  total : Int
  count : Nat

def hsReadChunkedStep [Wire ρ T] (r : HttpRequest) (lim : HttpLimits)
    (hsReadChunked : HsChunked T → Eff ρ (HsReq T)) :
    HsChunked T → Eff ρ (HsReq T) := fun ⟨b0, start, acc, total, count⟩ => do
  let ln : HsHead T ← hsReadLineAt b0 start start 1024
  match ln.stop with
  | .at e =>
    let b := ln.buf
    if !hsCtlFree b.data start e then return hsFail 400 b
    else
      let size := chunkSize (hsAscii b.data start e)
      let dataAt := e + 2
      if size < 0 then return hsFail 400 b
      else if size = 0 then hsChunkTrailers r (b.from dataAt) acc 0
      else if total + size > lim.bodyMax then return hsFail 413 b
      else if count ≥ hsChunksMax then return hsFail 413 b
      else
        let stop := dataAt + size.toNat
        let full : HsBuf T ← hsFill b (stop + 2) (dataAt + lim.bodyMax + 16384)
        if full.data.length < stop + 2 then return hsFail 400 full
        else if full.data.getD stop 0 ≠ 13 ∨ full.data.getD (stop + 1) 0 ≠ 10 then
          return hsFail 400 full
        else
          hsReadChunked ⟨full, stop + 2, acc ++ (full.data.take stop).drop dataAt, total + size,
            count + 1⟩
  | _ => return hsFail 400 ln.buf

/-- Chunked coding from the size line at `start`, `total` bytes in `count` chunks so far. -/
def hsReadChunked [Wire ρ T] (r : HttpRequest) (b0 : HsBuf T) (start : Nat) (lim : HttpLimits)
    (acc : List Int) (total : Int) (count : Nat) : Eff ρ (HsReq T) :=
  fixM (hsReadChunkedStep r lim) ⟨b0, start, acc, total, count⟩

theorem hsReadChunked_eq [Wire ρ T] (r : HttpRequest) (b0 : HsBuf T) (start : Nat)
    (lim : HttpLimits) (acc : List Int) (total : Int) (count : Nat) :
    (hsReadChunked r b0 start lim acc total count : Eff ρ _) = hsReadChunkedStep r lim
      (fun x => hsReadChunked r x.buf x.start lim x.acc x.total x.count)
      ⟨b0, start, acc, total, count⟩ := by
  refine fixM_eq (fun x w => .run _ (fun ln w => ?_) w) _
  cases ln.stop with
  | «at» e =>
    refine .iteM (.const _) (.iteM (.const _) (.iteM (.const _) (.iteM (.const _) ?_)))
    refine .iteM (.const _) (.run _ (fun full w => ?_) w)
    exact .iteM (.const _) (.iteM (.const _) (.tail _))
  | eof => exact .const _
  | past => exact .const _

/-- The body after a parsed head; `b` starts at the body's first byte. -/
def hsReadBody [Wire ρ T] (r : HttpRequest) (b : HsBuf T) (lim : HttpLimits) :
    Eff ρ (HsReq T) := do
  let kind := hsBodyKind r
  if kind = -3 then return hsFail 400 b
  else if kind = -4 then return hsFail 501 b
  else if kind = -5 then return hsFail 413 b
  else if kind = -1 then return ⟨r, b⟩
  else if kind = -2 then hsReadChunked r b 0 lim [] 0 0
  else if kind > lim.bodyMax then return hsFail 413 b
  else
    let full : HsBuf T ← hsFill b kind (lim.bodyMax + 16384)
    if (full.data.length : Int) < kind then return hsFail 400 full
    else return ⟨r.withBody (full.data.take kind.toNat), full.from kind.toNat⟩

/-- One whole request off the connection: head, then body. -/
def hsReadRequest [Wire ρ T] (b0 : HsBuf T) (lim : HttpLimits) : Eff ρ (HsReq T) := do
  let h : HsHead T ← hsReadHead b0 0 lim.headMax
  match h.stop with
  | .past => return hsFail 431 h.buf
  | .eof => return hsFail 0 h.buf
  | .at e =>
    let r := hsParseHead h.buf.data e
    let bodyStart := h.buf.from (e + 4)
    if !r.ok then return ⟨r, bodyStart⟩
    else hsReadBody r bodyStart lim

end Http

/-!
## The framing of the event loop

How far a connection's bytes have been checked for a whole request, kept from one arrival
to the next, and the in-memory transport that lets the reader take a framed request.

### Algorithm

`hsFrame` finds the end of the head, then waits for a counted body or hands over to
`hsChunks`, which steps over size lines, chunk data and trailer lines.  A frame is `ready`
once the request is whole, or is one the reader will refuse.
-/

namespace Http

open Runtime Net Recursion

/-- How far the input has been checked; `cstate` 0 is at a size line, 1 in chunk data, 2 at a
trailer line, and `lines` the chunks seen and then the trailer lines. -/
structure HsFrame where
  scan : Nat
  headEnd : Option Nat
  stop : Option Nat
  cpos : Nat
  cstate : Nat
  total : Int
  lines : Nat
  ready : Bool
  deriving DecidableEq

def hsFrameNew : HsFrame := ⟨0, none, none, 0, 0, 0, 0, false⟩

def hsFrameReady (f : HsFrame) : HsFrame := { f with ready := true }

def hsFrameChunk (f : HsFrame) (cpos cstate : Nat) (total : Int) (lines : Nat) : HsFrame :=
  ⟨f.scan, f.headEnd, f.stop, cpos, cstate, total, lines, false⟩

/-- The next CRLF at or after `start` and before `stop`. -/
def hsCrlf (b : List Int) (start stop : Nat) : Option Nat :=
  Scan.find (b.take stop) [13, 10] start

def hsChunksStep (b : List Int) (lim : HttpLimits) (hsChunks : HsFrame → Option HsFrame)
    (f : HsFrame) : Option HsFrame := do
  let n := b.length
  if f.cstate = 1 then
    if n ≥ f.cpos then hsChunks (hsFrameChunk f f.cpos 0 f.total f.lines) else some f
  else
    let window := if f.cstate = 0 then 1026 else 8194
    match hsCrlf b f.cpos (f.cpos + window) with
    | none => if (n : Int) - f.cpos ≥ window then some (hsFrameReady f) else some f
    | some i =>
      if f.cstate = 2 then
        if i = f.cpos then
          some ⟨f.scan, f.headEnd, some (i + 2), i + 2, 2, f.total, f.lines, true⟩
        else if f.lines ≥ 64 then some (hsFrameReady f)
        else hsChunks (hsFrameChunk f (i + 2) 2 f.total (f.lines + 1))
      else
        let size := chunkSize (hsAscii b f.cpos i)
        if size < 0 ∨ f.total + size > lim.bodyMax then some (hsFrameReady f)
        else if size = 0 then hsChunks (hsFrameChunk f (i + 2) 2 f.total 0)
        else if f.lines ≥ hsChunksMax then some (hsFrameReady f)
        else
          hsChunks (hsFrameChunk f (i + 2 + size.toNat + 2) 1 (f.total + size) (f.lines + 1))

/-- Chunked framing, resumed where it stopped. -/
def hsChunks (b : List Int) (f : HsFrame) (lim : HttpLimits) : Option HsFrame :=
  fix (hsChunksStep b lim) f

theorem hsChunks_eq (b : List Int) (f : HsFrame) (lim : HttpLimits) :
    hsChunks b f lim = hsChunksStep b lim (fun f => hsChunks b f lim) f := by
  refine fix_eq (fun f => .ite (.ite (.tail _) (.const _)) ?_) f
  dsimp only
  cases hsCrlf b f.cpos (f.cpos + if f.cstate = 0 then 1026 else 8194) with
  | none => exact .ite (.const _) (.const _)
  | some i =>
    refine .ite (.ite (.const _) (.ite (.const _) (.tail _))) (.ite (.const _) ?_)
    exact .ite (.tail _) (.ite (.const _) (.tail _))

/-- The framing of the request bytes `b`, resumed from `f`. -/
def hsFrame (b : List Int) (f : HsFrame) (lim : HttpLimits) : Option HsFrame :=
  if f.ready then some f
  else
    let n := b.length
    match f.headEnd with
    | none =>
      match hsFind b [13, 10, 13, 10] (f.scan - 3) with
      | none => some ⟨n, none, none, 0, 0, 0, 0, decide ((n : Int) > lim.headMax)⟩
      | some i =>
        let found : HsFrame := ⟨n, some i, none, i + 4, 0, 0, 0, false⟩
        if (i : Int) + 4 > lim.headMax then some (hsFrameReady found)
        else
          let r := hsParseHead b i
          if !r.ok then some (hsFrameReady found)
          else
            let kind := hsBodyKind r
            if kind = -2 then hsChunks b found lim
            else if kind < 0 ∨ kind > lim.bodyMax then some (hsFrameReady found)
            else
              let stop := i + 4 + kind.toNat
              some ⟨n, some i, some stop, 0, 0, 0, 0, decide (n ≥ stop)⟩
    | some _ =>
      match f.stop with
      | some stop => if n ≥ stop then some (hsFrameReady f) else some f
      | none => hsChunks b f lim

/-- The in-memory transport; a read past the buffer is reported as `starved`. -/
structure HsMem where
  starved : Bool

instance {ρ : Type} : Wire ρ HsMem where
  wireFill _ have' _ _ := pure ⟨⟨true⟩, have', true⟩
  wireSend m _ := pure ⟨m, false⟩
  wireClose _ := pure true
  wireDeadline _ _ := pure ()

end Http

end

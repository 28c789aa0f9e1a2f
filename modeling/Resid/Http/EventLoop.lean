import Resid.Http.Reader
import Resid.Http.Request
import Resid.Http.Paths

/-!
# The event loop

One connection of the loop is a state machine: bytes arrive, a whole request is answered,
the reply is written as the socket takes it, a stream makes its next step when its wait is
over.  The session turns what arrived into plaintext and what is to be sent into bytes.

## Algorithm

`hsEvOne` takes one connection through what the poll said of it: first a passed deadline,
then room to write, then bytes to read.  `hsEvRun` does so round after round until the
connection is to be closed.
-/

noncomputable section

namespace Http

open Runtime Net

/-- What a session made of arriving bytes; status 0 goes on, 1 is a clean end, 2 an end now. -/
structure SessIn (σ : Type) where
  sess : σ
  plain : List Int
  out : List Int
  status : Int

structure SessOut (σ : Type) where
  sess : σ
  out : List Int

/-- A transport as a state machine over bytes, with state `σ` and configuration `γ`. -/
class Session (ρ σ : Type) (γ : outParam Type) where
  sessOpen : γ → σ
  sessInput : γ → σ → List Int → Eff ρ (SessIn σ)
  sessOutput : σ → List Int → Eff ρ (SessOut σ)
  sessGoodbye : σ → Eff ρ (List Int)

export Session (sessOpen sessInput sessOutput sessGoodbye)

structure PlainCfg where
  none : Bool

structure PlainSess where
  none : Bool

/-- The plain session: bytes are plaintext. -/
instance {ρ : Type} : Session ρ PlainSess PlainCfg where
  sessOpen _ := ⟨true⟩
  sessInput _ s raw := pure ⟨s, raw, [], 0⟩
  sessOutput s plain := pure ⟨s, plain⟩
  sessGoodbye _ := pure []

/-- A stream in progress. -/
structure HsLive (κ : Type) where
  state : κ
  next : κ → HttpStep κ
  waitMs : Int
  chunked : Bool
  keep : Bool

/-- What a connection is doing: reading a request, writing a reply it reads on after,
writing the last reply, draining after a half-close, to be closed, or streaming. -/
inductive HsPhase
  | reading | replying | last | draining | closing | streaming
  deriving DecidableEq

/-- One connection of the loop; what is still to send is `outb` from `outAt` on. -/
structure HsConn (σ κ : Type) where
  sess : σ
  inb : List Int
  frame : HsFrame
  outb : List Int
  outAt : Nat
  phase : HsPhase
  served : Nat
  peerDone : Bool
  live : Option (HsLive κ)

variable {σ γ κ : Type}

def hsConnSet (c : HsConn σ κ) (sess : σ) (inb : List Int) (frame : HsFrame) (outb : List Int)
    (outAt : Nat) (phase : HsPhase) (served : Nat) (peerDone : Bool) : HsConn σ κ :=
  ⟨sess, inb, frame, outb, outAt, phase, served, peerDone, c.live⟩

def hsConnLive (c : HsConn σ κ) (sess : σ) (inb outb : List Int) (phase : HsPhase)
    (served : Nat) (live : Option (HsLive κ)) : HsConn σ κ :=
  ⟨sess, inb, hsFrameNew, outb, 0, phase, served, c.peerDone, live⟩

def hsConnPhase (c : HsConn σ κ) (phase : HsPhase) : HsConn σ κ :=
  hsConnSet c c.sess c.inb c.frame c.outb c.outAt phase c.served c.peerDone

/-- What is still to send. -/
def HsConn.pending (c : HsConn σ κ) : List Int := c.outb.drop c.outAt

variable [Session HttpRequest σ γ]

/-- Queue a whole reply's bytes. -/
def hsEvReply (c : HsConn σ κ) (rest wire : List Int) (keep : Bool) (lim : HttpLimits) :
    Eff HttpRequest (HsConn σ κ) := do
  let so : SessOut σ ← sessOutput c.sess wire
  let bye : List Int ← (if keep then pure [] else sessGoodbye so.sess)
  tcpDeadline lim.replyMs
  return hsConnLive c so.sess rest (c.pending ++ so.out ++ bye)
    (if keep then .replying else .last) (c.served + 1) none

/-- Queue a step's bytes; the stream ends with it when it is `done`. -/
def hsEvEmit (c : HsConn σ κ) (lv : HsLive κ) (st : HttpStep κ) (lead : List Int)
    (lim : HttpLimits) : Eff HttpRequest (HsConn σ κ) := do
  let fresh := lead ++ hsStepBytes st lv.chunked
  let so : SessOut σ ←
    (if fresh.length > 0 then sessOutput c.sess fresh else pure ⟨c.sess, []⟩)
  if st.done then
    let bye : List Int ← (if lv.keep then pure [] else sessGoodbye so.sess)
    tcpDeadline lim.replyMs
    return hsConnLive c so.sess c.inb (c.pending ++ so.out ++ bye)
      (if lv.keep then .replying else .last) c.served none
  else
    let outb := c.pending ++ so.out
    tcpDeadline (if outb.length > 0 then lim.replyMs else st.waitMs)
    return hsConnLive c so.sess c.inb outb .streaming c.served
      (some ⟨st.state, lv.next, st.waitMs, lv.chunked, lv.keep⟩)

/-- Start a stream: its head and first step. -/
def hsEvStream (c : HsConn σ κ) (rest : List Int) (s : HttpStream κ) (keep0 chunked : Bool)
    (lim : HttpLimits) : Eff HttpRequest (HsConn σ κ) :=
  let keep := keep0 && chunked
  let lv : HsLive κ := ⟨s.first.state, s.next, s.first.waitMs, chunked, keep⟩
  let counted := hsConnLive c c.sess rest c.pending .streaming (c.served + 1) none
  hsEvEmit counted lv s.first (hsStreamHead s chunked keep) lim

/-- Pass a request to the handler. -/
def askHandler (handler : HttpRequest → HttpOut κ) (r : HttpRequest) :
    Eff HttpRequest (HttpOut κ) := do
  act (.asked r)
  return handler r

/-- Answer the request at the front of `inb` if it is whole. -/
def hsEvAnswer (c : HsConn σ κ) (handler : HttpRequest → HttpOut κ) (lim : HttpLimits) :
    Eff HttpRequest (HsConn σ κ) := do
  if c.phase ≠ .reading then return c
  else
    let f : HsFrame ← StateT.lift (hsFrame c.inb c.frame lim)
    if !f.ready then
      return hsConnSet c c.sess c.inb f c.outb c.outAt (if c.peerDone then .closing else .reading)
        c.served c.peerDone
    else
      let rq : HsReq HsMem ← hsReadRequest ⟨⟨false⟩, c.inb, false⟩ lim
      let r := if rq.rest.conn.starved && rq.req.ok then hsReject 400 else rq.req
      if !r.ok && r.status == 0 then return hsConnPhase c .closing
      else if !r.ok then
        hsEvReply c rq.rest.data (httpReplyWire (httpReplyStatus r.status) false false) false lim
      else
        let out : HttpOut κ ← askHandler handler r
        let keep := r.keepAlive && !c.peerDone && decide ((c.served : Int) + 1 < lim.requestsMax)
        let head := r.method == "HEAD".toList
        match out with
        | .whole reply => hsEvReply c rq.rest.data (httpReplyWire reply keep head) keep lim
        | .stream s =>
          if head then
            hsEvReply c rq.rest.data (httpReplyWire ⟨s.status, s.headers, []⟩ keep true) keep lim
          else hsEvStream c rq.rest.data s keep (r.version == "HTTP/1.1".toList) lim

/-- A stream's wait is over: make its next step. -/
def hsEvTick (c : HsConn σ κ) (lim : HttpLimits) : Eff HttpRequest (HsConn σ κ) :=
  match c.live with
  | some lv => hsEvEmit c lv (lv.next lv.state) [] lim
  | none => pure (hsConnPhase c .closing)

/-- Bytes have arrived, or the peer has gone. -/
def hsEvRead (conf : γ) (c : HsConn σ κ) (handler : HttpRequest → HttpOut κ)
    (lim : HttpLimits) : Eff HttpRequest (HsConn σ κ) := do
  let got : List Int ← tcpRecvSome 65536
  if got.length = 0 then return hsConnPhase c .closing
  else if c.phase = .draining then return c
  else
    let si : SessIn σ ← sessInput conf c.sess got
    let outb := c.outb ++ si.out
    if si.status = 2 then
      tcpDeadline lim.replyMs
      return hsConnSet c si.sess [] c.frame outb c.outAt
        (if outb.length > c.outAt ∧ c.phase ≠ .streaming then .last else .closing) c.served true
    else
      let inb := c.inb ++ si.plain
      if (inb.length : Int) > lim.headMax + lim.bodyMax + 65536 then
        return hsConnPhase c .closing
      else
        hsEvAnswer (hsConnSet c si.sess inb c.frame outb c.outAt c.phase c.served
          (c.peerDone || si.status == 1)) handler lim

/-- The socket has room: send what is pending, and move on once it is all out. -/
def hsEvWrite (c : HsConn σ κ) (handler : HttpRequest → HttpOut κ) (lim : HttpLimits) :
    Eff HttpRequest (HsConn σ κ) := do
  let take := if c.outb.length - c.outAt > 262144 then 262144 else c.outb.length - c.outAt
  let w : Int ← tcpSendSome ((c.outb.take (c.outAt + take)).drop c.outAt)
  if w < 0 then return hsConnPhase c .closing
  else
    let sentTo := c.outAt + w.toNat
    if sentTo < c.outb.length then
      return hsConnSet c c.sess c.inb c.frame c.outb sentTo c.phase c.served c.peerDone
    else if c.phase = .last then
      tcpShutdown
      return hsConnSet c c.sess [] c.frame [] 0 .draining c.served c.peerDone
    else if c.phase = .replying then
      tcpDeadline lim.requestMs
      hsEvAnswer (hsConnSet c c.sess c.inb c.frame [] 0 .reading c.served c.peerDone) handler lim
    else
      let _set : Unit ←
        (if c.phase = .streaming then
          tcpDeadline (match c.live with | some lv => lv.waitMs | none => 0)
        else pure ())
      return hsConnSet c c.sess c.inb c.frame [] 0 c.phase c.served c.peerDone

/-- One connection against what the poll said of it: bit 1 readable, 2 writable, 4 its
deadline passed, 8 an error.  A passed deadline ends a connection, except a stream with
nothing left to send, whose deadline is its next step. -/
def hsEvOne (conf : γ) (c : HsConn σ κ) (ready : Nat) (handler : HttpRequest → HttpOut κ)
    (lim : HttpLimits) : Eff HttpRequest (HsConn σ κ) := do
  if ready &&& 8 ≠ 0 then return hsConnPhase c .closing
  else
    let tick : Bool := c.phase = .streaming ∧ c.outb.length ≤ c.outAt
    if ready &&& 4 ≠ 0 ∧ !tick then return hsConnPhase c .closing
    else
      let c0 : HsConn σ κ ← (if ready &&& 4 ≠ 0 then hsEvTick c lim else pure c)
      let c1 : HsConn σ κ ←
        (if ready &&& 2 ≠ 0 ∧ c0.outb.length > c0.outAt then hsEvWrite c0 handler lim
        else pure c0)
      if ready &&& 1 ≠ 0 ∧ (c1.phase = .reading ∨ c1.phase = .draining ∨ c1.phase = .streaming)
      then hsEvRead conf c1 handler lim
      else return c1

/-- A connection just accepted. -/
def hsConnNew (κ : Type) (conf : γ) : HsConn σ κ :=
  ⟨sessOpen HttpRequest conf, [], hsFrameNew, [], 0, .reading, 0, false, none⟩

/-- The connection over rounds of the loop; one that is to be closed leaves it. -/
def hsEvRun (conf : γ) (handler : HttpRequest → HttpOut κ) (lim : HttpLimits) :
    List Nat → HsConn σ κ → Eff HttpRequest (HsConn σ κ)
  | [], c => pure c
  | ready :: rounds, c => do
    let c' : HsConn σ κ ← (if ready ≠ 0 then hsEvOne conf c ready handler lim else pure c)
    if c'.phase = .closing then
      let _closed : Bool ← tcpClose
      return c'
    else hsEvRun conf handler lim rounds c'

end Http

/-!
## What a connection is to send

The requests framed from the bytes received, and the bytes of their replies in request
order: a whole reply once, a stream as its head and the steps made so far.

    Frames lim R rs left, 0 ≤ body_max → Taken lim R rs left           (Frames.taken)
    transcript of one more request appends its reply                   (transcript_snoc)
-/

namespace Http

open Runtime Net

variable {κ : Type}

/-! ## What a connection did -/

def receivedOf (acts : List (Act HttpRequest)) : List Int :=
  acts.flatMap fun a => match a with | .received b => b | _ => []

def sentOf (acts : List (Act HttpRequest)) : List Int :=
  acts.flatMap fun a => match a with | .sent b => b | _ => []

/-- The requests passed to the handler. -/
def askedOf (acts : List (Act HttpRequest)) : List HttpRequest :=
  acts.filterMap fun a => match a with | .asked r => some r | _ => none

/-! ## The requests -/

/-- The requests framed from the bytes `R` as they arrived, and the bytes behind them. -/
inductive Frames (lim : HttpLimits) : List Int → List HttpRequest → List Int → Prop
  | start : Frames lim [] [] []
  | arrive {R left : List Int} {rs : List HttpRequest} (x : List Int) :
    Frames lim R rs left → Frames lim (R ++ x) rs (left ++ x)
  | take {R left left' : List Int} {rs : List HttpRequest} {r : HttpRequest} :
    Frames lim R rs left → skimOf lim left = true → answerOf lim left = (r, left') →
      Frames lim R (rs ++ [r]) left'

/-- The requests that stand at the front of `R`, one behind the other. -/
inductive Taken (lim : HttpLimits) : List Int → List HttpRequest → List Int → Prop
  | nil {R : List Int} : Taken lim R [] R
  | cons {R left left' : List Int} {r : HttpRequest} {rs : List HttpRequest} :
    requestOf lim R = some (.whole r left) → Taken lim left rs left' →
      Taken lim R (r :: rs) left'

variable {lim : HttpLimits} {R left : List Int} {rs : List HttpRequest}

theorem Taken.append (h : Taken lim R rs left) (x : List Int) :
    Taken lim (R ++ x) rs (left ++ x) := by
  induction h with
  | nil => exact .nil
  | cons hr _ ih => exact .cons (requestOf_append x hr) ih

theorem Taken.snoc {left' : List Int} {r : HttpRequest} (h : Taken lim R rs left)
    (hr : requestOf lim left = some (.whole r left')) : Taken lim R (rs ++ [r]) left' := by
  induction h with
  | nil => exact .cons hr .nil
  | cons hr' _ ih => exact .cons hr' (ih hr)

/-- How the bytes arrived does not matter when the body limit is not negative. -/
theorem Frames.taken (hbody : 0 ≤ lim.bodyMax) (h : Frames lim R rs left) :
    Taken lim R rs left := by
  induction h with
  | start => exact .nil
  | arrive x _ ih => exact ih.append x
  | take _ hskim ha ih =>
    obtain ⟨r, left', hr⟩ := whole_of_skimOf hbody hskim
    rw [answerOf_at hr] at ha
    cases ha
    exact ih.snoc hr

/-! ## The replies -/

/-- What a request is answered with. -/
inductive Reply (κ : Type)
  | whole (bytes : List Int) (keep : Bool)
  | stream (s : HttpStream κ) (chunked keep : Bool)

/-- The answer to request `i` of a connection. -/
def replyTo (lim : HttpLimits) (handler : HttpRequest → HttpOut κ) (i : Nat) (r : HttpRequest) :
    Reply κ :=
  if !r.ok then .whole (httpReplyWire (httpReplyStatus r.status) false false) false
  else
    let keep := r.keepAlive && decide ((i : Int) + 1 < lim.requestsMax)
    let head := r.method == "HEAD".toList
    match handler r with
    | .whole reply => .whole (httpReplyWire reply keep head) keep
    | .stream s =>
      if head then .whole (httpReplyWire ⟨s.status, s.headers, []⟩ keep true) keep
      else
        let chunked := r.version == "HTTP/1.1".toList
        .stream s chunked (keep && chunked)

/-- The connection is read on after this reply. -/
def Reply.keeps : Reply κ → Bool
  | .whole _ keep => keep
  | .stream _ _ keep => keep

/-- Step `n` of a stream, from its first. -/
def HttpStream.step (s : HttpStream κ) : Nat → HttpStep κ
  | 0 => s.first
  | n + 1 => s.next (s.step n).state

/-- The bytes of a reply, a stream's with its steps up to step `n`. -/
def Reply.bytes (n : Nat) : Reply κ → List Int
  | .whole bytes _ => bytes
  | .stream s chunked keep =>
    hsStreamHead s chunked keep ++
      (List.range (n + 1)).flatMap fun j => hsStepBytes (s.step j) chunked

/-- Nothing more belongs to the reply: a stream ends with the first step that is done. -/
def Reply.Over (n : Nat) : Reply κ → Prop
  | .whole _ _ => True
  | .stream s _ _ => (s.step n).done = true ∧ ∀ j < n, (s.step j).done = false

/-- The replies to requests `i` on, each request with the number of its stream's last step. -/
def transcriptFrom (lim : HttpLimits) (handler : HttpRequest → HttpOut κ) (i : Nat) :
    List (HttpRequest × Nat) → List Int
  | [] => []
  | x :: xs => (replyTo lim handler i x.1).bytes x.2 ++ transcriptFrom lim handler (i + 1) xs

def transcript (lim : HttpLimits) (handler : HttpRequest → HttpOut κ)
    (xs : List (HttpRequest × Nat)) : List Int := transcriptFrom lim handler 0 xs

theorem transcriptFrom_append (lim : HttpLimits) (handler : HttpRequest → HttpOut κ) (i : Nat)
    (xs ys : List (HttpRequest × Nat)) :
    transcriptFrom lim handler i (xs ++ ys) =
      transcriptFrom lim handler i xs ++ transcriptFrom lim handler (i + xs.length) ys := by
  induction xs generalizing i with
  | nil => rfl
  | cons x xs ih =>
    rw [List.cons_append, transcriptFrom, transcriptFrom, ih, List.append_assoc,
      List.length_cons, show i + 1 + xs.length = i + (xs.length + 1) by omega]

theorem transcript_snoc (lim : HttpLimits) (handler : HttpRequest → HttpOut κ)
    (xs : List (HttpRequest × Nat)) (x : HttpRequest × Nat) :
    transcript lim handler (xs ++ [x]) =
      transcript lim handler xs ++ (replyTo lim handler xs.length x.1).bytes x.2 := by
  rw [transcript, transcriptFrom_append, Nat.zero_add]
  simp only [transcriptFrom, List.append_nil]
  rfl

/-- Every reply is over and the connection read on after it. -/
def AllOver (lim : HttpLimits) (handler : HttpRequest → HttpOut κ)
    (xs : List (HttpRequest × Nat)) : Prop :=
  ∀ j x, xs[j]? = some x →
    (replyTo lim handler j x.1).Over x.2 ∧ (replyTo lim handler j x.1).keeps = true

theorem AllOver.nil (lim : HttpLimits) (handler : HttpRequest → HttpOut κ) :
    AllOver lim handler [] := by
  intro j x h
  cases h

theorem AllOver.snoc {handler : HttpRequest → HttpOut κ} {xs : List (HttpRequest × Nat)}
    {x : HttpRequest × Nat} (h : AllOver lim handler xs)
    (hover : (replyTo lim handler xs.length x.1).Over x.2)
    (hkeep : (replyTo lim handler xs.length x.1).keeps = true) :
    AllOver lim handler (xs ++ [x]) := by
  intro j y hy
  rcases Nat.lt_or_ge j xs.length with hlt | hge
  · rw [List.getElem?_append_left hlt] at hy
    exact h j y hy
  · rw [List.getElem?_append_right hge] at hy
    obtain ⟨hj, rfl⟩ := List.getElem?_eq_some_iff.1 hy
    rw [List.length_singleton] at hj
    have hj' : j = xs.length := by omega
    subst hj'
    simp only [Nat.sub_self, List.getElem_cons_zero]
    exact ⟨hover, hkeep⟩

end Http

end

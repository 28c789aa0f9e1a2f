import Resid.Http.Skim

/-!
# Requests off a stream cut into reads

The requests one connection brings, each with the bytes left behind it, on the two paths:
the blocking reader over a transport that delivers the cuts, and the event loop, which
feeds its frame read by read and takes a request out of memory once the frame is ready.

    readRequests lim k b  gives  readSeq lim k b.data pieces                (readRequests_run)
    loopRequests lim k d cs  gives  loopSeq lim k d cs                      (loopRequests_run)

## Algorithm

Each path looks at the bytes after every read and stops at the first read where its own test
holds: `settledOf` for the reader, `skimOf` for the framer.  What it answers there is what
the bytes at hand say.
-/

noncomputable section

namespace Http

open Runtime Net Scan

variable {ρ : Type}

/-- A stream cut into the reads still to come, none of them empty. -/
structure Cuts where
  pieces : List (List Int)
  ne : ∀ p ∈ pieces, p ≠ []

def Cuts.next (c : Cuts) : Cuts := ⟨c.pieces.tail, fun p hp => c.ne p (List.mem_of_mem_tail hp)⟩

/-- The whole stream in one read. -/
def Cuts.uncut (c : Cuts) : Cuts :=
  if h : c.pieces.flatten = [] then ⟨[], fun p hp => absurd hp List.not_mem_nil⟩
  else ⟨[c.pieces.flatten], fun p hp => by rwa [List.mem_singleton.1 hp]⟩

instance : Pieces Cuts := ⟨Cuts.pieces, Cuts.next, fun _ => rfl, Cuts.ne⟩

/-- The transport that delivers the cuts. -/
instance : Wire ρ Cuts where
  wireFill c have' _ _ :=
    pure ⟨c.next, have' ++ c.pieces.headD [], c.pieces.isEmpty⟩
  wireSend c _ := pure ⟨c, true⟩
  wireClose _ := pure true
  wireDeadline _ _ := pure ()

instance : PieceWire ρ Cuts := ⟨fun _ _ _ _ _ => rfl⟩

instance : Pieces HsMem where
  pieces _ := []
  next _ := ⟨true⟩
  pieces_next _ := rfl
  pieces_ne _ _ hp := absurd hp List.not_mem_nil

instance : PieceWire ρ HsMem where
  fill _ held _ _ _ := by
    rw [show (Pieces.pieces _).headD [] = ([] : List Int) from rfl, List.append_nil]
    rfl

/-- A request and the bytes behind it, those not yet read included. -/
structure Answered where
  req : HttpRequest
  left : List Int

/-- The end of the connection rather than a request. -/
def HttpRequest.ended (r : HttpRequest) : Bool := !r.ok && r.status == 0

/-- The connection is read on after this request. -/
def HttpRequest.goesOn (r : HttpRequest) : Bool := r.ok && r.keepAlive

/-- The first `k` requests the blocking reader takes off `b`. -/
def readRequests (lim : HttpLimits) : Nat → HsBuf Cuts → Eff ρ (List Answered)
  | 0, _ => pure []
  | k + 1, b => do
    let rq : HsReq Cuts ← hsReadRequest b lim
    if rq.req.ended then return []
    else
      let one : Answered := ⟨rq.req, rq.rest.data ++ rq.rest.conn.pieces.flatten⟩
      if rq.req.goesOn then
        let more : List Answered ← readRequests lim k rq.rest
        return one :: more
      else return [one]

/-- The request the event loop takes next: `inb` is its input, `f` the frame kept for it and
`cs` the reads to come; none when the peer is done first. -/
def loopRequest (lim : HttpLimits) (inb : List Int) (f : HsFrame) (cs : List (List Int)) :
    Eff ρ (Option (HsReq HsMem × List (List Int))) := do
  let f' : HsFrame ← StateT.lift (hsFrame inb f lim)
  if f'.ready then
    let rq : HsReq HsMem ← hsReadRequest ⟨⟨false⟩, inb, false⟩ lim
    let r := if rq.rest.conn.starved && rq.req.ok then hsReject 400 else rq.req
    return some (⟨r, rq.rest⟩, cs)
  else
    match cs with
    | [] => return none
    | c :: cs => loopRequest lim (inb ++ c) f' cs
termination_by structural cs

/-- The first `k` requests the event loop takes off `inb` and the reads to come. -/
def loopRequests (lim : HttpLimits) : Nat → List Int → List (List Int) → Eff ρ (List Answered)
  | 0, _, _ => pure []
  | k + 1, inb, cs => do
    let got : Option (HsReq HsMem × List (List Int)) ← loopRequest lim inb hsFrameNew cs
    match got with
    | none => return []
    | some (rq, cs') =>
      if rq.req.ended then return []
      else
        let one : Answered := ⟨rq.req, rq.rest.data ++ cs'.flatten⟩
        if rq.req.goesOn then
          let more : List Answered ← loopRequests lim k rq.rest.data cs'
          return one :: more
        else return [one]

/-- A connection of the event loop is looked at once bytes have arrived. -/
def loopConn (lim : HttpLimits) (k : Nat) (c : Cuts) : Eff ρ (List Answered) :=
  match c.pieces with
  | [] => pure []
  | p :: ps => loopRequests lim k p ps

def readConn (lim : HttpLimits) (k : Nat) (c : Cuts) : Eff ρ (List Answered) :=
  readRequests lim k ⟨c, [], false⟩

/-! ## Where a path stops -/

/-- The bytes at hand at the first read where `S` holds, and the reads after it. -/
def stopAt (S : List Int → Bool) : List Int → List (List Int) → List Int × List (List Int)
  | d, [] => (d, [])
  | d, c :: cs => if S d then (d, c :: cs) else stopAt S (d ++ c) cs

theorem stopAt_cons (S : List Int → Bool) (d c : List Int) (cs : List (List Int)) :
    stopAt S d (c :: cs) = if S d then (d, c :: cs) else stopAt S (d ++ c) cs := rfl

variable {S : List Int → Bool} {d : List Int} {cs : List (List Int)} {lim : HttpLimits}

theorem stopAt_flatten (d : List Int) (cs : List (List Int)) :
    (stopAt S d cs).1 ++ (stopAt S d cs).2.flatten = d ++ cs.flatten := by
  induction cs generalizing d with
  | nil => rfl
  | cons c cs ih =>
    rw [stopAt_cons]
    by_cases h : S d = true
    · rw [if_pos h]
    · rw [if_neg h, ih, List.flatten_cons, List.append_assoc]

/-- A path that did not find what it waited for has read everything. -/
theorem stopAt_end (h : S (stopAt S d cs).1 = false) : (stopAt S d cs).2 = [] := by
  induction cs generalizing d with
  | nil => rfl
  | cons c cs ih =>
    rw [stopAt_cons] at h ⊢
    by_cases hS : S d = true
    · rw [if_pos hS] at h
      rw [hS] at h
      cases h
    · rw [if_neg hS] at h ⊢
      exact ih h

/-- Two paths that each stop where the other is content stop together. -/
theorem stopAt_congr {S' : List Int → Bool} (h : S (stopAt S' d cs).1 = true)
    (h' : S' (stopAt S d cs).1 = true) : stopAt S d cs = stopAt S' d cs := by
  induction cs generalizing d with
  | nil => rfl
  | cons c cs ih =>
    rw [stopAt_cons] at h h' ⊢
    rw [stopAt_cons]
    by_cases hS : S d = true
    · rw [if_pos hS] at h' ⊢
      rw [if_pos h']
    · rw [if_neg hS] at h' ⊢
      by_cases hS' : S' d = true
      · rw [if_pos hS'] at h
        exact absurd h hS
      · rw [if_neg hS'] at h ⊢
        exact ih h h'

theorem Until.stopAt {b b' : HsBuf Cuts} (h : Until S b b')
    (heof : b.eof = true → b.conn.pieces = []) : b'.data = (Http.stopAt S b.data b.conn.pieces).1 ∧
      b'.conn.pieces = (Http.stopAt S b.data b.conn.pieces).2 ∧
      (b'.eof = true → b'.conn.pieces = []) := by
  induction h with
  | stop hstop =>
    rename_i b
    cases hp : b.conn.pieces with
    | nil => exact ⟨rfl, rfl, fun _ => rfl⟩
    | cons p ps =>
      have hS : S b.data = true := by
        rcases hstop with hstop | hstop
        · exact hstop
        · rw [heof hstop] at hp
          cases hp
      rw [stopAt_cons, if_pos hS]
      refine ⟨rfl, rfl, ?_⟩
      intro h
      rw [heof h] at hp
      cases hp
  | pull hS hnot hrest ih =>
    rename_i b b'
    have hconn : b.pull.conn.pieces = b.conn.pieces.tail := rfl
    have hdata : b.pull.data = b.data ++ b.conn.pieces.headD [] := rfl
    have hpull : b.pull.eof = b.conn.pieces.isEmpty := rfl
    have hrun := ih (by
      rw [hpull, hconn, List.isEmpty_iff]
      intro h
      rw [h]
      rfl)
    rw [hconn, hdata] at hrun
    cases hp : b.conn.pieces with
    | nil =>
      rw [hp, List.headD_nil, List.append_nil] at hrun
      exact hrun
    | cons p ps =>
      rw [hp] at hrun
      rw [stopAt_cons, if_neg (by rw [hS]; exact Bool.false_ne_true)]
      exact hrun

/-! ## The sequences as functions of the bytes -/

/-- The sequence from what a path took at `(d, cs)`: the answer and where it stopped. -/
def takeAnswer (a : HttpRequest × List Int) (cs : List (List Int))
    (more : List Int → List (List Int) → List Answered) : List Answered :=
  if a.1.ended then []
  else if a.1.goesOn then ⟨a.1, a.2 ++ cs.flatten⟩ :: more a.2 cs
  else [⟨a.1, a.2 ++ cs.flatten⟩]

def readSeq (lim : HttpLimits) : Nat → List Int → List (List Int) → List Answered
  | 0, _, _ => []
  | k + 1, d, cs =>
    let p := stopAt (settledOf lim) d cs
    takeAnswer (answerOf lim p.1) p.2 (readSeq lim k)

def loopSeq (lim : HttpLimits) : Nat → List Int → List (List Int) → List Answered
  | 0, _, _ => []
  | k + 1, d, cs =>
    let q := stopAt (skimOf lim) d cs
    if skimOf lim q.1 then takeAnswer (answerOf lim q.1) q.2 (loopSeq lim k) else []

theorem readRequests_run {k : Nat} {b : HsBuf Cuts} (w : World ρ)
    (heof : b.eof = true → b.conn.pieces = []) :
    readRequests lim k b w = some (readSeq lim k b.data b.conn.pieces, w) := by
  induction k generalizing b with
  | zero => rfl
  | succ k ih =>
    obtain ⟨b', hb'⟩ := Until.exists (settledOf lim) b
    obtain ⟨hdata, hpieces, heof'⟩ := hb'.stopAt heof
    rw [readRequests, bind_run (hsReadRequest_run w hb'), readSeq, takeAnswer, ← hdata, ← hpieces]
    by_cases hend : (answerOf lim b'.data).1.ended = true
    · rw [if_pos hend, if_pos hend]
      rfl
    rw [if_neg hend, if_neg hend]
    by_cases hon : (answerOf lim b'.data).1.goesOn = true
    · simp only
      rw [if_pos hon, if_pos hon]
      exact bind_run (ih heof')
    · simp only
      rw [if_neg hon, if_neg hon]
      rfl

/-- Reading a framed request out of memory. -/
theorem hsReadRequest_mem (lim : HttpLimits) (inb : List Int) (w : World ρ) :
    ∃ rq : HsReq HsMem, hsReadRequest ⟨⟨false⟩, inb, false⟩ lim w = some (rq, w) ∧
      (if rq.rest.conn.starved && rq.req.ok then hsReject 400 else rq.req) =
        (answerOf lim inb).1 ∧ rq.rest.data = (answerOf lim inb).2 := by
  by_cases hs : settledOf lim inb = true
  · have hrun : Until (settledOf lim) (⟨⟨false⟩, inb, false⟩ : HsBuf HsMem) ⟨⟨false⟩, inb, false⟩ :=
      .stop (.inl hs)
    exact ⟨_, hsReadRequest_run w hrun, rfl, rfl⟩
  · -- the one fill that finds nothing marks the buffer as starved
    have hpull : (⟨⟨false⟩, inb, false⟩ : HsBuf HsMem).pull = ⟨⟨true⟩, inb, true⟩ := by
      rw [HsBuf.pull, show (Pieces.pieces _).headD [] = ([] : List Int) from rfl, List.append_nil]
      rfl
    have hrun : Until (settledOf lim) (⟨⟨false⟩, inb, false⟩ : HsBuf HsMem) ⟨⟨true⟩, inb, true⟩ := by
      refine .pull (Bool.eq_false_iff.2 hs) rfl ?_
      rw [hpull]
      exact .stop (.inr rfl)
    refine ⟨_, hsReadRequest_run w hrun, ?_, rfl⟩
    have hok : (answerOf lim inb).1.ok = false := by
      rw [answerOf]
      cases hr : requestOf lim inb with
      | none => rfl
      | some f =>
        cases f with
        | short edge left => rfl
        | whole r left =>
          rw [settledOf, hr] at hs
          exact absurd rfl hs
    simp only [hok, Bool.and_false]
    rfl

theorem loopRequest_run {b x : List Int} {f : HsFrame} (hf : Kept lim b f) (cs : List (List Int))
    (w : World ρ) : ∃ o, loopRequest lim (b ++ x) f cs w = some (o, w) ∧
      (skimOf lim (stopAt (skimOf lim) (b ++ x) cs).1 = true →
        ∃ rest : HsBuf HsMem, o = some (⟨(answerOf lim (stopAt (skimOf lim) (b ++ x) cs).1).1, rest⟩,
          (stopAt (skimOf lim) (b ++ x) cs).2) ∧
          rest.data = (answerOf lim (stopAt (skimOf lim) (b ++ x) cs).1).2) ∧
      (skimOf lim (stopAt (skimOf lim) (b ++ x) cs).1 = false → o = none) := by
  induction cs generalizing b x f with
  | nil =>
    obtain ⟨f', hrun, hready, -⟩ := hsFrame_more hf x
    have hlift : (StateT.lift (hsFrame (b ++ x) f lim) : Eff ρ HsFrame) w = some (f', w) := by
      rw [hrun]
      rfl
    rw [loopRequest, bind_run hlift, hready, stopAt]
    by_cases hskim : skimOf lim (b ++ x) = true
    · obtain ⟨rq, hrq, hreq, hrest⟩ := hsReadRequest_mem lim (b ++ x) w
      rw [if_pos hskim, bind_run hrq]
      refine ⟨_, rfl, ?_, ?_⟩
      · intro _
        exact ⟨rq.rest, by rw [← hreq], hrest⟩
      · intro h
        rw [hskim] at h
        cases h
    · rw [if_neg hskim]
      exact ⟨none, rfl, fun h => absurd h hskim, fun _ => rfl⟩
  | cons c cs ih =>
    obtain ⟨f', hrun, hready, hkept⟩ := hsFrame_more hf x
    have hlift : (StateT.lift (hsFrame (b ++ x) f lim) : Eff ρ HsFrame) w = some (f', w) := by
      rw [hrun]
      rfl
    rw [loopRequest, bind_run hlift, hready, stopAt]
    by_cases hskim : skimOf lim (b ++ x) = true
    · obtain ⟨rq, hrq, hreq, hrest⟩ := hsReadRequest_mem lim (b ++ x) w
      rw [if_pos hskim, if_pos hskim, bind_run hrq]
      refine ⟨_, rfl, ?_, ?_⟩
      · intro _
        exact ⟨rq.rest, by rw [← hreq], hrest⟩
      · intro h
        rw [hskim] at h
        cases h
    · rw [if_neg hskim, if_neg hskim]
      exact ih (hkept (hready.trans (Bool.eq_false_iff.2 hskim)))

theorem loopRequests_run {k : Nat} (w : World ρ) :
    loopRequests lim k d cs w = some (loopSeq lim k d cs, w) := by
  induction k generalizing d cs with
  | zero => rfl
  | succ k ih =>
    obtain ⟨o, hrun, hsome, hnone⟩ := loopRequest_run (kept_new lim) (x := d) cs w
    rw [List.nil_append] at hrun hsome hnone
    rw [loopRequests, bind_run hrun, loopSeq]
    by_cases hskim : skimOf lim (stopAt (skimOf lim) d cs).1 = true
    · obtain ⟨rest, rfl, hrest⟩ := hsome hskim
      simp only
      rw [if_pos hskim, takeAnswer]
      split_ifs with hend hon
      · rfl
      · rw [hrest]
        exact bind_run ih
      · rw [hrest]
        rfl
    · rw [hnone (Bool.eq_false_iff.2 hskim), if_neg hskim]
      rfl

end Http

end

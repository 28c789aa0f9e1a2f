import Resid.Http.EventLoop

/-!
# The event loop answers in order and sends every byte once

What holds of a connection over the plain session after any rounds of the loop, whatever
arrived, whatever room the socket had and whatever the poll said.

    Inv before hsEvOne → Inv after                                            (hsEvOne_inv)
    Inv before a run → Inv after                                              (hsEvRun_inv)

## Algorithm

The invariant keeps the requests taken so far, each with the last step its stream has made:
what was sent and what is pending together are the transcript of their replies.  Every
function appends to the transcript what it queues, moves bytes from pending to sent, or
leaves both alone.
-/

namespace Http

open Runtime Net

variable {κ : Type} {lim : HttpLimits} {handler : HttpRequest → HttpOut κ}

/-! ## What an action adds -/

theorem receivedOf_append (as bs : List (Act HttpRequest)) :
    receivedOf (as ++ bs) = receivedOf as ++ receivedOf bs := List.flatMap_append

theorem sentOf_append (as bs : List (Act HttpRequest)) :
    sentOf (as ++ bs) = sentOf as ++ sentOf bs := List.flatMap_append

theorem askedOf_append (as bs : List (Act HttpRequest)) :
    askedOf (as ++ bs) = askedOf as ++ askedOf bs := List.filterMap_append

/-- An action that neither receives, sends nor asks. -/
def Quiet (a : Act HttpRequest) : Prop :=
  receivedOf [a] = [] ∧ sentOf [a] = [] ∧ askedOf [a] = []

theorem quiet_deadline (ms : Int) : Quiet (.deadline ms) := ⟨rfl, rfl, rfl⟩

theorem quiet_shutdown : Quiet .shutdown := ⟨rfl, rfl, rfl⟩

/-! ## The plain session -/

theorem hsEvReply_plain (c : HsConn PlainSess κ) (rest wire : List Int) (keep : Bool)
    (w : World HttpRequest) :
    hsEvReply c rest wire keep lim w =
      some (hsConnLive c c.sess rest (c.pending ++ wire) (if keep then .replying else .last)
        (c.served + 1) none, { w with acts := w.acts ++ [.deadline lim.replyMs] }) := by
  cases keep with
  | true =>
    show some (hsConnLive c c.sess rest (c.pending ++ wire ++ []) .replying _ none, _) = _
    rw [List.append_nil]
    rfl
  | false =>
    show some (hsConnLive c c.sess rest (c.pending ++ wire ++ []) .last _ none, _) = _
    rw [List.append_nil]
    rfl

/-- The phase after a step of a stream. -/
def phaseAfter (lv : HsLive κ) (st : HttpStep κ) : HsPhase :=
  if st.done then (if lv.keep then .replying else .last) else .streaming

def liveAfter (lv : HsLive κ) (st : HttpStep κ) : Option (HsLive κ) :=
  if st.done then none else some ⟨st.state, lv.next, st.waitMs, lv.chunked, lv.keep⟩

theorem hsEvEmit_plain (c : HsConn PlainSess κ) (lv : HsLive κ) (st : HttpStep κ)
    (lead : List Int) (w : World HttpRequest) :
    ∃ ms, hsEvEmit c lv st lead lim w =
      some (hsConnLive c c.sess c.inb (c.pending ++ (lead ++ hsStepBytes st lv.chunked))
        (phaseAfter lv st) c.served (liveAfter lv st),
        { w with acts := w.acts ++ [.deadline ms] }) := by
  have hout : ∀ w : World HttpRequest,
      (if (lead ++ hsStepBytes st lv.chunked).length > 0 then
        sessOutput c.sess (lead ++ hsStepBytes st lv.chunked)
      else pure ⟨c.sess, []⟩ : Eff HttpRequest (SessOut PlainSess)) w =
        some (⟨c.sess, lead ++ hsStepBytes st lv.chunked⟩, w) := by
    intro w
    by_cases hpos : (lead ++ hsStepBytes st lv.chunked).length > 0
    · rw [if_pos hpos]
      rfl
    · have hnil : lead ++ hsStepBytes st lv.chunked = [] :=
        List.length_eq_zero_iff.1 (by omega)
      rw [if_neg hpos, hnil]
      rfl
  rw [hsEvEmit]
  simp only
  rw [bind_run (hout w)]
  unfold phaseAfter liveAfter
  by_cases hdone : st.done = true
  · refine ⟨lim.replyMs, ?_⟩
    rw [if_pos hdone, if_pos hdone, if_pos hdone]
    have hbye : (if lv.keep = true then pure [] else sessGoodbye c.sess :
        Eff HttpRequest (List Int)) w = some ([], w) := by
      split_ifs <;> rfl
    rw [bind_run hbye]
    simp only [List.append_nil]
    rfl
  · rw [if_neg hdone, if_neg hdone, if_neg hdone]
    exact ⟨_, rfl⟩

/-! ## The invariant -/

/-- What holds besides of a connection in each phase: `xs` are the requests taken, each with
its stream's last step, and `left` the bytes behind them. -/
def PhaseOk (lim : HttpLimits) (handler : HttpRequest → HttpOut κ) (c : HsConn PlainSess κ)
    (xs : List (HttpRequest × Nat)) (left : List Int) : Prop :=
  match c.phase with
  | .reading =>
    c.pending = [] ∧ AllOver lim handler xs ∧ left = c.inb ∧ Kept lim c.inb c.frame
  | .replying => AllOver lim handler xs ∧ left = c.inb
  | .last => AllOver lim handler xs.dropLast
  | .draining => AllOver lim handler xs.dropLast ∧ c.outb = []
  | .closing => AllOver lim handler xs.dropLast
  | .streaming =>
    ∃ init r n s chunked keep, xs = init ++ [(r, n)] ∧ AllOver lim handler init ∧
      replyTo lim handler init.length r = .stream s chunked keep ∧
      (∀ j ≤ n, (s.step j).done = false) ∧
      c.live = some ⟨(s.step n).state, s.next, (s.step n).waitMs, chunked, keep⟩ ∧ left = c.inb

structure Inv (lim : HttpLimits) (handler : HttpRequest → HttpOut κ) (c : HsConn PlainSess κ)
    (acts : List (Act HttpRequest)) (xs : List (HttpRequest × Nat)) (left : List Int) : Prop where
  frames : Frames lim (receivedOf acts) (xs.map Prod.fst) left
  asked : askedOf acts = (xs.map Prod.fst).filter fun r => r.ok
  sent : sentOf acts ++ c.pending = transcript lim handler xs
  served : c.served = xs.length
  peer : c.peerDone = false
  fresh : c.phase ≠ .reading → c.frame = hsFrameNew ∨ c.phase = .closing ∨ c.phase = .draining
  phase : PhaseOk lim handler c xs left
  heard : c.phase = .reading → receivedOf acts ≠ [] → skimOf lim left = false

/-- Some requests taken from what was received explain all that the connection did. -/
def Explained (lim : HttpLimits) (handler : HttpRequest → HttpOut κ) (c : HsConn PlainSess κ)
    (acts : List (Act HttpRequest)) : Prop :=
  ∃ xs left, Inv lim handler c acts xs left

variable {xs : List (HttpRequest × Nat)} {c : HsConn PlainSess κ} {acts : List (Act HttpRequest)}
  {left : List Int} {r : HttpRequest} {w : World HttpRequest}

theorem AllOver.dropLast (h : AllOver lim handler xs) : AllOver lim handler xs.dropLast := by
  intro j x hx
  rw [List.getElem?_dropLast] at hx
  split_ifs at hx
  exact h j x hx

/-- Whatever the phase, every reply but the last is over and was read on after. -/
theorem Inv.earlier (h : Inv lim handler c acts xs left) : AllOver lim handler xs.dropLast := by
  have hphase := h.phase
  unfold PhaseOk at hphase
  split at hphase
  · exact hphase.2.1.dropLast
  · exact hphase.1.dropLast
  · exact hphase
  · exact hphase.1
  · exact hphase
  · obtain ⟨init, r, n, s, chunked, keep, rfl, hinit, -⟩ := hphase
    rw [List.dropLast_concat]
    exact hinit

/-- Giving up changes nothing that was done. -/
theorem Inv.close (h : Inv lim handler c acts xs left) :
    Explained lim handler (hsConnPhase c .closing) acts :=
  ⟨xs, left, h.frames, h.asked, h.sent, h.served, h.peer, fun _ => .inr (.inl rfl), h.earlier,
    fun h => by cases h⟩

/-- Whether a reply leads to reading on is what the reply says. -/
theorem phase_of_keep {n : Nat} {rest : List Int} (keep : Bool) (hall : AllOver lim handler xs)
    (hover : (replyTo lim handler xs.length r).Over n)
    (hkeep : (replyTo lim handler xs.length r).keeps = keep)
    (hphase : c.phase = if keep then .replying else .last) (hinb : c.inb = rest) :
    PhaseOk lim handler c (xs ++ [(r, n)]) rest := by
  unfold PhaseOk
  rw [hphase]
  cases keep with
  | true => exact ⟨hall.snoc hover hkeep, hinb.symm⟩
  | false =>
    show AllOver lim handler (xs ++ [(r, n)]).dropLast
    rw [List.dropLast_concat]
    exact hall

/-! ## Answering -/

theorem streamBytes_succ (s : HttpStream κ) (chunked keep : Bool) (n : Nat) :
    (Reply.stream s chunked keep).bytes n =
      hsStreamHead s chunked keep ++
        ((List.range n).flatMap fun j => hsStepBytes (s.step j) chunked) ++
        hsStepBytes (s.step n) chunked := by
  rw [Reply.bytes, List.range_succ, List.flatMap_append, List.flatMap_singleton,
    List.append_assoc]

/-- Step `m` of a stream is queued behind what the stream sent before it. -/
theorem hsEvEmit_inv (init : List (HttpRequest × Nat)) (m : Nat) {s : HttpStream κ}
    {chunked keep : Bool} {lv : HsLive κ} {lead : List Int} (hall : AllOver lim handler init)
    (hreply : replyTo lim handler init.length r = .stream s chunked keep)
    (hopen : ∀ j < m, (s.step j).done = false)
    (hlv : lv.next = s.next ∧ lv.chunked = chunked ∧ lv.keep = keep)
    (hframes : Frames lim (receivedOf w.acts) (init.map Prod.fst ++ [r]) c.inb)
    (hasked : askedOf w.acts = (init.map Prod.fst ++ [r]).filter fun r => r.ok)
    (hsent : sentOf w.acts ++ c.pending ++ lead = transcript lim handler init ++
      (hsStreamHead s chunked keep ++
        (List.range m).flatMap fun j => hsStepBytes (s.step j) chunked))
    (hserved : c.served = init.length + 1) (hpeer : c.peerDone = false) :
    ∃ c' w', hsEvEmit c lv (s.step m) lead lim w = some (c', w') ∧
      Explained lim handler c' w'.acts := by
  obtain ⟨ms, hrun⟩ := @hsEvEmit_plain κ lim c lv (s.step m) lead w
  refine ⟨_, _, hrun, init ++ [(r, m)], c.inb, ?_⟩
  obtain ⟨hnext, hchunked, hkeep⟩ := hlv
  constructor
  · rw [receivedOf_append, (quiet_deadline ms).1, List.append_nil, List.map_append]
    exact hframes
  · rw [askedOf_append, (quiet_deadline ms).2.2, List.append_nil, List.map_append]
    exact hasked
  · rw [sentOf_append, (quiet_deadline ms).2.1, List.append_nil, transcript_snoc, hreply,
      streamBytes_succ]
    show sentOf w.acts ++ (c.pending ++ (lead ++ hsStepBytes (s.step m) lv.chunked)) =
      transcript lim handler init ++ (hsStreamHead s chunked keep ++ _ ++ _)
    rw [hchunked, ← List.append_assoc (transcript lim handler init), ← hsent]
    simp only [List.append_assoc]
  · show c.served = _
    rw [hserved, List.length_append]
    rfl
  · exact hpeer
  · intro _
    exact .inl rfl
  · by_cases hdone : (s.step m).done = true
    · -- the stream ends with this step
      apply phase_of_keep keep hall
      · rw [hreply]
        exact ⟨hdone, hopen⟩
      · rw [hreply]
        rfl
      · show phaseAfter lv (s.step m) = _
        rw [phaseAfter, if_pos hdone, hkeep]
      · rfl
    · have hphase : phaseAfter lv (s.step m) = .streaming := if_neg hdone
      have hlive : liveAfter lv (s.step m) =
          some ⟨(s.step m).state, s.next, (s.step m).waitMs, chunked, keep⟩ := by
        rw [liveAfter, if_neg hdone, hnext, hchunked, hkeep]
      unfold PhaseOk
      simp only [hsConnLive, hphase]
      refine ⟨init, r, m, s, chunked, keep, rfl, hall, hreply, ?_, hlive, trivial⟩
      intro j hj
      rcases Nat.lt_or_eq_of_le hj with hlt | rfl
      · exact hopen j hlt
      · exact Bool.eq_false_iff.2 hdone
  · intro h
    exfalso
    have h' : phaseAfter lv (s.step m) = .reading := h
    rw [phaseAfter] at h'
    split_ifs at h'

/-- A connection whose input may hold its next request. -/
structure Waiting (lim : HttpLimits) (handler : HttpRequest → HttpOut κ)
    (c : HsConn PlainSess κ) (acts : List (Act HttpRequest)) (xs : List (HttpRequest × Nat)) :
    Prop where
  frames : Frames lim (receivedOf acts) (xs.map Prod.fst) c.inb
  asked : askedOf acts = (xs.map Prod.fst).filter fun r => r.ok
  sent : sentOf acts = transcript lim handler xs
  pending : c.pending = []
  served : c.served = xs.length
  peer : c.peerDone = false
  all_over : AllOver lim handler xs
  kept : ∃ b x, c.inb = b ++ x ∧ Kept lim b c.frame

/-- A whole reply to the request at the front of the input. -/
theorem hsEvReply_inv {rest wire : List Int} {keep : Bool} (hover : AllOver lim handler xs)
    (hreply : replyTo lim handler xs.length r = .whole wire keep)
    (hframes : Frames lim (receivedOf w.acts) (xs.map Prod.fst ++ [r]) rest)
    (hasked : askedOf w.acts = (xs.map Prod.fst ++ [r]).filter fun r => r.ok)
    (hsent : sentOf w.acts = transcript lim handler xs) (hpending : c.pending = [])
    (hserved : c.served = xs.length) (hpeer : c.peerDone = false) :
    ∃ c' w', hsEvReply c rest wire keep lim w = some (c', w') ∧
      Explained lim handler c' w'.acts := by
  refine ⟨_, _, hsEvReply_plain c rest wire keep w, xs ++ [(r, 0)], rest, ?_⟩
  constructor
  · rw [receivedOf_append, (quiet_deadline _).1, List.append_nil, List.map_append]
    exact hframes
  · rw [askedOf_append, (quiet_deadline _).2.2, List.append_nil, List.map_append]
    exact hasked
  · rw [sentOf_append, (quiet_deadline _).2.1, List.append_nil, transcript_snoc, hreply, hsent]
    show _ ++ (c.pending ++ wire) = _
    rw [hpending, List.nil_append]
    rfl
  · show c.served + 1 = _
    rw [hserved, List.length_append]
    rfl
  · exact hpeer
  · intro _
    exact .inl rfl
  · apply phase_of_keep keep hover
    · rw [hreply]
      exact True.intro
    · rw [hreply]
      rfl
    · rfl
    · rfl
  · intro h
    exfalso
    have h' : (if keep = true then HsPhase.replying else .last) = .reading := h
    split_ifs at h'

theorem askHandler_run (handler : HttpRequest → HttpOut κ) (r : HttpRequest)
    (w : World HttpRequest) :
    askHandler handler r w = some (handler r, { w with acts := w.acts ++ [.asked r] }) := rfl

/-- The next request is answered, or waited for. -/
theorem hsEvAnswer_inv (h : Waiting lim handler c w.acts xs) (hphase : c.phase = .reading) :
    ∃ c' w', hsEvAnswer c handler lim w = some (c', w') ∧ Explained lim handler c' w'.acts := by
  obtain ⟨b, x, hinb, hkept⟩ := h.kept
  obtain ⟨f, hrun, hready, hmore⟩ := hsFrame_more hkept x
  rw [← hinb] at hrun hready hmore
  have hlift : (StateT.lift (hsFrame c.inb c.frame lim) : Eff HttpRequest HsFrame) w =
      some (f, w) := by
    rw [hrun]
    rfl
  rw [hsEvAnswer, if_neg (by rw [hphase]; decide), bind_run hlift]
  by_cases hskim : skimOf lim c.inb = true
  · rw [if_neg (by rw [hready, hskim]; decide)]
    obtain ⟨rq, hrq, hreq, hrest⟩ := hsReadRequest_mem lim c.inb w
    rw [bind_run hrq, hreq]
    rcases ha : answerOf lim c.inb with ⟨r, left⟩
    rw [ha] at hrest
    have hframes : Frames lim (receivedOf w.acts) (xs.map Prod.fst ++ [r]) left :=
      h.frames.take hskim ha
    simp only
    rw [hrest]
    by_cases hended : (!r.ok && r.status == 0) = true
    · rw [if_pos hended]
      refine ⟨_, _, rfl, xs, c.inb, h.frames, h.asked, ?_, h.served, h.peer,
        fun _ => .inr (.inl rfl), h.all_over.dropLast, fun h => by cases h⟩
      show sentOf w.acts ++ c.pending = _
      rw [h.pending, List.append_nil, h.sent]
    rw [if_neg hended]
    by_cases hok : (!r.ok) = true
    · rw [if_pos hok]
      apply hsEvReply_inv h.all_over _ hframes _ h.sent h.pending h.served h.peer
      · rw [replyTo, if_pos hok]
      · rw [List.filter_append, h.asked]
        have hnil : [r].filter (fun r => r.ok) = [] := by
          rw [List.filter_singleton, show r.ok = false by simpa using hok]
          rfl
        rw [hnil, List.append_nil]
    rw [if_neg hok, bind_run (askHandler_run handler r w)]
    have hreceived : receivedOf (w.acts ++ [.asked r]) = receivedOf w.acts := by
      rw [receivedOf_append]
      exact List.append_nil _
    have hsent : sentOf (w.acts ++ [.asked r]) = transcript lim handler xs := by
      rw [sentOf_append, h.sent]
      exact List.append_nil _
    have hasked : askedOf (w.acts ++ [.asked r]) =
        (xs.map Prod.fst ++ [r]).filter fun r => r.ok := by
      rw [askedOf_append, h.asked, List.filter_append]
      congr 1
      rw [List.filter_singleton, show r.ok = true by simpa using hok]
      rfl
    rw [← hreceived] at hframes
    have hkeep : (r.keepAlive && !c.peerDone && decide ((c.served : Int) + 1 < lim.requestsMax)) =
        (r.keepAlive && decide ((xs.length : Int) + 1 < lim.requestsMax)) := by
      rw [h.peer, h.served, Bool.not_false, Bool.and_true]
    rw [hkeep]
    cases hout : handler r with
    | whole reply =>
      apply hsEvReply_inv h.all_over _ hframes hasked hsent h.pending h.served h.peer
      rw [replyTo, if_neg hok, hout]
    | stream s =>
      simp only
      by_cases hhead : (r.method == "HEAD".toList) = true
      · rw [if_pos hhead]
        apply hsEvReply_inv h.all_over _ hframes hasked hsent h.pending h.served h.peer
        rw [replyTo, if_neg hok, hout]
        simp only
        rw [if_pos hhead]
      · rw [if_neg hhead]
        apply hsEvEmit_inv xs 0 h.all_over
        · rw [replyTo, if_neg hok, hout]
          simp only
          rw [if_neg hhead]
        · intro j hj
          omega
        · exact ⟨rfl, rfl, rfl⟩
        · exact hframes
        · exact hasked
        · show sentOf (w.acts ++ [.asked r]) ++ c.pending ++ _ = _
          rw [hsent, h.pending, List.append_nil]
          exact congrArg _ (List.append_nil _).symm
        · show c.served + 1 = _
          rw [h.served]
        · exact h.peer
  · rw [if_pos (by rw [hready, Bool.eq_false_iff.2 hskim]; rfl), h.peer]
    have hkept' := hmore (hready.trans (Bool.eq_false_iff.2 hskim))
    refine ⟨_, _, rfl, xs, c.inb, h.frames, h.asked, ?_, h.served, rfl, ?_, ?_, ?_⟩
    · show sentOf w.acts ++ c.pending = _
      rw [h.pending, List.append_nil, h.sent]
    · intro hne
      exact absurd rfl hne
    · exact ⟨h.pending, h.all_over, rfl, hkept'⟩
    · intro _ _
      exact Bool.eq_false_iff.2 hskim

/-! ## One step -/

/-- A stream with nothing left to send makes its next step. -/
theorem hsEvTick_inv (h : Inv lim handler c w.acts xs left) (hphase : c.phase = .streaming) :
    ∃ c' w', hsEvTick c lim w = some (c', w') ∧ Explained lim handler c' w'.acts := by
  have hok := h.phase
  unfold PhaseOk at hok
  rw [hphase] at hok
  obtain ⟨init, r, n, s, chunked, keep, rfl, hinit, hreply, hopen, hlive, rfl⟩ := hok
  have hframes := h.frames
  have hasked := h.asked
  have hserved := h.served
  rw [List.map_append] at hframes hasked
  rw [List.length_append] at hserved
  rw [hsEvTick, hlive]
  apply hsEvEmit_inv init (n + 1) hinit hreply
  · intro j hj
    exact hopen j (by omega)
  · exact ⟨rfl, rfl, rfl⟩
  · exact hframes
  · exact hasked
  · rw [h.sent, transcript_snoc, hreply, List.append_nil]
    rfl
  · exact hserved
  · exact h.peer

/-- The input as it is looked at again once a reply is out. -/
theorem Inv.waiting {c' : HsConn PlainSess κ} {acts' : List (Act HttpRequest)}
    (h : Inv lim handler c acts xs left) (hphase : c.phase = .replying)
    (hacts : receivedOf acts' = receivedOf acts ∧
      askedOf acts' = askedOf acts ∧ sentOf acts' = transcript lim handler xs)
    (hc : c'.inb = c.inb ∧ c'.frame = c.frame ∧ c'.pending = [] ∧ c'.served = c.served ∧
      c'.peerDone = c.peerDone) :
    Waiting lim handler c' acts' xs := by
  have hok := h.phase
  unfold PhaseOk at hok
  rw [hphase] at hok
  obtain ⟨hall, rfl⟩ := hok
  obtain ⟨h1, h2, h3⟩ := hacts
  obtain ⟨hinb, hframe, hpending, hserved, hpeer⟩ := hc
  have hfresh : c.frame = hsFrameNew := by
    rcases h.fresh (by rw [hphase]; decide) with hnew | hnew | hnew
    · exact hnew
    · rw [hphase] at hnew
      cases hnew
    · rw [hphase] at hnew
      cases hnew
  constructor
  · rw [h1, hinb]
    exact h.frames
  · rw [h2]
    exact h.asked
  · exact h3
  · exact hpending
  · rw [hserved]
    exact h.served
  · rw [hpeer]
    exact h.peer
  · exact hall
  · refine ⟨[], c'.inb, rfl, ?_⟩
    rw [hframe, hfresh]
    exact kept_new lim

/-- What a send takes of the bytes it is given; an error takes nothing. -/
def tookOf (room : Int) (b : List Int) : List Int := b.take room.toNat

theorem tcpSendSome_run (b : List Int) (w : World HttpRequest) :
    tcpSendSome b w = some (if w.rooms.headD 0 < 0 then w.rooms.headD 0
        else ((tookOf (w.rooms.headD 0) b).length : Int),
      { w with rooms := w.rooms.tail, acts := w.acts ++ [.sent (tookOf (w.rooms.headD 0) b)] }) :=
  rfl

/-- What a send takes is the front of what is pending. -/
theorem tookOf_pending (c : HsConn PlainSess κ) (room : Int) (k : Nat) :
    tookOf room ((c.outb.take (c.outAt + k)).drop c.outAt) ++ c.outb.drop
      (c.outAt + (tookOf room ((c.outb.take (c.outAt + k)).drop c.outAt)).length) = c.pending := by
  have hfront : (c.outb.take (c.outAt + k)).drop c.outAt = c.pending.take k := by
    rw [List.drop_take, Nat.add_sub_cancel_left]
    rfl
  rw [tookOf, hfront, List.take_take, ← List.drop_drop]
  show c.pending.take _ ++ c.pending.drop _ = c.pending
  rw [List.length_take]
  rcases Nat.le_total (min room.toNat k) c.pending.length with hle | hle
  · rw [Nat.min_eq_left hle, List.take_append_drop]
  · rw [Nat.min_eq_right hle, List.take_of_length_le hle, List.drop_length, List.append_nil]

/-- The same connection, more of its bytes sent. -/
theorem Inv.sentMore {c' : HsConn PlainSess κ} {acts' : List (Act HttpRequest)}
    (h : Inv lim handler c acts xs left) (hread : c.phase ≠ .reading)
    (hdrain : c.phase ≠ .draining)
    (hacts : receivedOf acts' = receivedOf acts ∧ askedOf acts' = askedOf acts ∧
      sentOf acts' ++ c'.pending = sentOf acts ++ c.pending)
    (hc : c'.inb = c.inb ∧ c'.frame = c.frame ∧ c'.served = c.served ∧
      c'.peerDone = c.peerDone ∧ c'.phase = c.phase ∧ c'.live = c.live) :
    Explained lim handler c' acts' := by
  obtain ⟨h1, h2, h3⟩ := hacts
  obtain ⟨hinb, hframe, hserved, hpeer, hphase, hlive⟩ := hc
  refine ⟨xs, left, ?_, ?_, ?_, ?_, ?_, ?_, ?_, ?_⟩
  · rw [h1]
    exact h.frames
  · rw [h2]
    exact h.asked
  · rw [h3]
    exact h.sent
  · rw [hserved]
    exact h.served
  · rw [hpeer]
    exact h.peer
  · rw [hphase, hframe]
    exact h.fresh
  · have hok := h.phase
    unfold PhaseOk at hok ⊢
    rw [hphase, hinb, hlive]
    cases hp : c.phase with
    | reading => exact absurd hp hread
    | draining => exact absurd hp hdrain
    | replying => rw [hp] at hok; exact hok
    | last => rw [hp] at hok; exact hok
    | closing => rw [hp] at hok; exact hok
    | streaming => rw [hp] at hok; exact hok
  · intro hp
    rw [hphase] at hp
    exact absurd hp hread

/-- A connection with bytes to send is neither reading nor draining. -/
theorem Inv.busy (h : Inv lim handler c acts xs left) (hout : c.outb.length > c.outAt) :
    c.phase ≠ .reading ∧ c.phase ≠ .draining := by
  have hok := h.phase
  unfold PhaseOk at hok
  constructor
  · intro hp
    rw [hp] at hok
    have hle := List.drop_eq_nil_iff.1 hok.1
    omega
  · intro hp
    rw [hp] at hok
    rw [hok.2, List.length_nil] at hout
    omega

/-- Bytes move from pending to sent. -/
theorem hsEvWrite_inv (h : Inv lim handler c w.acts xs left) (hout : c.outb.length > c.outAt) :
    ∃ c' w', hsEvWrite c handler lim w = some (c', w') ∧ Explained lim handler c' w'.acts := by
  obtain ⟨hread, hdrain⟩ := h.busy hout
  rw [hsEvWrite]
  simp only
  rw [bind_run (tcpSendSome_run _ w)]
  generalize hk : (if c.outb.length - c.outAt > 262144 then 262144 else c.outb.length - c.outAt) = k
  have htook := tookOf_pending c (w.rooms.headD 0) k
  generalize hb : tookOf (w.rooms.headD 0) ((c.outb.take (c.outAt + k)).drop c.outAt) = took
  rw [hb] at htook
  have hreceived : receivedOf (w.acts ++ [.sent took]) = receivedOf w.acts := by
    rw [receivedOf_append]
    exact List.append_nil _
  have hasked : askedOf (w.acts ++ [.sent took]) = askedOf w.acts := by
    rw [askedOf_append]
    exact List.append_nil _
  have hsent : sentOf (w.acts ++ [.sent took]) ++ c.outb.drop (c.outAt + took.length) =
      sentOf w.acts ++ c.pending := by
    rw [sentOf_append, List.append_assoc, ← htook]
    exact congrArg _ (congrArg (· ++ _) (List.append_nil _))
  by_cases hroom : w.rooms.headD 0 < 0
  · -- an error: nothing was taken
    have hnil : took = [] := by
      rw [← hb, tookOf, Int.toNat_of_nonpos (by omega)]
      rfl
    rw [if_pos hroom, if_pos hroom]
    subst hnil
    refine ⟨_, _, rfl, xs, left, ?_, ?_, ?_, h.served, h.peer, fun _ => .inr (.inl rfl),
      h.earlier, fun h => by cases h⟩
    · show Frames lim (receivedOf (w.acts ++ [.sent []])) _ _
      rw [hreceived]
      exact h.frames
    · show askedOf (w.acts ++ [.sent []]) = _
      rw [hasked]
      exact h.asked
    · rw [← h.sent, ← hsent]
      rfl
  rw [if_neg hroom, if_neg (by omega), Int.toNat_natCast]
  by_cases hmore : c.outAt + took.length < c.outb.length
  · rw [if_pos hmore]
    exact ⟨_, _, rfl, h.sentMore hread hdrain ⟨hreceived, hasked, hsent⟩
      ⟨rfl, rfl, rfl, rfl, rfl, rfl⟩⟩
  rw [if_neg hmore]
  have hall : sentOf (w.acts ++ [.sent took]) = transcript lim handler xs := by
    rw [← h.sent, ← hsent, List.drop_eq_nil_iff.2 (by omega), List.append_nil]
  have quiet : ∀ a, Quiet a → receivedOf (w.acts ++ [.sent took] ++ [a]) = receivedOf w.acts ∧
      askedOf (w.acts ++ [.sent took] ++ [a]) = askedOf w.acts ∧
      sentOf (w.acts ++ [.sent took] ++ [a]) = transcript lim handler xs := by
    rintro a ⟨h1, h2, h3⟩
    rw [receivedOf_append, askedOf_append, sentOf_append, h1, h2, h3, List.append_nil,
      List.append_nil, List.append_nil]
    exact ⟨hreceived, hasked, hall⟩
  by_cases hlast : c.phase = .last
  · rw [if_pos hlast]
    obtain ⟨h1, h2, h3⟩ := quiet _ quiet_shutdown
    refine ⟨_, _, rfl, xs, left, ?_, ?_, ?_, h.served, h.peer, fun _ => .inr (.inr rfl),
      ⟨h.earlier, rfl⟩, fun h => by cases h⟩
    · have hframes := h.frames
      rw [← h1] at hframes
      exact hframes
    · exact h2.trans h.asked
    · exact (List.append_nil _).trans h3
  by_cases hreplying : c.phase = .replying
  · rw [if_neg hlast, if_pos hreplying]
    have hset : tcpDeadline lim.requestMs
        { w with rooms := w.rooms.tail, acts := w.acts ++ [.sent took] } =
        some ((), { w with rooms := w.rooms.tail,
                           acts := w.acts ++ [.sent took] ++ [.deadline lim.requestMs] }) := rfl
    rw [bind_run hset]
    apply hsEvAnswer_inv
    · exact h.waiting hreplying (quiet _ (quiet_deadline _)) ⟨rfl, rfl, rfl, rfl, rfl⟩
    · rfl
  rw [if_neg hlast, if_neg hreplying]
  by_cases hstream : c.phase = .streaming
  · rw [if_pos hstream]
    have hdeadline := fun ms => quiet _ (quiet_deadline ms)
    refine ⟨_, _, rfl, h.sentMore hread hdrain ⟨(hdeadline _).1, (hdeadline _).2.1, ?_⟩
      ⟨rfl, rfl, rfl, rfl, rfl, rfl⟩⟩
    rw [h.sent]
    exact (List.append_nil _).trans (hdeadline _).2.2
  · rw [if_neg hstream]
    refine ⟨_, _, rfl, h.sentMore hread hdrain ⟨hreceived, hasked, ?_⟩
      ⟨rfl, rfl, rfl, rfl, rfl, rfl⟩⟩
    rw [h.sent]
    exact (List.append_nil _).trans hall

theorem tcpRecvSome_run (n : Nat) (w : World HttpRequest) :
    ∃ got w', tcpRecvSome n w = some (got, w') ∧ receivedOf w'.acts = receivedOf w.acts ++ got ∧
      askedOf w'.acts = askedOf w.acts ∧ sentOf w'.acts = sentOf w.acts := by
  rw [tcpRecvSome]
  cases w.arrivals with
  | nil => exact ⟨_, _, rfl, (List.append_nil _).symm, rfl, rfl⟩
  | cons p ps =>
    refine ⟨_, _, rfl, ?_, ?_, ?_⟩
    · rw [receivedOf_append]
      exact congrArg _ (List.append_nil _)
    · rw [askedOf_append]
      exact List.append_nil _
    · rw [sentOf_append]
      exact List.append_nil _

/-- What arrives is behind what was taken. -/
theorem hsEvRead_inv (conf : PlainCfg) (h : Inv lim handler c w.acts xs left)
    (hphase : c.phase = .reading ∨ c.phase = .draining ∨ c.phase = .streaming) :
    ∃ c' w', hsEvRead conf c handler lim w = some (c', w') ∧
      Explained lim handler c' w'.acts := by
  obtain ⟨got, w', hrun, h1, h2, h3⟩ := tcpRecvSome_run 65536 w
  rw [hsEvRead, bind_run hrun]
  have hframes : Frames lim (receivedOf w'.acts) (xs.map Prod.fst) (left ++ got) := by
    rw [h1]
    exact h.frames.arrive got
  have hasked := h2.trans h.asked
  have hsent : sentOf w'.acts ++ c.pending = transcript lim handler xs := by
    rw [h3]
    exact h.sent
  have hclose : ∀ c', c'.pending = c.pending → c'.served = c.served → c'.peerDone = c.peerDone →
      c'.phase = .closing → Explained lim handler c' w'.acts := by
    intro c' hpending hserved hpeer hp
    refine ⟨xs, left ++ got, hframes, hasked, ?_, hserved.trans h.served, hpeer.trans h.peer,
      fun _ => .inr (.inl hp), ?_, ?_⟩
    · rw [hpending]
      exact hsent
    · unfold PhaseOk
      rw [hp]
      exact h.earlier
    · intro hread
      rw [hp] at hread
      cases hread
  by_cases hnone : got.length = 0
  · rw [if_pos hnone]
    exact ⟨_, _, rfl, hclose _ rfl rfl rfl rfl⟩
  rw [if_neg hnone]
  by_cases hdrain : c.phase = .draining
  · rw [if_pos hdrain]
    refine ⟨_, _, rfl, xs, left ++ got, hframes, hasked, hsent, h.served, h.peer,
      fun _ => .inr (.inr hdrain), ?_, ?_⟩
    · have hok := h.phase
      unfold PhaseOk at hok ⊢
      rw [hdrain] at hok ⊢
      exact hok
    · intro hread
      rw [hdrain] at hread
      cases hread
  rw [if_neg hdrain]
  have hin : (sessInput conf c.sess got : Eff HttpRequest (SessIn PlainSess)) w' =
      some (⟨c.sess, got, [], 0⟩, w') := rfl
  rw [bind_run hin]
  simp only [List.append_nil]
  rw [if_neg (by decide)]
  by_cases hbig : ((c.inb ++ got).length : Int) > lim.headMax + lim.bodyMax + 65536
  · rw [if_pos hbig]
    exact ⟨_, _, rfl, hclose _ rfl rfl rfl rfl⟩
  rw [if_neg hbig]
  have hok := h.phase
  unfold PhaseOk at hok
  rcases hphase with hp | hp | hp
  · rw [hp] at hok
    obtain ⟨hpending, hall, rfl, hkept⟩ := hok
    apply hsEvAnswer_inv
    · refine ⟨hframes, hasked, ?_, hpending, h.served, ?_, hall, c.inb, got, rfl, hkept⟩
      · rw [hpending, List.append_nil] at hsent
        exact hsent
      · show (c.peerDone || _) = false
        rw [h.peer]
        rfl
    · exact hp
  · exact absurd hp hdrain
  · rw [hp] at hok
    obtain ⟨init, r, n, s, chunked, keep, rfl, hinit, hreply, hopen, hlive, rfl⟩ := hok
    have hfresh : c.frame = hsFrameNew := by
      rcases h.fresh (by rw [hp]; decide) with hnew | hnew | hnew
      · exact hnew
      · rw [hp] at hnew
        cases hnew
      · rw [hp] at hnew
        cases hnew
    rw [hsEvAnswer, if_pos (by show c.phase ≠ .reading; rw [hp]; decide)]
    refine ⟨_, _, rfl, init ++ [(r, n)], c.inb ++ got, hframes, hasked, hsent, h.served, ?_,
      fun _ => .inl hfresh, ?_, ?_⟩
    · show (c.peerDone || _) = false
      rw [h.peer]
      rfl
    · unfold PhaseOk
      simp only [hsConnSet, hp]
      exact ⟨init, r, n, s, chunked, keep, rfl, hinit, hreply, hopen, hlive, trivial⟩
    · intro hread
      have hread' : c.phase = .reading := hread
      rw [hp] at hread'
      cases hread'

/-- One connection against what the poll said of it, whatever that was. -/
theorem hsEvOne_inv (conf : PlainCfg) (ready : Nat) (h : Explained lim handler c w.acts) :
    ∃ c' w', hsEvOne conf c ready handler lim w = some (c', w') ∧
      Explained lim handler c' w'.acts := by
  have hclose : Explained lim handler (hsConnPhase c .closing) w.acts := by
    obtain ⟨xs, left, hinv⟩ := h
    exact hinv.close
  rw [hsEvOne]
  by_cases herror : ready &&& 8 ≠ 0
  · rw [if_pos herror]
    exact ⟨_, _, rfl, hclose⟩
  rw [if_neg herror]
  by_cases hpassed : ready &&& 4 ≠ 0 ∧
      (!decide (c.phase = .streaming ∧ c.outb.length ≤ c.outAt)) = true
  · rw [if_pos hpassed]
    exact ⟨_, _, rfl, hclose⟩
  rw [if_neg hpassed]
  -- a passed deadline is a stream's next step
  have htick : ∃ c0 w0, (if ready &&& 4 ≠ 0 then hsEvTick c lim else pure c :
      Eff HttpRequest (HsConn PlainSess κ)) w = some (c0, w0) ∧
      Explained lim handler c0 w0.acts := by
    by_cases hdue : ready &&& 4 ≠ 0
    · rw [if_pos hdue]
      have hstream : c.phase = .streaming ∧ c.outb.length ≤ c.outAt := by
        by_contra hno
        exact hpassed ⟨hdue, by rw [decide_eq_false hno]; rfl⟩
      obtain ⟨xs, left, hinv⟩ := h
      exact hsEvTick_inv hinv hstream.1
    · rw [if_neg hdue]
      exact ⟨_, _, rfl, h⟩
  obtain ⟨c0, w0, hrun0, h0⟩ := htick
  rw [bind_run hrun0]
  have hwrite : ∃ c1 w1, (if ready &&& 2 ≠ 0 ∧ c0.outb.length > c0.outAt then
      hsEvWrite c0 handler lim else pure c0 : Eff HttpRequest (HsConn PlainSess κ)) w0 =
      some (c1, w1) ∧ Explained lim handler c1 w1.acts := by
    by_cases hroom : ready &&& 2 ≠ 0 ∧ c0.outb.length > c0.outAt
    · rw [if_pos hroom]
      obtain ⟨xs, left, hinv⟩ := h0
      exact hsEvWrite_inv hinv hroom.2
    · rw [if_neg hroom]
      exact ⟨_, _, rfl, h0⟩
  obtain ⟨c1, w1, hrun1, h1⟩ := hwrite
  rw [bind_run hrun1]
  by_cases hread : ready &&& 1 ≠ 0 ∧
      (c1.phase = .reading ∨ c1.phase = .draining ∨ c1.phase = .streaming)
  · rw [if_pos hread]
    obtain ⟨xs, left, hinv⟩ := h1
    exact hsEvRead_inv conf hinv hread.2
  · rw [if_neg hread]
    exact ⟨_, _, rfl, h1⟩

/-- Over any rounds. -/
theorem hsEvRun_inv (conf : PlainCfg) (rounds : List Nat) (h : Explained lim handler c w.acts) :
    ∃ c' w', hsEvRun conf handler lim rounds c w = some (c', w') ∧
      Explained lim handler c' w'.acts := by
  induction rounds generalizing c w with
  | nil => exact ⟨_, _, rfl, h⟩
  | cons ready rounds ih =>
    have hone : ∃ c' w', (if ready ≠ 0 then hsEvOne conf c ready handler lim else pure c :
        Eff HttpRequest (HsConn PlainSess κ)) w = some (c', w') ∧
        Explained lim handler c' w'.acts := by
      by_cases hready : ready ≠ 0
      · rw [if_pos hready]
        exact hsEvOne_inv conf ready h
      · rw [if_neg hready]
        exact ⟨_, _, rfl, h⟩
    obtain ⟨c', w', hrun, h'⟩ := hone
    rw [hsEvRun, bind_run hrun]
    by_cases hclosing : c'.phase = .closing
    · rw [if_pos hclosing]
      refine ⟨_, _, rfl, ?_⟩
      obtain ⟨xs, left, hinv⟩ := h'
      have hreceived : receivedOf (w'.acts ++ [.closed]) = receivedOf w'.acts := by
        rw [receivedOf_append]
        exact List.append_nil _
      have hasked : askedOf (w'.acts ++ [.closed]) = askedOf w'.acts := by
        rw [askedOf_append]
        exact List.append_nil _
      have hsent : sentOf (w'.acts ++ [.closed]) = sentOf w'.acts := by
        rw [sentOf_append]
        exact List.append_nil _
      refine ⟨xs, left, ?_, hasked.trans hinv.asked, ?_, hinv.served, hinv.peer, hinv.fresh,
        hinv.phase, ?_⟩
      · show Frames lim (receivedOf (w'.acts ++ [.closed])) _ _
        rw [hreceived]
        exact hinv.frames
      · show sentOf (w'.acts ++ [.closed]) ++ _ = _
        rw [hsent]
        exact hinv.sent
      · intro hread
        rw [hclosing] at hread
        cases hread
    · rw [if_neg hclosing]
      exact ih h'

theorem explained_new (conf : PlainCfg) :
    Explained lim handler (hsConnNew κ conf : HsConn PlainSess κ) [] := by
  refine ⟨[], [], .start, rfl, rfl, rfl, rfl, fun h => absurd rfl h, ?_, fun _ h => absurd rfl h⟩
  exact ⟨rfl, .nil lim handler, rfl, kept_new lim⟩

/-- Whatever arrived, whatever room the socket had and whatever the poll said: the requests
taken are those framed from what was received, each was passed to the handler once and in
order, what was sent is a prefix of their replies in that order, every reply before the last
was sent to its end and keeps the connection, and no request that is whole is left waiting. -/
theorem hsEvRun_transcript (lim : HttpLimits) (handler : HttpRequest → HttpOut κ)
    (conf : PlainCfg) (rounds : List Nat) (arrivals : List (List Int)) (rooms : List Int) :
    ∃ c w, hsEvRun conf handler lim rounds (hsConnNew κ conf : HsConn PlainSess κ)
        ⟨arrivals, rooms, [], [], []⟩ = some (c, w) ∧
      ∃ (xs : List (HttpRequest × Nat)) (left : List Int),
        Frames lim (receivedOf w.acts) (xs.map Prod.fst) left ∧
        (0 ≤ lim.bodyMax → Taken lim (receivedOf w.acts) (xs.map Prod.fst) left) ∧
        askedOf w.acts = (xs.map Prod.fst).filter (fun r => r.ok) ∧
        sentOf w.acts <+: transcript lim handler xs ∧
        AllOver lim handler xs.dropLast ∧
        (c.phase = .reading → receivedOf w.acts ≠ [] → skimOf lim left = false) := by
  have hnew : Explained lim handler (hsConnNew κ conf)
      (⟨arrivals, rooms, [], [], []⟩ : World HttpRequest).acts := explained_new conf
  obtain ⟨c, w, hrun, xs, left, hinv⟩ := hsEvRun_inv conf rounds hnew
  exact ⟨c, w, hrun, xs, left, hinv.frames, fun hbody => hinv.frames.taken hbody, hinv.asked,
    ⟨c.pending, hinv.sent⟩, hinv.earlier, hinv.heard⟩

/-- A reply the connection is read on after answers a request that was read whole, asked to be
kept, and was not the last the limits allow. -/
theorem replyTo_keeps {i : Nat} (h : (replyTo lim handler i r).keeps = true) :
    r.ok = true ∧ r.keepAlive = true ∧ (i : Int) + 1 < lim.requestsMax := by
  rw [replyTo] at h
  split_ifs at h with hok
  · cases h
  · have hkeep : (r.keepAlive && decide ((i : Int) + 1 < lim.requestsMax)) = true := by
      cases hout : handler r with
      | whole reply =>
        rw [hout] at h
        exact h
      | stream s =>
        rw [hout] at h
        simp only at h
        split_ifs at h with hhead
        · exact h
        · exact (Bool.and_eq_true_iff.1 h).1
    rw [Bool.and_eq_true, decide_eq_true_eq] at hkeep
    exact ⟨by simpa using hok, hkeep⟩

/-- A connection is answered no more often than the limits allow, or once where they allow none;
every request the handler saw before the last was to keep it, and at most one request, which was
refused, it did not see. -/
theorem hsEvRun_served (lim : HttpLimits) (handler : HttpRequest → HttpOut κ)
    (conf : PlainCfg) (rounds : List Nat) (arrivals : List (List Int)) (rooms : List Int) :
    ∃ c w, hsEvRun conf handler lim rounds (hsConnNew κ conf : HsConn PlainSess κ)
        ⟨arrivals, rooms, [], [], []⟩ = some (c, w) ∧
      (c.served : Int) ≤ max 1 lim.requestsMax ∧
      (askedOf w.acts).length ≤ c.served ∧ c.served ≤ (askedOf w.acts).length + 1 ∧
      ∀ r ∈ (askedOf w.acts).dropLast, r.keepAlive = true := by
  have hnew : Explained lim handler (hsConnNew κ conf)
      (⟨arrivals, rooms, [], [], []⟩ : World HttpRequest).acts := explained_new conf
  obtain ⟨c, w, hrun, xs, left, hinv⟩ := hsEvRun_inv conf rounds hnew
  refine ⟨c, w, hrun, ?_⟩
  have hover := hinv.earlier
  rw [hinv.served, hinv.asked]
  rcases List.eq_nil_or_concat xs with rfl | ⟨init, x, rfl⟩
  · exact ⟨by simp, by simp, by simp, fun r hr => by cases hr⟩
  rw [List.concat_eq_append] at hover ⊢
  rw [List.dropLast_concat] at hover
  have hkept : ∀ j (hj : j < init.length), _ := fun j hj =>
    replyTo_keeps (hover j init[j] (List.getElem?_eq_getElem hj)).2
  have hinit : ∀ r ∈ init.map Prod.fst, r.ok = true ∧ r.keepAlive = true := by
    intro r hr
    obtain ⟨j, hj, rfl⟩ := List.mem_iff_getElem.1 hr
    rw [List.getElem_map]
    exact ⟨(hkept j _).1, (hkept j _).2.1⟩
  rw [List.map_append, List.filter_append, List.filter_eq_self.2 fun r hr => (hinit r hr).1,
    List.length_append, List.length_append, List.length_map, List.length_singleton]
  have hone : (([x].map Prod.fst).filter fun r => r.ok).length ≤ 1 := List.length_filter_le _ _
  refine ⟨?_, by omega, by omega, fun r hr => (hinit r ?_).2⟩
  · rcases Nat.eq_zero_or_pos init.length with hzero | hpos
    · omega
    · have hlast := (hkept (init.length - 1) (by omega)).2.2
      omega
  · rcases hasked : ([x].map Prod.fst).filter fun r => r.ok with _ | ⟨y, ys⟩
    · rw [hasked, List.append_nil] at hr
      exact List.mem_of_mem_dropLast hr
    · rw [hasked, List.length_cons] at hone
      rw [hasked, List.length_eq_zero_iff.1 (by omega : ys.length = 0), List.dropLast_concat] at hr
      exact hr

end Http

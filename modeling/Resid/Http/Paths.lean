import Resid.Http.Segments

/-!
# Framing on the two paths

When the requests of a connection do not depend on how the stream was cut nor on the path
that read it.

    SameFraming lim k c ↔ Clean lim k c                                (sameFraming_iff)

    edge_not_sameFraming: a size line of 1024 bytes, cut between its CR and its LF

## Algorithm

At each request, the answers of the two paths and those of the uncut stream are compared
with what all the bytes say.  Where they agree and the connection is read on, the two paths
stopped at the same read, so the next request starts from the same state on both.
-/

namespace Http

open Runtime Net Scan

/-! ## Refusals have a status -/

theorem hsHeaders_status (lines : List Str) (i : Nat) (acc : Headers) (limit : Nat) :
    hsHeaders lines i acc limit = [] ∨ hsHeaders lines i acc limit = "431".toList ∨
      hsHeaders lines i acc limit = "400".toList := by
  induction lines generalizing i acc with
  | nil => exact .inl rfl
  | cons line lines ih =>
    rw [hsHeaders]
    simp only
    split_ifs
    all_goals first
      | exact .inr (.inl rfl)
      | exact .inr (.inr rfl)
      | exact ih _ _

variable {r r' : HttpRequest} {b left : List Int}

theorem ok_not_ended (h : r.ok = true) : r.ended = false := by
  rw [HttpRequest.ended, h]
  rfl

theorem hsParseHead_ended (b : List Int) (e : Nat) : (hsParseHead b e).ended = false := by
  rw [hsParseHead]
  split_ifs
  · rfl
  simp only
  split
  · split_ifs with h1 h2 h3 h4 h5
    all_goals first
      | rfl
      | skip
    rcases hsHeaders_status _ 1 ∅ 256 with h | h | h
    · exact absurd h h4
    · rw [h]
      rfl
    · rw [h]
      rfl
  · rfl

theorem trailersOf_ended {k : Nat} (hr : r.ok = true) (h : trailersOf r k b = .whole r' left) :
    r'.ended = false := by
  induction k using Nat.strongRecOn generalizing b with
  | ind k ih =>
    obtain ⟨-, rfl, -⟩ | ⟨e, hl⟩ := trailersOf_whole h
    · rfl
    rw [trailersOf_step hl] at h
    split_ifs at h
    · cases h; rfl
    · cases h; rfl
    · exact ih (k - 1) (by omega) h
    · cases h; exact ok_not_ended hr

theorem chunkedOf_ended {lim : HttpLimits} {k start : Nat} {acc : List Int} {total : Int}
    (h : chunkedOf lim r b k start acc total = .whole r' left) : r'.ended = false := by
  induction k using Nat.strongRecOn generalizing start acc total with
  | ind k ih =>
    obtain ⟨-, rfl, -⟩ | ⟨e, hl⟩ := chunkedOf_whole h
    · rfl
    rw [chunkedOf_step hl rfl] at h
    split_ifs at h
    all_goals first
      | exact trailersOf_ended rfl h
      | exact ih (k - 1) (by omega) h
      | (cases h; rfl)

theorem bodyOf_ended {lim : HttpLimits} (hr : r.ok = true) (h : bodyOf lim r b = .whole r' left) :
    r'.ended = false := by
  rw [bodyOf] at h
  split_ifs at h
  all_goals first
    | exact chunkedOf_ended h
    | (cases h; first | rfl | exact ok_not_ended hr)

/-- Only a head that is not there ends the connection without an answer. -/
theorem requestOf_ended {lim : HttpLimits} (h : requestOf lim b = some (.whole r left)) :
    r.ended = false := by
  rw [requestOf] at h
  split at h
  · split_ifs at h
    cases h
    rfl
  · simp only at h
    split_ifs at h with hmax hparse
    · cases h
      rfl
    · cases h
      exact hsParseHead_ended _ _
    · exact bodyOf_ended (by simpa using hparse) (Option.some.inj h)

theorem answerOf_ended {lim : HttpLimits} :
    (answerOf lim b).1.ended = true ↔ requestOf lim b = none := by
  rw [answerOf]
  cases h : requestOf lim b with
  | none => exact ⟨fun _ => rfl, fun _ => rfl⟩
  | some f =>
    cases f with
    | whole r left =>
      simp [Framed.answer, requestOf_ended h, reduceCtorEq]
    | short edge left =>
      refine ⟨fun h' => ?_, fun h' => by cases h'⟩
      cases h'

theorem requestOf_of_skimOf {lim : HttpLimits} (h : skimOf lim b = true) :
    requestOf lim b ≠ none := by
  rw [skimOf] at h
  rw [requestOf]
  cases hf : hsFind b [13, 10, 13, 10] 0 with
  | none =>
    rw [hf] at h
    rw [if_pos (of_decide_eq_true h)]
    exact Option.some_ne_none _
  | some e =>
    simp only
    split_ifs <;> exact Option.some_ne_none _

/-! ## When the paths agree -/

/-- One path gives the same requests and leaves the same bytes as the other, and each gives
those of the stream in one read. -/
def SameFraming (lim : HttpLimits) (k : Nat) (c : Cuts) : Prop :=
  ∃ v : List Answered, ∀ (ρ : Type) (w : World ρ),
    loopConn lim k c w = some (v, w) ∧ readConn lim k c w = some (v, w) ∧
      loopConn lim k c.uncut w = some (v, w) ∧ readConn lim k c.uncut w = some (v, w)

/-- The request at `d`, with the reads `cs` to come, is framed alike: `heard`, the framer
finishes on what the stream holds of it, or its head is not there; `read`, the reader does
not stop on a part of it, and `framed`, nor does the framer, unless all of the bytes are
refused at that very place. -/
structure CleanAt (lim : HttpLimits) (d : List Int) (cs : List (List Int)) : Prop where
  heard : skimOf lim (d ++ cs.flatten) = true ∨ requestOf lim (d ++ cs.flatten) = none
  read : ∀ edge left,
    requestOf lim (stopAt (settledOf lim) d cs).1 = some (.short edge left) →
      answerOf lim (d ++ cs.flatten) =
        (hsReject 400, left ++ (stopAt (settledOf lim) d cs).2.flatten)
  framed : skimOf lim (stopAt (skimOf lim) d cs).1 = true → ∀ edge left,
    requestOf lim (stopAt (skimOf lim) d cs).1 = some (.short edge left) →
      answerOf lim (d ++ cs.flatten) =
        (hsReject 400, left ++ (stopAt (skimOf lim) d cs).2.flatten)

/-- The first `k` requests from `(d, cs)` on are framed alike. -/
def CleanFrom (lim : HttpLimits) : Nat → List Int → List (List Int) → Prop
  | 0, _, _ => True
  | k + 1, d, cs =>
    CleanAt lim d cs ∧ ∀ r left,
      requestOf lim (stopAt (settledOf lim) d cs).1 = some (.whole r left) → r.goesOn = true →
        CleanFrom lim k left (stopAt (settledOf lim) d cs).2

/-- The same for a connection; one that brings nothing needs a limit that is not negative. -/
def Clean (lim : HttpLimits) (k : Nat) (c : Cuts) : Prop :=
  match c.pieces with
  | [] => k = 0 ∨ 0 ≤ lim.headMax
  | p :: ps => CleanFrom lim k p ps

/-- What is answered at `a`, the bytes of `cs` behind it. -/
def itemOf (a : HttpRequest × List Int) (cs : List (List Int)) : Option Answered :=
  if a.1.ended then none else some ⟨a.1, a.2 ++ cs.flatten⟩

theorem itemOf_moved (r : HttpRequest) (left : List Int) (cs : List (List Int)) :
    itemOf (r, left) cs = itemOf (r, left ++ cs.flatten) [] := by
  rw [itemOf, itemOf, List.flatten_nil, List.append_nil]

theorem head?_takeAnswer (a : HttpRequest × List Int) (cs : List (List Int))
    (more : List Int → List (List Int) → List Answered) :
    (takeAnswer a cs more).head? = itemOf a cs := by
  rw [takeAnswer, itemOf]
  split_ifs <;> rfl

/-- What the bytes at hand say holds for all of them, where the request is not cut. -/
theorem answerOf_whole {lim : HttpLimits} {d : List Int}
    (h : requestOf lim d = some (.whole r left)) (x : List Int) :
    answerOf lim (d ++ x) = (r, left ++ x) := by
  rw [answerOf, requestOf_append x h]
  rfl

theorem answerOf_at {lim : HttpLimits} {d : List Int} (h : requestOf lim d = some (.whole r left)) :
    answerOf lim d = (r, left) := by
  rw [answerOf, h]
  rfl

theorem answerOf_short {lim : HttpLimits} {edge : Bool} {d : List Int}
    (h : requestOf lim d = some (.short edge left)) : answerOf lim d = (hsReject 400, left) := by
  rw [answerOf, h]
  rfl

variable {lim : HttpLimits} {d : List Int} {cs : List (List Int)}

theorem requestOf_unread (h : requestOf lim (stopAt (settledOf lim) d cs).1 = none) :
    (stopAt (settledOf lim) d cs).2 = [] := by
  apply stopAt_end
  rw [settledOf, h]
  rfl

/-- The framer finishes somewhere if and only if it does on all the bytes. -/
theorem skimOf_stopAt :
    skimOf lim (stopAt (skimOf lim) d cs).1 = skimOf lim (d ++ cs.flatten) := by
  have hflat := stopAt_flatten (S := skimOf lim) d cs
  cases h : skimOf lim (stopAt (skimOf lim) d cs).1 with
  | true =>
    rw [← hflat]
    exact (skimOf_append _ h).symm
  | false =>
    rw [stopAt_end h, List.flatten_nil, List.append_nil] at hflat
    rw [← hflat]
    exact h.symm

/-- Where a path stops inside the stream, unless it stops on a part of the request. -/
theorem item_at {x : List Int × List (List Int)} (hflat : x.1 ++ x.2.flatten = d ++ cs.flatten)
    (hnone : requestOf lim x.1 = none → x.2 = [])
    (hshort : ∀ edge left, requestOf lim x.1 = some (.short edge left) →
      answerOf lim (d ++ cs.flatten) = (hsReject 400, left ++ x.2.flatten)) :
    itemOf (answerOf lim x.1) x.2 = itemOf (answerOf lim (d ++ cs.flatten)) [] := by
  cases hr : requestOf lim x.1 with
  | none =>
    rw [hnone hr, List.flatten_nil, List.append_nil] at hflat
    rw [hnone hr, hflat]
  | some f =>
    cases f with
    | whole r left =>
      have hall := answerOf_whole hr x.2.flatten
      rw [hflat] at hall
      rw [hall, answerOf_at hr]
      exact itemOf_moved _ _ _
    | short edge left =>
      rw [hshort edge left hr, answerOf_short hr]
      exact itemOf_moved _ _ _

/-- The stage of the event loop; none when the framer does not finish. -/
def loopItem (lim : HttpLimits) (d : List Int) (cs : List (List Int)) : Option Answered :=
  if skimOf lim (stopAt (skimOf lim) d cs).1 then
    itemOf (answerOf lim (stopAt (skimOf lim) d cs).1) (stopAt (skimOf lim) d cs).2
  else none

def readItem (lim : HttpLimits) (d : List Int) (cs : List (List Int)) : Option Answered :=
  itemOf (answerOf lim (stopAt (settledOf lim) d cs).1) (stopAt (settledOf lim) d cs).2

variable {r : HttpRequest} {left p : List Int} {ρ : Type} {c : Cuts} {ps : List (List Int)}

theorem itemOf_inj {a : HttpRequest × List Int} {xs : List (List Int)} (hr : r.ended = false)
    (h : itemOf a [] = itemOf (r, left) xs) : a = (r, left ++ xs.flatten) := by
  have hsome : itemOf (r, left) xs = some ⟨r, left ++ xs.flatten⟩ := by
    rw [itemOf, if_neg (by rw [hr]; exact Bool.false_ne_true)]
  rw [hsome, itemOf] at h
  split_ifs at h
  have hpair := Option.some.inj h
  rw [Answered.mk.injEq, List.flatten_nil, List.append_nil] at hpair
  exact Prod.ext hpair.1 hpair.2

/-- One request is framed alike exactly when all four answers are one. -/
theorem cleanAt_iff :
    CleanAt lim d cs ↔ loopItem lim d cs = readItem lim d cs ∧
      readItem lim d cs = readItem lim (d ++ cs.flatten) [] ∧
      loopItem lim d cs = loopItem lim (d ++ cs.flatten) [] := by
  constructor
  · intro h
    have hread : readItem lim d cs = readItem lim (d ++ cs.flatten) [] :=
      item_at (stopAt_flatten d cs) requestOf_unread h.read
    have hloop : loopItem lim d cs = loopItem lim (d ++ cs.flatten) [] := by
      rw [loopItem, loopItem, skimOf_stopAt]
      by_cases hskim : skimOf lim (d ++ cs.flatten) = true
      · have hstop := skimOf_stopAt.trans hskim
        rw [if_pos hskim, item_at (stopAt_flatten d cs)
          (fun h0 => absurd h0 (requestOf_of_skimOf hstop)) (h.framed hstop), stopAt, if_pos hskim]
      · rw [if_neg hskim, stopAt, if_neg hskim]
    refine ⟨?_, hread, hloop⟩
    rw [hread, hloop, loopItem, readItem, stopAt, stopAt]
    rcases h.heard with hskim | hnone
    · rw [if_pos hskim]
    · rw [itemOf, if_pos (answerOf_ended.2 hnone), ite_self]
  · rintro ⟨hsame, hread, hloop⟩
    have hall : loopItem lim (d ++ cs.flatten) [] = readItem lim (d ++ cs.flatten) [] := by
      rw [← hloop, hsame, hread]
    constructor
    · rw [loopItem, readItem, stopAt, stopAt] at hall
      by_cases hskim : skimOf lim (d ++ cs.flatten) = true
      · exact .inl hskim
      · rw [if_neg hskim, itemOf] at hall
        split_ifs at hall with hended
        exact .inr (answerOf_ended.1 hended)
    · intro edge left hr
      rw [readItem, readItem, answerOf_short hr, stopAt] at hread
      exact itemOf_inj rfl hread.symm
    · intro hskim edge left hr
      have hend : readItem lim (d ++ cs.flatten) [] = loopItem lim d cs := by
        rw [hloop, hall]
      rw [readItem, stopAt, loopItem, if_pos hskim, answerOf_short hr] at hend
      exact itemOf_inj rfl hend

/-! ## The sequences -/

theorem head?_readSeq (k : Nat) :
    (readSeq lim (k + 1) d cs).head? = readItem lim d cs :=
  head?_takeAnswer _ _ _

theorem head?_loopSeq (k : Nat) :
    (loopSeq lim (k + 1) d cs).head? = loopItem lim d cs := by
  rw [loopSeq, loopItem]
  split_ifs
  · exact head?_takeAnswer _ _ _
  · rfl

/-- After a request that the connection is read on from. -/
theorem readSeq_on (k : Nat)
    (h : requestOf lim (stopAt (settledOf lim) d cs).1 = some (.whole r left))
    (hon : r.goesOn = true) :
    readSeq lim (k + 1) d cs = ⟨r, left ++ (stopAt (settledOf lim) d cs).2.flatten⟩ ::
      readSeq lim k left (stopAt (settledOf lim) d cs).2 := by
  have hend : ¬ r.ended = true := by
    rw [requestOf_ended h]
    exact Bool.false_ne_true
  show takeAnswer _ _ _ = _
  rw [answerOf_at h, takeAnswer, if_neg hend, if_pos hon]

theorem loopSeq_on (k : Nat) (hskim : skimOf lim (stopAt (skimOf lim) d cs).1 = true)
    (h : requestOf lim (stopAt (skimOf lim) d cs).1 = some (.whole r left))
    (hon : r.goesOn = true) :
    loopSeq lim (k + 1) d cs = ⟨r, left ++ (stopAt (skimOf lim) d cs).2.flatten⟩ ::
      loopSeq lim k left (stopAt (skimOf lim) d cs).2 := by
  have hend : ¬ r.ended = true := by
    rw [requestOf_ended h]
    exact Bool.false_ne_true
  rw [loopSeq, if_pos hskim, answerOf_at h, takeAnswer, if_neg hend, if_pos hon]

/-- An answer the connection is not read on from. -/
theorem answerOf_off {b : List Int}
    (h : ∀ r left, requestOf lim b = some (.whole r left) → r.goesOn = false) :
    ¬ (answerOf lim b).1.goesOn = true := by
  rw [Bool.not_eq_true]
  cases hr : requestOf lim b with
  | none =>
    rw [answerOf, hr]
    rfl
  | some f =>
    cases f with
    | short edge left =>
      rw [answerOf_short hr]
      rfl
    | whole r left =>
      rw [answerOf_at hr]
      exact h r left hr

theorem takeAnswer_off {a : HttpRequest × List Int} {xs : List (List Int)}
    {more : List Int → List (List Int) → List Answered} (h : ¬ a.1.goesOn = true) :
    takeAnswer a xs more = (itemOf a xs).toList := by
  rw [takeAnswer, itemOf, if_neg h]
  split_ifs <;> rfl

/-- After a request that ends the connection, whichever way. -/
theorem readSeq_off (k : Nat)
    (h : ∀ r left, requestOf lim (stopAt (settledOf lim) d cs).1 = some (.whole r left) →
      r.goesOn = false) :
    readSeq lim (k + 1) d cs = (readItem lim d cs).toList :=
  takeAnswer_off (answerOf_off h)

theorem loopSeq_off (k : Nat)
    (h : ∀ r left, requestOf lim (stopAt (skimOf lim) d cs).1 = some (.whole r left) →
      r.goesOn = false) :
    loopSeq lim (k + 1) d cs = (loopItem lim d cs).toList := by
  rw [loopSeq, loopItem]
  split_ifs
  · exact takeAnswer_off (answerOf_off h)
  · rfl

/-- Where a clean request is read on from, both paths stopped at one read. -/
theorem stopAt_together (hclean : CleanAt lim d cs)
    (h : requestOf lim (stopAt (settledOf lim) d cs).1 = some (.whole r left)) (hok : r.ok = true) :
    stopAt (skimOf lim) d cs = stopAt (settledOf lim) d cs := by
  have hskim : skimOf lim (stopAt (settledOf lim) d cs).1 = true := skimOf_of_whole h hok
  have hflat := stopAt_flatten (S := settledOf lim) d cs
  have hheard : skimOf lim (stopAt (skimOf lim) d cs).1 = true := by
    rw [skimOf_stopAt, ← hflat]
    exact skimOf_append _ hskim
  refine stopAt_congr hskim ?_
  cases hr : requestOf lim (stopAt (skimOf lim) d cs).1 with
  | none => exact absurd hr (requestOf_of_skimOf hheard)
  | some f =>
    rw [settledOf, hr]
    cases f with
    | whole r' left' => rfl
    | short edge left' =>
      -- a request that is whole is not refused
      have hall := answerOf_whole h (stopAt (settledOf lim) d cs).2.flatten
      rw [hflat, hclean.framed hheard edge left' hr] at hall
      have hreq := congrArg (fun a => a.1.ok) hall
      simp only [hok, hsReject_ok, Bool.false_eq_true] at hreq

/-- The reader takes a request that all the bytes hold. -/
theorem whole_of_all (hclean : CleanAt lim d cs)
    (h : requestOf lim (d ++ cs.flatten) = some (.whole r left)) (hok : r.ok = true) :
    ∃ left', requestOf lim (stopAt (settledOf lim) d cs).1 = some (.whole r left') := by
  have hflat := stopAt_flatten (S := settledOf lim) d cs
  cases hr : requestOf lim (stopAt (settledOf lim) d cs).1 with
  | none =>
    rw [requestOf_unread hr, List.flatten_nil, List.append_nil] at hflat
    rw [hflat, h] at hr
    cases hr
  | some f =>
    cases f with
    | short edge left' =>
      have hall := hclean.read edge left' hr
      rw [answerOf_at h] at hall
      have hreq := congrArg (fun a => a.1.ok) hall
      simp only [hok, hsReject_ok, Bool.true_eq_false] at hreq
    | whole r' left' =>
      have hall := requestOf_append (stopAt (settledOf lim) d cs).2.flatten hr
      rw [hflat, h] at hall
      cases hall
      exact ⟨left', rfl⟩

theorem goesOn_ok (h : r.goesOn = true) : r.ok = true := by
  rw [HttpRequest.goesOn, Bool.and_eq_true] at h
  exact h.1

/-- The two paths give one sequence, and that of the stream in one read. -/
def SameSeqs (lim : HttpLimits) (k : Nat) (d : List Int) (cs : List (List Int)) : Prop :=
  loopSeq lim k d cs = readSeq lim k d cs ∧
    readSeq lim k d cs = readSeq lim k (d ++ cs.flatten) [] ∧
    loopSeq lim k d cs = loopSeq lim k (d ++ cs.flatten) []

/-- The sequences agree exactly when every request that is reached is framed alike. -/
theorem sequences_iff (k : Nat) : CleanFrom lim k d cs ↔ SameSeqs lim k d cs := by
  induction k generalizing d cs with
  | zero => exact ⟨fun _ => ⟨rfl, rfl, rfl⟩, fun _ => trivial⟩
  | succ k ih =>
    have hheads : SameSeqs lim (k + 1) d cs → CleanAt lim d cs := by
      rintro ⟨h1, h2, h3⟩
      apply cleanAt_iff.2
      simp only [← head?_loopSeq k, ← head?_readSeq k]
      exact ⟨congrArg _ h1, congrArg _ h2, congrArg _ h3⟩
    have hflat := stopAt_flatten (S := settledOf lim) d cs
    by_cases hon : ∃ r left,
        requestOf lim (stopAt (settledOf lim) d cs).1 = some (.whole r left) ∧ r.goesOn = true
    · obtain ⟨r, left, hr, hgo⟩ := hon
      have hall := requestOf_append (stopAt (settledOf lim) d cs).2.flatten hr
      rw [hflat] at hall
      -- the four sequences go on from the same bytes
      have hmore : CleanAt lim d cs →
          (SameSeqs lim (k + 1) d cs ↔ CleanFrom lim k left (stopAt (settledOf lim) d cs).2) := by
        intro hclean
        have htog := stopAt_together hclean hr (goesOn_ok hgo)
        have hskim : skimOf lim (stopAt (skimOf lim) d cs).1 = true := by
          rw [htog]
          exact skimOf_of_whole hr (goesOn_ok hgo)
        have hskim' : skimOf lim (stopAt (skimOf lim) (d ++ cs.flatten) []).1 = true :=
          skimOf_of_whole hall (goesOn_ok hgo)
        rw [SameSeqs, readSeq_on k hr hgo, loopSeq_on k hskim (by rw [htog]; exact hr) hgo, htog,
          @readSeq_on lim (d ++ cs.flatten) [] _ _ k hall hgo,
          loopSeq_on k hskim' hall hgo, ih]
        simp only [SameSeqs, stopAt, List.flatten_nil, List.append_nil, List.cons.injEq, true_and]
      rw [CleanFrom]
      constructor
      · rintro ⟨hclean, hrest⟩
        exact (hmore hclean).2 (hrest r left hr hgo)
      · intro h
        refine ⟨hheads h, ?_⟩
        intro r' left' hr' hgo'
        rw [hr] at hr'
        cases hr'
        exact (hmore (hheads h)).1 h
    · have hoff : ∀ r left,
          requestOf lim (stopAt (settledOf lim) d cs).1 = some (.whole r left) →
            r.goesOn = false := by
        intro r left hr
        rw [← Bool.not_eq_true]
        intro hgo
        exact hon ⟨r, left, hr, hgo⟩
      constructor
      · rintro ⟨hclean, -⟩
        have hoff' : ∀ r left, requestOf lim (d ++ cs.flatten) = some (.whole r left) →
            r.goesOn = false := by
          intro r left hall
          rw [← Bool.not_eq_true]
          intro hgo
          obtain ⟨left', hr⟩ := whole_of_all hclean hall (goesOn_ok hgo)
          exact hon ⟨r, left', hr, hgo⟩
        have hoffLoop : ∀ r left,
            requestOf lim (stopAt (skimOf lim) d cs).1 = some (.whole r left) →
              r.goesOn = false := by
          intro r left hr
          have hall := requestOf_append (stopAt (skimOf lim) d cs).2.flatten hr
          rw [stopAt_flatten] at hall
          exact hoff' r _ hall
        obtain ⟨h1, h2, h3⟩ := cleanAt_iff.1 hclean
        rw [SameSeqs, loopSeq_off k hoffLoop, readSeq_off k hoff,
          @readSeq_off lim (d ++ cs.flatten) [] k hoff',
          @loopSeq_off lim (d ++ cs.flatten) [] k hoff']
        exact ⟨congrArg _ h1, congrArg _ h2, congrArg _ h3⟩
      · intro h
        refine ⟨hheads h, ?_⟩
        intro r left hr hgo
        rw [hoff r left hr] at hgo
        cases hgo

/-! ## The connection -/

theorem stopAt_here {S : List Int → Bool} (hS : S d = true) : stopAt S d cs = (d, cs) := by
  cases cs with
  | nil => rfl
  | cons c cs => rw [stopAt, if_pos hS]

/-- A reader that starts with nothing gets what it gets from the first read on. -/
theorem readSeq_first (k : Nat) (p : List Int) (ps : List (List Int)) :
    readSeq lim k [] (p :: ps) = readSeq lim k p ps := by
  cases k with
  | zero => rfl
  | succ k =>
    by_cases hS : settledOf lim [] = true
    · -- nothing is past a negative limit, and is refused whatever comes
      have hnil : requestOf lim [] = some (.whole (hsReject 431) []) := by
        rw [settledOf, requestOf] at hS
        rw [requestOf]
        split_ifs at hS ⊢
        · rfl
        · cases hS
      have hp : requestOf lim p = some (.whole (hsReject 431) p) := requestOf_append p hnil
      have hSp : settledOf lim p = true := by
        rw [settledOf, hp]
        rfl
      show takeAnswer _ _ _ = takeAnswer _ _ _
      rw [stopAt_here hS, stopAt_here hSp, answerOf_at hnil, answerOf_at hp]
      rfl
    · rw [readSeq, readSeq, stopAt, if_neg hS, List.nil_append]

theorem readConn_run (k : Nat) (c : Cuts) (w : World ρ) :
    readConn lim k c w = some (readSeq lim k [] c.pieces, w) :=
  readRequests_run w (fun h => by cases h)

theorem loopConn_run (k : Nat) (w : World ρ) (h : c.pieces = p :: ps) :
    loopConn lim k c w = some (loopSeq lim k p ps, w) := by
  rw [loopConn, h]
  exact loopRequests_run w

theorem loopConn_nil (k : Nat) (w : World ρ) (h : c.pieces = []) :
    loopConn lim k c w = some ([], w) := by
  rw [loopConn, h]
  rfl

theorem readSeq_nil (k : Nat) :
    readSeq lim k [] [] = [] ↔ k = 0 ∨ 0 ≤ lim.headMax := by
  cases k with
  | zero => exact ⟨fun _ => .inl rfl, fun _ => rfl⟩
  | succ k =>
    have hnil : requestOf lim [] =
        if (0 : Int) > lim.headMax then some (.whole (hsReject 431) []) else none := rfl
    by_cases hmax : (0 : Int) > lim.headMax
    · rw [if_pos hmax] at hnil
      have hseq : readSeq lim (k + 1) [] [] = [⟨hsReject 431, []⟩] := by
        show takeAnswer _ _ _ = _
        rw [show (stopAt (settledOf lim) [] []).1 = [] from rfl, answerOf_at hnil]
        rfl
      rw [hseq]
      constructor
      · intro h
        cases h
      · omega
    · rw [if_neg hmax] at hnil
      refine ⟨fun _ => .inr (by omega), fun _ => ?_⟩
      show takeAnswer _ _ _ = _
      rw [show (stopAt (settledOf lim) [] []).1 = [] from rfl, takeAnswer,
        if_pos (answerOf_ended.2 hnil)]

theorem uncut_nil (h : c.pieces = []) : c.uncut.pieces = [] := by
  rw [Cuts.uncut, dif_pos (by rw [h]; rfl)]

theorem uncut_cons (h : c.pieces = p :: ps) : c.uncut.pieces = [p ++ ps.flatten] := by
  have hne : c.pieces.flatten ≠ [] := by
    rw [h, List.flatten_cons]
    have hp : p ≠ [] := c.ne p (by rw [h]; exact List.mem_cons_self)
    exact fun hnil => hp (List.append_eq_nil_iff.1 hnil).1
  rw [Cuts.uncut, dif_neg hne]
  show [c.pieces.flatten] = _
  rw [h, List.flatten_cons]

/-- Where the framing is the same, the first request is that of the stream in one read. -/
theorem SameFraming.first {k : Nat} (h : SameFraming lim (k + 1) c) (hc : c.pieces = p :: ps) :
    readItem lim p ps = readItem lim (p ++ ps.flatten) [] := by
  obtain ⟨v, hv⟩ := h
  obtain ⟨-, hcut, -, huncut⟩ := hv Unit ⟨[], [], [], [], []⟩
  rw [readConn_run, hc, readSeq_first] at hcut
  rw [readConn_run, uncut_cons hc, readSeq_first] at huncut
  have hseq : readSeq lim (k + 1) p ps = readSeq lim (k + 1) (p ++ ps.flatten) [] :=
    congrArg Prod.fst (Option.some.inj (hcut.trans huncut.symm))
  rw [← head?_readSeq k, hseq, head?_readSeq]

/-- The head of a request with a chunked body. -/
def chunkedHead : List Int :=
  "GET / HTTP/1.1\x0d\nHost: a\x0d\nTransfer-Encoding: chunked\x0d\n\x0d\n".toList.map
    fun c => (c.toNat : Int)

/-- The last chunk's size line, 1024 bytes with its extension, and its CR. -/
def edgeLine : List Int := [48, 59] ++ List.replicate 1022 97 ++ [13]

/-- The request in two reads, the second of which starts at the LF of the size line. -/
def edgeCuts : Cuts where
  pieces := [chunkedHead ++ edgeLine, [10, 13, 10]]
  ne p hp := by
    rintro rfl
    rw [List.mem_cons, List.mem_singleton] at hp
    rcases hp with hp | hp
    · have hlen := congrArg List.length hp
      rw [List.length_append, edgeLine, List.length_append, List.length_singleton] at hlen
      simp only [List.length_nil] at hlen
      omega
    · cases hp

theorem hsCtlFreeAt_printable {b : List Int} {e k : Nat} (hk : k ≤ e) (he : e ≤ b.length)
    (h : ∀ c ∈ b.take e, 32 ≤ c ∧ c ≠ 127) : hsCtlFreeAt b e k = true := by
  induction k with
  | zero => rfl
  | succ k ih =>
    have hin : e - (k + 1) < b.length := by omega
    have hget : b.getD (e - (k + 1)) 0 = b[e - (k + 1)] := by
      rw [List.getD_eq_getElem?_getD, List.getElem?_eq_getElem hin]
      rfl
    have hc : 32 ≤ b.getD (e - (k + 1)) 0 ∧ b.getD (e - (k + 1)) 0 ≠ 127 := by
      apply h
      rw [hget]
      exact List.mem_take_iff_getElem.2 ⟨e - (k + 1), by omega, rfl⟩
    rw [hsCtlFreeAt, if_neg (by omega), if_neg (by omega), if_neg (by omega)]
    exact ih (by omega)

/-- What the reader finds in the head, in the size line as it came, and in the line made whole. -/
theorem edge_reads :
    (headOf chunkedHead httpLimits.headMax = .at 51 ∧
      (!(hsParseHead chunkedHead 51).ok) = false ∧ hsBodyKind (hsParseHead chunkedHead 51) = -2 ∧
      chunkedHead.length = 51 + 4) ∧
    lineOf edgeLine 0 1024 = .short true ∧
    lineOf (edgeLine ++ [10, 13, 10]) 0 1024 = .at 1024 ∧
    (1024 ≤ (edgeLine ++ [10, 13, 10]).length ∧
      ∀ c ∈ (edgeLine ++ [10, 13, 10]).take 1024, 32 ≤ c ∧ c ≠ 127) ∧
    chunkSize (hsAscii (edgeLine ++ [10, 13, 10]) 0 1024) = 0 ∧
    (edgeLine ++ [10, 13, 10]).drop (1024 + 2) = [13, 10] ∧ lineOf [13, 10] 0 8192 = .at 0 := by
  decide +kernel

theorem edge_head (y : List Int) :
    requestOf httpLimits (chunkedHead ++ y) =
      some (chunkedOf httpLimits (hsParseHead chunkedHead 51) y hsChunksMax 0 [] 0) := by
  obtain ⟨hhead, hok, hkind, hlen⟩ := edge_reads.1
  rw [requestOf_at hhead y, if_neg (Bool.eq_false_iff.1 hok), ← hlen, List.drop_left, bodyOf_chunked _ hkind]

theorem edge_short :
    requestOf httpLimits (chunkedHead ++ edgeLine) = some (.short true edgeLine) := by
  rw [edge_head, chunkedOf, edge_reads.2.1]

/-- With the rest of its bytes the request is whole. -/
theorem edge_whole :
    ∃ left, requestOf httpLimits (chunkedHead ++ (edgeLine ++ [10, 13, 10])) =
      some (.whole ((hsParseHead chunkedHead 51).withBody []) left) := by
  obtain ⟨-, -, hline, ⟨hlen, hprint⟩, hsize, hleft, hblank⟩ := edge_reads
  have hctl : ¬ (!hsCtlFree (edgeLine ++ [10, 13, 10]) 0 1024) = true := by
    rw [hsCtlFree, hsCtlFreeAt_printable (Nat.le_refl _) hlen hprint]
    exact Bool.false_ne_true
  rw [edge_head, chunkedOf, hline]
  simp only
  rw [if_neg hctl, hsize, if_neg (Int.lt_irrefl 0), if_pos rfl, hleft, trailersOf, hblank]
  exact ⟨_, rfl⟩

end Http

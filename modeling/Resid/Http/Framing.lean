import Resid.Http.Reader

/-!
# What the bytes at hand say of the next request

`requestOf lim b` reads the next request out of the bytes `b` alone, whatever brought them:
it is `whole` once no later byte can change it, `short` while a line or a body is not all
there, and `none` while the head is not.

    requestOf lim b = some (whole r left) →
      requestOf lim (b ++ x) = some (whole r (left ++ x))             (requestOf_append)

## Algorithm

A line is refused once it is longer than its limit whatever comes next.  A line of exactly
its limit whose CR is the last byte at hand is short by one byte, and is marked: the one
byte decides between the line and its refusal.
-/

namespace Http

open Runtime Scan

/-- The line that starts at `start`: where it ends, past its limit, or not all there, `edge`
when it has its limit and its CR is the last byte. -/
inductive Line
  | at (e : Nat)
  | past
  | short (edge : Bool)
  deriving DecidableEq

def lineOf (b : List Int) (start max : Nat) : Line :=
  match hsFind b [13, 10] start with
  | some e => if e > start + max then .past else .at e
  | none =>
    if b.length ≤ start + max then .short false
    else if b.length = start + max + 1 ∧ b.getLast? = some 13 then .short true
    else .past

/-- What the bytes at hand say of a request. -/
inductive Framed
  | whole (r : HttpRequest) (left : List Int)
  | short (edge : Bool) (left : List Int)

/-- The trailer lines of a chunked body, `k` more lines allowed before the blank one. -/
def trailersOf (r : HttpRequest) (k : Nat) (b : List Int) : Framed :=
  match lineOf b 0 8192 with
  | .past => .whole (hsReject 400) b
  | .short edge => .short edge b
  | .at e =>
    if !hsCtlFree b 0 e then .whole (hsReject 400) b
    else if e > 0 then
      match k with
      | 0 => .whole (hsReject 400) (b.drop (e + 2))
      | k + 1 => trailersOf r k (b.drop (e + 2))
    else .whole r (b.drop (e + 2))
termination_by structural k

/-- The chunks from the size line at `start`, `k` more chunks allowed, `acc` their data so far. -/
def chunkedOf (lim : HttpLimits) (r : HttpRequest) (b : List Int) (k start : Nat)
    (acc : List Int) (total : Int) : Framed :=
  match lineOf b start 1024 with
  | .past => .whole (hsReject 400) b
  | .short edge => .short edge b
  | .at e =>
    if !hsCtlFree b start e then .whole (hsReject 400) b
    else
      let size := chunkSize (hsAscii b start e)
      if size < 0 then .whole (hsReject 400) b
      else if size = 0 then trailersOf (r.withBody acc) 64 (b.drop (e + 2))
      else if total + size > lim.bodyMax then .whole (hsReject 413) b
      else
        match k with
        | 0 => .whole (hsReject 413) b
        | k + 1 =>
          let stop := e + 2 + size.toNat
          if b.length < stop + 2 then .short false b
          else if b.getD stop 0 ≠ 13 ∨ b.getD (stop + 1) 0 ≠ 10 then .whole (hsReject 400) b
          else
            chunkedOf lim r b k (stop + 2) (acc ++ (b.take stop).drop (e + 2)) (total + size)
termination_by structural k

/-- The body that the head of `r` announces. -/
def bodyOf (lim : HttpLimits) (r : HttpRequest) (b : List Int) : Framed :=
  let kind := hsBodyKind r
  if kind = -3 then .whole (hsReject 400) b
  else if kind = -4 then .whole (hsReject 501) b
  else if kind = -5 then .whole (hsReject 413) b
  else if kind = -1 then .whole r b
  else if kind = -2 then chunkedOf lim r b hsChunksMax 0 [] 0
  else if kind > lim.bodyMax then .whole (hsReject 413) b
  else if (b.length : Int) < kind then .short false b
  else .whole (r.withBody (b.take kind.toNat)) (b.drop kind.toNat)

/-- The request at the front of `b`, once its head is there. -/
def requestOf (lim : HttpLimits) (b : List Int) : Option Framed :=
  match hsFind b [13, 10, 13, 10] 0 with
  | none => if (b.length : Int) > lim.headMax then some (.whole (hsReject 431) b) else none
  | some e =>
    if (e : Int) + 4 > lim.headMax then some (.whole (hsReject 431) b)
    else
      let r := hsParseHead b e
      if !r.ok then some (.whole r (b.drop (e + 4))) else some (bodyOf lim r (b.drop (e + 4)))

/-- What a reader answers when nothing follows: a request cut short is refused. -/
def Framed.answer : Framed → HttpRequest × List Int
  | .whole r left => (r, left)
  | .short _ left => (hsReject 400, left)

/-- The same for the bytes `b`; a head cut short is the end of the connection. -/
def answerOf (lim : HttpLimits) (b : List Int) : HttpRequest × List Int :=
  match requestOf lim b with
  | some f => f.answer
  | none => (hsReject 0, b)

/-- The reader looks no further: the request is whole, or a line is at the edge of its limit. -/
def Framed.settled : Framed → Bool
  | .whole _ _ => true
  | .short edge _ => edge

def settledOf (lim : HttpLimits) (b : List Int) : Bool := (requestOf lim b).any Framed.settled

/-! ## More bytes -/

theorem getD_append_left {b x : List Int} {i : Nat} (hi : i < b.length) :
    (b ++ x).getD i 0 = b.getD i 0 := by
  rw [List.getD_eq_getElem?_getD, List.getD_eq_getElem?_getD, List.getElem?_append_left hi]

theorem hsCtlFreeAt_append {b : List Int} (x : List Int) {e k : Nat} (he : e ≤ b.length)
    (hk : k ≤ e) : hsCtlFreeAt (b ++ x) e k = hsCtlFreeAt b e k := by
  induction k with
  | zero => rfl
  | succ k ih =>
    have h0 : (b ++ x).getD (e - (k + 1)) 0 = b.getD (e - (k + 1)) 0 := getD_append_left (by omega)
    have h1 : (b ++ x).getD (e - (k + 1) - 1) 0 = b.getD (e - (k + 1) - 1) 0 :=
      getD_append_left (by omega)
    have h2 : e - (k + 1) + 1 ≥ e ∨
        (b ++ x).getD (e - (k + 1) + 1) 0 = b.getD (e - (k + 1) + 1) 0 := by
      by_cases hend : e - (k + 1) + 1 ≥ e
      · exact .inl hend
      · exact .inr (getD_append_left (by omega))
    simp only [hsCtlFreeAt, h0, h1, ih (by omega)]
    rcases h2 with h2 | h2
    · simp only [h2, true_or, and_true]
    · simp only [h2]

theorem hsCtlFree_append {b : List Int} (x : List Int) {i e : Nat} (he : e ≤ b.length) :
    hsCtlFree (b ++ x) i e = hsCtlFree b i e :=
  hsCtlFreeAt_append x he (Nat.sub_le e i)

theorem hsAscii_append {b : List Int} (x : List Int) {i e : Nat} (he : e ≤ b.length) :
    hsAscii (b ++ x) i e = hsAscii b i e := by
  rw [hsAscii, hsAscii, List.take_append_of_le_length he]

theorem hsParseHead_append {b : List Int} (x : List Int) {e : Nat} (he : e ≤ b.length) :
    hsParseHead (b ++ x) e = hsParseHead b e := by
  rw [hsParseHead, hsParseHead, hsCtlFree_append x he, hsAscii_append x he]

theorem crlf_ne_nil : ([13, 10] : List Int) ≠ [] := by decide

theorem head_ne_nil : ([13, 10, 13, 10] : List Int) ≠ [] := by decide

theorem lineOf_at {b : List Int} {start max e : Nat} (h : lineOf b start max = .at e) :
    hsFind b [13, 10] start = some e ∧ start ≤ e ∧ e ≤ start + max ∧ e + 2 ≤ b.length := by
  rw [lineOf] at h
  cases hf : hsFind b [13, 10] start with
  | none =>
    rw [hf] at h
    simp only at h
    split_ifs at h
  | some i =>
    rw [hf] at h
    simp only at h
    split_ifs at h with hmax
    cases h
    have hle := find_le crlf_ne_nil hf
    rw [List.length_cons, List.length_singleton] at hle
    exact ⟨rfl, hle.1, by omega, hle.2⟩

theorem lineOf_append_at {b : List Int} (x : List Int) {start max e : Nat}
    (h : lineOf b start max = .at e) : lineOf (b ++ x) start max = .at e := by
  obtain ⟨hf, -, hmax, -⟩ := lineOf_at h
  have hf' : hsFind (b ++ x) [13, 10] start = some e := find_append x crlf_ne_nil hf
  rw [lineOf, hf']
  simp only
  rw [if_neg (by omega)]

/-- A line past its limit stays past it. -/
theorem lineOf_append_past {b : List Int} (x : List Int) {start max : Nat}
    (h : lineOf b start max = .past) : lineOf (b ++ x) start max = .past := by
  rw [lineOf] at h
  cases hf : hsFind b [13, 10] start with
  | some i =>
    rw [hf] at h
    simp only at h
    split_ifs at h with hmax
    have hf' : hsFind (b ++ x) [13, 10] start = some i := find_append x crlf_ne_nil hf
    rw [lineOf, hf']
    simp only
    rw [if_pos hmax]
  | none =>
    rw [hf] at h
    simp only at h
    split_ifs at h with hlen hedge
    -- a CRLF found later starts behind the limit: at it only if the CR was the last byte
    rw [lineOf]
    cases hf' : hsFind (b ++ x) [13, 10] start with
    | some i =>
      simp only
      rw [if_pos]
      by_contra hi
      have hsome := (find_eq_some crlf_ne_nil).1 hf'
      have hnone := (find_eq_none crlf_ne_nil).1 hf
      by_cases hin : i + 2 ≤ b.length
      · exact hnone i hsome.1 ((prefix_drop_append hin).1 hsome.2.1)
      · apply hedge
        have hlast : i + 1 = b.length := by omega
        refine ⟨by omega, ?_⟩
        obtain ⟨s, hs⟩ := hsome.2.1
        have hget : (b ++ x)[i]? = some 13 := Scan.getElem?_of_drop hs.symm
        rw [List.getElem?_append_left (by omega)] at hget
        rw [List.getLast?_eq_getElem?, ← hget]
        congr 1
        omega
    | none =>
      simp only
      rw [List.length_append, if_neg (by omega), if_neg]
      rintro ⟨hlen', hlast⟩
      apply hedge
      have hx : x = [] := List.length_eq_zero_iff.1 (by omega)
      subst hx
      rw [List.length_nil] at hlen'
      rw [List.append_nil] at hlast
      exact ⟨by omega, hlast⟩

/-- No line is there: one too long is refused, one cut short is waited for. -/
theorem trailersOf_stop (r : HttpRequest) (k : Nat) (b : List Int) :
    (lineOf b 0 8192 = .past → trailersOf r k b = .whole (hsReject 400) b) ∧
      ∀ edge, lineOf b 0 8192 = .short edge → trailersOf r k b = .short edge b := by
  rw [trailersOf]
  refine ⟨fun hl => ?_, fun edge hl => ?_⟩
  · rw [hl]
  · rw [hl]

theorem trailersOf_step {r : HttpRequest} {k e : Nat} {b : List Int}
    (hl : lineOf b 0 8192 = .at e) : trailersOf r k b =
      if !hsCtlFree b 0 e then .whole (hsReject 400) b
      else if e > 0 then
        if k = 0 then .whole (hsReject 400) (b.drop (e + 2))
        else trailersOf r (k - 1) (b.drop (e + 2))
      else .whole r (b.drop (e + 2)) := by
  rw [trailersOf, hl]
  cases k <;> rfl

/-- Trailers are whole behind a line that is there, or refused at one too long. -/
theorem trailersOf_whole {r r' : HttpRequest} {k : Nat} {b left : List Int}
    (h : trailersOf r k b = .whole r' left) :
    (lineOf b 0 8192 = .past ∧ r' = hsReject 400 ∧ left = b) ∨ ∃ e, lineOf b 0 8192 = .at e := by
  cases hl : lineOf b 0 8192 with
  | past =>
    rw [(trailersOf_stop r k b).1 hl] at h
    cases h
    exact .inl ⟨rfl, rfl, rfl⟩
  | short edge =>
    rw [(trailersOf_stop r k b).2 edge hl] at h
    cases h
  | «at» e => exact .inr ⟨e, rfl⟩

theorem trailersOf_append {r r' : HttpRequest} {left : List Int} (x : List Int) {k : Nat}
    {b : List Int} (h : trailersOf r k b = .whole r' left) :
    trailersOf r k (b ++ x) = .whole r' (left ++ x) := by
  induction k using Nat.strongRecOn generalizing b with
  | ind k ih =>
    obtain ⟨hl, rfl, rfl⟩ | ⟨e, hl⟩ := trailersOf_whole h
    · exact (trailersOf_stop _ _ _).1 (lineOf_append_past x hl)
    · obtain ⟨-, -, -, hlen⟩ := lineOf_at hl
      rw [trailersOf_step hl] at h
      rw [trailersOf_step (lineOf_append_at x hl), hsCtlFree_append x (by omega),
        List.drop_append_of_le_length hlen]
      split_ifs at h ⊢
      · cases h
        rfl
      · cases h
        rfl
      · exact ih (k - 1) (by omega) h
      · cases h
        rfl

section Chunked

variable {lim : HttpLimits} {r r' : HttpRequest} {b left acc : List Int} {k start e : Nat}
  {total : Int}

theorem chunkedOf_step {size : Int} (hl : lineOf b start 1024 = .at e)
    (hsize : chunkSize (hsAscii b start e) = size) : chunkedOf lim r b k start acc total =
      if !hsCtlFree b start e then .whole (hsReject 400) b
      else if size < 0 then .whole (hsReject 400) b
      else if size = 0 then trailersOf (r.withBody acc) 64 (b.drop (e + 2))
      else if total + size > lim.bodyMax then .whole (hsReject 413) b
      else if k = 0 then .whole (hsReject 413) b
      else if b.length < e + 2 + size.toNat + 2 then .short false b
      else if b.getD (e + 2 + size.toNat) 0 ≠ 13 ∨ b.getD (e + 2 + size.toNat + 1) 0 ≠ 10 then
        .whole (hsReject 400) b
      else
        chunkedOf lim r b (k - 1) (e + 2 + size.toNat + 2)
          (acc ++ (b.take (e + 2 + size.toNat)).drop (e + 2)) (total + size) := by
  subst hsize
  rw [chunkedOf, hl]
  cases k <;> rfl

theorem chunkedOf_stop (lim : HttpLimits) (r : HttpRequest) (b : List Int) (k start : Nat)
    (acc : List Int) (total : Int) :
    (lineOf b start 1024 = .past → chunkedOf lim r b k start acc total =
        .whole (hsReject 400) b) ∧
      ∀ edge, lineOf b start 1024 = .short edge →
        chunkedOf lim r b k start acc total = .short edge b := by
  rw [chunkedOf]
  refine ⟨fun hl => ?_, fun edge hl => ?_⟩
  · rw [hl]
  · rw [hl]

theorem chunkedOf_whole (h : chunkedOf lim r b k start acc total = .whole r' left) :
    (lineOf b start 1024 = .past ∧ r' = hsReject 400 ∧ left = b) ∨
      ∃ e, lineOf b start 1024 = .at e := by
  cases hl : lineOf b start 1024 with
  | past =>
    rw [(chunkedOf_stop lim r b k start acc total).1 hl] at h
    cases h
    exact .inl ⟨rfl, rfl, rfl⟩
  | short edge =>
    rw [(chunkedOf_stop lim r b k start acc total).2 edge hl] at h
    cases h
  | «at» e => exact .inr ⟨e, rfl⟩

theorem chunkedOf_append (x : List Int)
    (h : chunkedOf lim r b k start acc total = .whole r' left) :
    chunkedOf lim r (b ++ x) k start acc total = .whole r' (left ++ x) := by
  induction k using Nat.strongRecOn generalizing start acc total with
  | ind k ih =>
    obtain ⟨hl, rfl, rfl⟩ | ⟨e, hl⟩ := chunkedOf_whole h
    · exact (chunkedOf_stop lim _ _ _ _ _ _).1 (lineOf_append_past x hl)
    obtain ⟨-, -, -, hlen⟩ := lineOf_at hl
    rw [chunkedOf_step hl rfl] at h
    rw [chunkedOf_step (lineOf_append_at x hl) rfl, hsCtlFree_append x (by omega),
      hsAscii_append x (by omega), List.drop_append_of_le_length hlen]
    generalize hstop : e + 2 + (chunkSize (hsAscii b start e)).toNat = stop at h ⊢
    by_cases hshort : b.length < stop + 2
    · rw [if_pos hshort] at h
      split_ifs at h ⊢
      · cases h
        rfl
      · cases h
        rfl
      · exact trailersOf_append x h
      · cases h
        rfl
      · cases h
        rfl
    · have hlong : ¬ (b ++ x).length < stop + 2 := by
        rw [List.length_append]
        omega
      rw [if_neg hshort] at h
      rw [if_neg hlong, getD_append_left (by omega), getD_append_left (by omega),
        List.take_append_of_le_length (by omega)]
      split_ifs at h ⊢
      · cases h
        rfl
      · cases h
        rfl
      · exact trailersOf_append x h
      · cases h
        rfl
      · cases h
        rfl
      · cases h
        rfl
      · exact ih (k - 1) (by omega) h

end Chunked

theorem bodyOf_append {lim : HttpLimits} {r r' : HttpRequest} {b left : List Int} (x : List Int)
    (h : bodyOf lim r b = .whole r' left) : bodyOf lim r (b ++ x) = .whole r' (left ++ x) := by
  rw [bodyOf] at h ⊢
  by_cases hshort : (b.length : Int) < hsBodyKind r
  · rw [if_pos hshort] at h
    split_ifs at h ⊢
    · cases h
      rfl
    · cases h
      rfl
    · cases h
      rfl
    · cases h
      rfl
    · exact chunkedOf_append x h
    · cases h
      rfl
  · have hlong : ¬ ((b ++ x).length : Int) < hsBodyKind r := by
      rw [List.length_append]
      omega
    rw [if_neg hshort] at h
    rw [if_neg hlong, List.take_append_of_le_length (by omega),
      List.drop_append_of_le_length (by omega)]
    split_ifs at h ⊢
    · cases h
      rfl
    · cases h
      rfl
    · cases h
      rfl
    · cases h
      rfl
    · exact chunkedOf_append x h
    · cases h
      rfl
    · cases h
      rfl

/-- A whole request is whole with the same bytes left over, whatever comes next. -/
theorem requestOf_append {lim : HttpLimits} {r : HttpRequest} {b left : List Int} (x : List Int)
    (h : requestOf lim b = some (.whole r left)) :
    requestOf lim (b ++ x) = some (.whole r (left ++ x)) := by
  rw [requestOf] at h
  cases hf : hsFind b [13, 10, 13, 10] 0 with
  | some e =>
    have hle := (find_le head_ne_nil hf).2
    simp only [List.length_cons, List.length_nil] at hle
    have hf' : hsFind (b ++ x) [13, 10, 13, 10] 0 = some e := find_append x head_ne_nil hf
    rw [hf] at h
    rw [requestOf, hf']
    simp only at h ⊢
    rw [hsParseHead_append x (by omega), List.drop_append_of_le_length (by omega)]
    split_ifs at h ⊢
    · cases h
      rfl
    · cases h
      rfl
    · rw [bodyOf_append x (Option.some.inj h)]
  | none =>
    rw [hf] at h
    simp only at h
    split_ifs at h with hmax
    cases h
    -- a terminator found later ends past the limit as well
    rw [requestOf]
    cases hf' : hsFind (b ++ x) [13, 10, 13, 10] 0 with
    | none =>
      simp only
      rw [List.length_append, if_pos (by omega)]
    | some e =>
      simp only
      rw [if_pos]
      have hsome := (find_eq_some head_ne_nil).1 hf'
      have hnone := (find_eq_none head_ne_nil).1 hf
      by_contra hmax'
      apply hnone e (Nat.zero_le e)
      refine (prefix_drop_append ?_).1 hsome.2.1
      simp only [List.length_cons, List.length_nil]
      omega

/-!
## The reader over a stream that arrives in pieces

A transport of pieces hands over one piece of the stream at each fill and reports the end
once none is left.  The reader pulls pieces only while the bytes at hand do not settle the
request, so what it answers is what those bytes say.

    Until P b b':  b' is b after the first pulls at which P holds or the peer is done
    Until (settled) b b' → hsReadRequest b lim answers (requestOf lim b'.data)    (hsReadRequest_run)

### Algorithm

Every reading loop is followed by one induction on `Until`; a loop inside another is split
off the longer run, since what the outer loop waits for includes what the inner one does.
-/

open Net

/-- A transport that holds the pieces still to come, none of them empty. -/
class Pieces (T : Type) where
  pieces : T → List (List Int)
  next : T → T
  pieces_next : ∀ t, pieces (next t) = (pieces t).tail
  pieces_ne : ∀ t, ∀ p ∈ pieces t, p ≠ []

/-- Each fill hands over the next piece, or reports the end. -/
class PieceWire (ρ T : Type) [Wire ρ T] [Pieces T] : Prop where
  fill : ∀ (t : T) (held : List Int) (want cap : Int) (w : World ρ),
    wireFill t held want cap w =
      some (⟨Pieces.next t, held ++ (Pieces.pieces t).headD [], (Pieces.pieces t).isEmpty⟩, w)

variable {ρ T : Type} [Wire ρ T] [Pieces T] [PieceWire ρ T]

/-- The buffer after one more piece, or at the end of the stream. -/
def HsBuf.pull (b : HsBuf T) : HsBuf T :=
  ⟨Pieces.next b.conn, b.data ++ (Pieces.pieces b.conn).headD [], (Pieces.pieces b.conn).isEmpty⟩

/-- `b'` is `b` after the first pulls that leave it with `P` or at the end. -/
inductive Until (P : List Int → Bool) : HsBuf T → HsBuf T → Prop
  | stop {b : HsBuf T} : P b.data = true ∨ b.eof = true → Until P b b
  | pull {b b' : HsBuf T} : P b.data = false → b.eof = false → Until P b.pull b' → Until P b b'

omit [Wire ρ T] [PieceWire ρ T] in
theorem Until.exists (P : List Int → Bool) (b : HsBuf T) : ∃ b', Until P b b' := by
  induction hn : (Pieces.pieces b.conn).length generalizing b with
  | zero =>
    by_cases hstop : P b.data = true ∨ b.eof = true
    · exact ⟨b, .stop hstop⟩
    · simp only [not_or, Bool.not_eq_true] at hstop
      have hend : b.pull.eof = true := List.isEmpty_iff.2 (List.length_eq_zero_iff.1 hn)
      exact ⟨b.pull, .pull hstop.1 hstop.2 (.stop (.inr hend))⟩
  | succ n ih =>
    by_cases hstop : P b.data = true ∨ b.eof = true
    · exact ⟨b, .stop hstop⟩
    · simp only [not_or, Bool.not_eq_true] at hstop
      have hlen : (Pieces.pieces b.pull.conn).length = n := by
        show (Pieces.pieces (Pieces.next b.conn)).length = n
        rw [Pieces.pieces_next, List.length_tail, hn]
        rfl
      obtain ⟨b', hb'⟩ := ih b.pull hlen
      exact ⟨b', .pull hstop.1 hstop.2 hb'⟩

omit [Wire ρ T] [PieceWire ρ T] in
/-- A run that may stop where it starts has stopped there. -/
theorem Until.eq_of_stop {P : List Int → Bool} {b b' : HsBuf T} (h : Until P b b')
    (hstop : P b.data = true ∨ b.eof = true) : b' = b := by
  cases h with
  | stop => rfl
  | pull hP heof =>
    rcases hstop with hstop | hstop
    · rw [hP] at hstop
      cases hstop
    · rw [heof] at hstop
      cases hstop

omit [Wire ρ T] [PieceWire ρ T] in
theorem Until.stopped {P : List Int → Bool} {b b' : HsBuf T} (h : Until P b b') :
    P b'.data = true ∨ b'.eof = true := by
  induction h with
  | stop h => exact h
  | pull _ _ _ ih => exact ih

omit [Wire ρ T] [PieceWire ρ T] in
theorem Until.prefix {P : List Int → Bool} {b b' : HsBuf T} (h : Until P b b') :
    ∃ y, b'.data = b.data ++ y := by
  induction h with
  | stop => exact ⟨[], (List.append_nil _).symm⟩
  | pull _ _ _ ih =>
    obtain ⟨y, hy⟩ := ih
    exact ⟨_, by rw [hy, HsBuf.pull, List.append_assoc]⟩

omit [Wire ρ T] [PieceWire ρ T] in
/-- A run waits for `Q` on its way when `P` includes it. -/
theorem Until.split {P Q : List Int → Bool} {b b' : HsBuf T} (h : Until P b b')
    (hPQ : ∀ y, P (b.data ++ y) = true → Q (b.data ++ y) = true) :
    ∃ c, Until Q b c ∧ Until P c b' := by
  induction h with
  | stop hstop =>
    rename_i b
    refine ⟨b, .stop ?_, .stop hstop⟩
    rcases hstop with hstop | hstop
    · have hQ := hPQ []
      rw [List.append_nil] at hQ
      exact .inl (hQ hstop)
    · exact .inr hstop
  | pull hP heof hrest ih =>
    rename_i b b'
    by_cases hQ : Q b.data = true
    · exact ⟨b, .stop (.inl hQ), .pull hP heof hrest⟩
    · obtain ⟨c, hbc, hcb'⟩ := ih (by
        intro y
        rw [HsBuf.pull, List.append_assoc]
        exact hPQ _)
      exact ⟨c, .pull (Bool.eq_false_iff.2 hQ) heof hbc, hcb'⟩

omit [Wire ρ T] [PieceWire ρ T] in
/-- The same run, read from byte `i` on. -/
theorem Until.from {P Q : List Int → Bool} {b b' : HsBuf T} {i : Nat} (h : Until P b b')
    (hi : i ≤ b.data.length) (hPQ : ∀ y, P (b.data ++ y) = Q ((b.data ++ y).drop i)) :
    Until Q (b.from i) (b'.from i) := by
  induction h with
  | stop hstop =>
    have hP := hPQ []
    rw [List.append_nil] at hP
    apply Until.stop
    rw [hP] at hstop
    exact hstop
  | pull hP heof hrest ih =>
    rename_i b b'
    have hP' := hPQ []
    rw [List.append_nil] at hP'
    rw [hP'] at hP
    have hpull : b.pull.from i = (b.from i).pull := by
      simp only [HsBuf.from, HsBuf.pull, List.drop_append_of_le_length hi]
    refine .pull hP heof ?_
    rw [← hpull]
    apply ih
    · show i ≤ (b.data ++ _).length
      rw [List.length_append]
      omega
    · intro y
      rw [HsBuf.pull, List.append_assoc]
      exact hPQ _

omit [Wire ρ T] [PieceWire ρ T] in
theorem Until.congr {P Q : List Int → Bool} {b b' : HsBuf T} (h : Until P b b')
    (hPQ : ∀ y, P (b.data ++ y) = Q (b.data ++ y)) : Until Q b b' :=
  h.from (Nat.zero_le _) hPQ

/-! ## Filling -/

omit [PieceWire ρ T] [Pieces T] in
theorem hsFill_stop {b : HsBuf T} {want cap : Int} (w : World ρ)
    (h : b.eof = true ∨ (b.data.length : Int) ≥ want) : hsFill b want cap w = some (b, w) := by
  rw [hsFill_eq, hsFillStep, if_pos]
  · rfl
  · rcases h with h | h
    · exact .inl h
    · exact .inr (.inl h)

theorem hsFill_pull {b : HsBuf T} {want cap : Int} (w : World ρ) (heof : b.eof = false)
    (hlen : (b.data.length : Int) < want) (hcap : want ≤ cap + 1) :
    hsFill b want cap w = hsFill b.pull want cap w := by
  rw [hsFill_eq, hsFillStep, if_neg]
  · refine (bind_run (PieceWire.fill b.conn b.data want cap w)).trans ?_
    show (if b.pull.eof = true ∨ (b.pull.data.length : Int) ≥ want ∨
      (b.pull.data.length : Int) > cap then pure b.pull else hsFill b.pull want cap) w = _
    by_cases hstop : b.pull.eof = true ∨ (b.pull.data.length : Int) ≥ want ∨
        (b.pull.data.length : Int) > cap
    · rw [if_pos hstop, hsFill_eq, hsFillStep, if_pos hstop]
    · rw [if_neg hstop]
  · rw [heof]
    simp only [Bool.false_eq_true, false_or, not_or]
    omega

theorem hsFill_run {b b' : HsBuf T} {want cap : Int} (w : World ρ) (hcap : want ≤ cap + 1)
    (h : Until (fun d => decide ((d.length : Int) ≥ want)) b b') :
    hsFill b want cap w = some (b', w) := by
  induction h with
  | stop hstop =>
    apply hsFill_stop
    rcases hstop with hstop | hstop
    · exact .inr (of_decide_eq_true hstop)
    · exact .inl hstop
  | pull hP heof _ ih =>
    rw [hsFill_pull w heof (by simpa using hP) hcap]
    exact ih

/-- One more byte asked for is one more piece. -/
theorem hsFill_more {b : HsBuf T} {cap : Int} (w : World ρ) (heof : b.eof = false)
    (hcap : (b.data.length : Int) ≤ cap) :
    hsFill b (b.data.length + 1) cap w = some (b.pull, w) := by
  apply hsFill_run w (by omega)
  refine .pull (by simp) heof (.stop ?_)
  cases hp : Pieces.pieces b.conn with
  | nil => exact .inr (by rw [HsBuf.pull, hp]; rfl)
  | cons p ps =>
    have hne : p ≠ [] := Pieces.pieces_ne b.conn p (by rw [hp]; exact List.mem_cons_self)
    have hpos := List.length_pos_iff.2 hne
    refine .inl ?_
    rw [HsBuf.pull, hp, decide_eq_true_eq, List.headD_cons, List.length_append]
    omega

end Http

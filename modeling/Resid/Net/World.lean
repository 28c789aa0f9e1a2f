import Mathlib.Control.Monad.Basic

/-!
# What a connection sees and does

One connection runs in a world: what the peer's bytes, the socket's room and the random
generator will answer, and a record of what the connection has done so far.  An operation
of type `Eff ρ α` reads and changes the world, and is `none` where it never returns.

    x w = some (a, w') → (x >>= f) w = f a w'                         (bind_run)
-/

namespace Net

/-- What a connection does to the outside, in order; `ρ` is the type of a request. -/
inductive Act (ρ : Type)
  | received (b : List Int)
  | sent (b : List Int)
  | sealed (key : List Int) (seq : Int)
  | asked (r : ρ)
  | deadline (ms : Int)
  | shutdown
  | closed

/-- The answers the outside has ready, and what the connection has done. -/
structure World (ρ : Type) where
  /-- The pieces that successive reads of the socket find; none left is the end. -/
  arrivals : List (List Int)
  /-- What successive sends into the socket's room answer. -/
  rooms : List Int
  /-- Whether successive whole sends succeed. -/
  sends : List Bool
  /-- The random bytes drawn next. -/
  draws : List (List Int)
  acts : List (Act ρ)

abbrev Eff (ρ : Type) := StateT (World ρ) Option

variable {ρ α β : Type}

def act (a : Act ρ) : Eff ρ Unit := fun w => some ((), { w with acts := w.acts ++ [a] })

/-- At most `n` bytes of what has arrived; none when the peer is done. -/
def tcpRecvSome (n : Nat) : Eff ρ (List Int) := fun w =>
  match w.arrivals with
  | [] => some ([], w)
  | p :: ps =>
    let got := p.take n
    let left := if p.length ≤ n then ps else p.drop n :: ps
    some (got, { w with arrivals := left, acts := w.acts ++ [.received got] })

/-- The bytes of `b` the socket has room for, their count answered; negative on an error. -/
def tcpSendSome (b : List Int) : Eff ρ Int := fun w =>
  let room := w.rooms.headD 0
  let took := b.take room.toNat
  let answer := if room < 0 then room else (took.length : Int)
  some (answer, { w with rooms := w.rooms.tail, acts := w.acts ++ [.sent took] })

def tcpDeadline (ms : Int) : Eff ρ Unit := act (.deadline ms)

def tcpShutdown : Eff ρ Unit := act .shutdown

def tcpClose : Eff ρ Bool := fun w => some (true, { w with acts := w.acts ++ [.closed] })

/-! ## Running -/

theorem bind_run {x : Eff ρ α} {f : α → Eff ρ β} {w w' : World ρ} {a : α}
    (h : x w = some (a, w')) : (x >>= f) w = f a w' := by
  show (x w).bind (fun p => f p.1 p.2) = f a w'
  rw [h]
  rfl

end Net

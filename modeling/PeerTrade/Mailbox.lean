/-!
# Mailboxes

A mailbox holds a limited number of messages for one reader. Whoever finds it full waits in line;
a place that becomes free belongs to the first in line, who is thereby admitted and puts the
message in as soon as it gets a turn. Those who are not in line find a place only if none of them
has been promised to somebody else.
-/

namespace PeerTrade

/-- A mailbox for messages of type `α` from senders of type `σ`. -/
structure Mailbox (σ α : Type) where
  /-- How many messages it holds. -/
  capacity : Nat
  /-- Whether it is kept open even if nobody waits to put something in. -/
  kept : Bool := true
  /-- The messages that have not been read, oldest first. -/
  queue : List α := []
  /-- Those who wait for a place, with their messages, first come first. -/
  waiting : List (σ × α) := []
  /-- Those who have been promised a place, with their messages. -/
  admitted : List (σ × α) := []

/-- What became of a message. -/
inductive Delivery where
  /-- It lies in the mailbox. -/
  | delivered
  /-- Its sender waits for a place. -/
  | waiting
  /-- Nobody reads the mailbox any more. -/
  | refused
  deriving DecidableEq, Repr

namespace Mailbox

variable {σ α : Type}

/-- An empty mailbox for `capacity` messages, and for one at least. -/
def new (capacity : Nat) : Mailbox σ α := { capacity := max capacity 1 }

/-- Whether there is a place that nobody has been promised. -/
def hasPlace (m : Mailbox σ α) : Bool := m.queue.length + m.admitted.length < m.capacity

/-- Whether anybody can still put something in. -/
def isReachable (m : Mailbox σ α) : Bool :=
  m.kept || !m.waiting.isEmpty || !m.admitted.isEmpty

/-- Those who wait or have been admitted. -/
def senders (m : Mailbox σ α) : List σ := (m.admitted ++ m.waiting).map (·.1)

/-- Puts a message in, or puts its sender in line; says which. -/
def offer (m : Mailbox σ α) (sender : σ) (message : α) : Mailbox σ α × Delivery :=
  if m.hasPlace then ({ m with queue := m.queue ++ [message] }, .delivered)
  else ({ m with waiting := m.waiting ++ [(sender, message)] }, .waiting)

/-- Promises a free place to the first in line; says to whom. -/
def promise (m : Mailbox σ α) : Mailbox σ α × Option σ :=
  match m.waiting with
  | [] => (m, none)
  | (sender, message) :: rest =>
    if m.hasPlace then
      ({ m with waiting := rest, admitted := m.admitted ++ [(sender, message)] }, some sender)
    else (m, none)

/-- Reads the oldest message; says who is admitted to its place. -/
def take (m : Mailbox σ α) : Option (α × Mailbox σ α × Option σ) :=
  match m.queue with
  | [] => none
  | message :: queue => some (message, { m with queue }.promise)

variable [BEq σ]

/-- A sender who was admitted puts its message in. -/
def enter (m : Mailbox σ α) (sender : σ) : Option (Mailbox σ α) :=
  (m.admitted.lookup sender).map fun message =>
    { m with queue := m.queue ++ [message], admitted := m.admitted.filter (·.1 != sender) }

/-- A sender gives up; says who is admitted in its stead. -/
def withdraw (m : Mailbox σ α) (sender : σ) : Mailbox σ α × Option σ :=
  promise { m with
    waiting := m.waiting.filter (·.1 != sender)
    admitted := m.admitted.filter (·.1 != sender) }

end Mailbox

end PeerTrade

import PeerTrade.Notice.Basic

/-!
# The notice board

Notices are posted on a board that keeps the latest ones, up to its capacity. A subscription
reads them in order, from the first one that was posted after it began; it may be limited to one
trade. Posting never waits: a reader that falls behind by more than the capacity misses the oldest
notices and nothing else. What was posted before the board was closed can still be read.
-/

namespace PeerTrade

/-- The notices that can still be read. -/
structure Board where
  /-- How many notices are kept: a power of two. -/
  capacity : Nat
  /-- How many notices were ever posted. -/
  posted : Nat := 0
  /-- The latest notices, oldest first. -/
  kept : List Notice := []
  /-- Whether nothing will be posted any more. -/
  closed : Bool := false

/-- A reader of notices. -/
structure Subscription where
  /-- The only trade that is read about, if there is one. -/
  tradeId : Option String
  /-- How many notices lie behind the reader. -/
  position : Nat
  deriving DecidableEq, Repr

namespace Subscription

/-- Whether a notice is one that the reader wants. -/
def wants (s : Subscription) (n : Notice) : Bool := s.tradeId.all (· == n.tradeId)

end Subscription

namespace Board

/-- A board for at least `capacity` notices: the next power of two, and at least one. -/
def new (capacity : Nat) : Board := { capacity := (max capacity 1).nextPowerOfTwo }

/-- Posts a notice; the oldest one goes if the board is full. -/
def post (b : Board) (n : Notice) : Board :=
  let kept := b.kept ++ [n]
  { b with posted := b.posted + 1, kept := kept.drop (kept.length - b.capacity) }

/-- A subscription that begins now. -/
def subscribe (b : Board) (tradeId : Option String) : Subscription := ⟨tradeId, b.posted⟩

/-- Nothing will be posted any more. -/
def close (b : Board) : Board := { b with closed := true }

/-- The place of the oldest notice that is kept, counted from the first one ever posted. -/
def oldest (b : Board) : Nat := b.posted - b.kept.length

/-- What a reader finds who looks at the board once. -/
inductive Sighting where
  | notice (n : Notice)
  /-- So many notices that the reader had not passed are gone. -/
  | lagged (missed : Nat)
  /-- There is nothing yet. -/
  | empty
  /-- There will never be anything again. -/
  | closed
  deriving DecidableEq, Repr

/-- One look at the board. A reader that has fallen behind is told so before anything else, and
goes on at the oldest notice that is left. -/
def look (b : Board) (s : Subscription) : Subscription × Sighting :=
  if s.position < b.oldest then
    ({ s with position := b.oldest }, .lagged (b.oldest - s.position))
  else
    match b.kept[s.position - b.oldest]? with
    | some n => ({ s with position := s.position + 1 }, .notice n)
    | none => (s, if b.closed then .closed else .empty)

/-- How far a reader is from the end of the board. -/
def ahead (b : Board) (s : Subscription) : Nat := b.oldest + b.kept.length - s.position

theorem ahead_of_lagged {b : Board} {s s' : Subscription} {missed : Nat}
    (h : b.look s = (s', .lagged missed)) : b.ahead s' < b.ahead s := by
  grind [look, ahead]

theorem ahead_of_notice {b : Board} {s s' : Subscription} {n : Notice}
    (h : b.look s = (s', .notice n)) : b.ahead s' < b.ahead s := by
  grind [look, ahead]

/-- The next notice that the reader wants, if one can be read. The reader passes over everything
in front of it. -/
def read (b : Board) (s : Subscription) : Subscription × Option Notice :=
  match _h : b.look s with
  | (s', .notice n) => if s'.wants n then (s', some n) else b.read s'
  | (s', .lagged _) => b.read s'
  | (s', .empty) | (s', .closed) => (s', none)
termination_by b.ahead s
decreasing_by
  · exact ahead_of_notice _h
  · exact ahead_of_lagged _h

/-- What a reader gets who is ready to wait. -/
inductive Received where
  | notice (n : Notice)
  /-- There is nothing yet. -/
  | pending
  /-- There will never be anything again. -/
  | closed
  deriving DecidableEq, Repr

/-- The next notice that the reader wants, or whether it is worth waiting for one. A reader who
waits looks again when something has been posted or the board is closed. -/
def receive (b : Board) (s : Subscription) : Subscription × Received :=
  match _h : b.look s with
  | (s', .notice n) => if s'.wants n then (s', .notice n) else b.receive s'
  | (s', .lagged _) => b.receive s'
  | (s', .empty) => (s', .pending)
  | (s', .closed) => (s', .closed)
termination_by b.ahead s
decreasing_by
  · exact ahead_of_notice _h
  · exact ahead_of_lagged _h

/-- Reads notices until none is left, at most `fuel` of them. -/
def readUpTo (b : Board) : (fuel : Nat) → Subscription → Subscription × List Notice
  | 0, s => (s, [])
  | fuel + 1, s =>
    match b.read s with
    | (s, none) => (s, [])
    | (s, some n) =>
      let (s, rest) := readUpTo b fuel s
      (s, n :: rest)

/-- Reads every notice that can be read. -/
def drain (b : Board) (s : Subscription) : Subscription × List Notice :=
  b.readUpTo (b.kept.length + 1) s

end Board

end PeerTrade

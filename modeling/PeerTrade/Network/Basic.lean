import PeerTrade.Node.Step
import PeerTrade.Node.Trades

/-!
# Networks

A network consists of named nodes, some of which are paired: what a node with a peer sends is
carried to the worker of the trade at the peer. Everybody who acts at some node takes turns. Those
who were woken stand in line, and the first in line takes steps until it has nothing to do
(`Network.tick`). The network is at rest when nobody is in line. Time passes only by
`Network.advance`, which stops at every moment at which a timer is due.
-/

namespace PeerTrade

/-- Nodes, and who is next. -/
structure Network where
  nodes : Dict String Node := {}
  /-- The node to which the messages of a node are carried. -/
  peers : Dict String String := {}
  /-- The worker at the peer in whose line the carrier of a node waits. -/
  carrying : Dict String Nat := {}
  /-- Those who may have something to do, and at which node they are. -/
  line : List (String × Actor) := []
  time : Time

namespace Network

/-! ## The line -/

/-- Where an actor stands in line. A carrier belongs to the node whose messages it carries, and a
caller does not stand in line. -/
def home (name : String) : Actor → Option (String × Actor)
  | .carrier source => some (source, .carrier source)
  | .caller _ => none
  | a => some (name, a)

/-- Puts somebody at the end of the line who does not stand in it. -/
def queueUp (line : List (String × Actor)) (turn : String × Actor) : List (String × Actor) :=
  if line.contains turn then line else line ++ [turn]

/-- Changes a node, and puts those in line who were woken there. -/
def setNode (w : Network) (name : String) (n : Node) : Network :=
  { w with
    nodes := w.nodes.insert name { n with woken := [] }
    line := (n.woken.filterMap (home name)).foldl queueUp w.line }

/-- Adds a node, in place of one of the same name, whose remaining turns are void. -/
def install (w : Network) (name : String) (n : Node) (peer : Option String) : Network :=
  let w := { w with
    line := w.line.filter (·.1 != name)
    carrying := w.carrying.erase name
    peers := match peer with
      | some p => w.peers.insert name p
      | none => w.peers.erase name }
  w.setNode name n

/-! ## Carrying messages -/

/-- Notes where the carrier of a node stands after it has tried to hand a message over. -/
def noteCarrier (w : Network) (source : String) (k : Nat) : Delivery → Network
  | .waiting => { w with carrying := w.carrying.insert source k }
  | .delivered | .refused => { w with carrying := w.carrying.erase source }

/-- The carrier takes a message from a node, and hands it to the worker of its trade at the peer.
There is nobody to hand it to if the peer does not run that trade. -/
def carryNext (w : Network) (source peer : String) : Option Network := do
  let n ← w.nodes.get? source
  let (link, message) := n.link.take
  let m ← message
  let w := w.setNode source { n with link }
  let target ← w.nodes.get? peer
  match target.live.get? m.tradeId with
  | none => pure w
  | some k =>
    let (target, delivery) := target.deliver k (.carrier source) (.event (.inbound m) none)
    pure ((w.setNode peer target).noteCarrier source k delivery)

/-- A step of the carrier of a node. -/
def carry (w : Network) (source : String) : Option Network := do
  let peer ← w.peers.get? source
  match w.carrying.get? source with
  | none => w.carryNext source peer
  | some k =>
    let target ← w.nodes.get? peer
    match target.enter k (.carrier source) with
    | (_, .waiting) => none
    | (target, delivery) => pure ((w.setNode peer target).noteCarrier source k delivery)

/-! ## Turns -/

/-- A step of somebody at a node. -/
def move (w : Network) (name : String) (a : Actor) : Option Network :=
  match a with
  | .carrier source => w.carry source
  | a => do
    let n ← w.nodes.get? name
    pure (w.setNode name (← n.step w.time a))

/-- The first in line takes a step, or leaves the line if it has nothing to do. -/
def tick (w : Network) : Option Network :=
  match w.line with
  | [] => none
  | (name, a) :: rest => some ((w.move name a).getD { w with line := rest })

/-- Lets turns be taken until the network is at rest or the fuel is used up. -/
def settleFor : (fuel : Nat) → Network → Network
  | 0, w => w
  | fuel + 1, w =>
    match w.tick with
    | some w => settleFor fuel w
    | none => w

/-- How many turns the network takes at most before it is considered to be at rest. Only tables
that answer each other for ever need so many. -/
def patience : Nat := 10000000

/-- Lets turns be taken until the network is at rest. -/
def settle (w : Network) : Network := w.settleFor patience

/-! ## Time -/

/-- The times at which the timers of a node are due that nobody has woken. -/
def dueTimes (n : Node) : List Nat :=
  n.timers.values.filterMap fun t => if t.sending then none else some t.due

/-- The next time at which a timer is due, if that is not beyond a limit. -/
def nextDue (w : Network) (limit : Nat) : Option Nat :=
  ((w.nodes.values.flatMap dueTimes).filter (· ≤ limit)).min?

/-- Wakes the timers of a node that are due at a moment. -/
def ring (time : Nat) (n : Node) : Node :=
  n.wake (n.timers.entries.filterMap fun (number, t) =>
    if t.due = time then some (.timer number) else none)

/-- Moves the clock of the timers forward, to a moment at which timers are due. -/
def moveTo (w : Network) (elapsed : Nat) : Network :=
  let w := { w with time := { w.time with elapsed := max w.time.elapsed elapsed } }
  w.nodes.entries.foldl (fun w (name, n) => w.setNode name (ring elapsed n)) w

/-- Goes from one due time to the next, and lets the network come to rest at each. -/
def advanceFor : (fuel : Nat) → (target : Nat) → Network → Network
  | 0, target, w => (w.moveTo target).settle
  | fuel + 1, target, w =>
    match w.nextDue target with
    | some time => advanceFor fuel target (w.moveTo time).settle
    | none => (w.moveTo target).settle

/-- Lets time pass. -/
def advance (w : Network) (d : Duration) : Network :=
  let w := w.settle
  w.advanceFor patience (w.time.elapsed + d.nanos)

end Network

end PeerTrade

import PeerTrade.Protocol.Basic
import PeerTrade.SetupError

/-!
# Drafts of transition tables

A table is drafted by declarations: each says for one kind of event, and for a list of states,
which transition is taken. No entry is ever overwritten. A declaration that meets a state which
already has an entry is refused there; the states in front of it keep the entry they just got.
An entry for a message is guarded by the draft's envelope guard in front of its own.
-/

namespace PeerTrade

/-- One declaration: the transition for a kind of event from each of some states. -/
structure Declaration where
  states : List State
  event : EventKind
  transition : Transition
  deriving DecidableEq, Repr

/-- A table in the making. -/
structure Draft where
  combination : Combination
  /-- The guard in front of the guards of every message. -/
  envelope : Guard := .envelope
  table : Table := {}

namespace Draft

/-- The transition that a declaration enters into the table. -/
def entry (d : Draft) (decl : Declaration) : Transition :=
  if decl.event.isMessage then
    { decl.transition with guards := d.envelope :: decl.transition.guards }
  else decl.transition

/-- Enters a transition for each of some states, up to the first one that has an entry. -/
def enter (event : EventKind) (t : Transition) : Table → List State → Table × Option State
  | table, [] => (table, none)
  | table, state :: rest =>
    if table.contains ⟨state, event⟩ then (table, some state)
    else enter event t (table.insert ⟨state, event⟩ t) rest

/-- Carries out a declaration; the error names the state at which it was refused. -/
def declare (d : Draft) (decl : Declaration) : Draft × Option SetupError :=
  let (table, conflict) := enter decl.event (d.entry decl) d.table decl.states
  ({ d with table }, conflict.map fun state => .conflictingTransition state decl.event)

/-- Carries out declarations in order and collects the answer to each. -/
def declareAll (d : Draft) : List Declaration → Draft × List (Option SetupError)
  | [] => (d, [])
  | decl :: rest =>
    let (d, refusal) := d.declare decl
    let (d, refusals) := d.declareAll rest
    (d, refusal :: refusals)

/-- The finished table; a trade starts in the initial state. -/
def build (d : Draft) : Protocol where
  combination := d.combination
  initial := .init
  table := d.table

end Draft

end PeerTrade

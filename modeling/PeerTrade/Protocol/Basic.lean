import PeerTrade.Dict
import PeerTrade.Event.Kind
import PeerTrade.Role
import PeerTrade.State

/-!
# Transition tables

A `Protocol` is the transition table of one role in one settlement mechanism. Its entries are
data: for a state and a kind of event they name the state to go to, the guards that have to hold,
the message to send and the deadlines to arm and to clear. A state that the table offers no way
out of is terminal.
-/

namespace PeerTrade

/-! ## Entries -/

/-- A condition on an event, by name; `Guard.check` says what it asks for. Besides those that are built
in, a table may have guards that the surrounding program supplies. -/
inductive Guard where
  | envelope
  | termsMatch
  | signature
  | messagePayload
  | commandPayload
  | commandSigned
  | depositConfirmed
  | fiatReceiptConfirmed
  /-- A guard that is not built in, by its name and by the address of its code. -/
  | custom (name : String) (code : Nat)
  deriving DecidableEq, Inhabited, Repr

namespace Guard

/-- The catalog of the guards that are built in. -/
instance : Catalog Guard where
  all := [envelope, termsMatch, signature, messagePayload, commandPayload, commandSigned,
    depositConfirmed, fiatReceiptConfirmed]
  index := Guard.ctorIdx
  name
    | envelope => "envelope"
    | termsMatch => "terms-match"
    | signature => "signature"
    | messagePayload => "message-payload"
    | commandPayload => "command-payload"
    | commandSigned => "command-signed"
    | depositConfirmed => "deposit-confirmed"
    | fiatReceiptConfirmed => "fiat-receipt-confirmed"
    | custom name _ => name

end Guard

/-- Where the body of a message comes from. -/
inductive PayloadSource where
  | empty
  /-- The fingerprint of the trade's terms. -/
  | termsFingerprint
  /-- Payload and signature of the command that caused the transition. -/
  | command
  deriving DecidableEq, Inhabited, Repr

namespace PayloadSource

instance : Catalog PayloadSource where
  all := [empty, termsFingerprint, command]
  index := PayloadSource.ctorIdx
  name
    | empty => "Empty"
    | termsFingerprint => "TermsFingerprint"
    | command => "Command"

instance : LawfulCatalog PayloadSource where
  all_index a := by cases a <;> rfl
  index_all := by decide

end PayloadSource

/-- The message that a transition sends. -/
structure Emission where
  kind : MessageKind
  payload : PayloadSource
  deriving DecidableEq, Repr

/-- One entry of a transition table. -/
structure Transition where
  target : State
  /-- The conditions, in the order in which they are checked. -/
  guards : List Guard := []
  send : Option Emission := none
  arm : List DeadlineKind := []
  clear : List DeadlineKind := []
  deriving DecidableEq, Repr

/-! ## Keys -/

/-- What an entry is looked up by. -/
structure Trigger where
  state : State
  event : EventKind
  deriving DecidableEq, Repr

namespace Trigger

/-- Entries are listed by state, and for one state by kind of event. -/
instance : Ord Trigger := ⟨compareLex (compareOn state) (compareOn event)⟩

instance : Std.TransOrd Trigger :=
  inferInstanceAs (Std.TransCmp (compareLex (compareOn state) (compareOn event)))

instance : Std.LawfulEqOrd Trigger where
  eq_of_compare {a b} h := by
    obtain ⟨hs, he⟩ := Ordering.then_eq_eq.1 h
    have hstate : a.state = b.state := Std.LawfulEqOrd.eq_of_compare hs
    have hevent : a.event = b.event := Std.LawfulEqOrd.eq_of_compare he
    cases a
    cases b
    cases hstate
    cases hevent
    rfl

end Trigger

/-! ## Tables -/

/-- The entries of a table. -/
abbrev Table := Dict Trigger Transition

/-- The transition table of one combination. -/
structure Protocol where
  combination : Combination
  /-- The state in which a trade starts. -/
  initial : State
  table : Table
  deriving DecidableEq

namespace Protocol

/-- The entry for an event in a state. -/
def lookup (p : Protocol) (state : State) (event : EventKind) : Option Transition :=
  p.table.get? ⟨state, event⟩

/-- Whether the table offers no way out of a state. -/
def isTerminal (p : Protocol) (state : State) : Bool :=
  !p.table.keys.any fun trigger => trigger.state = state

/-- The kinds of events that have an entry in a state, in table order. -/
def accepted (p : Protocol) (state : State) : List EventKind :=
  (p.table.keys.filter fun trigger => trigger.state = state).map (·.event)

/-- A state is terminal exactly if no event has an entry in it. -/
theorem isTerminal_iff (p : Protocol) (state : State) :
    p.isTerminal state = true ↔ ∀ event, p.lookup state event = none := by
  simp only [isTerminal, Bool.not_eq_true', List.any_eq_false, decide_eq_true_eq, lookup]
  constructor
  · intro h event
    cases hv : p.table.get? ⟨state, event⟩ with
    | none => rfl
    | some t =>
      exact absurd rfl (h ⟨state, event⟩ (Dict.mem_keys_iff.2 (by simp [Dict.contains, hv])))
  · rintro h ⟨s, event⟩ hmem rfl
    have := Dict.mem_keys_iff.1 hmem
    simp [Dict.contains, h event] at this

end Protocol

end PeerTrade

import PeerTrade.Engine.Guards
import PeerTrade.Engine.Rejection
import PeerTrade.Settings.Deadlines

/-!
# The engine

The engine decides what an event does to a trade. The checks come in a fixed order: a finalized
trade refuses everything; an event that was already acted upon is refused before any guard is
asked; then the transition table must have an entry; then the guards of the entry must hold, in
their order. If all checks pass the transition is committed: the trade takes the next sequence
and the new state, and what has to be done outside of the trade is returned as a list of effects.
-/

namespace PeerTrade

/-! ## Outcomes -/

/-- What has to be done outside of the trade after a commit. -/
inductive Effect where
  | send (message : Outbound)
  | arm (id : DeadlineId) (after : Duration)
  | clear (kind : DeadlineKind)
  deriving DecidableEq, Repr

/-- A transition that was carried out. -/
structure Commit where
  tradeId : String
  source : State
  target : State
  sequence : UInt64
  effects : List Effect
  finalized : Bool
  deriving DecidableEq, Repr

/-- The message that an effect is. -/
def Effect.message? : Effect → Option Outbound
  | send m => some m
  | arm .. | clear _ => none

/-- The messages among the effects. -/
def Commit.sent (c : Commit) : List Outbound := c.effects.filterMap Effect.message?

/-- What became of an event. -/
inductive Outcome where
  | committed (commit : Commit)
  | rejected (rejection : Rejection)
  deriving DecidableEq, Repr

/-- What the engine consults besides trade and event. -/
structure Engine where
  registry : Registry
  verifier : Verifier
  deadlines : DeadlineSettings := {}
  /-- The code of the guards that are not built in, by address. -/
  custom : Nat → CustomCheck := fun _ => {}

namespace Engine

/-- What the guards consult. -/
def context (e : Engine) : GuardContext := ⟨e.verifier, e.custom⟩

/-! ## Deciding -/

/-- Refuses an event that was already acted upon. -/
def checkReplay (t : Trade) : Event → Except Rejection Unit
  | .inbound m =>
    if m.sequence ≤ t.lastPeerSequence then
      .error ⟨.duplicate, Catalog.name m.kind ++ s!" with sequence {m.sequence}" ++
        s!" already consumed (last {t.lastPeerSequence})"⟩
    else .ok ()
  | .command c =>
    if t.hasConsumed c.id then .error ⟨.duplicate, "command " ++ c.id ++ " already consumed"⟩
    else .ok ()
  | .timeout id =>
    if (t.deadline? id.kind).any (·.id == id) then .ok ()
    else .error ⟨.duplicate,
      "deadline " ++ Catalog.name id.kind ++ s!" armed at {id.armedAt} is no longer pending"⟩

/-- The class of a rejection for want of an entry. -/
def missingEntry : EventKind → RejectReason
  | .command _ => .invalidOperation
  | .message _ | .timeout _ => .noMatchingTransition

/-- Asks guards one after the other. -/
def checkGuards (context : GuardContext) (t : Trade) (event : Event) :
    List Guard → Except Rejection Unit
  | [] => .ok ()
  | g :: rest =>
    match g.check context t event with
    | .ok () => checkGuards context t event rest
    | .error diagnosis => .error ⟨.guardFailed, Catalog.name g ++ ": " ++ diagnosis⟩

/-- The transition that an event would take. -/
def select (e : Engine) (t : Trade) (event : Event) : Except Rejection Transition := do
  if t.finalized then
    throw ⟨.finalized, "trade " ++ t.id ++ " already ended in " ++ Catalog.name t.state⟩
  checkReplay t event
  match t.protocol.lookup t.state event.kind with
  | none =>
    throw ⟨missingEntry event.kind,
      event.kind.text ++ " is not accepted in state " ++ Catalog.name t.state⟩
  | some transition =>
    checkGuards e.context t event transition.guards
    pure transition

/-- Whether some guards, asked in order, come to ask the verifier. -/
def asksVerifier (context : GuardContext) (t : Trade) (event : Event) : List Guard → Bool
  | [] => false
  | g :: rest =>
    g.asksVerifier context t event ||
      match g.check context t event with
      | .ok () => asksVerifier context t event rest
      | .error _ => false

/-- Whether deciding on an event breaks down, since it needs a verifier that does. -/
def crashesOn (e : Engine) (t : Trade) (event : Event) : Bool :=
  e.verifier.crashes && !t.finalized && (checkReplay t event).isOk &&
    match t.protocol.lookup t.state event.kind with
    | none => false
    | some transition => asksVerifier e.context t event transition.guards

/-! ## Committing -/

/-- Notes that an event was acted upon. -/
def consume (t : Trade) : Event → Trade
  | .inbound m => { t with lastPeerSequence := m.sequence }
  | .command c => t.remember c.id
  | .timeout id => t.disarm id.kind

/-- Disarms those of some kinds that are armed. -/
def clearAll : List DeadlineKind → Trade → Trade × List Effect
  | [], t => (t, [])
  | kind :: rest, t =>
    if t.deadlines.contains kind then
      let (t, effects) := clearAll rest (t.disarm kind)
      (t, .clear kind :: effects)
    else clearAll rest t

/-- Payload and signature of a message. -/
def body (t : Trade) (event : Event) : PayloadSource → Bytes × Bytes
  | .empty => ([], [])
  | .termsFingerprint => (Bytes.ofText t.termsFingerprint, [])
  | .command =>
    match event with
    | .command c => (c.payload, c.signature)
    | _ => ([], [])

/-- The message that a transition sends. -/
def compose (t : Trade) (event : Event) (e : Emission) : Outbound :=
  let (payload, signature) := body t event e.payload
  { tradeId := t.id, sequence := t.sequence, kind := e.kind, payload, signature }

/-- Arms deadlines from now on. -/
def armAll (settings : DeadlineSettings) (now : Instant) :
    List DeadlineKind → Trade → Trade × List Effect
  | [], t => (t, [])
  | kind :: rest, t =>
    let id : DeadlineId := ⟨kind, t.sequence⟩
    let after := settings.duration kind
    let (t, effects) := armAll settings now rest (t.arm ⟨id, now.after after⟩)
    (t, .arm id after :: effects)

/-- Ends the trade if its table offers no way out of the state; otherwise arms deadlines. -/
def conclude (e : Engine) (now : Instant) (t : Trade) (arm : List DeadlineKind) :
    Trade × List Effect :=
  if t.protocol.isTerminal t.state then (t.finalize, t.deadlines.keys.map .clear)
  else armAll e.deadlines now arm t

/-- Carries a transition out. -/
def commit (e : Engine) (now : Instant) (t : Trade) (event : Event) (transition : Transition) :
    Trade × Commit :=
  let source := t.state
  let t := consume (t.advance transition.target now) event
  let (t, cleared) := clearAll transition.clear t
  let sent := transition.send.toList.map fun emission => Effect.send (compose t event emission)
  let (t, concluded) := e.conclude now t transition.arm
  (t, { tradeId := t.id
        source
        target := transition.target
        sequence := t.sequence
        effects := cleared ++ sent ++ concluded
        finalized := t.protocol.isTerminal transition.target })

/-- Decides on an event and, if no check refuses it, carries the transition out. -/
def handle (e : Engine) (now : Instant) (t : Trade) (event : Event) : Trade × Outcome :=
  match e.select t event with
  | .error rejection => (t, .rejected rejection)
  | .ok transition =>
    let (t, commit) := e.commit now t event transition
    (t, .committed commit)

/-! ## Creating and restoring -/

/-- A new trade under the engine's registry. -/
def create (e : Engine) (now : Instant) (id : String) (combination : Combination)
    (terms : Terms) (counterparty : Peer) : Except SetupError Trade :=
  Trade.create e.registry now id combination terms counterparty

/-- A stored trade under the engine's registry. -/
def restore (e : Engine) (s : Snapshot) : Except SetupError Trade := Trade.restore e.registry s

end Engine

end PeerTrade

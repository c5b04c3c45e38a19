import PeerTrade.Event.Basic

/-!
# Links to the counterparty

A link carries the messages of one node. Every message that is sent gets the node's own identity
as its sender and is put into an outbox, from which another node takes it. While the other side is
out of reach, or once nobody takes messages any more, sending fails and delivers nothing.
-/

namespace PeerTrade

/-- Why a message was not delivered. -/
inductive LinkError where
  | unreachable (text : String)
  | refused (text : String)
  deriving DecidableEq, Repr

namespace LinkError

/-- The name of the kind of error. -/
def name : LinkError → String
  | unreachable _ => "Unreachable"
  | refused _ => "Refused"

/-- The error in words. -/
def message : LinkError → String
  | unreachable text => "peer unreachable: " ++ text
  | refused text => "message refused: " ++ text

end LinkError

/-- A link, with the messages that wait in its outbox. -/
structure Link where
  /-- The identity of the node. -/
  identity : Peer
  reachable : Bool := true
  /-- Whether somebody still takes messages. -/
  taken : Bool := true
  /-- The messages that have not been taken yet, oldest first. -/
  outbox : List Inbound := []
  /-- The number of messages that were delivered. -/
  sent : Nat := 0

namespace Link

/-- Sends a message. -/
def send (l : Link) (m : Outbound) : Link × Except LinkError Unit :=
  if !l.reachable then (l, .error (.unreachable ("loopback peer of " ++ l.identity.handle)))
  else if !l.taken then (l, .error (.refused "loopback outbox closed"))
  else
    ({ l with outbox := l.outbox ++ [m.toInbound l.identity], sent := l.sent + 1 }, .ok ())

/-- Takes the oldest message from the outbox. -/
def take (l : Link) : Link × Option Inbound :=
  match l.outbox with
  | [] => (l, none)
  | m :: rest => ({ l with outbox := rest }, some m)

/-- From now on nobody takes messages; those that wait are lost. -/
def close (l : Link) : Link := { l with taken := false, outbox := [] }

end Link

end PeerTrade

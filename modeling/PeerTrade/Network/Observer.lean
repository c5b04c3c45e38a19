import PeerTrade.Node.Basic

/-!
# Observers

An observer stands at a node and notes what has come to light there since it last looked: the
notices that can still be read, the writes that were finished, and, if nobody else carries them
away, the messages that were sent.
-/

namespace PeerTrade

/-- What has come to light at a node, in order. -/
structure Sight where
  notices : List Notice := []
  messages : List Inbound := []
  writes : List Attempt := []

instance : Append Sight :=
  ⟨fun a b => ⟨a.notices ++ b.notices, a.messages ++ b.messages, a.writes ++ b.writes⟩⟩

/-- How far an observer has seen. -/
structure Observer where
  reader : Subscription
  /-- How many finished writes it has seen. -/
  writes : Nat := 0

namespace Observer

/-- An observer who begins now. -/
def new (n : Node) : Observer := ⟨n.board.subscribe none, n.store.attempts.length⟩

/-- Looks at a node, and takes the messages away if they are for the observer. -/
def look (o : Observer) (n : Node) (takes : Bool) : Observer × Node × Sight :=
  let (reader, notices) := n.board.drain o.reader
  let writes := n.store.attempts.drop o.writes
  let o := ⟨reader, n.store.attempts.length⟩
  if takes then
    (o, { n with link := { n.link with outbox := [] } }, ⟨notices, n.link.outbox, writes⟩)
  else (o, n, ⟨notices, [], writes⟩)

end Observer

end PeerTrade

import PeerTrade.Protocol.Basic
import PeerTrade.Sha256
import PeerTrade.Text.Quoted

/-!
# Listings and fingerprints of transition tables

The listing of a table writes down everything that makes it what it is: its combination, its
initial state, and each entry on a line of its own, in table order. Equal tables have equal
listings however they were declared. The fingerprint is the digest of the listing; a stored trade
carries it, so that a trade is never continued under another table than the one it was begun
with.
-/

namespace PeerTrade

/-- The message that a transition sends, as it stands in a listing. -/
def Emission.listed (d : Emission) : String :=
  "Some(Outbound \x7b kind: " ++ Catalog.name d.kind ++ ", payload: " ++
    Catalog.name d.payload ++ " \x7d)"

namespace Protocol

/-- Names in brackets. -/
def listedNames {α : Type} [Catalog α] (members : List α) : String :=
  Text.bracketed (members.map Catalog.name)

/-- The line of one entry. -/
def listedEntry (trigger : Trigger) (t : Transition) : String :=
  Catalog.name trigger.state ++ "|" ++ trigger.event.listed ++ "->" ++ Catalog.name t.target ++
    "|" ++ listedNames t.guards ++ "|" ++ (t.send.map Emission.listed).getD "None" ++
    "|" ++ listedNames t.arm ++ "|" ++ listedNames t.clear ++ "\n"

/-- The whole table as text. -/
def listing (p : Protocol) : String :=
  Catalog.name p.combination.role ++ "/" ++ Catalog.name p.combination.settlement ++ "/" ++
    Catalog.name p.initial ++ "\n" ++
    String.join (p.table.entries.map fun e => listedEntry e.1 e.2)

/-- The digest of the listing. -/
def fingerprint (p : Protocol) : String := Sha256.hexDigest (Bytes.ofText p.listing)

/-- A table in one line: its combination, its size and its fingerprint. -/
def summary (p : Protocol) : String :=
  "ProtocolDefinition \x7b role: " ++ Catalog.name p.combination.role ++ ", variant: " ++
    Catalog.name p.combination.settlement ++ ", transitions: " ++ toString p.table.size ++
    ", fingerprint: " ++ Text.quoted p.fingerprint ++ " \x7d"

end Protocol

end PeerTrade

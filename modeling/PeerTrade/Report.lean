import PeerTrade.Instant.Calendar
import PeerTrade.Settings.Basic
import PeerTrade.Store.Backend
import PeerTrade.Text.Quoted
import PeerTrade.Trade.Basic

/-!
# Reports on a store

The program `trade-node` tells what its store holds, in log lines: one on the configuration if it
could be used, one for each record that cannot be read, one with the number of the others, and one
for each of those with the trade or the reason why it cannot be restored.
-/

namespace PeerTrade

/-- How urgent a line is. -/
inductive Level where
  | debug
  | info
  | error
  deriving DecidableEq, Repr

/-- The level in words. -/
def Level.text : Level → String
  | debug => "DEBUG"
  | info => "INFO"
  | error => "ERROR"

/-- A line of a log. -/
structure LogLine where
  level : Level
  /-- The part of the program that speaks. -/
  speaker : String
  message : String
  fields : List (String × String) := []
  deriving DecidableEq, Repr

/-- The line as it is printed. -/
def LogLine.text (l : LogLine) : String :=
  l.level.text ++ " " ++ l.speaker ++ ": " ++ l.message ++
    String.join (l.fields.map fun (key, value) => " " ++ key ++ "=" ++ value)

namespace Report

/-! ## Parts -/

/-- Tells that the configuration in a file is used. -/
def settings (file : String) : LogLine :=
  ⟨.info, "trade_protocol::config", "loaded config", [("path", file)]⟩

/-- Tells of a record that cannot be read. -/
def unreadable (id : String) (cause : DecodeError) : LogLine :=
  ⟨.error, "trade_protocol::store", "skipping unreadable snapshot",
    [("trade_id", id), ("error", (StoreError.decode cause).message)]⟩

/-- Tells how many records can be read. -/
def opened (path : String) (count : Nat) : LogLine :=
  ⟨.info, "trade_node", "store opened", [("path", path), ("trades", toString count)]⟩

/-- A deadline in words. -/
def deadlineText (d : Deadline) : String := Catalog.name d.id.kind ++ "@" ++ d.expiresAt.text

/-- Tells of a trade. -/
def trade (t : Trade) : LogLine :=
  ⟨.info, "trade_node", "trade",
    [("trade_id", Text.quoted t.id), ("role", Catalog.name t.combination.role),
      ("variant", Catalog.name t.combination.settlement), ("state", Catalog.name t.state),
      ("sequence", toString t.sequence), ("finalized", toString t.finalized),
      ("deadlines", Text.bracketed (t.deadlines.values.map (Text.quoted ∘ deadlineText)))]⟩

/-- Tells that a combination is known to have no table yet. -/
def unimplemented (c : Combination) : LogLine :=
  ⟨.debug, "trade_protocol::registry", "protocol combination is not implemented",
    [("role", Catalog.name c.role), ("variant", Catalog.name c.settlement)]⟩

/-- Tells why a trade cannot be restored. -/
def unrestorable (id : String) (cause : SetupError) : LogLine :=
  ⟨.error, "trade_node", "cannot restore trade", [("trade_id", id), ("error", cause.message)]⟩

/-- Tells of a snapshot. -/
def snapshot (registry : Registry) (s : Snapshot) : List LogLine :=
  match Trade.restore registry s with
  | .ok t => [trade t]
  | .error cause =>
    let known := match cause with
      | .unsupportedCombination c => if registry.isUnimplemented c then [unimplemented c] else []
      | _ => []
    known ++ [unrestorable s.tradeId cause]

/-- Tells that nothing will be written any more. -/
def closed : LogLine := ⟨.debug, "trade_protocol::store", "store writer stopped", []⟩

/-! ## The whole -/

/-- Everything that is told about the records of a store, whose place is set in a file that may
not be usable. -/
def lines (file : String) (settings? : Option Settings) (registry : Registry)
    (records : List Backend.Record) : List LogLine :=
  let unread := records.filterMap fun
    | .snapshot _ => none
    | .unreadable id cause => some (unreadable id cause)
  let read := records.filterMap fun
    | .snapshot s => some s
    | .unreadable .. => none
  (settings?.map fun _ => settings file).toList ++ unread ++
    [opened (settings?.getD {}).storePath read.length] ++ read.flatMap (snapshot registry) ++
    [closed]

end Report

end PeerTrade

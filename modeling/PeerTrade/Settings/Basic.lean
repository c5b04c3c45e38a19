import PeerTrade.Settings.Deadlines
import PeerTrade.Toml.Document

/-!
# Settings of a node

A node is set up by a configuration text in three sections: where its store lies, how its workers
are run, and how long its deadlines last. Every section and every field has a default, so a text
may leave out as much as it likes; what it holds beyond the known fields is passed over. A text
that does not follow the notation, or holds a value of the wrong kind in a known field, gives no
settings at all.
-/

namespace PeerTrade

/-! ## Sections -/

/-- How the workers of a node are run. -/
structure WorkerSettings where
  /-- How many messages a mailbox holds before senders wait. -/
  mailboxCapacity : UInt64 := 64
  /-- How many notices are kept for a subscriber that lags behind. -/
  noticeCapacity : UInt64 := 256
  /-- How often a worker hands in a snapshot again after failed writes. -/
  persistRetryLimit : UInt32 := 1
  deriving DecidableEq, Inhabited, Repr

/-- The settings of a node. -/
structure Settings where
  /-- The directory of the store. -/
  storePath : String := "data/trades"
  workers : WorkerSettings := {}
  deadlines : DeadlineSettings := {}
  deriving DecidableEq, Inhabited, Repr

namespace Settings

open Toml (Value)

/-! ## Reading -/

/-- A field of a section. A section is a table, or a list with its fields in order; a moment is a
section without fields. -/
def field (section_ : Value) (position : Nat) (name : String) : Option (Option Value) :=
  match section_ with
  | .table _ entries => some (entries.lookup name)
  | .array items => some items[position]?
  | .tables elements => some elements[position]?
  | .moment _ => some none
  | _ => none

/-- Reads a field, which has a default. -/
def fieldOr {α : Type} (section_ : Value) (position : Nat) (name : String) (default : α)
    (read : Value → Option α) : Option α := do
  match ← field section_ position name with
  | none => pure default
  | some v => read v

/-- Reads a text. -/
def text : Value → Option String
  | .text s => some s
  | _ => none

/-- Reads a number of sixty-four bits. -/
def uint64 : Value → Option UInt64
  | .integer (.ofNat n) => some (UInt64.ofNat n)
  | _ => none

/-- Reads a number of thirty-two bits. -/
def uint32 : Value → Option UInt32
  | .integer (.ofNat n) => if n < UInt32.size then some (UInt32.ofNat n) else none
  | _ => none

/-- Reads the section on the store. -/
def readStore (v : Value) : Option String := fieldOr v 0 "path" ({} : Settings).storePath text

/-- Reads the section on workers. -/
def readWorkers (v : Value) : Option WorkerSettings := do
  let d : WorkerSettings := {}
  let mailboxCapacity ← fieldOr v 0 "mailbox_capacity" d.mailboxCapacity uint64
  let noticeCapacity ← fieldOr v 1 "notice_capacity" d.noticeCapacity uint64
  let persistRetryLimit ← fieldOr v 2 "persist_retry_limit" d.persistRetryLimit uint32
  pure ⟨mailboxCapacity, noticeCapacity, persistRetryLimit⟩

/-- Reads the section on deadlines. -/
def readDeadlines (v : Value) : Option DeadlineSettings := do
  let d : DeadlineSettings := {}
  let takeOfferResponse ← fieldOr v 0 "take_offer_response_secs" d.takeOfferResponse uint64
  let fiatPayment ← fieldOr v 1 "fiat_payment_secs" d.fiatPayment uint64
  let btcSettlement ← fieldOr v 2 "btc_settlement_secs" d.btcSettlement uint64
  let deposit ← fieldOr v 3 "deposit_secs" d.deposit uint64
  let payout ← fieldOr v 4 "payout_secs" d.payout uint64
  pure ⟨takeOfferResponse, fiatPayment, btcSettlement, deposit, payout⟩

/-- Reads all sections. -/
def ofValue (v : Value) : Option Settings := do
  let storePath ← fieldOr v 0 "store" ({} : Settings).storePath readStore
  let workers ← fieldOr v 1 "dispatcher" {} readWorkers
  let deadlines ← fieldOr v 2 "deadlines" {} readDeadlines
  pure { storePath := storePath, workers, deadlines }

/-- Reads a configuration text. -/
def read (s : String) : Option Settings := Toml.read s >>= ofValue

end Settings

end PeerTrade

import PeerTrade.Engine.Basic
import PeerTrade.Proofs.Checks

/-!
# When the guards hold

Guards hold together exactly if each of them holds, so that what one guard asks for can be read off
any committed event whose entry has it. Under a table that has the envelope guard on every message
(`Protocol.Enveloped`), only messages of the counterparty for the trade itself are let through.
-/

namespace PeerTrade

open Checks

theorem Engine.checkGuards_eq_ok_iff {context : GuardContext} {t : Trade} {event : Event}
    {guards : List Guard} :
    checkGuards context t event guards = .ok () ↔
      ∀ g ∈ guards, g.check context t event = .ok () := by
  induction guards with
  | nil => simp [checkGuards]
  | cons g rest ih =>
    rw [checkGuards]
    cases hg : g.check context t event with
    | ok _ => simp [hg, ih]
    | error diagnosis => simp [hg]

namespace Guard

@[simp] theorem ensure_eq_ok_iff {holds : Bool} {diagnosis : String} {u : Unit} :
    ensure holds diagnosis = .ok u ↔ holds = true := by
  cases holds <;> simp [ensure]

/-- The envelope guard holds of the messages that name the trade and come from its counterparty. -/
theorem check_envelope_eq_ok_iff {context : GuardContext} {t : Trade} {m : Inbound} :
    check context t (.inbound m) envelope = .ok () ↔
      m.tradeId = t.id ∧ m.sender = t.counterparty := by
  simp [check, onMessage, checkEnvelope]

/-- The guards that come with the engine. -/
def BuiltIn (g : Guard) : Prop := g ∈ (Catalog.all : List Guard)

instance : DecidablePred BuiltIn := fun g => inferInstanceAs (Decidable (g ∈ _))

end Guard

/-- All guards of a table are built in. -/
def Protocol.BuiltIn (p : Protocol) : Prop := ∀ e ∈ p.table.entries, ∀ g ∈ e.2.guards, g.BuiltIn

instance : DecidablePred Protocol.BuiltIn := fun p =>
  inferInstanceAs (Decidable (∀ e ∈ p.table.entries, ∀ g ∈ e.2.guards, g.BuiltIn))

/-! ## The envelope guard -/

/-- A message comes from the counterparty of a trade and is meant for that trade. -/
def Event.Authentic (t : Trade) : Event → Prop
  | .inbound m => m.tradeId = t.id ∧ m.sender = t.counterparty
  | .command _ | .timeout _ => True

instance (t : Trade) : DecidablePred (Event.Authentic t) := fun event => by
  cases event <;> unfold Event.Authentic <;> infer_instance

namespace Protocol

/-- Every message has to pass the envelope guard. -/
def Enveloped (p : Protocol) : Prop :=
  ∀ e ∈ p.table.entries, e.1.event.isMessage = true → .envelope ∈ e.2.guards

theorem Enveloped.authentic {p : Protocol} (h : p.Enveloped) {context : GuardContext} {t : Trade}
    {s : State} {event : Event} {tr : Transition} (hentry : p.lookup s event.kind = some tr)
    (hguards : Engine.checkGuards context t event tr.guards = .ok ()) : event.Authentic t := by
  cases event with
  | inbound m =>
    have hguard : .envelope ∈ tr.guards := h _ (Dict.get?_eq_some_iff.1 hentry) rfl
    have hholds := Engine.checkGuards_eq_ok_iff.1 hguards _ hguard
    exact Guard.check_envelope_eq_ok_iff.1 hholds
  | command c => trivial
  | timeout id => trivial

end Protocol

end PeerTrade

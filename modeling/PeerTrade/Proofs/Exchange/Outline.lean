import Mathlib.Data.List.Forall2
import PeerTrade.Proofs.Exchange.Basic

/-!
# Outlines of exchanges

An outline says of an exchange in which states the two sides are, of which kinds the messages on
their way are, and which guards are certain to hold when they arrive. Everything that can happen to
an exchange happens to one of its outlines (`Outline.Fits.step`). There are few outlines, so that all
of those that an exchange can come to are found by going through the two tables; what is true of each
outline in such a list is true of every exchange (`Outline.exists_fits_of_reachable`).
-/

namespace PeerTrade

/-! ## Notes -/

/-- What is known of a message on its way. -/
structure Note where
  kind : MessageKind
  /-- Guards that hold when the message arrives, however far its receiver has come. -/
  sure : List Guard
  deriving DecidableEq, Repr

/-- A note is right about a message to a trade. -/
structure Note.Describes (context : GuardContext) (t : Trade) (m : Outbound) (n : Note) : Prop where
  kind : m.kind = n.kind
  sure : ∀ g ∈ n.sure, ∀ u, t.SameDeal u →
    g.check context u (.inbound (m.toInbound t.counterparty)) = .ok ()

/-- The guards of a message that are certain to hold, by where its body comes from and by what was
asked of the command in it. -/
def Emission.vouched (signed : Bool) (guards : List Guard) (m : Emission) : List Guard :=
  .envelope ::
    match m.payload with
    | .empty => []
    | .termsFingerprint => [.termsMatch]
    | .command =>
      (if .commandPayload ∈ guards then [.messagePayload] else []) ++
        if signed then [.signature] else []

/-- The guards that ask for nothing but the state of the trade, and hold in a state. -/
def Guard.heldIn (s : State) : Guard → Bool
  | depositConfirmed => isDepositConfirmed s
  | fiatReceiptConfirmed => s = .fiatReceiptConfirmed
  | _ => false

/-- Whether a message is certain to pass some guards in a state. -/
def Note.passes (n : Note) (s : State) (guards : List Guard) : Bool :=
  guards.all fun g => g ∈ n.sure || g.heldIn s

theorem Guard.check_of_heldIn {context : GuardContext} {t : Trade} {event : Event} {g : Guard}
    (h : g.heldIn t.state = true) : g.check context t event = .ok () := by
  cases g <;> simp_all [heldIn, check]

/-- A message passes the guards that its note says it passes. -/
theorem Note.Describes.checkGuards {context : GuardContext} {t : Trade} {m : Outbound} {n : Note}
    {guards : List Guard} (h : n.Describes context t m) (hpasses : n.passes t.state guards = true) :
    Engine.checkGuards context t (.inbound (m.toInbound t.counterparty)) guards = .ok () := by
  refine Engine.checkGuards_eq_ok_iff.2 fun g hg => ?_
  have hsure := List.all_eq_true.1 hpasses g hg
  rcases Bool.or_eq_true _ _ ▸ hsure with hsure | hheld
  · exact h.sure g (of_decide_eq_true hsure) t (.refl t)
  · exact Guard.check_of_heldIn hheld

theorem Note.Describes.congr {context : GuardContext} {t t' : Trade} {m : Outbound} {n : Note}
    (h : n.Describes context t m) (hdeal : t.SameDeal t') : n.Describes context t' m where
  kind := h.kind
  sure g hg u hu := by
    rw [hdeal.counterparty]
    exact h.sure g hg u (hdeal.trans hu)

theorem Note.map_kind_eq {context : GuardContext} {t : Trade} {messages : List Outbound}
    {notes : List Note} (h : List.Forall₂ (fun m n => n.Describes context t m) messages notes) :
    messages.map (·.kind) = notes.map (·.kind) := by
  induction h with
  | nil => rfl
  | cons hdescribes _ ih => rw [List.map_cons, List.map_cons, hdescribes.kind, ih]

/-- What a trade composes for an event that passed some guards is as its note says. -/
theorem Note.describes_compose {context context' : GuardContext} {t u receiver : Trade}
    {event : Event} {guards : List Guard} {signed : Bool} {m : Emission}
    (hdeal : t.SameDeal u) (hid : t.id = receiver.id)
    (hfingerprint : t.termsFingerprint = receiver.termsFingerprint)
    (hguards : Engine.checkGuards context' t event guards = .ok ())
    (hsigned : signed = true → ∃ c, event = .command c ∧
      context.verifier.accepts receiver.counterparty c.payload c.signature = true) :
    Note.Describes context receiver (Engine.compose u event m)
      ⟨m.kind, m.vouched signed guards⟩ where
  kind := rfl
  sure g hg v hv := by
    rcases List.mem_cons.1 hg with rfl | hg
    · rw [Guard.check_envelope_eq_ok_iff]
      exact ⟨hdeal.id.trans (hid.trans hv.id.symm), hv.counterparty.symm⟩
    · obtain ⟨kind, source⟩ := m
      cases source with
      | empty => cases hg
      | termsFingerprint =>
        -- both sides have the same fingerprint
        obtain rfl := List.mem_singleton.1 hg
        have hsame : u.termsFingerprint = v.termsFingerprint :=
          hdeal.termsFingerprint.trans (hfingerprint.trans hv.termsFingerprint.symm)
        simp [Guard.check, Guard.onMessage, Engine.compose, Engine.body, Outbound.toInbound, hsame]
      | command =>
        rcases List.mem_append.1 hg with hg | hg
        · -- the payload is the command's, and that had to have one
          rw [List.mem_ite_nil_right, List.mem_singleton] at hg
          obtain ⟨hpayload, rfl⟩ := hg
          have hheld := Engine.checkGuards_eq_ok_iff.1 hguards _ hpayload
          cases event with
          | command c =>
            simpa [Guard.check, Guard.onMessage, Guard.onCommand, Engine.compose, Engine.body,
              Outbound.toInbound] using hheld
          | inbound _ => simp [Guard.check, Guard.onCommand] at hheld
          | timeout _ => simp [Guard.check, Guard.onCommand] at hheld
        · rw [List.mem_ite_nil_right, List.mem_singleton] at hg
          obtain ⟨hsign, rfl⟩ := hg
          obtain ⟨c, rfl, haccepts⟩ := hsigned hsign
          simpa [Guard.check, Guard.onMessage, Engine.compose, Engine.body, Outbound.toInbound]
            using haccepts

/-! ## Outlines -/

/-- What is known of two parties from the start. -/
structure Regime where
  tables : Both Protocol
  /-- The kinds of commands that the users give. -/
  permits : CommandKind → Bool
  /-- The kinds among them that are signed so that the other party's verifier accepts it. -/
  signed : List CommandKind

namespace Regime

/-- The commands that a party gives. -/
def Allows (r : Regime) (setup : Setup) (p : Party) (c : Command) : Prop :=
  r.permits c.kind = true ∧ (c.kind ∈ r.signed →
    (setup.engines.of p.other).verifier.accepts (setup.handles.of p) c.payload c.signature = true)

def signs (r : Regime) : EventKind → Bool
  | .command k => k ∈ r.signed
  | .message _ | .timeout _ => false

end Regime

/-- The states of the two sides, and notes of what is on its way to them. -/
structure Outline where
  states : Both State
  lines : Both (List Note) := ⟨[], []⟩
  deriving DecidableEq, Repr

namespace Outline

variable (r : Regime) (o : Outline) (p : Party)

/-- The outline after a party has gone through an entry. -/
def after (event : EventKind) (tr : Transition) : Outline where
  states := o.states.put p tr.target
  lines := o.lines.put p.other <| o.lines.of p.other ++
    tr.send.toList.map fun m => ⟨m.kind, m.vouched (r.signs event) tr.guards⟩

/-- The outline with nothing but the rest of a line. -/
def proceed (rest : List Note) : Outline := { o with lines := o.lines.put p rest }

/-- The entry for the message of a note. -/
def transition? (n : Note) : Option Transition :=
  (r.tables.of p).lookup (o.states.of p) (.message n.kind)

/-- Whether a party is certain to act upon the message of a note. -/
def accepts (n : Note) : Bool :=
  match o.transition? r p n with
  | some tr => n.passes (o.states.of p) tr.guards
  | none => false

/-- What a command of a party can lead to. -/
def commands : List Outline :=
  (r.tables.of p).table.entries.filterMap fun (trigger, tr) =>
    match trigger.event with
    | .command k =>
      if trigger.state = o.states.of p ∧ r.permits k then some (o.after r p trigger.event tr)
      else none
    | .message _ | .timeout _ => none

/-- What the arrival of the oldest message to a party can lead to. -/
def deliveries : List Outline :=
  match o.lines.of p with
  | [] => []
  | n :: rest =>
    let proceeded := o.proceed p rest
    let taken := (o.transition? r p n).toList.map fun tr => proceeded.after r p (.message n.kind) tr
    if o.accepts r p n then taken else proceeded :: taken

/-- What a step can lead to. -/
def next : List Outline :=
  o.commands r .buyer ++ o.commands r .seller ++ o.deliveries r .buyer ++ o.deliveries r .seller

variable {r o p}

theorem mem_next_of_mem_commands {o' : Outline} (h : o' ∈ o.commands r p) : o' ∈ o.next r := by
  cases p <;> simp [next, h]

theorem mem_next_of_mem_deliveries {o' : Outline} (h : o' ∈ o.deliveries r p) :
    o' ∈ o.next r := by
  cases p <;> simp [next, h]

/-! ## Outlines that fit -/

/-- An outline is right about an exchange. -/
structure Fits (setup : Setup) (o : Outline) (x : Exchange) : Prop where
  states (p : Party) : (x.trade p).state = o.states.of p
  lines (p : Party) : List.Forall₂
    (fun m n => Note.Describes (setup.engines.of p).context (x.trade p) m n)
    (x.lines.of p) (o.lines.of p)

variable {setup : Setup} {x x' : Exchange} {now : Instant}

/-- A commit leads from an outline to the one after the entry. -/
theorem Fits.fed {event : Event} {tr : Transition} {c : Commit} (h : o.Fits setup x)
    (hsound : x.Sound setup r.tables)
    (hsigned : r.signs event.kind = true → ∃ cmd, event = .command cmd ∧
      (setup.engines.of p.other).verifier.accepts (setup.handles.of p) cmd.payload cmd.signature =
        true)
    (hfed : x.Fed setup p now event x' tr c) : (o.after r p event.kind tr).Fits setup x' where
  states := by
    obtain ⟨deadlines, hafter⟩ := hfed.committed.after
    refine p.forall_of ?_ ?_
    · rw [hafter]
      exact (Both.of_put_self ..).symm
    · rw [hfed.trade_other, h.states]
      exact (Both.of_put_other ..).symm
  lines := by
    refine p.forall_of ?_ ?_
    · -- nothing has joined the party's own line
      rw [hfed.line, show (o.after r p event.kind tr).lines.of p = o.lines.of p from
        Both.of_other_put ..]
      exact (h.lines p).imp fun m n hn => hn.congr hfed.deal
    · rw [hfed.otherLine, hfed.trade_other, show (o.after r p event.kind tr).lines.of p.other = _
        from Both.of_put_self ..]
      refine List.rel_append (h.lines p.other) ?_
      obtain ⟨u, hdeal, -, hsent⟩ := hfed.composed
      have hcounterparty : (x.trade p.other).counterparty = setup.handles.of p := by
        rw [hsound.counterparty, Party.other_other]
      rw [hsent]
      cases tr.send with
      | none => exact .nil
      | some m =>
        refine .cons (Note.describes_compose hdeal (hsound.id p) (hsound.fingerprint p)
          hfed.committed.guards ?_) .nil
        rw [hcounterparty]
        exact hsigned

theorem Fits.proceed {m : Outbound} {n : Note} {rest : List Outbound} {notes : List Note}
    (h : o.Fits setup x) (hline : x.lines.of p = m :: rest) (hnotes : o.lines.of p = n :: notes) :
    (o.proceed p notes).Fits setup (x.proceed p rest) where
  states := h.states
  lines := by
    refine p.forall_of ?_ ?_
    · have hrest := h.lines p
      rw [hline, hnotes] at hrest
      cases hrest with
      | cons _ htail => simpa [Exchange.proceed, Outline.proceed, Exchange.trade] using htail
    · have hsame := h.lines p.other
      simpa [Exchange.proceed, Outline.proceed, Exchange.trade] using hsame

/-- A party acts upon the oldest message to it if its outline is certain that it does. -/
theorem Fits.exists_committed {m : Outbound} {n : Note} {rest : List Outbound}
    {notes : List Note} (now : Instant) (h : o.Fits setup x) (hsound : x.Sound setup r.tables)
    (hline : x.lines.of p = m :: rest) (hnotes : o.lines.of p = n :: notes)
    (haccepts : o.accepts r p n = true) :
    ∃ t c, (setup.engines.of p).handle now (x.trade p) (Exchange.arrival setup p m) =
      (t, .committed c) := by
  have hlines := h.lines p
  rw [hline, hnotes] at hlines
  obtain ⟨hdescribes, -⟩ := List.forall₂_cons.1 hlines
  -- the table has an entry, and the message passes its guards
  obtain ⟨tr, hentry, hpasses⟩ : ∃ tr, o.transition? r p n = some tr ∧
      n.passes (o.states.of p) tr.guards = true := by
    unfold accepts at haccepts
    split at haccepts
    next tr hentry => exact ⟨tr, hentry, haccepts⟩
    next => cases haccepts
  have hlookup : (x.trade p).protocol.lookup (x.trade p).state (.message m.kind) = some tr := by
    rw [hsound.table, h.states, hdescribes.kind]
    exact hentry
  have hguards : Engine.checkGuards (setup.engines.of p).context (x.trade p)
      (Exchange.arrival setup p m) tr.guards = .ok () := by
    rw [← h.states] at hpasses
    rw [Exchange.arrival, ← hsound.counterparty]
    exact hdescribes.checkGuards hpasses
  -- a trade with an entry has not ended
  have hlive : (x.trade p).finalized = false := by
    rw [Bool.eq_false_iff]
    intro hended
    have hterminal := hsound.ended p hended
    rw [Protocol.isTerminal_iff, ← hsound.table p] at hterminal
    rw [hterminal] at hlookup
    cases hlookup
  have hselect : (setup.engines.of p).select (x.trade p) (Exchange.arrival setup p m) = .ok tr :=
    Engine.select_eq_ok_iff.2 ⟨hlive, hsound.checkReplay_arrival hline, hlookup, hguards⟩
  rw [Engine.handle, hselect]
  exact ⟨_, _, rfl⟩

theorem Fits.command (h : o.Fits setup x) (hsound : x.Sound setup r.tables) {c : Command}
    (hallows : r.Allows setup p c) :
    (∃ o' ∈ o.next r, o'.Fits setup (x.feed setup p now (.command c))) ∨
      x.feed setup p now (.command c) = x := by
  rcases x.feed_cases setup p now (.command c) with ⟨tr, commit, hfed⟩ | ⟨-, heq⟩
  · refine .inl ⟨o.after r p (.command c.kind) tr, mem_next_of_mem_commands (p := p) ?_, ?_⟩
    · have hentry : (⟨o.states.of p, .command c.kind⟩, tr) ∈ (r.tables.of p).table.entries := by
        rw [← h.states, ← hsound.table p]
        exact Dict.get?_eq_some_iff.1 hfed.committed.entry
      refine List.mem_filterMap.2 ⟨_, hentry, ?_⟩
      exact if_pos ⟨rfl, hallows.1⟩
    · refine h.fed hsound (fun hsigns => ⟨c, rfl, hallows.2 ?_⟩) hfed
      exact of_decide_eq_true hsigns
  · exact .inr heq

theorem Fits.deliver {m : Outbound} {rest : List Outbound} (h : o.Fits setup x)
    (hsound : x.Sound setup r.tables) (hline : x.lines.of p = m :: rest) :
    ∃ o' ∈ o.next r,
      o'.Fits setup ((x.proceed p rest).feed setup p now (Exchange.arrival setup p m)) := by
  have hlines := h.lines p
  rw [hline] at hlines
  obtain ⟨n, notes, hdescribes, -, hnotes⟩ := List.forall₂_cons_left_iff.1 hlines
  have hfits := h.proceed hline hnotes
  have hsound' := hsound.proceed hline
  rcases (x.proceed p rest).feed_cases setup p now (Exchange.arrival setup p m) with
    ⟨tr, c, hfed⟩ | ⟨hrejected, heq⟩
  · refine ⟨(o.proceed p notes).after r p (.message n.kind) tr,
      mem_next_of_mem_deliveries (p := p) ?_, ?_⟩
    · have hentry : o.transition? r p n = some tr := by
        rw [transition?, ← h.states, ← hsound.table p, ← hdescribes.kind]
        exact hfed.committed.entry
      simp only [deliveries, hnotes, hentry]
      split <;> simp
    · have hkind : EventKind.message n.kind = (Exchange.arrival setup p m).kind :=
        congrArg EventKind.message hdescribes.kind.symm
      rw [hkind]
      exact hfits.fed hsound' (fun hsigns => by cases hsigns) hfed
  · refine ⟨o.proceed p notes, mem_next_of_mem_deliveries (p := p) ?_, by rwa [heq]⟩
    -- it was not certain that the message would be acted upon
    have hopen : o.accepts r p n = false := by
      rw [Bool.eq_false_iff]
      intro haccepts
      obtain ⟨t, c, hcommitted⟩ := h.exists_committed now hsound hline hnotes haccepts
      obtain ⟨t', cause, hrejected⟩ := hrejected
      have hsame : (x.proceed p rest).trade p = x.trade p := rfl
      rw [hsame, hcommitted] at hrejected
      cases hrejected
    simp [deliveries, hnotes, hopen]

/-- Whatever happens to an exchange happens to its outline. -/
theorem Fits.step (h : o.Fits setup x) (hsound : x.Sound setup r.tables)
    (hstep : Exchange.Step setup (r.Allows setup) x x') :
    (∃ o' ∈ o.next r, o'.Fits setup x') ∨ x' = x := by
  cases hstep with
  | command p now c hallows => exact h.command hsound hallows
  | deliver p now m rest hline => exact .inl (h.deliver hsound hline)

/-! ## Going through all outlines -/

/-- A step leads from the outlines of a list to others in the list, or to exempt ones. -/
def Closed (r : Regime) (exempt : Outline → Bool) (seen : List Outline) : Prop :=
  ∀ o ∈ seen, ∀ o' ∈ o.next r, o' ∈ seen ∨ exempt o' = true

instance (r : Regime) (exempt : Outline → Bool) (seen : List Outline) :
    Decidable (Closed r exempt seen) :=
  inferInstanceAs (Decidable (∀ o ∈ seen, ∀ o' ∈ o.next r, _))

/-- Adds the outlines that a step leads to, up to some number of times, but not the exempt ones. -/
def explore (r : Regime) (exempt : Outline → Bool) :
    (rounds : Nat) → (seen latest : List Outline) → List Outline
  | 0, seen, _ => seen
  | rounds + 1, seen, latest =>
    let found := ((latest.flatMap (next r)).filter fun o => !exempt o && !seen.contains o).dedup
    explore r exempt rounds (seen ++ found) found

/-- As long as an exchange has not come to an exempt outline, it has one of a closed list. -/
theorem exists_fits_of_reachable {exempt : Outline → Bool} {seen : List Outline}
    (hclosed : Closed r exempt seen) (hascends : ∀ p, (r.tables.of p).Ascends)
    (hsound : x.Sound setup r.tables) (hstart : ∃ o ∈ seen, o.Fits setup x)
    (hreach : Exchange.Reachable setup (r.Allows setup) x x') :
    (∃ o ∈ seen, o.Fits setup x') ∨
      ∃ y o, Exchange.Reachable setup (r.Allows setup) x y ∧
        Exchange.Reachable setup (r.Allows setup) y x' ∧ o.Fits setup y ∧ exempt o = true := by
  induction hreach with
  | refl => exact .inl hstart
  | tail hbefore hstep ih =>
    rcases ih with ⟨o, ho, hfits⟩ | ⟨y, o, hy, hrest, hfits, hexempt⟩
    · rcases hfits.step (hsound.reachable hascends hbefore) hstep with ⟨o', ho', hfits'⟩ | rfl
      · rcases hclosed o ho o' ho' with hseen | hexempt
        · exact .inl ⟨o', hseen, hfits'⟩
        · exact .inr ⟨_, o', hbefore.tail hstep, .refl, hfits', hexempt⟩
      · exact .inl ⟨o, ho, hfits⟩
    · exact .inr ⟨y, o, hy, hrest.tail hstep, hfits, hexempt⟩

end Outline

end PeerTrade

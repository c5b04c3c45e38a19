import PeerTrade.Proofs.Engine.Milestones
import PeerTrade.Proofs.Node.Turns

/-!
# The story of a trade

What a worker lets others know follows the mail that it reads, chapter by chapter (`Chapter`): a
rejection and a failed write are made known by a notice each, and a commit by the notice that the
state has changed, behind what there is to say of its event and its messages and in front of the
notice that the trade has ended. Whoever reads the notices one after the other goes with the trade
from state to state (`Path`) and hears of its end where it comes (`Ending`).
-/

namespace PeerTrade

/-! ## Notices -/

namespace Happening

def isChange : Happening → Bool
  | stateChanged .. => true
  | finalized _ | rejected _ | persistenceFailed _ | deliveryFailed _ | deadlineExpired _ => false

def isEnd : Happening → Bool
  | finalized _ => true
  | stateChanged .. | rejected _ | persistenceFailed _ | deliveryFailed _ | deadlineExpired _ =>
    false

def isRejection : Happening → Bool
  | rejected _ => true
  | stateChanged .. | finalized _ | persistenceFailed _ | deliveryFailed _ | deadlineExpired _ =>
    false

/-- Whether a commit is not all about this, although it may come with one. -/
def isAside : Happening → Bool
  | deliveryFailed _ | deadlineExpired _ => true
  | stateChanged .. | finalized _ | rejected _ | persistenceFailed _ => false

theorem of_isAside {h : Happening} (haside : h.isAside = true) :
    h.isChange = false ∧ h.isEnd = false ∧ h.isRejection = false := by
  cases h with
  | deliveryFailed | deadlineExpired => exact ⟨rfl, rfl, rfl⟩
  | _ => cases haside

end Happening

/-- The notices that the state has changed. -/
def changes (log : List Notice) : List Notice := log.filter (·.happening.isChange)

/-- The notices that an event was rejected. -/
def rejections (log : List Notice) : List Notice := log.filter (·.happening.isRejection)

/-- A notice on a trade as it is. -/
def Trade.notice (t : Trade) (happening : Happening) : Notice := ⟨t.id, t.sequence, happening⟩

/-- The notice that a commit has changed the state. -/
def Commit.notice (c : Commit) : Notice := ⟨c.tradeId, c.sequence, .stateChanged c.source c.target⟩

/-- Notices that lead a trade from state to state, the sequence going up by one each time. -/
inductive Path (id : String) : State → UInt64 → List Notice → Prop where
  | nil {state : State} {sequence : UInt64} : Path id state sequence []
  | cons {source target : State} {sequence : UInt64} {rest : List Notice} :
      Path id target (sequence + 1) rest →
      Path id source sequence (⟨id, sequence + 1, .stateChanged source target⟩ :: rest)

theorem Path.of_prefix {id : String} {state : State} {sequence : UInt64} {log log' : List Notice}
    (h : Path id state sequence log') (hpart : log <+: log') : Path id state sequence log := by
  induction h generalizing log with
  | nil =>
    rw [List.prefix_nil.1 hpart]
    exact .nil
  | cons _ ih =>
    rcases List.prefix_cons_iff.1 hpart with rfl | ⟨rest, rfl, hrest⟩
    · exact .nil
    · exact .cons (ih hrest)

/-- If the end of a trade is made known, then once, directly behind the change to a last state of
its table, and no change comes after it. -/
inductive Ending (p : Protocol) (log : List Notice) : Prop where
  | notYet : (∀ n ∈ log, n.happening.isEnd = false) → Ending p log
  | ended {id : String} {sequence : UInt64} {source final : State} {before after : List Notice} :
      p.isTerminal final = true →
      log = before ++ ⟨id, sequence, .stateChanged source final⟩ ::
        ⟨id, sequence, .finalized final⟩ :: after →
      (∀ n ∈ before, n.happening.isEnd = false) →
      (∀ n ∈ after, n.happening.isEnd = false ∧ n.happening.isChange = false) → Ending p log

theorem Ending.of_prefix {p : Protocol} {log log' : List Notice} (h : Ending p log')
    (hpart : log <+: log') : Ending p log := by
  cases h with
  | notYet hnone => exact .notYet fun n hn => hnone n (hpart.subset hn)
  | @ended id sequence source final before after hterminal heq hbefore hafter =>
    rw [heq] at hpart
    rcases List.prefix_or_prefix_of_prefix hpart (List.prefix_append before _) with
      hshort | ⟨rest, rfl⟩
    · exact .notYet fun n hn => hbefore n (hshort.subset hn)
    -- what is cut off behind the change has not come to the end
    · have hchange : ∀ n ∈ before ++ [⟨id, sequence, .stateChanged source final⟩],
          n.happening.isEnd = false := by
        intro n hn
        rcases List.mem_append.1 hn with hn | hn
        · exact hbefore n hn
        · rw [List.mem_singleton.1 hn]
          rfl
      rcases List.prefix_cons_iff.1 ((List.prefix_append_right_inj before).1 hpart) with
        rfl | ⟨rest, rfl, hrest⟩
      · rw [List.append_nil]
        exact .notYet hbefore
      · rcases List.prefix_cons_iff.1 hrest with rfl | ⟨later, rfl, hlater⟩
        · exact .notYet hchange
        · exact .ended hterminal rfl hbefore fun n hn => hafter n (hlater.subset hn)

theorem Ending.append {p : Protocol} {log more : List Notice} (h : Ending p log)
    (hmore : ∀ n ∈ more, n.happening.isEnd = false ∧ n.happening.isChange = false) :
    Ending p (log ++ more) := by
  cases h with
  | notYet hnone =>
    exact .notYet (List.forall_mem_append.2 ⟨hnone, fun n hn => (hmore n hn).1⟩)
  | @ended id sequence source final before after hterminal heq hbefore hafter =>
    have hwhole : log ++ more = before ++ ⟨id, sequence, .stateChanged source final⟩ ::
        ⟨id, sequence, .finalized final⟩ :: (after ++ more) := by
      rw [heq, List.append_assoc]
      rfl
    exact .ended hterminal hwhole hbefore (List.forall_mem_append.2 ⟨hafter, hmore⟩)

/-! ## Deeds -/

/-- What a worker lets others know. -/
inductive Deed where
  | posted (notice : Notice)
  /-- A message was handed to the link; a notice tells if that failed. -/
  | sent (message : Outbound) (failure : Option Notice)

namespace Deed

/-- The notice that is posted. -/
def notice? : Deed → Option Notice
  | posted notice => some notice
  | sent _ failure => failure

/-- The notices among some deeds. -/
def notices (told : List Deed) : List Notice := told.filterMap notice?

theorem notices_append (told more : List Deed) :
    notices (told ++ more) = notices told ++ notices more :=
  List.filterMap_append

/-- A message of a trade is sent, and if that fails, there is one notice of it. -/
inductive Sends (t : Trade) (m : Outbound) : Deed → Prop where
  | delivered : Sends t m (.sent m none)
  | undelivered (e : LinkError) : Sends t m (.sent m (some (t.notice (.deliveryFailed e))))

end Deed

open Deed (notices notices_append)

/-- What is made known of an event that was committed, in front of anything else. -/
def Event.expired (t : Trade) : Event → List Deed
  | timeout id => [.posted (t.notice (.deadlineExpired id))]
  | inbound _ | command _ => []

/-! ## Chapters -/

/-- Where a worker stands between two mails: its trade, and the failed write that it acted upon
last. -/
structure Standing where
  trade : Trade
  lastFailure : Option (UInt64 × UInt32) := none

/-- Where a worker stands. -/
def Worker.standing (w : Worker) : Standing := ⟨w.trade, w.lastFailure⟩

/-- What a worker lets others know of a mail. -/
inductive Chapter (engine : Engine) (s : Standing) :
    Instant × Mail → Standing → List Deed → Prop where
  | rejected {date : Instant} {event : Event} {caller : Option Nat} {r : Rejection} :
      engine.handle date s.trade event = (s.trade, .rejected r) →
      Chapter engine s (date, .event event caller) s [.posted (s.trade.notice (.rejected r))]
  /-- A message that is not delivered is made known and takes nothing back. -/
  | committed {date : Instant} {event : Event} {caller : Option Nat} {t : Trade} {c : Commit}
      {deliveries : List Deed} :
      engine.handle date s.trade event = (t, .committed c) →
      List.Forall₂ (Deed.Sends t) c.sent deliveries →
      Chapter engine s (date, .event event caller) { s with trade := t }
        (event.expired t ++ deliveries ++ .posted c.notice ::
          if c.finalized then [.posted (t.notice (.finalized c.target))] else [])
  | inspected {date : Instant} {caller : Nat} : Chapter engine s (date, .inspect caller) s []
  /-- The failure has been acted upon. -/
  | repeated {date : Instant} {f : PersistFailure} {attempt last : UInt32} :
      s.lastFailure = some (f.sequence, last) → attempt ≤ last →
      Chapter engine s (date, .persistFailed f attempt) s []
  | failed {date : Instant} {f : PersistFailure} {attempt : UInt32} :
      (∀ last, s.lastFailure = some (f.sequence, last) → last < attempt) →
      Chapter engine s (date, .persistFailed f attempt)
        { s with lastFailure := some (f.sequence, attempt) }
        [.posted (s.trade.notice (.persistenceFailed f))]

/-- What a worker lets others know of the mail that it has read. -/
inductive Story (engine : Engine) (start : Standing) :
    List (Instant × Mail) → Standing → List Deed → Prop where
  | begins : Story engine start [] start []
  | goesOn {read : List (Instant × Mail)} {entry : Instant × Mail} {s s' : Standing}
      {told chapter : List Deed} :
      Story engine start read s told → Chapter engine s entry s' chapter →
      Story engine start (read ++ [entry]) s' (told ++ chapter)

/-- The notices that are due to the rejected events of a stream. -/
def Engine.refusals (e : Engine) (t : Trade) : Stream → List Notice
  | [] => []
  | (now, event) :: rest =>
    match e.handle now t event with
    | (t', .rejected r) => t'.notice (.rejected r) :: e.refusals t' rest
    | (t', .committed _) => e.refusals t' rest

variable {engine : Engine} {start s s' : Standing} {read : List (Instant × Mail)}
  {entry : Instant × Mail} {told chapter : List Deed} {t t' : Trade} {now : Instant} {event : Event}
  {c : Commit}

/-! ## Commits -/

/-- What a commit says of itself is true of the trades before and after it. -/
theorem Engine.truth_of_committed (h : engine.handle now t event = (t', .committed c)) :
    c.notice = ⟨t.id, t.sequence + 1, .stateChanged t.state t'.state⟩ ∧ t'.id = t.id ∧
      t'.sequence = t.sequence + 1 ∧ t'.protocol = t.protocol ∧ c.target = t'.state ∧
      c.finalized = t'.finalized ∧ t'.finalized = t.protocol.isTerminal t'.state ∧
      t.finalized = false := by
  obtain ⟨tr, hselect, rfl, rfl⟩ := exists_commit_of_handle h
  have hc := committed_of_select now hselect
  obtain ⟨deadlines, hafter⟩ := hc.after
  rw [Commit.notice, commit_snd, hafter]
  exact ⟨rfl, rfl, rfl, rfl, rfl, rfl, rfl, hc.live⟩

/-- The commits of a run are a path from where it starts. -/
theorem Engine.path_history (e : Engine) (t : Trade) (stream : Stream) :
    Path t.id t.state t.sequence ((e.history t stream).map (·.2.notice)) := by
  induction stream generalizing t with
  | nil => exact .nil
  | cons arrival rest ih =>
    obtain ⟨now, event⟩ := arrival
    cases hhandle : e.handle now t event with
    | mk t' outcome =>
      cases outcome with
      | rejected r =>
        obtain rfl := eq_of_rejected hhandle
        rw [history_cons_of_rejected hhandle]
        exact ih t'
      | committed c =>
        obtain ⟨hnotice, hid, hsequence, -⟩ := truth_of_committed hhandle
        rw [history_cons_of_committed hhandle, List.map_cons, hnotice]
        refine .cons ?_
        rw [← hid, ← hsequence]
        exact ih t'

theorem Engine.refusals_append (e : Engine) (t : Trade) (xs ys : Stream) :
    e.refusals t (xs ++ ys) = e.refusals t xs ++ e.refusals (e.run t xs).1 ys := by
  induction xs generalizing t with
  | nil => rfl
  | cons arrival rest ih =>
    obtain ⟨now, event⟩ := arrival
    rw [List.cons_append, run_cons, refusals, refusals]
    cases hhandle : e.handle now t event with
    | mk t' outcome =>
      cases outcome with
      | rejected r => exact congrArg _ (ih t')
      | committed c => exact ih t'

/-! ## What is in a chapter -/

theorem mem_notices_of_sends {deliveries : List Deed} {messages : List Outbound}
    (h : List.Forall₂ (Deed.Sends t) messages deliveries) :
    ∀ n ∈ notices deliveries, n.tradeId = t.id ∧ n.happening.isAside = true := by
  induction h with
  | nil => exact fun n hn => absurd hn List.not_mem_nil
  | cons hsends _ ih =>
    cases hsends with
    | delivered => exact ih
    | undelivered e => exact List.forall_mem_cons.2 ⟨⟨rfl, rfl⟩, ih⟩

/-- Of a commit it is made known that the state has changed, and at once if the trade has ended.
What else there is to say comes before that. -/
theorem notices_of_committed (event : Event) {deliveries : List Deed}
    (hsends : List.Forall₂ (Deed.Sends t') c.sent deliveries) :
    ∃ asides : List Notice,
      notices (event.expired t' ++ deliveries ++ .posted c.notice ::
        if c.finalized then [.posted (t'.notice (.finalized c.target))] else []) =
      asides ++ c.notice :: (if c.finalized then [t'.notice (.finalized c.target)] else []) ∧
      ∀ n ∈ asides, n.tradeId = t'.id ∧ n.happening.isAside = true := by
  refine ⟨notices (event.expired t' ++ deliveries), ?_, ?_⟩
  · rw [notices_append]
    congr 1
    cases c.finalized <;> rfl
  · rw [notices_append]
    intro n hn
    rcases List.mem_append.1 hn with hn | hn
    · cases event with
      | timeout id =>
        rw [List.mem_singleton.1 hn]
        exact ⟨rfl, rfl⟩
      | inbound m => cases hn
      | command cmd => cases hn
    · exact mem_notices_of_sends hsends n hn

theorem filter_asides {asides : List Notice} {p : Notice → Bool}
    (hasides : ∀ n ∈ asides, n.tradeId = t.id ∧ n.happening.isAside = true)
    (hp : ∀ n : Notice, n.happening.isAside = true → p n = false) : asides.filter p = [] := by
  refine List.filter_eq_nil_iff.2 fun n hn => ?_
  simp [hp n (hasides n hn).2]

namespace Chapter

/-- A chapter leads to what the engine makes of the event, if the mail is one. -/
theorem trade (h : Chapter engine s entry s' chapter) :
    s'.trade = (engine.run s.trade (Mail.stream [entry])).1 := by
  cases h with
  | @rejected date event caller r hhandle =>
    show _ = (engine.run s.trade [(date, event)]).1
    rw [Engine.run_cons, hhandle]
    rfl
  | @committed date event caller t c deliveries hhandle =>
    show _ = (engine.run s.trade [(date, event)]).1
    rw [Engine.run_cons, hhandle]
    rfl
  | inspected | repeated | failed => rfl

/-- A change is made known for each commit. -/
theorem changes_eq (h : Chapter engine s entry s' chapter) :
    changes (notices chapter) =
      (engine.history s.trade (Mail.stream [entry])).map (·.2.notice) := by
  cases h with
  | @rejected date event caller r hhandle =>
    show [] = (engine.history s.trade [(date, event)]).map (·.2.notice)
    rw [Engine.history_cons_of_rejected hhandle]
    rfl
  | @committed date event caller t c deliveries hhandle hsends =>
    obtain ⟨asides, hnotices, hasides⟩ := notices_of_committed event hsends
    show changes _ = (engine.history s.trade [(date, event)]).map (·.2.notice)
    rw [Engine.history_cons_of_committed hhandle, hnotices, changes, List.filter_append,
      filter_asides hasides fun n hn => (Happening.of_isAside hn).1]
    cases c.finalized <;> rfl
  | inspected | repeated | failed => rfl

/-- A rejection is made known for each rejected event. -/
theorem rejections_eq (h : Chapter engine s entry s' chapter) :
    rejections (notices chapter) = engine.refusals s.trade (Mail.stream [entry]) := by
  cases h with
  | @rejected date event caller r hhandle =>
    show _ = engine.refusals s.trade [(date, event)]
    rw [Engine.refusals, hhandle]
    rfl
  | @committed date event caller t c deliveries hhandle hsends =>
    obtain ⟨asides, hnotices, hasides⟩ := notices_of_committed event hsends
    show rejections _ = engine.refusals s.trade [(date, event)]
    rw [Engine.refusals, hhandle, hnotices, rejections, List.filter_append,
      filter_asides hasides fun n hn => (Happening.of_isAside hn).2.2]
    cases c.finalized <;> rfl
  | inspected | repeated | failed => rfl

theorem mem_notices (h : Chapter engine s entry s' chapter) :
    s'.trade.id = s.trade.id ∧ ∀ n ∈ notices chapter, n.tradeId = s.trade.id := by
  have hone {happening : Happening} :
      ∀ n ∈ notices [.posted (s.trade.notice happening)], n.tradeId = s.trade.id := by
    intro n hn
    rw [List.mem_singleton.1 hn]
    rfl
  cases h with
  | rejected | failed => exact ⟨rfl, hone⟩
  | inspected | repeated => exact ⟨rfl, fun n hn => absurd hn List.not_mem_nil⟩
  | @committed date event caller t c deliveries hhandle hsends =>
    obtain ⟨asides, hnotices, hasides⟩ := notices_of_committed event hsends
    obtain ⟨hnotice, hid, -⟩ := Engine.truth_of_committed hhandle
    refine ⟨hid, fun n hn => ?_⟩
    rw [hnotices] at hn
    rcases List.mem_append.1 hn with hn | hn
    · rw [(hasides n hn).1, hid]
    rcases List.mem_cons.1 hn with rfl | hn
    · rw [hnotice]
    · split at hn
      · rw [List.mem_singleton.1 hn]
        exact hid
      · cases hn

/-- A trade that has ended stays so, and neither an end nor a change is made known any more. An end is
only made known in the chapter of the commit that leads to it. -/
theorem ends (h : Chapter engine s entry s' chapter) :
    (s.trade.finalized = true → s'.trade.finalized = true ∧
      ∀ n ∈ notices chapter, n.happening.isEnd = false ∧ n.happening.isChange = false) ∧
    ((∀ n ∈ notices chapter, n.happening.isEnd = false) ∨
      s'.trade.finalized = true ∧ s.trade.protocol.isTerminal s'.trade.state = true ∧
        ∃ source before,
          notices chapter = before ++
            [s'.trade.notice (.stateChanged source s'.trade.state),
              s'.trade.notice (.finalized s'.trade.state)] ∧
          ∀ n ∈ before, n.happening.isEnd = false) := by
  have hquiet {happening : Happening} (hend : happening.isEnd = false)
      (hchange : happening.isChange = false) :
      ∀ n ∈ notices [.posted (s.trade.notice happening)],
        n.happening.isEnd = false ∧ n.happening.isChange = false := by
    intro n hn
    rw [List.mem_singleton.1 hn]
    exact ⟨hend, hchange⟩
  have hsilent : ∀ n ∈ notices [], n.happening.isEnd = false ∧ n.happening.isChange = false :=
    fun n hn => absurd hn List.not_mem_nil
  cases h with
  | rejected | failed =>
    exact ⟨fun hended => ⟨hended, hquiet rfl rfl⟩, .inl fun n hn => (hquiet rfl rfl n hn).1⟩
  | inspected | repeated =>
    exact ⟨fun hended => ⟨hended, hsilent⟩, .inl fun n hn => (hsilent n hn).1⟩
  | @committed date event caller t c deliveries hhandle hsends =>
    obtain ⟨asides, hnotices, hasides⟩ := notices_of_committed event hsends
    obtain ⟨hnotice, hid, hsequence, -, htarget, hfinalized, hterminal, hlive⟩ :=
      Engine.truth_of_committed hhandle
    have hbefore : ∀ n ∈ asides, n.happening.isEnd = false := fun n hn =>
      (Happening.of_isAside (hasides n hn).2).2.1
    refine ⟨fun hended => absurd (hlive.symm.trans hended) nofun, ?_⟩
    rw [hnotices]
    cases hc : c.finalized with
    | false =>
      refine .inl fun n hn => ?_
      rcases List.mem_append.1 hn with hn | hn
      · exact hbefore n hn
      · rw [List.mem_singleton.1 hn]
        rfl
    | true =>
      rw [hc] at hfinalized
      refine .inr ⟨hfinalized.symm, hterminal.symm.trans hfinalized.symm, s.trade.state, asides, ?_,
        hbefore⟩
      rw [hnotice, ← hid, ← hsequence, htarget]
      rfl

end Chapter

/-! ## What is in a story -/

namespace Story

theorem trade (h : Story engine start read s told) :
    s.trade = (engine.run start.trade (Mail.stream read)).1 := by
  induction h with
  | begins => rfl
  | goesOn _ hchapter ih =>
    rw [Mail.stream_append, Engine.run_append, ← ih]
    exact hchapter.trade

/-- There is one change for each commit, and it is made known in its turn. -/
theorem changes_eq (h : Story engine start read s told) :
    changes (notices told) =
      (engine.history start.trade (Mail.stream read)).map (·.2.notice) := by
  induction h with
  | begins => rfl
  | goesOn hstory hchapter ih =>
    rw [Mail.stream_append, Engine.history_append, ← hstory.trade, List.map_append, ← ih,
      ← hchapter.changes_eq, notices_append, changes, List.filter_append]
    rfl

theorem rejections_eq (h : Story engine start read s told) :
    rejections (notices told) = engine.refusals start.trade (Mail.stream read) := by
  induction h with
  | begins => rfl
  | goesOn hstory hchapter ih =>
    rw [Mail.stream_append, Engine.refusals_append, ← hstory.trade, ← ih,
      ← hchapter.rejections_eq, notices_append, rejections, List.filter_append]
    rfl

theorem mem_notices (h : Story engine start read s told) :
    s.trade.id = start.trade.id ∧ ∀ n ∈ notices told, n.tradeId = start.trade.id := by
  induction h with
  | begins => exact ⟨rfl, fun n hn => absurd hn List.not_mem_nil⟩
  | goesOn _ hchapter ih =>
    obtain ⟨hid, hmem⟩ := hchapter.mem_notices
    refine ⟨hid.trans ih.1, fun n hn => ?_⟩
    rw [notices_append] at hn
    rcases List.mem_append.1 hn with hn | hn
    · exact ih.2 n hn
    · rw [hmem n hn, ih.1]

theorem protocol (h : Story engine start read s told) :
    s.trade.protocol = start.trade.protocol := by
  rw [h.trade]
  exact (Engine.sameDeal_run engine start.trade _).protocol

/-- The end is made known by the notice that comes with the last change. -/
theorem ending (h : Story engine start read s told) :
    Ending start.trade.protocol (notices told) := by
  -- before the end is made known the trade need not have ended, and behind it has
  have hends : (∀ n ∈ notices told, n.happening.isEnd = false) ∨
      s.trade.finalized = true ∧ Ending start.trade.protocol (notices told) := by
    induction h with
    | begins => exact .inl fun n hn => absurd hn List.not_mem_nil
    | @goesOn read entry s s' told chapter hstory hchapter ih =>
      obtain ⟨hlater, hends⟩ := hchapter.ends
      rw [notices_append]
      rcases ih with hnone | ⟨hended, hending⟩
      · rcases hends with hquiet | ⟨hended, hterminal, source, before, heq, hbefore⟩
        · exact .inl (List.forall_mem_append.2 ⟨hnone, hquiet⟩)
        · rw [hstory.protocol] at hterminal
          have hwhole : notices told ++ notices chapter = (notices told ++ before) ++
              s'.trade.notice (.stateChanged source s'.trade.state) ::
                s'.trade.notice (.finalized s'.trade.state) :: [] := by
            rw [heq, List.append_assoc]
          exact .inr ⟨hended, .ended hterminal hwhole (List.forall_mem_append.2 ⟨hnone, hbefore⟩)
            fun n hn => absurd hn List.not_mem_nil⟩
      · obtain ⟨hended', hquiet⟩ := hlater hended
        exact .inr ⟨hended', hending.append hquiet⟩
  exact hends.elim .notYet And.right

/-- Every mail has its chapter, at its place. -/
theorem at_place (h : Story engine start read s told) {i : Nat} (hentry : read[i]? = some entry) :
    ∃ s₁ s₂ before chapter after, Story engine start (read.take i) s₁ before ∧
      Chapter engine s₁ entry s₂ chapter ∧ told = before ++ chapter ++ after := by
  induction h with
  | begins => cases hentry
  | @goesOn read last s s' told chapter hstory hchapter ih =>
    by_cases hi : i < read.length
    · rw [List.getElem?_append_left hi] at hentry
      obtain ⟨s₁, s₂, before, chapter', after, hbefore, hat, rfl⟩ := ih hentry
      refine ⟨s₁, s₂, before, chapter', after ++ chapter, ?_, hat, by simp⟩
      rwa [List.take_append_of_le_length (Nat.le_of_lt hi)]
    · -- the last mail has the last chapter
      obtain ⟨hlt, hlast⟩ := List.getElem?_eq_some_iff.1 hentry
      rw [List.length_append, List.length_singleton] at hlt
      obtain rfl : i = read.length := by omega
      rw [List.getElem_concat_length rfl] at hlast
      subst hlast
      exact ⟨s, s', told, chapter, [], by rwa [List.take_left], hchapter, by simp⟩

end Story

/-! ## What can be told from a story -/

/-- What a worker tells of a trade while it reads some mail; the rest is what is still to come of the
last mail. -/
structure Truthful (engine : Engine) (t : Trade) (read : List (Instant × Mail))
    (told rest : List Deed) : Prop where
  own : ∀ n ∈ notices told, n.tradeId = t.id
  /-- The changes lead from state to state, the sequence going up by one each time. -/
  path : Path t.id t.state t.sequence (changes (notices told))
  /-- There is one change for each commit. -/
  commits : changes (notices (told ++ rest)) =
    (engine.history t (Mail.stream read)).map (·.2.notice)
  ending : Ending t.protocol (notices told)
  /-- There is one rejection for each rejected event, with the sequence that is left as it is. -/
  rejections : rejections (notices (told ++ rest)) = engine.refusals t (Mail.stream read)
  /-- A change comes behind the news that a deadline has expired, if that was the event, and that
  messages of the commit were not delivered; the commit stands all the same. -/
  chapters : ∀ (i : Nat) (date : Instant) (event : Event) (caller : Option Nat) (t' : Trade)
    (c : Commit), read[i]? = some (date, .event event caller) →
    engine.handle date (engine.run t (Mail.stream (read.take i))).1 event = (t', .committed c) →
    (engine.run t (Mail.stream (read.take (i + 1)))).1 = t' ∧
    ∃ before deliveries after : List Deed,
      told ++ rest = before ++ (event.expired t' ++ deliveries ++ .posted c.notice ::
        (if c.finalized then [.posted (t'.notice (.finalized c.target))] else [])) ++ after ∧
      List.Forall₂ (Deed.Sends t') c.sent deliveries ∧
      changes (notices before) =
        (engine.history t (Mail.stream (read.take i))).map (·.2.notice)

theorem Story.truthful {rest : List Deed}
    (h : Story engine start read s (told ++ rest)) :
    Truthful engine start.trade read told rest := by
  have hpart : notices told <+: notices (told ++ rest) := by
    rw [notices_append]
    exact List.prefix_append _ _
  refine ⟨fun n hn => h.mem_notices.2 n (hpart.subset hn), ?_, h.changes_eq,
    h.ending.of_prefix hpart, h.rejections_eq, ?_⟩
  · have hpath := engine.path_history start.trade (Mail.stream read)
    rw [← h.changes_eq] at hpath
    exact hpath.of_prefix (hpart.filter _)
  · intro i date event caller t' c hentry hcommit
    obtain ⟨s₁, s₂, before, chapter, after, hbefore, hchapter, heq⟩ := h.at_place hentry
    rw [← hbefore.trade] at hcommit
    cases hchapter with
    | rejected hrejected =>
      rw [hcommit] at hrejected
      cases hrejected
    | committed hhandle hsends =>
      obtain ⟨rfl, hc⟩ := Prod.mk.inj (hcommit.symm.trans hhandle)
      cases hc
      refine ⟨?_, before, _, after, heq, hsends, hbefore.changes_eq⟩
      rw [List.take_add_one, hentry, Option.toList, Mail.stream_append, Engine.run_append,
        ← hbefore.trade]
      exact congrArg Prod.fst hcommit

end PeerTrade

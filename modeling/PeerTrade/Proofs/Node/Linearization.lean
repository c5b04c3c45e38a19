import PeerTrade.Proofs.Node.Turns
import PeerTrade.Proofs.Trade.Origin

/-!
# Workers linearize

Whatever the order in which clients, workers, timers and the store act, every trade is what the
engine makes of the events in its own mailbox, one after the other in the order of arrival. A
client is told the outcome that its event has at its place in that order, or the trade as it is
there (`Node.workers_linearize`). Nothing but an event that its worker reads changes a trade.
-/

namespace PeerTrade.Node

/-! ## What a worker owes and has done -/

/-- The trade of a worker is what the engine makes of the events that it has read, which were the
first to arrive. What has not been read is still in the queue, unless the worker broke down. -/
structure Follows (engine : Engine) (j : Journal) (w : Worker) : Prop where
  trade : j.Shows engine j.read.length w.trade
  arrived : j.read.map (·.2) <+: j.placed
  queue : w.phase ≠ .broken → j.placed = j.read.map (·.2) ++ w.mailbox.queue

/-- An answer to a call is the truth about the place at which the mail of that call was read. -/
def Told (x : Watched) (c : Nat) : Reply → Prop
  | .outcome o => ∃ k e i date t, x.calls c = some (k, .submit e) ∧
      (x.journal k).read[i]? = some (date, .event e (some c)) ∧
      (x.journal k).Shows x.node.engine i t ∧ o = (x.node.engine.handle date t e).2
  | .trade t => ∃ k i date, x.calls c = some (k, .inspect) ∧
      (x.journal k).read[i]? = some (date, .inspect c) ∧ (x.journal k).Shows x.node.engine i t
  | .stopped => True

/-- Two pieces of mail that do not belong to one call. -/
def Apart (m m' : Mail) : Prop := ∀ c, m.caller? = some c → m'.caller? ≠ some c

/-- What holds of one worker of a watched node. -/
structure Straight (x : Watched) (k : Nat) (w : Worker) : Prop where
  follows : Follows x.node.engine (x.journal k) w
  owed : ∀ c o, .answer c o ∈ w.chores → Told x c (.outcome o)
  asked : ∀ mail ∈ (x.journal k).placed ++ w.mailbox.line.map (·.2), ∀ c, mail.caller? = some c →
    ∃ request, x.calls c = some (k, request) ∧ mail = request.mail c
  once : ((x.journal k).placed ++ w.mailbox.line.map (·.2)).Pairwise Apart

/-- What holds of every watched node. -/
structure Linear (x : Watched) : Prop where
  known : ∀ k w, x.node.workers.get? k = some w → k < x.node.started
  live : ∀ id k, x.node.live.get? id = some k →
    ∃ w, x.node.workers.get? k = some w ∧ w.trade.id = id
  blank : ∀ k, x.node.workers.get? k = none → (x.journal k).origin = none
  straight : ∀ k w, x.node.workers.get? k = some w → Straight x k w
  told : ∀ c r, x.node.replies.get? c = some r → Told x c r
  called : ∀ c call, x.calls c = some call → c < x.node.called

variable {x x' : Watched} {n m : Node} {a : Action} {k : Nat} {w w' : Worker}

/-! ## What was observed stays true -/

theorem Told.mono {c : Nat} {r : Reply} (h : Told x c r) (hx : x.Extends x') : Told x' c r := by
  -- a place in a journal is still there in every later journal
  have hplace {k i : Nat} {t : Trade} {entry : Instant × Mail}
      (hentry : (x.journal k).read[i]? = some entry)
      (hshows : (x.journal k).Shows x.node.engine i t) :
      (x'.journal k).read[i]? = some entry ∧ (x'.journal k).Shows x'.node.engine i t := by
    have hi : i < (x.journal k).read.length := (List.getElem?_eq_some_iff.1 hentry).1
    obtain ⟨⟨more, hmore⟩, hshows'⟩ := hx.shows hshows (Nat.le_of_lt hi)
    refine ⟨?_, hshows'⟩
    rw [← hmore, List.getElem?_append_left hi]
    exact hentry
  cases r with
  | outcome o =>
    obtain ⟨k, e, i, date, t, hcall, hentry, hshows, ho⟩ := h
    obtain ⟨hentry', hshows'⟩ := hplace hentry hshows
    refine ⟨k, e, i, date, t, hx.calls c _ hcall, hentry', hshows', ?_⟩
    rw [hx.engine]
    exact ho
  | trade t =>
    obtain ⟨k, i, date, hcall, hentry, hshows⟩ := h
    obtain ⟨hentry', hshows'⟩ := hplace hentry hshows
    exact ⟨k, i, date, hx.calls c _ hcall, hentry', hshows'⟩
  | stopped => trivial

theorem Straight.mono (h : Straight x k w) (hx : x.Extends x')
    (hjournal : x'.journal k = x.journal k) : Straight x' k w := by
  refine ⟨?_, fun c o ho => (h.owed c o ho).mono hx, ?_, ?_⟩
  · rw [hjournal, hx.engine]
    exact h.follows
  · rw [hjournal]
    intro mail hmail c hc
    obtain ⟨request, hcall, heq⟩ := h.asked mail hmail c hc
    exact ⟨request, hx.calls c _ hcall, heq⟩
  · rw [hjournal]
    exact h.once

/-- Steps that leave the trades alone keep everything. -/
theorem Straight.still (h : Straight x k w) (hw : w.Still w') : Straight x k w' := by
  have hsublist := (hw.line.map (·.2)).append_left (x.journal k).placed
  refine ⟨⟨?_, h.follows.arrived, ?_⟩, ?_, ?_, h.once.sublist hsublist⟩
  · rw [hw.trade]
    exact h.follows.trade
  · rw [hw.phase, hw.queue]
    exact h.follows.queue
  · rw [hw.chores]
    exact h.owed
  · exact fun mail hmail => h.asked mail (hsublist.subset hmail)

theorem Linear.still {n' : Node} (h : Linear (x.note a m)) (hstill : m.Still n') :
    Linear (x.note a n') := by
  have hjournal := x.note_of_still a hstill
  have hx : (x.note a m).Extends (x.note a n') := by
    refine ⟨hstill.engine, fun k t ht => ?_, fun c call hc => hc⟩
    rw [hjournal k]
    exact ⟨ht, List.prefix_rfl, List.prefix_rfl⟩
  constructor
  · intro k w' hk'
    obtain ⟨w, hk, -⟩ := hstill.exists_before hk'
    show k < n'.started
    rw [hstill.started]
    exact h.known k w hk
  · intro id k hid
    change n'.live.get? id = some k at hid
    rw [hstill.live] at hid
    obtain ⟨w, hk, htrade⟩ := h.live id k hid
    obtain ⟨w', hk', hw⟩ := hstill.present k w hk
    exact ⟨w', hk', by rw [hw.trade, htrade]⟩
  · intro k hk'
    rw [hjournal k]
    refine h.blank k ?_
    cases hk : m.workers.get? k with
    | none => exact hk
    | some w =>
      obtain ⟨w', hsome, -⟩ := hstill.present k w hk
      change n'.workers.get? k = none at hk'
      rw [hk'] at hsome
      cases hsome
  · intro k w' hk'
    obtain ⟨w, hk, hw⟩ := hstill.exists_before hk'
    exact ((h.straight k w hk).mono hx (hjournal k)).still hw
  · intro c r hr
    change n'.replies.get? c = some r at hr
    rw [hstill.replies] at hr
    exact (h.told c r hr).mono hx
  · intro c call hc
    show c < n'.called
    rw [hstill.called]
    exact h.called c call hc

/-! ## What one change does -/

theorem Linear.extends (h : Linear x) (a : Action) (hengine : m.engine = x.node.engine) :
    x.Extends (x.note a m) := by
  refine ⟨hengine, fun k t ht => ?_, fun c call hc => ?_⟩
  · show ((x.journal k).note _ _ _).origin = some t ∧
      (x.journal k).read <+: ((x.journal k).note _ _ _).read ∧
      (x.journal k).placed <+: ((x.journal k).note _ _ _).placed
    cases hk : x.node.workers.get? k with
    | none =>
      rw [h.blank k hk] at ht
      cases ht
    | some w =>
      cases m.workers.get? k with
      | none => exact ⟨ht, List.prefix_rfl, List.prefix_rfl⟩
      | some w' => exact ⟨ht, List.prefix_append _ _, List.prefix_append _ _⟩
  · show x.node.callsAfter x.calls a c = some call
    cases a with
    | call k request =>
      -- the number of a call is new
      have hne : c ≠ x.node.called := Nat.ne_of_lt (h.called c call hc)
      exact (if_neg hne).trans hc
    | _ => exact hc

/-- A worker that is not touched by an action. -/
theorem note_untouched (hk : x.node.workers.get? k = some w) (hm : m.workers.get? k = some w)
    (hheard : x.node.heard k a = none) : (x.note a m).journal k = x.journal k := by
  show (x.journal k).note _ _ _ = _
  rw [hk, hm, hheard, Journal.note_of_queue_eq _ rfl]

/-- A change that concerns one worker only. -/
theorem Linear.replace (h : Linear x) (hk : x.node.workers.get? k = some w)
    (hm : ∀ k', m.workers.get? k' = if k' = k then some w' else x.node.workers.get? k')
    (hengine : m.engine = x.node.engine) (hlive : m.live = x.node.live)
    (hstarted : m.started = x.node.started) (hid : w'.trade.id = w.trade.id)
    (hheard : ∀ k', k' ≠ k → x.node.heard k' a = none) (hself : Straight (x.note a m) k w')
    (htold : ∀ c r, m.replies.get? c = some r →
      x.node.replies.get? c = some r ∨ Told (x.note a m) c r)
    (hcalled : ∀ c call, (x.note a m).calls c = some call → c < m.called) :
    Linear (x.note a m) := by
  have hx := h.extends a hengine
  constructor
  · intro k' w'' hk'
    show k' < m.started
    rw [hstarted]
    by_cases heq : k' = k
    · exact heq ▸ h.known k w hk
    · change m.workers.get? k' = some w'' at hk'
      rw [hm, if_neg heq] at hk'
      exact h.known k' w'' hk'
  · intro id k' hk'
    change m.live.get? id = some k' at hk'
    rw [hlive] at hk'
    obtain ⟨w₀, hw₀, hid₀⟩ := h.live id k' hk'
    by_cases heq : k' = k
    · subst heq
      rw [hk] at hw₀
      cases hw₀
      exact ⟨w', (hm k').trans (if_pos rfl), hid.trans hid₀⟩
    · exact ⟨w₀, ((hm k').trans (if_neg heq)).trans hw₀, hid₀⟩
  · intro k' hk'
    change m.workers.get? k' = none at hk'
    have heq : k' ≠ k := by
      rintro rfl
      rw [hm, if_pos rfl] at hk'
      cases hk'
    rw [hm, if_neg heq] at hk'
    show ((x.journal k').note _ _ _).origin = none
    rw [hm, if_neg heq, hk']
    exact h.blank k' hk'
  · intro k' w'' hk'
    change m.workers.get? k' = some w'' at hk'
    by_cases heq : k' = k
    · subst heq
      rw [hm, if_pos rfl] at hk'
      cases hk'
      exact hself
    · have hbefore := hk'
      rw [hm, if_neg heq] at hbefore
      exact (h.straight k' w'' hbefore).mono hx (note_untouched hbefore hk' (hheard k' heq))
  · intro c r hr
    rcases htold c r hr with hold | hnew
    · exact (h.told c r hold).mono hx
    · exact hnew
  · exact hcalled

/-- A change that concerns no worker. -/
theorem Linear.keep (h : Linear x) (hm : m.workers = x.node.workers)
    (hengine : m.engine = x.node.engine)
    (hlive : ∀ id k, m.live.get? id = some k → x.node.live.get? id = some k)
    (hstarted : m.started = x.node.started) (hreplies : m.replies = x.node.replies)
    (hheard : ∀ k, x.node.heard k a = none)
    (hcalled : ∀ c call, (x.note a m).calls c = some call → c < m.called) :
    Linear (x.note a m) := by
  have hx := h.extends a hengine
  constructor
  · intro k w hk
    show k < m.started
    rw [hstarted]
    exact h.known k w (hm ▸ hk)
  · intro id k hk
    obtain ⟨w, hw, hid⟩ := h.live id k (hlive id k hk)
    exact ⟨w, hm ▸ hw, hid⟩
  · intro k hk
    change m.workers.get? k = none at hk
    rw [hm] at hk
    show ((x.journal k).note _ _ _).origin = none
    rw [hm, hk]
    exact h.blank k hk
  · intro k w hk
    change m.workers.get? k = some w at hk
    have hbefore := hk
    rw [hm] at hbefore
    exact (h.straight k w hbefore).mono hx (note_untouched hbefore hk (hheard k))
  · intro c r hr
    change m.replies.get? c = some r at hr
    rw [hreplies] at hr
    exact (h.told c r hr).mono hx
  · exact hcalled

/-! ## Mail arrives -/

theorem apart_symm {m m' : Mail} (h : Apart m m') : Apart m' m :=
  fun c hc hc' => h c hc' hc

/-- Mail comes from the line, or answers a call that is made now, or answers none. -/
theorem Straight.arrival (h : Straight x k w) (hx : x.Extends x') {placed : List Mail} (fresh : List Mail)
    (hjournal : x'.journal k = (x.journal k).note none (some w) (some w'))
    (htrade : w'.trade = w.trade) (hchores : w'.chores = w.chores)
    (hrunning : w.phase = .running)
    (hqueue : w'.mailbox.queue = w.mailbox.queue ++ placed)
    (hmail : (placed ++ w'.mailbox.line.map (·.2)).Subperm (fresh ++ w.mailbox.line.map (·.2)))
    (hfresh : ∀ mail ∈ fresh, ∀ c, mail.caller? = some c → x.calls c = none ∧
      ∃ request, x'.calls c = some (k, request) ∧ mail = request.mail c)
    (hone : fresh.Pairwise Apart) :
    Straight x' k w' := by
  have hplaced : (x'.journal k).placed = (x.journal k).placed ++ placed := by
    simp [hjournal, Journal.note, hqueue]
  have hread : (x'.journal k).read = (x.journal k).read := by
    simp [hjournal, Journal.note]
  have horigin : (x'.journal k).origin = (x.journal k).origin := by
    simp [hjournal, Journal.note]
  -- nothing new stands beside the fresh mail
  have hall : ((x'.journal k).placed ++ w'.mailbox.line.map (·.2)).Subperm
      (fresh ++ ((x.journal k).placed ++ w.mailbox.line.map (·.2))) := by
    rw [hplaced, List.append_assoc]
    refine ((List.subperm_append_left _).2 hmail).trans (List.Perm.subperm ?_)
    exact List.perm_append_comm_assoc _ _ _
  refine ⟨⟨?_, ?_, fun _ => ?_⟩, ?_, fun mail hin c hc => ?_, ?_⟩
  · obtain ⟨t₀, ht₀, ht⟩ := h.follows.trade
    refine ⟨t₀, horigin.trans ht₀, ?_⟩
    rw [htrade, hread, hx.engine]
    exact ht
  · rw [hread, hplaced]
    exact h.follows.arrived.trans (List.prefix_append _ _)
  · rw [hplaced, hread, hqueue, h.follows.queue (by simp [hrunning]), List.append_assoc]
  · rw [hchores]
    exact fun c o ho => (h.owed c o ho).mono hx
  · rcases List.mem_append.1 (hall.subset hin) with hnew | hold
    · exact (hfresh mail hnew c hc).2
    · obtain ⟨request, hcall, heq⟩ := h.asked mail hold c hc
      exact ⟨request, hx.calls c _ hcall, heq⟩
  · obtain ⟨l, hperm, hsublist⟩ := hall
    refine (hperm.pairwise_iff apart_symm).1 (List.Pairwise.sublist hsublist ?_)
    refine List.pairwise_append.2 ⟨hone, h.once, fun mail hnew mail' hold c hc hc' => ?_⟩
    -- the call of fresh mail has not been made before
    obtain ⟨request, hcall, -⟩ := h.asked mail' hold c hc'
    rw [(hfresh mail hnew c hc).1] at hcall
    cases hcall

/-- A worker is offered mail. -/
theorem Linear.offered (h : Linear x) (hk : x.node.workers.get? k = some w)
    (hrunning : w.phase = .running) {sender : Actor} {mail : Mail}
    (hm : m.workers.get? = (x.node.setWorker k
      { w with mailbox := (w.mailbox.offer sender mail).1 }).workers.get?)
    (hengine : m.engine = x.node.engine) (hlive : m.live = x.node.live)
    (hstarted : m.started = x.node.started) (hreplies : m.replies = x.node.replies)
    (hheard : ∀ k, x.node.heard k a = none)
    (hmail : ∀ c, mail.caller? = some c → x.calls c = none ∧
      ∃ request, (x.note a m).calls c = some (k, request) ∧ mail = request.mail c)
    (hcalled : ∀ c call, (x.note a m).calls c = some call → c < m.called) :
    Linear (x.note a m) := by
  obtain ⟨placed, hqueue, hsubperm⟩ := w.mailbox.exists_offered sender mail
  have hm' (k' : Nat) : m.workers.get? k' = if k' = k then
      some { w with mailbox := (w.mailbox.offer sender mail).1 } else x.node.workers.get? k' := by
    rw [hm, get?_setWorker]
  have hjournal : (x.note a m).journal k = (x.journal k).note none (some w)
      (some { w with mailbox := (w.mailbox.offer sender mail).1 }) := by
    show (x.journal k).note _ _ _ = _
    rw [hheard, hk, hm', if_pos rfl]
  refine h.replace hk hm' hengine hlive hstarted rfl (fun k' _ => hheard k') ?_
    (fun c r hr => .inl (hreplies ▸ hr)) hcalled
  refine (h.straight k w hk).arrival (h.extends a hengine) [mail] hjournal rfl rfl hrunning
    hqueue hsubperm ?_ (List.pairwise_singleton _ _)
  intro mail' hmail' c hc
  rw [List.mem_singleton.1 hmail'] at hc ⊢
  exact hmail c hc

/-- A sender who has been admitted puts its mail into the queue. -/
theorem Linear.entered (h : Linear x) (ha : a.IsPlain) (hk : x.node.workers.get? k = some w)
    (hrunning : w.phase = .running) {sender : Actor} {mailbox : Mailbox Actor Mail}
    (henter : w.mailbox.enter sender = some mailbox) :
    Linear (x.note a (x.node.setWorker k { w with mailbox })) := by
  obtain ⟨message, hqueue, hsubperm⟩ := Mailbox.exists_entered henter
  have hheard := fun k => x.node.heard_of_plain k ha
  have hjournal : (x.note a (x.node.setWorker k { w with mailbox })).journal k =
      (x.journal k).note none (some w) (some { w with mailbox }) := by
    show (x.journal k).note _ _ _ = _
    rw [hheard, hk, get?_setWorker, if_pos rfl]
  refine h.replace hk (x.node.get?_setWorker k · _) rfl rfl rfl rfl (fun k' _ => hheard k') ?_
    (fun c r hr => .inl hr) fun c call hc => ?_
  · exact (h.straight k w hk).arrival (h.extends a rfl) [] hjournal rfl rfl hrunning hqueue
      hsubperm (fun mail hmail => absurd hmail List.not_mem_nil) .nil
  · refine h.called c call ?_
    rwa [← x.node.callsAfter_of_plain x.calls ha]

/-! ## Work is done -/

/-- A worker goes on with its work, and the mail in its mailbox stays there. -/
theorem Straight.proceed (h : Straight x k w) (w' : Worker) (hx : x.Extends x')
    (hjournal : x'.journal k = x.journal k) (htrade : w'.trade = w.trade)
    (hmailbox : w'.mailbox = w.mailbox) (hphase : w'.phase ≠ .broken → w.phase ≠ .broken)
    (howed : ∀ c o, .answer c o ∈ w'.chores → .answer c o ∈ w.chores) : Straight x' k w' := by
  have hmono := h.mono hx hjournal
  refine ⟨⟨?_, hmono.follows.arrived, fun hsound => ?_⟩, fun c o ho => hmono.owed c o (howed c o ho),
    ?_, ?_⟩
  · rw [htrade]
    exact hmono.follows.trade
  · rw [hmailbox]
    exact hmono.follows.queue (hphase hsound)
  · rw [hmailbox]
    exact hmono.asked
  · rw [hmailbox]
    exact hmono.once

theorem Linear.choreDone (h : Linear x) {now : Time} {chore : Chore} {chores : List Chore}
    (hk : x.node.workers.get? k = some w) (hchores : w.chores = chore :: chores) :
    Linear (x.note (.step now (.worker k))
      ((x.node.setWorker k { w with chores }).settle w.trade chore)) := by
  let m := (x.node.setWorker k { w with chores }).settle w.trade chore
  have hm (k' : Nat) : m.workers.get? k' =
      if k' = k then some { w with chores } else x.node.workers.get? k' := by
    rw [← get?_setWorker]
    cases chore <;> rfl
  have hengine : m.engine = x.node.engine := by cases chore <;> rfl
  have hheard : x.node.heard k (.step now (.worker k)) = none := by
    simp [heard, hk, hchores]
  have hjournal : (x.note (.step now (.worker k)) m).journal k = x.journal k := by
    show (x.journal k).note _ _ _ = _
    rw [hheard, hk, hm, if_pos rfl]
    exact Journal.note_of_queue_eq _ rfl
  have hx := h.extends (.step now (.worker k)) hengine
  have hself := (h.straight k w hk).proceed { w with chores } hx hjournal rfl rfl id
    fun c o ho => by
      rw [hchores]
      exact List.mem_cons_of_mem _ ho
  refine h.replace hk hm hengine ?_ ?_ rfl (fun k' hne => heard_of_ne _ (Ne.symm hne)) hself ?_ ?_
  · cases chore <;> rfl
  · cases chore <;> rfl
  · intro c r hr
    cases chore with
    | answer caller outcome =>
      -- what the worker owed is the truth
      change (x.node.replies.insert caller (.outcome outcome)).get? c = some r at hr
      rw [Dict.get?_insert] at hr
      split at hr
      next heq =>
        cases hr
        rw [Std.LawfulEqOrd.eq_of_compare heq]
        refine .inr (((h.straight k w hk).owed caller outcome ?_).mono hx)
        rw [hchores]
        exact List.mem_cons_self
      next => exact .inl hr
    | _ => exact .inl hr
  · intro c call hc
    have hlt := h.called c call hc
    cases chore <;> exact hlt

theorem Linear.ended (h : Linear x) {now : Time} (hk : x.node.workers.get? k = some w)
    (hrunning : w.phase = .running) (hqueue : w.mailbox.queue = []) :
    Linear (x.note (.step now (.worker k)) (x.node.setWorker k { w with phase := .ended })) := by
  have hheard : x.node.heard k (.step now (.worker k)) = none := by
    simp [heard, hk, hqueue]
  have hjournal : (x.note (.step now (.worker k))
      (x.node.setWorker k { w with phase := .ended })).journal k = x.journal k := by
    show (x.journal k).note _ _ _ = _
    rw [hheard, hk, get?_setWorker, if_pos rfl]
    exact Journal.note_of_queue_eq _ rfl
  have hx := h.extends (m := x.node.setWorker k { w with phase := .ended })
    (.step now (.worker k)) rfl
  have hself := (h.straight k w hk).proceed { w with phase := .ended } hx hjournal rfl rfl
    (by simp [hrunning]) fun _ _ ho => ho
  exact h.replace hk (x.node.get?_setWorker k · _) rfl rfl rfl rfl
    (fun k' hne => heard_of_ne _ (Ne.symm hne)) hself (fun c r hr => .inl hr) h.called

/-! ## Mail is read -/

/-- What a worker reads is the next mail in the order of arrival. -/
theorem Straight.readNext (h : Straight x k w) (hx : x.Extends x') {date : Instant} {mail : Mail}
    (hjournal : x'.journal k = (x.journal k).note (some (date, mail)) (some w) (some w'))
    (hrunning : w.phase = .running) (hqueue : w.mailbox.queue = mail :: w'.mailbox.queue)
    (hline : w'.mailbox.line = w.mailbox.line)
    (htrade : w'.trade = (x.node.engine.run w.trade (Mail.stream [(date, mail)])).1)
    (howed : ∀ c o, .answer c o ∈ w'.chores → Told x' c (.outcome o)) : Straight x' k w' := by
  have hplaced : (x'.journal k).placed = (x.journal k).placed := by
    simp [hjournal, Journal.note, hqueue]
  have hread : (x'.journal k).read = (x.journal k).read ++ [(date, mail)] := by
    simp [hjournal, Journal.note]
  have horigin : (x'.journal k).origin = (x.journal k).origin := by
    simp [hjournal, Journal.note]
  have hbefore := h.follows.queue (by simp [hrunning])
  have hafter : (x'.journal k).placed =
      (x'.journal k).read.map (·.2) ++ w'.mailbox.queue := by
    rw [hplaced, hread, hbefore, hqueue, List.map_append, List.append_assoc]
    rfl
  refine ⟨⟨?_, ?_, fun _ => hafter⟩, howed, ?_, ?_⟩
  · obtain ⟨t₀, ht₀, ht⟩ := h.follows.trade
    refine ⟨t₀, horigin.trans ht₀, ?_⟩
    rw [List.take_length] at ht ⊢
    rw [htrade, hread, Mail.stream_append, hx.engine, Engine.run_append, ht]
  · rw [hafter]
    exact List.prefix_append _ _
  · rw [hplaced, hline]
    intro mail' hmail' c hc
    obtain ⟨request, hcall, heq⟩ := h.asked mail' hmail' c hc
    exact ⟨request, hx.calls c _ hcall, heq⟩
  · rw [hplaced, hline]
    exact h.once

/-- The place of the mail that is read now: the trade is still as it was before. -/
theorem Straight.place (h : Straight x k w) (hx : x.Extends x') {date : Instant} {mail : Mail}
    (hjournal : x'.journal k = (x.journal k).note (some (date, mail)) (some w) (some w')) :
    (x'.journal k).read[(x.journal k).read.length]? = some (date, mail) ∧
      (x'.journal k).Shows x'.node.engine (x.journal k).read.length w.trade := by
  have hread : (x'.journal k).read = (x.journal k).read ++ [(date, mail)] := by
    simp [hjournal, Journal.note]
  have horigin : (x'.journal k).origin = (x.journal k).origin := by
    simp [hjournal, Journal.note]
  constructor
  · simp [hread]
  · rw [hx.engine]
    refine h.follows.trade.mono (fun t ht => horigin.trans ht) ?_ (Nat.le_refl _)
    rw [hread]
    exact List.prefix_append _ _

/-- The call of a mail that is in the queue. -/
theorem Straight.call_of_head (h : Straight x k w) (hrunning : w.phase = .running) {mail : Mail}
    {rest : List Mail} (hqueue : w.mailbox.queue = mail :: rest) {c : Nat}
    (hc : mail.caller? = some c) :
    ∃ request, x.calls c = some (k, request) ∧ mail = request.mail c := by
  refine h.asked mail (List.mem_append_left _ ?_) c hc
  rw [h.follows.queue (by simp [hrunning]), hqueue]
  exact List.mem_append_right _ List.mem_cons_self

theorem not_answer_of_mem_chores {event : Event} {o o' : Outcome} {c : Nat} :
    Chore.answer c o' ∉ o.chores event := by
  intro hmem
  cases o with
  | rejected r => simp [Outcome.chores] at hmem
  | committed commit =>
    simp only [Outcome.chores, List.mem_cons, List.mem_append, List.mem_map, reduceCtorEq,
      false_or] at hmem
    rcases hmem with (hexpiry | ⟨effect, -, heffect⟩) | hfinal
    · cases event <;> simp [Event.expiry] at hexpiry
    · cases effect <;> cases heffect
    · by_cases hfinalized : commit.finalized = true <;> simp [hfinalized] at hfinal

/-- A worker breaks down: those whose calls are lost are told so. -/
theorem get?_replies_breakDown {caller : Option Nat} {c : Nat} {r : Reply}
    (h : (n.breakDown k w caller).replies.get? c = some r) :
    n.replies.get? c = some r ∨ r = .stopped := by
  have hfold : ∀ (lost : List Nat) (n : Node),
      (lost.foldl (fun (n : Node) c => n.reply c .stopped) n).replies.get? c = some r →
        n.replies.get? c = some r ∨ r = .stopped := by
    intro lost
    induction lost with
    | nil => exact fun n hr => .inl hr
    | cons c' rest ih =>
      intro n hr
      rcases ih _ hr with hold | hnew
      · change (n.replies.insert c' .stopped).get? c = some r at hold
        rw [Dict.get?_insert] at hold
        split at hold
        · exact .inr (Option.some.inj hold).symm
        · exact .inl hold
      · exact .inr hnew
  exact hfold _ (n.setWorker k { w with
    phase := .broken
    mailbox := { w.mailbox with queue := [], waiting := [], admitted := [] } }) h

/-- A worker breaks down over the mail that it reads, and what lies in its mailbox is lost. -/
theorem Linear.brokenDown (h : Linear x) {now : Time} (hk : x.node.workers.get? k = some w)
    (hheard : x.node.heard k (.step now (.worker k)) = none) (w' : Worker)
    (caller : Option Nat) (htrade : w'.trade = w.trade) (hchores : w'.chores = []) :
    Linear (x.note (.step now (.worker k)) (x.node.breakDown k w' caller)) := by
  obtain ⟨hengine, hlive, hstarted, hcalled, -, -, hworkers⟩ :=
    x.node.breakDown_same k w' caller
  let w'' : Worker := { w' with
    phase := .broken
    mailbox := { w'.mailbox with queue := [], waiting := [], admitted := [] } }
  have hm (k' : Nat) : (x.node.breakDown k w' caller).workers.get? k' =
      if k' = k then some w'' else x.node.workers.get? k' := by
    rw [hworkers, get?_setWorker]
  have hjournal : (x.note (.step now (.worker k)) (x.node.breakDown k w' caller)).journal k =
      x.journal k := by
    show (x.journal k).note _ _ _ = _
    rw [hheard, hk, hm, if_pos rfl]
    simp [Journal.note, w'']
  have hstraight := (h.straight k w hk).mono (h.extends (.step now (.worker k)) hengine) hjournal
  refine h.replace hk hm hengine hlive hstarted (by rw [htrade])
    (fun k' hne => heard_of_ne _ (Ne.symm hne))
    ⟨⟨?_, hstraight.follows.arrived, fun hsound => absurd rfl hsound⟩, fun c o ho => ?_, ?_, ?_⟩
    (fun c r hr => (get?_replies_breakDown hr).imp_right ?_) fun c call hc => ?_
  · rw [htrade]
    exact hstraight.follows.trade
  · change Chore.answer c o ∈ w'.chores at ho
    rw [hchores] at ho
    cases ho
  · -- nobody is left in line
    intro mail hmail
    refine hstraight.asked mail (List.mem_append_left _ ?_)
    simpa [Mailbox.line, w''] using hmail
  · exact hstraight.once.sublist (List.Sublist.append_left (List.nil_sublist _) _)
  · rintro rfl
    trivial
  · rw [hcalled]
    exact h.called c call hc

/-- A worker reads mail and decides on it. It owes an answer only to the caller of an event, and
shows the trade only to whoever wants to see it. -/
theorem Linear.decided (h : Linear x) {now : Time} {mail : Mail} (w' : Worker)
    (hk : x.node.workers.get? k = some w) (hrunning : w.phase = .running)
    (hheard : x.node.heard k (.step now (.worker k)) = some (now.date, mail))
    (hqueue : w.mailbox.queue = mail :: w'.mailbox.queue)
    (hline : w'.mailbox.line = w.mailbox.line)
    (htrade : w'.trade = (x.node.engine.run w.trade (Mail.stream [(now.date, mail)])).1)
    (hm : m.workers.get? = (x.node.setWorker k w').workers.get?)
    (hengine : m.engine = x.node.engine) (hlive : m.live = x.node.live)
    (hstarted : m.started = x.node.started) (hcalled : m.called = x.node.called)
    (howed : ∀ c o, .answer c o ∈ w'.chores → ∃ e, mail = .event e (some c) ∧
      o = (x.node.engine.handle now.date w.trade e).2)
    (htold : ∀ c r, m.replies.get? c = some r →
      x.node.replies.get? c = some r ∨ mail = .inspect c ∧ r = .trade w.trade) :
    Linear (x.note (.step now (.worker k)) m) := by
  have hstraight := h.straight k w hk
  have hx := h.extends (.step now (.worker k)) hengine
  have hm' (k' : Nat) : m.workers.get? k' = if k' = k then some w' else x.node.workers.get? k' := by
    rw [hm, get?_setWorker]
  have hjournal : (x.note (.step now (.worker k)) m).journal k =
      (x.journal k).note (some (now.date, mail)) (some w) (some w') := by
    show (x.journal k).note _ _ _ = _
    rw [hheard, hk, hm', if_pos rfl]
  obtain ⟨hentry, hshows⟩ := hstraight.place hx hjournal
  refine h.replace hk hm' hengine hlive hstarted (by rw [htrade, Engine.run_id])
    (fun k' hne => heard_of_ne _ (Ne.symm hne)) ?_ (fun c r hr => (htold c r hr).imp_right ?_)
    fun c call hc => ?_
  · refine hstraight.readNext hx hjournal hrunning hqueue hline htrade fun c o ho => ?_
    obtain ⟨e, rfl, rfl⟩ := howed c o ho
    obtain ⟨request, hcall, hrequest⟩ := hstraight.call_of_head hrunning hqueue rfl
    cases request with
    | submit e' =>
      cases hrequest
      exact ⟨k, e, _, _, w.trade, hx.calls c _ hcall, hentry, hshows, by rw [hx.engine]⟩
    | dispatch e' => cases hrequest
    | inspect => cases hrequest
  · rintro ⟨rfl, rfl⟩
    obtain ⟨request, hcall, hrequest⟩ := hstraight.call_of_head hrunning hqueue rfl
    cases request with
    | inspect => exact ⟨k, _, _, hx.calls c _ hcall, hentry, hshows⟩
    | dispatch e => cases hrequest
    | submit e => cases hrequest
  · rw [hcalled]
    exact h.called c call hc

theorem Linear.readMail (h : Linear x) {now : Time} {mail : Mail} {mailbox : Mailbox Actor Mail}
    {admitted : Option Actor} (hk : x.node.workers.get? k = some w)
    (hrunning : w.phase = .running) (hchores : w.chores = [])
    (htake : w.mailbox.take = some (mail, mailbox, admitted)) :
    Linear (x.note (.step now (.worker k)) (x.node.read now k { w with mailbox } mail)) := by
  obtain ⟨hqueue, hline⟩ := Mailbox.take_eq htake
  have hheard := heard_eq now hk hrunning hchores hqueue
  cases mail with
  | event e caller =>
    by_cases hcrash : x.node.engine.crashesOn w.trade e = true
    · have hm : x.node.read now k { w with mailbox } (.event e caller) =
          x.node.breakDown k { w with mailbox } caller := if_pos hcrash
      rw [hm]
      exact h.brokenDown hk (hheard.trans (if_pos hcrash)) { w with mailbox } caller rfl hchores
    · have hm : x.node.read now k { w with mailbox } (.event e caller) =
          x.node.setWorker k ({ w with mailbox }.decide x.node.engine now.date e caller) :=
        if_neg hcrash
      rw [hm]
      refine h.decided _ hk hrunning (hheard.trans (if_neg hcrash)) hqueue hline rfl
        rfl rfl rfl rfl rfl (fun c o ho => ?_) fun c r hr => .inl hr
      -- only the caller of this event is owed an answer
      rcases List.mem_append.1 ho with hmem | hmem
      · exact absurd hmem not_answer_of_mem_chores
      · obtain ⟨c', hc', heq⟩ := List.mem_map.1 hmem
        cases heq
        exact ⟨e, by rw [Option.mem_toList.1 hc'], rfl⟩
  | inspect c =>
    refine h.decided { w with mailbox } hk hrunning hheard hqueue hline rfl rfl rfl rfl rfl rfl
      (fun c o ho => ?_) fun c' r hr => ?_
    · change Chore.answer c o ∈ w.chores at ho
      rw [hchores] at ho
      cases ho
    · change (x.node.replies.insert c (.trade w.trade)).get? c' = some r at hr
      rw [Dict.get?_insert] at hr
      split at hr
      next heq => exact .inr ⟨by rw [Std.LawfulEqOrd.eq_of_compare heq], (Option.some.inj hr).symm⟩
      next => exact .inl hr
  | persistFailed f attempt =>
    obtain ⟨htrade, -, hmailbox⟩ :=
      Worker.hear_same { w with mailbox } x.node.settings.persistRetryLimit f attempt
    have hnone (c : Nat) (o : Outcome) : .answer c o ∉
        (Worker.hear { w with mailbox } x.node.settings.persistRetryLimit f attempt).chores := by
      unfold Worker.hear
      split
      · simp [hchores]
      · dsimp only
        split <;> simp
    refine h.decided _ hk hrunning hheard ?_ ?_ ?_ rfl rfl rfl rfl rfl
      (fun c o ho => absurd ho (hnone c o)) fun c r hr => .inl hr
    · rw [hmailbox]
      exact hqueue
    · rw [hmailbox]
      exact hline
    · rw [htrade]
      rfl

/-! ## Workers begin -/

/-- A new worker has a number that no worker had before. -/
theorem Linear.get?_started (h : Linear x) : x.node.workers.get? x.node.started = none := by
  cases hk : x.node.workers.get? x.node.started with
  | none => rfl
  | some w => exact absurd (h.known _ w hk) (Nat.lt_irrefl _)

theorem Linear.begun (h : Linear x) (t : Trade) (isStored : Bool)
    (hheard : ∀ k, x.node.heard k a = none)
    (hcalls : (x.note a (x.node.begin t isStored)).calls = x.calls) :
    Linear (x.note a (x.node.begin t isStored)) := by
  let w₀ : Worker := { trade := t, mailbox := .new x.node.settings.mailboxCapacity.toNat }
  have hm (k : Nat) : (x.node.begin t isStored).workers.get? k =
      if k = x.node.started then some w₀ else x.node.workers.get? k := get?_setWorker _ _ _ _
  have hx := h.extends (m := x.node.begin t isStored) a rfl
  constructor
  · intro k w hk
    change (x.node.begin t isStored).workers.get? k = some w at hk
    rw [hm] at hk
    split at hk
    next heq => exact heq ▸ Nat.lt_succ_self _
    next => exact Nat.lt_succ_of_lt (h.known k w hk)
  · intro id k hk
    change (x.node.live.insert t.id x.node.started).get? id = some k at hk
    rw [Dict.get?_insert] at hk
    split at hk
    next heq =>
      cases hk
      exact ⟨w₀, (hm _).trans (if_pos rfl), (Std.LawfulEqOrd.eq_of_compare heq).symm⟩
    next =>
      obtain ⟨w, hw, hid⟩ := h.live id k hk
      exact ⟨w, (hm k).trans ((if_neg (Nat.ne_of_lt (h.known k w hw))).trans hw), hid⟩
  · intro k hk
    change (x.node.begin t isStored).workers.get? k = none at hk
    have hbefore : x.node.workers.get? k = none := by
      rw [hm] at hk
      split at hk
      · cases hk
      · exact hk
    show ((x.journal k).note _ _ _).origin = none
    rw [hk, hbefore]
    exact h.blank k hbefore
  · intro k w hk
    change (x.node.begin t isStored).workers.get? k = some w at hk
    have hsome := hk
    rw [hm] at hk
    split at hk
    next heq =>
      subst heq
      cases hk
      have hjournal : (x.note a (x.node.begin t isStored)).journal x.node.started =
          { origin := some t } := by
        show (x.journal _).note _ _ _ = _
        rw [h.get?_started, hsome]
        rfl
      refine ⟨⟨?_, ?_, fun _ => ?_⟩, fun c o ho => absurd ho List.not_mem_nil, ?_, ?_⟩
      all_goals rw [hjournal]
      · exact ⟨t, rfl, rfl⟩
      · exact List.prefix_rfl
      · rfl
      · exact fun mail hmail => absurd hmail List.not_mem_nil
      · exact .nil
    next => exact (h.straight k w hk).mono hx (note_untouched hk hsome (hheard k))
  · intro c r hr
    exact (h.told c r hr).mono hx
  · rw [hcalls]
    exact h.called

/-! ## Every action -/

theorem Linear.change (h : Linear x) (hchange : Change x.node a m) : Linear (x.note a m) := by
  -- calls that were made before have other numbers than the next one
  have hcalled : a.IsPlain → ∀ c call, (x.note a m).calls c = some call → c < x.node.called := by
    intro ha c call hc
    refine h.called c call ?_
    rwa [← x.node.callsAfter_of_plain x.calls ha]
  have hnewCall {k : Nat} {request : Request} (c : Nat) (call : Nat × Request)
      (hc : x.node.callsAfter x.calls (.call k request) c = some call) :
      c < x.node.called + 1 := by
    by_cases heq : c = x.node.called
    · exact heq ▸ Nat.lt_succ_self _
    · exact Nat.lt_succ_of_lt (h.called c call (by simpa [callsAfter, heq] using hc))
  cases hchange with
  | still ha =>
    exact h.keep rfl rfl (fun _ _ hk => hk) rfl rfl (x.node.heard_of_plain · ha) (hcalled ha)
  | store move ha =>
    exact h.keep rfl rfl (fun _ _ hk => hk) rfl rfl (x.node.heard_of_plain · ha) (hcalled ha)
  | lost => exact h.keep rfl rfl (fun _ _ hk => hk) rfl rfl (fun _ => rfl) hnewCall
  | call hk hrunning =>
    refine h.offered hk hrunning rfl rfl rfl rfl rfl (fun _ => rfl) (fun c hc => ?_) hnewCall
    obtain rfl := Request.eq_of_caller?_mail hc
    refine ⟨?_, _, if_pos rfl, rfl⟩
    cases hmade : x.calls x.node.called with
    | none => rfl
    | some call => exact absurd (h.called _ call hmade) (Nat.lt_irrefl _)
  | news ha hk hrunning hmail =>
    refine h.offered hk hrunning rfl rfl rfl rfl rfl (x.node.heard_of_plain · ha)
      (fun c hc => ?_) (hcalled ha)
    rw [hmail] at hc
    cases hc
  | enter ha hk hrunning henter => exact h.entered ha hk hrunning henter
  | chore hk hrunning hchores => exact h.choreDone hk hchores
  | read hk hrunning hchores htake => exact h.readMail hk hrunning hchores htake
  | ended hk hrunning hchores hqueue => exact h.ended hk hrunning hqueue
  | launch hfree => exact h.begun _ false (fun _ => rfl) rfl
  | resume hrestore hfree => exact h.begun _ true (fun _ => rfl) rfl
  | forget => exact h.keep rfl rfl (fun _ _ hk => by cases hk) rfl rfl (fun _ => rfl) h.called

theorem linear_new (name : String) (engine : Engine) (settings : WorkerSettings)
    (backend : Backend) (identity : Peer) :
    Linear (.new name engine settings backend identity) := by
  have hnone {α β : Type} [Ord α] (a : α) (b : β) : ({} : Dict α β).get? a ≠ some b := nofun
  exact ⟨fun k w hk => absurd hk (hnone k w), fun id k hk => absurd hk (hnone id k),
    fun _ _ => rfl, fun k w hk => absurd hk (hnone k w), fun c r hr => absurd hr (hnone c r),
    fun _ _ hc => nomatch hc⟩

theorem Linear.act (h : Linear x) (hact : x.act a = some x') : Linear x' := by
  obtain ⟨m, n', hchange, hstill, rfl⟩ := Watched.exists_change_of_act hact
  exact (h.change hchange).still hstill

theorem Linear.run {actions : List Action} (h : Linear x) (hrun : x.Run actions x') : Linear x' :=
  hrun.keeps h fun _ _ _ h hact => h.act hact

theorem Linear.extends_of_act (h : Linear x) (hact : x.act a = some x') : x.Extends x' := by
  obtain ⟨m, n', hchange, hstill, rfl⟩ := Watched.exists_change_of_act hact
  exact h.extends a (hstill.engine.trans hchange.engine)

theorem Linear.extends_of_run {actions : List Action} (h : Linear x) (hrun : x.Run actions x') :
    x.Extends x' := by
  induction hrun with
  | nil => exact .refl x
  | concat hbefore hact ih => exact ih.trans ((h.run hbefore).extends_of_act hact)

theorem Watched.Reachable.linear (h : x.Reachable) : Linear x := by
  obtain ⟨name, engine, settings, backend, identity, actions, hrun⟩ := h
  exact (linear_new name engine settings backend identity).run hrun

/-! ## The result -/

/-- Every worker has its turn in every action. -/
theorem Linear.turn (h : Linear x) (hact : x.act a = some x') (hk : x.node.workers.get? k = some w) :
    ∃ w', x'.node.workers.get? k = some w' ∧ Turn x.node a k w w' := by
  obtain ⟨m, n', hchange, hstill, rfl⟩ := Watched.exists_change_of_act hact
  obtain ⟨w', hk', hturn⟩ := hchange.turn h.get?_started hk
  obtain ⟨w'', hk'', hw⟩ := hstill.present k w' hk'
  exact ⟨w'', hk'', hturn.still hw⟩

/-- Whoever has added something to a log is a worker. -/
theorem Watched.Run.exists_worker_of_mem_logIn {α : Type} {f : Node → Nat → Action → List α}
    (hf : IsOwn f) {actions : List Action} (h : x.Run actions x') (hlinear : Linear x) {e : Nat × α}
    (he : e ∈ x.logIn (byWorker f) actions) : ∃ w, x'.node.workers.get? e.1 = some w := by
  induction h with
  | nil => cases he
  | @concat actions x₁ x₂ a hrun hact ih =>
    have hbefore : ∃ w, x₁.node.workers.get? e.1 = some w := by
      rw [hrun.logIn_concat hact] at he
      exact (List.mem_append.1 he).elim ih hf.exists_worker
    obtain ⟨w, hk⟩ := hbefore
    obtain ⟨w', hk', -⟩ := (hlinear.run hrun).turn hact hk
    exact ⟨w', hk'⟩

/-- A worker that is not there has added nothing to a log. -/
theorem Watched.Run.filter_logIn_of_absent {α : Type} {f : Node → Nat → Action → List α}
    (hf : IsOwn f) {actions : List Action} (h : x.Run actions x') (hlinear : Linear x)
    (hk : x'.node.workers.get? k = none) :
    (x.logIn (byWorker f) actions).filter (·.1 = k) = [] := by
  refine List.filter_eq_nil_iff.2 fun e he hek => ?_
  obtain ⟨w, hw⟩ := h.exists_worker_of_mem_logIn hf hlinear he
  rw [of_decide_eq_true hek, hk] at hw
  cases hw

/-- A worker that was not there begins with a trade that was launched or resumed. -/
theorem Watched.begins_of_act (hact : x.act a = some x') (hk : x.node.workers.get? k = none)
    (hk' : x'.node.workers.get? k = some w) :
    Begins x.node a k w ∧ w.phase = .running ∧ w.chores = [] ∧
      (x'.journal k).origin = some w.trade := by
  obtain ⟨m, n', hchange, hstill, rfl⟩ := Watched.exists_change_of_act hact
  obtain ⟨w₀, hk₀, hw⟩ := hstill.exists_before hk'
  obtain ⟨hbegins, hphase, hchores⟩ := hchange.begins hk hk₀
  refine ⟨?_, hw.phase.trans hphase, hw.chores.trans hchores, ?_⟩
  · cases hbegins with
    | launched ha hstarted => exact .launched (by rw [ha, hw.trade]) hstarted
    | resumed ha hrestore hstarted => exact .resumed ha (by rw [hrestore, hw.trade]) hstarted
  · show ((x.journal k).note _ _ _).origin = _
    rw [hk, show n'.workers.get? k = some w from hk']
    rfl

/-- A trade changes only when its worker reads an event. -/
theorem Turn.trade_cases (h : Turn n a k w w') :
    w'.trade = w.trade ∨ ∃ now e caller rest, a = .step now (.worker k) ∧
      w.mailbox.queue = .event e caller :: rest ∧
      w'.trade = (n.engine.handle now.date w.trade e).1 := by
  cases h with
  | idles _ _ ht => exact .inl ht
  | does _ _ _ ht => exact .inl ht
  | breaks _ _ _ _ ht => exact .inl ht
  | ends _ _ _ _ _ ht => exact .inl ht
  | @reads now mail ha _ _ _ _ hqueue ht =>
    cases mail with
    | event e caller => exact .inr ⟨now, e, caller, _, ha, hqueue, ht⟩
    | inspect c => exact .inl ht
    | persistFailed f attempt => exact .inl ht

/-- Whatever the order in which everybody acts, a live trade is in the hands of a worker, and the
trade of every worker is what the engine makes of the events that were placed in its mailbox, in
the order of arrival. The outcome and the trade that a caller is told are those at the place of its
own mail, of which there is only one. Beyond that an action changes no trade, and a new worker
begins with the trade that was launched or resumed. -/
theorem workers_linearize (h : x.Reachable) :
    (∀ id k, x.node.live.get? id = some k →
      ∃ w, x.node.workers.get? k = some w ∧ w.trade.id = id) ∧
    (∀ k w, x.node.workers.get? k = some w → Follows x.node.engine (x.journal k) w) ∧
    (∀ c r, x.node.replies.get? c = some r → Told x c r) ∧
    (∀ k w, x.node.workers.get? k = some w → (x.journal k).placed.Pairwise Apart ∧
      ∀ mail ∈ (x.journal k).placed, ∀ c, mail.caller? = some c →
        ∃ request, x.calls c = some (k, request) ∧ mail = request.mail c) ∧
    ∀ a x', x.act a = some x' →
      (∀ k w, x.node.workers.get? k = some w → ∃ w', x'.node.workers.get? k = some w' ∧
        (w'.trade = w.trade ∨ ∃ now e caller rest, a = .step now (.worker k) ∧
          w.mailbox.queue = .event e caller :: rest ∧
          w'.trade = (x.node.engine.handle now.date w.trade e).1)) ∧
      ∀ k w', x.node.workers.get? k = none → x'.node.workers.get? k = some w' →
        Begins x.node a k w' ∧ (x'.journal k).origin = some w'.trade := by
  have hlinear := h.linear
  refine ⟨hlinear.live, fun k w hk => (hlinear.straight k w hk).follows, hlinear.told,
    fun k w hk => ?_, fun a x' hact => ⟨fun k w hk => ?_, fun k w' hk hk' => ?_⟩⟩
  · -- those in line are told apart as well
    have hstraight := hlinear.straight k w hk
    refine ⟨hstraight.once.sublist (List.sublist_append_left _ _), fun mail hmail => ?_⟩
    exact hstraight.asked mail (List.mem_append_left _ hmail)
  · obtain ⟨w', hk', hturn⟩ := hlinear.turn hact hk
    exact ⟨w', hk', hturn.trade_cases⟩
  · obtain ⟨hbegins, -, -, horigin⟩ := Watched.begins_of_act hact hk hk'
    exact ⟨hbegins, horigin⟩

/-- A caller takes an offer, and another one looks at the trade in the meantime. The first is told
the commit, and the second the trade behind it, since its mail came later. -/
def takenOffer : List Action :=
  let now : Time := ⟨.epoch, 0, .farFuture⟩
  let trade : Trade := .initial .epoch "trade_1" ⟨.buyerAsTaker, .multisigEscrow⟩ Trade.soundTerms
    ⟨"maker"⟩ Standard.Escrow.buyerAsTaker
  [.launch now trade, .call 0 (.submit (.command ⟨"c", .takeOffer, [], []⟩)), .call 0 .inspect] ++
    List.replicate 7 (.step now (.worker 0))

theorem takenOffer_linearizes :
    ∃ x c t, x.Reachable ∧ x.node.replies.get? 0 = some (.outcome (.committed c)) ∧
      x.node.replies.get? 1 = some (.trade t) ∧ Told x 0 (.outcome (.committed c)) ∧
      Told x 1 (.trade t) ∧ c.target = .takeOfferSent ∧ t.state = .takeOfferSent := by
  obtain ⟨x, c, t, hplay, hfirst, hsecond, hc, ht⟩ : ∃ x c t,
      (Watched.new "a" { registry := .standard, verifier := { accepts := fun _ _ _ => true } } {} {}
        ⟨"taker"⟩).play takenOffer = some x ∧
      x.node.replies.get? 0 = some (.outcome (.committed c)) ∧
      x.node.replies.get? 1 = some (.trade t) ∧ c.target = .takeOfferSent ∧
      t.state = .takeOfferSent := ⟨_, _, _, rfl, rfl, rfl, rfl, rfl⟩
  have hreachable : x.Reachable := ⟨_, _, _, _, _, _, Watched.run_of_play hplay⟩
  obtain ⟨-, -, htold, -⟩ := workers_linearize hreachable
  exact ⟨x, c, t, hreachable, hfirst, hsecond, htold 0 _ hfirst, htold 1 _ hsecond, hc, ht⟩

end PeerTrade.Node

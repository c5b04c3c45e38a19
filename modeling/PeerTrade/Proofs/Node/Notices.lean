import PeerTrade.Proofs.Node.Messages
import PeerTrade.Proofs.Node.Story

/-!
# Notices of workers

Nothing is posted on the board of a node but what its workers make known, each of them in the steps
that it takes (`Node.board_of_act`). What a worker has made known and what is still to come of the
mail that it read last is the story of that mail (`Node.Watched.Tells`).
-/

namespace PeerTrade

open Deed (notices notices_append)

/-! ## Chores -/

/-- Whether a chore is nothing that others get to know of. -/
def Chore.isSilent : Chore → Bool
  | persist _ | startTimer .. | stopTimer _ | answer .. => true
  | post _ | send _ => false

/-- What others can get to know of the chores of a worker. -/
inductive Unfolds (t : Trade) : List Chore → List Deed → Prop where
  | nil : Unfolds t [] []
  | post {happening : Happening} {chores : List Chore} {told : List Deed} :
      Unfolds t chores told →
      Unfolds t (.post happening :: chores) (.posted (t.notice happening) :: told)
  | send {m : Outbound} {deed : Deed} {chores : List Chore} {told : List Deed} :
      Deed.Sends t m deed → Unfolds t chores told → Unfolds t (.send m :: chores) (deed :: told)
  | silent {chore : Chore} {chores : List Chore} {told : List Deed} :
      chore.isSilent = true → Unfolds t chores told → Unfolds t (chore :: chores) told

namespace Unfolds

variable {t : Trade} {chores more : List Chore} {told : List Deed} {happening : Happening}

theorem of_nil (h : Unfolds t [] told) : told = [] := by
  cases h
  rfl

theorem of_post (h : Unfolds t (.post happening :: chores) told) :
    ∃ rest, told = .posted (t.notice happening) :: rest ∧ Unfolds t chores rest := by
  cases h with
  | post hrest => exact ⟨_, rfl, hrest⟩
  | silent hsilent => cases hsilent

theorem of_silent {chore : Chore} (hsilent : chore.isSilent = true)
    (h : Unfolds t (chore :: chores) told) : Unfolds t chores told := by
  cases h with
  | post | send => cases hsilent
  | silent _ hrest => exact hrest

theorem of_append (h : Unfolds t (chores ++ more) told) :
    ∃ first second, told = first ++ second ∧ Unfolds t chores first ∧ Unfolds t more second := by
  induction chores generalizing told with
  | nil => exact ⟨[], told, rfl, .nil, h⟩
  | cons chore chores ih =>
    cases h with
    | post hrest =>
      obtain ⟨first, second, rfl, hfirst, hsecond⟩ := ih hrest
      exact ⟨_, second, rfl, .post hfirst, hsecond⟩
    | send hsends hrest =>
      obtain ⟨first, second, rfl, hfirst, hsecond⟩ := ih hrest
      exact ⟨_, second, rfl, .send hsends hfirst, hsecond⟩
    | silent hsilent hrest =>
      obtain ⟨first, second, rfl, hfirst, hsecond⟩ := ih hrest
      exact ⟨first, second, rfl, .silent hsilent hfirst, hsecond⟩

theorem of_all_silent (hsilent : ∀ chore ∈ chores, chore.isSilent = true)
    (h : Unfolds t chores told) : told = [] := by
  induction chores with
  | nil => exact h.of_nil
  | cons chore chores ih =>
    exact ih (fun chore' hmem => hsilent chore' (List.mem_cons_of_mem _ hmem))
      (h.of_silent (hsilent chore List.mem_cons_self))

/-- Whatever there is to do, it can be done without a failure. -/
theorem exists_told (t : Trade) (chores : List Chore) : ∃ told, Unfolds t chores told := by
  induction chores with
  | nil => exact ⟨[], .nil⟩
  | cons chore chores ih =>
    obtain ⟨told, htold⟩ := ih
    cases chore with
    | post happening => exact ⟨_, .post htold⟩
    | send m => exact ⟨_, .send (.delivered) htold⟩
    | persist | startTimer | stopTimer | answer => exact ⟨told, .silent rfl htold⟩

/-- Of the effects of a commit others get to know the messages. -/
theorem sends_of_effects {effects : List Effect} (h : Unfolds t (effects.map Effect.chore) told) :
    List.Forall₂ (Deed.Sends t) (effects.filterMap Effect.message?) told := by
  induction effects generalizing told with
  | nil =>
    rw [h.of_nil]
    exact .nil
  | cons e effects ih =>
    cases e with
    | send m =>
      cases h with
      | send hsends hrest => exact .cons hsends (ih hrest)
      | silent hsilent => cases hsilent
    | arm id after => exact ih (h.of_silent rfl)
    | clear kind => exact ih (h.of_silent rfl)

/-- That a deadline has expired is all there is to say of an event itself. -/
theorem eq_expired {event : Event} (h : Unfolds t event.expiry told) : told = event.expired t := by
  cases event with
  | timeout id =>
    obtain ⟨rest, rfl, hrest⟩ := of_post h
    rw [hrest.of_nil]
    rfl
  | inbound m => exact h.of_nil
  | command cmd => exact h.of_nil

end Unfolds

/-! ## What a worker makes known of a mail -/

section Mail

variable {w : Worker} {told : List Deed}

/-- What a worker has to do after an event comes to a chapter. -/
theorem chapter_of_decide {engine : Engine} {date : Instant} {event : Event} {caller : Option Nat}
    (h : Unfolds (w.decide engine date event caller).trade
      (w.decide engine date event caller).chores told) :
    Chapter engine w.standing (date, .event event caller)
      (w.decide engine date event caller).standing told := by
  have hanswers (o : Outcome) : ∀ chore ∈ caller.toList.map (Chore.answer · o),
      chore.isSilent = true := by
    intro chore hchore
    obtain ⟨c, -, rfl⟩ := List.mem_map.1 hchore
    rfl
  change Unfolds (engine.handle date w.trade event).1
    ((engine.handle date w.trade event).2.chores event ++ _) told at h
  obtain ⟨told, answers, rfl, htold, hanswered⟩ := h.of_append
  rw [hanswered.of_all_silent (hanswers _), List.append_nil]
  show Chapter engine w.standing (date, .event event caller)
    ⟨(engine.handle date w.trade event).1, w.lastFailure⟩ told
  cases hhandle : engine.handle date w.trade event with
  | mk t outcome =>
    rw [hhandle] at htold
    cases outcome with
    | rejected r =>
      obtain rfl := Engine.eq_of_rejected hhandle
      obtain ⟨rest, rfl, hrest⟩ := htold.of_post
      rw [hrest.of_nil]
      exact .rejected hhandle
    | committed c =>
      obtain ⟨hnotice, hid, hsequence, -, htarget, -⟩ := Engine.truth_of_committed hhandle
      -- the snapshot is handed in, then come the event, the messages, the change and the end
      obtain ⟨asides, rest, rfl, hasides, hrest⟩ := (Unfolds.of_silent rfl htold).of_append
      obtain ⟨expired, deliveries, rfl, hexpired, hdeliveries⟩ := hasides.of_append
      obtain ⟨finals, rfl, hfinals⟩ := hrest.of_post
      -- the worker speaks of its trade, the commit of the one that it was made for
      have hchange : t.notice (.stateChanged c.source c.target) = c.notice := by
        have hsame : c.tradeId = t.id ∧ c.sequence = t.sequence := by
          rw [hid, hsequence]
          exact ⟨congrArg Notice.tradeId hnotice, congrArg Notice.sequence hnotice⟩
        rw [Trade.notice, Commit.notice, hsame.1, hsame.2]
      have hend : finals =
          if c.finalized then [.posted (t.notice (.finalized c.target))] else [] := by
        cases hc : c.finalized with
        | false =>
          rw [hc] at hfinals
          exact hfinals.of_nil
        | true =>
          rw [hc] at hfinals
          obtain ⟨none, rfl, hnone⟩ := Unfolds.of_post hfinals
          rw [hnone.of_nil]
          rfl
      rw [hexpired.eq_expired, hchange, hend]
      exact .committed hhandle hdeliveries.sends_of_effects

theorem Worker.hasHeard_iff {f : PersistFailure} {attempt : UInt32} :
    w.hasHeard f attempt = true ↔
      ∃ last, w.lastFailure = some (f.sequence, last) ∧ attempt ≤ last := by
  cases hlast : w.lastFailure with
  | none => simp [hasHeard, hlast]
  | some heard =>
    obtain ⟨sequence, last⟩ := heard
    simp [hasHeard, hlast]

/-- A failure that has been acted upon is no news, and any other is made known. -/
theorem chapter_of_hear {engine : Engine} {date : Instant} {limit : UInt32} {f : PersistFailure}
    {attempt : UInt32} (hchores : w.chores = [])
    (h : Unfolds w.trade (w.hear limit f attempt).chores told) :
    Chapter engine w.standing (date, .persistFailed f attempt) (w.hear limit f attempt).standing
      told := by
  by_cases hheard : w.hasHeard f attempt = true
  · rw [Worker.hear, if_pos hheard] at h ⊢
    rw [hchores] at h
    obtain ⟨last, hlast, hle⟩ := Worker.hasHeard_iff.1 hheard
    rw [h.of_nil]
    exact .repeated hlast hle
  · rw [Worker.hear, if_neg hheard] at h ⊢
    obtain ⟨rest, rfl, hrest⟩ := Unfolds.of_post h
    -- handing the snapshot in again is nothing that others get to know of
    have hsilent : rest = [] := by
      refine hrest.of_all_silent fun chore hchore => ?_
      split at hchore
      · rw [List.mem_singleton.1 hchore]
        rfl
      · cases hchore
    rw [hsilent]
    refine .failed fun last hlast => UInt32.not_le.1 fun hle => hheard ?_
    exact Worker.hasHeard_iff.2 ⟨last, hlast, hle⟩

end Mail

namespace Node

variable {x x₁ x' : Watched} {n n' m : Node} {a : Action} {actions : List Action} {k : Nat}
  {w w' : Worker} {t t₀ : Trade} {now : Time} {told : List Deed}

/-! ## What is made known in an action -/

/-- What others get to know of a chore. -/
def deed? (n : Node) (t : Trade) : Chore → Option Deed
  | .post happening => some (.posted (t.notice happening))
  | .send m => some (.sent m (match (n.link.send m).2 with
    | .ok () => none
    | .error e => some (t.notice (.deliveryFailed e))))
  | .persist _ | .startTimer .. | .stopTimer _ | .answer .. => none

/-- What a worker makes known in an action; there is one deed at most. -/
def tells (n : Node) (k : Nat) : Action → List Deed
  | .step _ (.worker k') => Option.toList do
    let w ← n.workers.get? k
    if k' = k ∧ w.phase = .running then w.chores.head?.bind (n.deed? w.trade) else none
  | _ => []

theorem isOwn_tells : IsOwn tells := by
  intro n k a hsome
  cases a with
  | step now actor =>
    cases actor with
    | worker k' =>
      cases hk : n.workers.get? k with
      | none => exact absurd (by simp [tells, hk]) hsome
      | some w =>
        by_cases heq : k' = k
        · exact ⟨⟨now, by rw [heq]⟩, w, rfl⟩
        · exact absurd (by simp [tells, hk, heq]) hsome
    | _ => exact absurd rfl hsome
  | _ => exact absurd rfl hsome

/-- What the workers make known in an action, with their numbers. -/
def deeds : Node → Action → List (Nat × Deed) := byWorker tells

/-! ## The board -/

theorem board_cancelTimer (n : Node) (number : Nat) : (n.cancelTimer number).board = n.board := by
  unfold cancelTimer
  split
  · rfl
  · dsimp only
    split <;> rfl

theorem board_stopTimer (n : Node) (k : Nat) (kind : DeadlineKind) :
    (n.stopTimer k kind).board = n.board := by
  unfold stopTimer
  split
  · rfl
  · split
    · rfl
    · exact board_cancelTimer _ _

theorem board_startTimer (n : Node) (now : Time) (k : Nat) (id : DeadlineId) (after : Duration) :
    (n.startTimer now k id after).board = n.board := by
  unfold startTimer
  dsimp only
  split <;> exact board_stopTimer n k id.kind

theorem board_foldl {α : Type} {f : Node → α → Node} (hf : ∀ n a, (f n a).board = n.board)
    (l : List α) (n : Node) : (l.foldl f n).board = n.board := by
  induction l generalizing n with
  | nil => rfl
  | cons a rest ih => exact (ih (f n a)).trans (hf n a)

theorem board_read (n : Node) (now : Time) (k : Nat) (w : Worker) (mail : Mail) :
    (n.read now k w mail).board = n.board := by
  cases mail with
  | event e caller =>
    rw [read]
    split
    · exact board_foldl (f := fun n c => n.reply c .stopped) (fun _ _ => rfl) _ _
    · rfl
  | inspect c => rfl
  | persistFailed f attempt => rfl

theorem board_deliver (n : Node) (k : Nat) (sender : Actor) (mail : Mail) :
    (n.deliver k sender mail).1.board = n.board := by
  rcases n.deliver_cases k sender mail with ⟨heq, -⟩ | ⟨w, woken, -, -, heq⟩
  · rw [heq]
  · rw [heq]
    rfl

theorem board_enter (n : Node) (k : Nat) (sender : Actor) :
    (n.enter k sender).1.board = n.board := by
  rcases n.enter_cases k sender with ⟨heq, -⟩ | ⟨w, mailbox, woken, -, -, -, heq⟩
  · rw [heq]
  · rw [heq]
    rfl

theorem board_passing (n : Node) (k : Nat) (sender : Actor) (mail : Mail) (isSending : Bool) :
    (if isSending then n.enter k sender else n.deliverIfReachable k sender mail).1.board =
      n.board := by
  cases isSending with
  | true => exact board_enter n k sender
  | false =>
    rw [if_neg Bool.false_ne_true, deliverIfReachable]
    split
    · exact board_deliver n k sender mail
    · rfl

theorem board_stepReporter {number : Nat} (h : n.stepReporter number = some n') :
    n'.board = n.board := by
  obtain ⟨r, -, ⟨-, rfl⟩ | ⟨f, m, delivery, -, hpassed, hdone⟩⟩ := stepReporter_cases h
  · rfl
  · have hboard := n.board_passing r.worker (.reporter number) (.persistFailed f r.attempt) r.sending
    rw [hpassed] at hboard
    rcases hdone with ⟨-, rfl⟩ | ⟨-, -, rfl⟩ <;> exact hboard

theorem board_stepTimer {number : Nat} (h : n.stepTimer now number = some n') :
    n'.board = n.board := by
  obtain ⟨timer, m, delivery, -, hpassed, hdone⟩ := stepTimer_cases h
  have hboard :=
    n.board_passing timer.worker (.timer number) (.event (.timeout timer.id) none) timer.sending
  rw [hpassed] at hboard
  rcases hdone with ⟨-, rfl⟩ | ⟨-, -, rfl⟩ <;> exact hboard

theorem board_start {isStored : Bool} (h : n.start now t isStored = .ok n') :
    n'.board = n.board := by
  unfold start at h
  split at h
  · cases h
  · cases h
    refine (board_foldl (fun n d => board_startTimer n _ _ _ _) _ _).trans ?_
    cases isStored <;> rfl

/-- A chore posts what others get to know of it. -/
theorem board_perform (n : Node) (now : Time) (k : Nat) (t : Trade) (chore : Chore) :
    (n.perform now k t chore).board =
      (notices (n.deed? t chore).toList).foldl Board.post n.board := by
  cases chore with
  | persist | post | answer => rfl
  | startTimer id after => exact board_startTimer n now k id after
  | stopTimer kind => exact board_stopTimer n k kind
  | send m =>
    show (n.send t m).board = _
    rw [send, deed?]
    split
    next hsend => rw [hsend]; rfl
    next hsend => rw [hsend]; rfl

theorem board_stepWorker (h : n.stepWorker now k = some n') :
    n'.board = (notices (n.tells k (.step now (.worker k)))).foldl Board.post n.board := by
  unfold stepWorker at h
  obtain ⟨w, hk, h⟩ := Option.bind_eq_some_iff.1 h
  split at h
  · cases h
  next hrunning =>
    have hrunning : w.phase = .running := Decidable.not_not.1 hrunning
    split at h
    next chore chores hchores =>
      have htells : n.tells k (.step now (.worker k)) = (n.deed? w.trade chore).toList := by
        simp [tells, hk, hrunning, hchores]
      cases h
      rw [board_perform, htells]
      rfl
    next hchores =>
      have htells : n.tells k (.step now (.worker k)) = [] := by simp [tells, hk, hchores]
      rw [htells]
      split at h
      · cases h
        exact board_read n now k _ _
      · split at h
        · cases h
        · cases h
          exact board_foldl board_cancelTimer _ _

/-- Everything that stands on the board was posted by a worker, and what a worker makes known is
posted at once. -/
theorem board_of_act (h : n.act a = some n') :
    n'.board = (notices ((n.deeds a).map (·.2))).foldl Board.post n.board := by
  cases a with
  | step now actor =>
    cases actor with
    | writer =>
      obtain ⟨⟨s, b⟩, -, h⟩ := Option.bind_eq_some_iff.1 (show n.stepWriter = some n' from h)
      cases h
      rfl
    | worker k =>
      rw [board_stepWorker h, deeds, byWorker, List.map_map, Function.comp_def, List.map_id']
    | reporter number => exact board_stepReporter h
    | timer number => exact board_stepTimer h
    | carrier source => cases h
    | caller number => cases h
  | call k request =>
    cases h
    exact board_deliver _ _ _ _
  | carry k source m =>
    cases h
    exact board_deliver _ _ _ _
  | enter k sender =>
    cases h
    exact board_enter n k sender
  | launch now t => exact board_start (Checks.toOption_eq_some_iff.1 h)
  | resume now s =>
    obtain ⟨t, -, h⟩ := Option.bind_eq_some_iff.1 h
    exact board_start (Checks.toOption_eq_some_iff.1 h)
  | release k =>
    cases h
    show (n.release k).board = n.board
    unfold release
    split <;> rfl
  | forget | flush | close | behave | link | rouse =>
    cases h
    rfl

/-! ## What an action means for a worker -/

/-- How a worker comes along in an action. -/
inductive Course (n : Node) (a : Action) (k : Nat) (w w' : Worker) : Prop where
  | rests : n.heard k a = none → n.tells k a = [] → w'.standing = w.standing →
      w'.chores = w.chores → Course n a k w w'
  | does {chore : Chore} : n.heard k a = none → w.chores = chore :: w'.chores →
      n.tells k a = (n.deed? w.trade chore).toList → w'.standing = w.standing → Course n a k w w'
  /-- What it has to do afterwards comes to a chapter. -/
  | reads {entry : Instant × Mail} : n.heard k a = some entry → w.chores = [] → n.tells k a = [] →
      (∀ told, Unfolds w'.trade w'.chores told →
        Chapter n.engine w.standing entry w'.standing told) → Course n a k w w'

theorem tells_of_plain (n : Node) (k : Nat) (ha : a.IsPlain) : n.tells k a = [] := by
  cases a with
  | step now actor =>
    cases actor with
    | worker => exact ha.elim
    | _ => rfl
  | _ => rfl

theorem tells_of_ne {k' : Nat} (n : Node) (now : Time) (hne : k' ≠ k) :
    n.tells k (.step now (.worker k')) = [] := by
  cases hk : n.workers.get? k <;> simp [tells, hk, hne]

theorem course_of_arrival {k' : Nat} {w₀ : Worker} {mailbox : Mailbox Actor Mail}
    (hheard : n.heard k a = none) (htells : n.tells k a = []) (hk₀ : n.workers.get? k' = some w₀)
    (hk : n.workers.get? k = some w)
    (hk' : (n.setWorker k' { w₀ with mailbox }).workers.get? k = some w') : Course n a k w w' := by
  rw [get?_setWorker] at hk'
  split at hk'
  next heq =>
    cases hk'
    rw [heq, hk₀] at hk
    cases hk
    exact .rests hheard htells rfl rfl
  next =>
    cases hk.symm.trans hk'
    exact .rests hheard htells rfl rfl

theorem course_of_chore {k' : Nat} {w₀ : Worker} {chore : Chore} {chores : List Chore}
    (hk₀ : n.workers.get? k' = some w₀) (hrunning : w₀.phase = .running)
    (hchores : w₀.chores = chore :: chores) (hk : n.workers.get? k = some w)
    (hk' : ((n.setWorker k' { w₀ with chores }).settle w₀.trade chore).workers.get? k = some w') :
    Course n (.step now (.worker k')) k w w' := by
  have hworkers : ((n.setWorker k' { w₀ with chores }).settle w₀.trade chore).workers =
      (n.setWorker k' { w₀ with chores }).workers := by cases chore <;> rfl
  rw [hworkers, get?_setWorker] at hk'
  split at hk'
  next heq =>
    subst heq
    cases hk'
    cases hk₀.symm.trans hk
    have hheard : n.heard k (.step now (.worker k)) = none := by simp [heard, hk, hchores]
    have htells : n.tells k (.step now (.worker k)) = (n.deed? w.trade chore).toList := by
      simp [tells, hk, hrunning, hchores]
    exact .does hheard hchores htells rfl
  next hne =>
    cases hk.symm.trans hk'
    exact .rests (n.heard_of_ne (Ne.symm hne)) (n.tells_of_ne now (Ne.symm hne)) rfl rfl

theorem course_of_read {mail : Mail} {mailbox : Mailbox Actor Mail} {admitted : Option Actor}
    (hk : n.workers.get? k = some w) (hrunning : w.phase = .running) (hchores : w.chores = [])
    (htake : w.mailbox.take = some (mail, mailbox, admitted))
    (hk' : (n.read now k { w with mailbox } mail).workers.get? k = some w') :
    Course n (.step now (.worker k)) k w w' := by
  obtain ⟨hqueue, -⟩ := Mailbox.take_eq htake
  have hheard := heard_eq now hk hrunning hchores hqueue
  have htells : n.tells k (.step now (.worker k)) = [] := by simp [tells, hk, hchores]
  have hset {w₁ : Worker} (h : (n.setWorker k w₁).workers.get? k = some w') : w' = w₁ := by
    rw [get?_setWorker, if_pos rfl] at h
    exact (Option.some.inj h).symm
  cases mail with
  | event e caller =>
    rw [read] at hk'
    split at hk'
    next hcrash =>
      -- a worker that breaks down says nothing more
      obtain rfl := hset (by rw [← hk', (n.breakDown_same k _ caller).2.2.2.2.2.2])
      exact .rests (hheard.trans (if_pos hcrash)) htells rfl rfl
    next hcrash =>
      obtain rfl := hset hk'
      exact .reads (hheard.trans (if_neg hcrash)) hchores htells fun told h => chapter_of_decide h
  | inspect c =>
    obtain rfl := hset hk'
    refine .reads hheard hchores htells fun told h => ?_
    have hnone : told = [] := (show Unfolds w.trade [] told from hchores ▸ h).of_nil
    rw [hnone]
    exact .inspected
  | persistFailed f attempt =>
    obtain rfl := hset hk'
    refine .reads hheard hchores htells fun told h => ?_
    rw [(Worker.hear_same { w with mailbox } _ f attempt).1] at h
    exact chapter_of_hear (w := { w with mailbox }) hchores h

theorem Change.course (h : Change n a m) (hnew : n.workers.get? n.started = none)
    (hk : n.workers.get? k = some w) (hk' : m.workers.get? k = some w') : Course n a k w w' := by
  have hsame (hheard : n.heard k a = none) (htells : n.tells k a = [])
      (hk' : n.workers.get? k = some w') : Course n a k w w' := by
    cases hk.symm.trans hk'
    exact .rests hheard htells rfl rfl
  have hplain (ha : a.IsPlain) : n.heard k a = none ∧ n.tells k a = [] :=
    ⟨n.heard_of_plain k ha, n.tells_of_plain k ha⟩
  -- a new worker has a number of its own
  have hbegin {t : Trade} {isStored : Bool} (hk' : (n.begin t isStored).workers.get? k = some w') :
      n.workers.get? k = some w' := by
    have hold : k ≠ n.started := by
      rintro rfl
      rw [hnew] at hk
      cases hk
    exact ((n.get?_setWorker n.started k _).trans (if_neg hold)).symm.trans hk'
  cases h with
  | still ha => exact hsame (hplain ha).1 (hplain ha).2 hk'
  | store move ha => exact hsame (hplain ha).1 (hplain ha).2 hk'
  | lost => exact hsame rfl rfl hk'
  | call hk₀ => exact course_of_arrival rfl rfl hk₀ hk hk'
  | news ha hk₀ => exact course_of_arrival (hplain ha).1 (hplain ha).2 hk₀ hk hk'
  | enter ha hk₀ => exact course_of_arrival (hplain ha).1 (hplain ha).2 hk₀ hk hk'
  | launch => exact hsame rfl rfl (hbegin hk')
  | resume => exact hsame rfl rfl (hbegin hk')
  | forget => exact hsame rfl rfl hk'
  | chore hk₀ hrunning hchores => exact course_of_chore hk₀ hrunning hchores hk hk'
  | @read now k₀ w₀ mail mailbox admitted hk₀ hrunning hchores htake =>
    by_cases heq : k = k₀
    · subst heq
      cases hk₀.symm.trans hk
      exact course_of_read hk hrunning hchores htake hk'
    · rw [n.get?_read_of_ne now _ mail heq] at hk'
      exact hsame (n.heard_of_ne (Ne.symm heq)) (n.tells_of_ne now (Ne.symm heq)) hk'
  | @ended now k₀ w₀ hk₀ hrunning hchores hqueue =>
    rw [get?_setWorker] at hk'
    split at hk'
    next heq =>
      subst heq
      cases hk₀.symm.trans hk
      cases hk'
      refine .rests ?_ ?_ rfl rfl
      · simp [heard, hk, hqueue]
      · simp [tells, hk, hchores]
    next hne => exact hsame (n.heard_of_ne (Ne.symm hne)) (n.tells_of_ne now (Ne.symm hne)) hk'

theorem course_of_act (hact : n.act a = some n') (hnew : n.workers.get? n.started = none)
    (hk : n.workers.get? k = some w) (hk' : n'.workers.get? k = some w') : Course n a k w w' := by
  obtain ⟨m, hchange, hstill⟩ := exists_change_of_act hact
  obtain ⟨w₁, hk₁, hw⟩ := hstill.exists_before hk'
  have hstanding : w'.standing = w₁.standing := by
    rw [Worker.standing, hw.trade, hw.lastFailure]
    rfl
  cases hchange.course hnew hk hk₁ with
  | rests hheard htells hsame hchores =>
    exact .rests hheard htells (hstanding.trans hsame) (hw.chores.trans hchores)
  | does hheard hchores htells hsame =>
    exact .does hheard (by rw [hchores, hw.chores]) htells (hstanding.trans hsame)
  | reads hheard hchores htells hchapter =>
    refine .reads hheard hchores htells fun told h => ?_
    rw [hstanding]
    exact hchapter told (by rwa [hw.trade, hw.chores] at h)

/-! ## Runs -/

namespace Watched

/-- What the workers have made known in some actions, in order, with their numbers. -/
def toldIn (x : Watched) : List Action → List (Nat × Deed) := x.logIn deeds

/-- What one worker has made known in some actions. -/
def toldBy (x : Watched) (actions : List Action) (k : Nat) : List Deed :=
  ((x.toldIn actions).filter (·.1 = k)).map (·.2)

/-- What a worker has made known, and what others can get to know of the chores that are left, is
the story of what it has read. -/
def Tells (x : Watched) (k : Nat) (w : Worker) (told : List Deed) : Prop :=
  ∀ t₀, (x.journal k).origin = some t₀ → ∀ rest, Unfolds w.trade w.chores rest →
    Story x.node.engine ⟨t₀, none⟩ (x.journal k).read w.standing (told ++ rest)

/-- What a chore comes to is one of the things that it can come to. -/
theorem unfolds_deed (n : Node) (t : Trade) (chore : Chore) {chores : List Chore}
    (h : Unfolds t chores told) :
    Unfolds t (chore :: chores) ((n.deed? t chore).toList ++ told) := by
  cases chore with
  | post happening => exact .post h
  | send m =>
    show Unfolds t (.send m :: chores) (.sent m _ :: told)
    refine .send ?_ h
    split
    · exact .delivered
    · exact .undelivered _
  | persist | startTimer | stopTimer | answer => exact .silent rfl h

theorem Tells.act (h : x.Tells k w told) (hlinear : Linear x) (hact : x.act a = some x')
    (hk : x.node.workers.get? k = some w) (hk' : x'.node.workers.get? k = some w') :
    x'.Tells k w' (told ++ x.node.tells k a) := by
  intro t₀ horigin' rest hrest
  obtain ⟨horigin, hread⟩ := journal_of_act hlinear hact hk
  rw [horigin] at horigin'
  have hcourse : Course x.node a k w w' := by
    obtain ⟨n', hn', rfl⟩ := Option.map_eq_some_iff.1 hact
    exact course_of_act hn' hlinear.get?_started hk hk'
  have htrade (hsame : w'.standing = w.standing) : w'.trade = w.trade :=
    congrArg Standing.trade hsame
  rw [(hlinear.extends_of_act hact).engine, hread]
  cases hcourse with
  | rests hheard htells hsame hchores =>
    rw [htrade hsame, hchores] at hrest
    rw [hheard, htells, hsame, List.append_nil, Option.toList, List.append_nil]
    exact h t₀ horigin' rest hrest
  | @does chore hheard hchores htells hsame =>
    -- what becomes of the chore was one of the things that it could come to
    rw [htrade hsame] at hrest
    rw [hheard, htells, hsame, List.append_assoc, Option.toList, List.append_nil]
    refine h t₀ horigin' _ ?_
    rw [hchores]
    exact unfolds_deed x.node w.trade chore hrest
  | reads hheard hchores htells hchapter =>
    have hbefore := h t₀ horigin' [] (by rw [hchores]; exact .nil)
    rw [List.append_nil] at hbefore
    rw [hheard, htells, List.append_nil]
    exact .goesOn hbefore (hchapter rest hrest)

/-- A worker that begins has heard of no failure. -/
theorem lastFailure_of_begins (hact : n.act a = some n') (h : Begins n a k w)
    (hk' : n'.workers.get? k = some w) : w.lastFailure = none := by
  have hstarted {now : Time} {t : Trade} {isStored : Bool} (hk : k = n.started)
      (hstart : n.start now t isStored = .ok n') : w.lastFailure = none := by
    obtain ⟨w₁, hk₁, hw⟩ := (start_cases hstart).2.exists_before hk'
    have hget := n.get?_setWorker n.started k
      { trade := t, mailbox := .new n.settings.mailboxCapacity.toNat }
    rw [if_pos hk] at hget
    cases hk₁.symm.trans hget
    exact hw.lastFailure
  cases h with
  | launched ha hk =>
    rw [ha] at hact
    exact hstarted hk (Checks.toOption_eq_some_iff.1 hact)
  | resumed ha _ hk =>
    rw [ha] at hact
    obtain ⟨t, -, hstart⟩ := Option.bind_eq_some_iff.1 hact
    exact hstarted hk (Checks.toOption_eq_some_iff.1 hstart)

/-- A worker that begins has read nothing. -/
theorem read_of_begins (hact : x.act a = some x') (hk : x.node.workers.get? k = none)
    (hk' : x'.node.workers.get? k = some w) : (x'.journal k).read = [] := by
  obtain ⟨n', hn', rfl⟩ := Option.map_eq_some_iff.1 hact
  show ((x.journal k).note _ _ _).read = []
  rw [hk, show n'.workers.get? k = some w from hk']
  rfl

theorem tells_of_run (h : x.Run actions x') (hlinear : Linear x)
    (hnone : ∀ k, x.node.workers.get? k = none) (hk : x'.node.workers.get? k = some w) :
    x'.Tells k w (x.toldBy actions k) := by
  induction h generalizing w with
  | nil => cases (hnone k).symm.trans hk
  | @concat actions x₁ x₂ a hrun hact ih =>
    have htold : x.toldBy (actions ++ [a]) k = x.toldBy actions k ++ x₁.node.tells k a := by
      rw [toldBy, toldIn, hrun.logIn_concat hact, List.filter_append, List.map_append]
      exact congrArg _ (isOwn_tells.filter_byWorker x₁.node k a)
    rw [htold]
    cases hk₁ : x₁.node.workers.get? k with
    | some w₁ => exact (ih hk₁).act (hlinear.run hrun) hact hk₁ hk
    | none =>
      -- the worker begins with nothing told
      obtain ⟨hbegins, -, hchores, horigin⟩ := begins_of_act hact hk₁ hk
      have hsilent : x.toldBy actions k = [] := by
        rw [toldBy, toldIn, deeds, hrun.filter_logIn_of_absent isOwn_tells hlinear hk₁]
        rfl
      have htells : x₁.node.tells k a = [] := by
        by_contra hsome
        obtain ⟨-, w₁, hw₁⟩ := isOwn_tells x₁.node k a hsome
        cases hk₁.symm.trans hw₁
      have hstanding : w.standing = ⟨w.trade, none⟩ := by
        obtain ⟨n', hn', rfl⟩ := Option.map_eq_some_iff.1 hact
        rw [Worker.standing, lastFailure_of_begins hn' hbegins hk]
      intro t₀ ht₀ rest hrest
      cases horigin.symm.trans ht₀
      rw [hchores] at hrest
      rw [hsilent, htells, hrest.of_nil, read_of_begins hact hk₁ hk, hstanding]
      exact .begins

/-- Nothing else is posted in a run than what the workers make known. -/
theorem Run.board_eq (h : x.Run actions x') :
    x'.node.board = (notices ((x.toldIn actions).map (·.2))).foldl Board.post x.node.board := by
  induction h with
  | nil => rfl
  | @concat actions x₁ x₂ a hrun hact ih =>
    obtain ⟨n', hn', rfl⟩ := Option.map_eq_some_iff.1 hact
    rw [toldIn, hrun.logIn_concat hact, List.map_append, notices_append, List.foldl_append]
    rw [toldIn] at ih
    rw [← ih]
    exact board_of_act hn'

/-- If all notices about a trade are those of one worker, these are what it has told. -/
theorem notices_of_one {id : String} {log : List (Nat × Deed)}
    (h : ∀ e ∈ log, ∀ n, e.2.notice? = some n → (n.tradeId = id ↔ e.1 = k)) :
    (notices (log.map (·.2))).filter (·.tradeId = id) =
      notices ((log.filter (·.1 = k)).map (·.2)) := by
  induction log with
  | nil => rfl
  | cons e rest ih =>
    have hrest := ih fun e' he' => h e' (List.mem_cons_of_mem _ he')
    have hcons (l : List Deed) : notices (e.2 :: l) = e.2.notice?.toList ++ notices l := by
      rw [notices, List.filterMap_cons]
      cases e.2.notice? <;> rfl
    have hfirst : e.2.notice?.toList.filter (·.tradeId = id) =
        if e.1 = k then e.2.notice?.toList else [] := by
      cases hnotice : e.2.notice? with
      | none => simp
      | some n =>
        have hmine := h e List.mem_cons_self n hnotice
        simp only [Option.toList, List.filter_cons, List.filter_nil, decide_eq_true_eq, hmine]
    rw [List.map_cons, hcons, List.filter_append, hrest, hfirst, List.filter_cons]
    by_cases hk : e.1 = k
    · simp [hk, hcons]
    · simp [hk]

/-! ## The result -/

/-- Whatever happens at a node, everything that is posted comes from its workers, and if a worker is
the only one that a trade has had, what it tells is all that is posted about the trade. What it
tells is the truth: there is a change for every commit and a rejection for every rejected event, the
changes lead on from the trade that the worker began with, and the end is told once (`Truthful`).
Only of the mail that the worker is busy with there may be a rest to come. -/
theorem notices_tell_the_truth {name : String} {engine : Engine} {settings : WorkerSettings}
    {backend : Backend} {identity : Peer}
    (h : (Watched.new name engine settings backend identity).Run actions x)
    (hk : x.node.workers.get? k = some w) (horigin : (x.journal k).origin = some t₀) :
    let x₀ := Watched.new name engine settings backend identity
    let posted := notices ((x₀.toldIn actions).map (·.2))
    x.node.board = posted.foldl Board.post (.new settings.noticeCapacity.toNat) ∧
    ((∀ k' w', x.node.workers.get? k' = some w' → w'.trade.id = t₀.id → k' = k) →
      posted.filter (·.tradeId = t₀.id) = notices (x₀.toldBy actions k)) ∧
    ∃ rest, (w.chores = [] → rest = []) ∧
      Truthful engine t₀ (x.journal k).read (x₀.toldBy actions k) rest := by
  intro x₀ posted
  have hlinear : Linear x₀ := linear_new name engine settings backend identity
  have hnone (k : Nat) : x₀.node.workers.get? k = none := rfl
  have hengine : x.node.engine = engine := (hlinear.extends_of_run h).engine
  have hstory {k : Nat} {w : Worker} {t : Trade} (hk : x.node.workers.get? k = some w)
      (horigin : (x.journal k).origin = some t) :
      ∃ rest, (w.chores = [] → rest = []) ∧
        Story engine ⟨t, none⟩ (x.journal k).read w.standing (x₀.toldBy actions k ++ rest) := by
    obtain ⟨rest, hrest⟩ := Unfolds.exists_told w.trade w.chores
    refine ⟨rest, fun hchores => (hchores ▸ hrest).of_nil, ?_⟩
    rw [← hengine]
    exact tells_of_run h hlinear hnone hk t horigin rest hrest
  refine ⟨h.board_eq, fun halone => notices_of_one fun e he n hn => ?_, ?_⟩
  · -- whoever has told something is a worker, and speaks of its trade
    obtain ⟨w', hk'⟩ := h.exists_worker_of_mem_logIn isOwn_tells hlinear he
    obtain ⟨t', ht', -⟩ := ((hlinear.run h).straight e.1 w' hk').follows.trade
    obtain ⟨rest, -, hstory⟩ := hstory hk' ht'
    obtain ⟨hid, hmem⟩ := hstory.mem_notices
    have htold : n ∈ notices (x₀.toldBy actions e.1 ++ rest) := by
      rw [notices_append]
      refine List.mem_append_left _ (List.mem_filterMap.2 ⟨e.2, ?_, hn⟩)
      exact List.mem_map_of_mem (List.mem_filter.2 ⟨he, decide_eq_true rfl⟩)
    rw [hmem n htold]
    constructor
    · intro hsame
      exact halone e.1 w' hk' (hid.trans hsame)
    · intro hsame
      rw [hsame] at ht'
      cases horigin.symm.trans ht'
      rfl
  · obtain ⟨rest, hdone, hstory⟩ := hstory hk horigin
    exact ⟨rest, hdone, hstory.truthful⟩

/-- A new node that trusts everybody. -/
def newcomer : Watched :=
  .new "a" { registry := .standard, verifier := { accepts := fun _ _ _ => true } } {} {} ⟨"taker"⟩

/-- An offer is taken twice while the other side is out of reach, and fails when there is no answer.
-/
def failingOffer : List Action :=
  let now : Time := ⟨.epoch, 0, .farFuture⟩
  let take : Action := .call 0 (.dispatch (.command ⟨"take", .takeOffer, [], []⟩))
  [.link { identity := ⟨"taker"⟩, reachable := false }, .launch now openOffer, take, take] ++
    List.replicate 7 (.step now (.worker 0)) ++ .step overdue (.timer 0) ::
      List.replicate 5 (.step overdue (.worker 0))

/-- What is posted about the offer. -/
def failingNotices : List Notice :=
  [⟨"trade_1", 1, .deliveryFailed (.unreachable "loopback peer of taker")⟩,
    ⟨"trade_1", 1, .stateChanged .init .takeOfferSent⟩,
    ⟨"trade_1", 1, .rejected ⟨.duplicate, "command take already consumed"⟩⟩,
    ⟨"trade_1", 2, .deadlineExpired answerDue⟩,
    ⟨"trade_1", 2, .stateChanged .takeOfferSent .failed⟩,
    ⟨"trade_1", 2, .finalized .failed⟩]

theorem failingOffer_tells_the_truth :
    ∃ x w, newcomer.Run failingOffer x ∧ x.node.workers.get? 0 = some w ∧
      (x.journal 0).origin = some openOffer ∧ w.chores = [] ∧
      (notices ((newcomer.toldIn failingOffer).map (·.2))).filter (·.tradeId = openOffer.id) =
        failingNotices ∧
      Truthful newcomer.node.engine openOffer (x.journal 0).read (newcomer.toldBy failingOffer 0)
        [] := by
  obtain ⟨x, w, hplay, hk, horigin, hchores, hone⟩ :
      ∃ x w, newcomer.play failingOffer = some x ∧ x.node.workers.get? 0 = some w ∧
        (x.journal 0).origin = some openOffer ∧ w.chores = [] ∧ x.node.workers.keys = [0] :=
    ⟨_, _, rfl, rfl, rfl, rfl, rfl⟩
  have htold : notices (newcomer.toldBy failingOffer 0) = failingNotices := by decide +kernel
  have hrun := Watched.run_of_play hplay
  obtain ⟨-, honly, rest, hdone, htruth⟩ := notices_tell_the_truth hrun hk horigin
  rw [hdone hchores] at htruth
  refine ⟨x, w, hrun, hk, horigin, hchores, ?_, htruth⟩
  refine (honly fun k' w' hk' _ => ?_).trans htold
  -- there is no other worker
  have hmem : k' ∈ x.node.workers.keys := by
    rw [Dict.mem_keys_iff, Dict.contains, hk']
    rfl
  rw [hone] at hmem
  exact List.mem_singleton.1 hmem

end Watched

end Node

end PeerTrade

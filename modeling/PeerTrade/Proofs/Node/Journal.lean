import PeerTrade.Proofs.Engine.Run
import PeerTrade.Proofs.Node.Steps

/-!
# Journals

An observer of a node keeps a journal of every worker: the trade that the worker began with, the
mail that was placed in its mailbox, in the order of arrival, and the mail that it has read and
decided on, with the dates. It also notes which calls were made, what senders were told had been
accepted, and which snapshots the workers handed to the store. All of this is read off the node
before and after an action; the node knows nothing of it.
-/

namespace PeerTrade

/-- The past of a worker. -/
structure Journal where
  /-- The trade that the worker began with. -/
  origin : Option Trade := none
  placed : List Mail := []
  read : List (Instant × Mail) := []

/-- The events among some mail that was read. -/
def Mail.stream (read : List (Instant × Mail)) : Stream :=
  read.filterMap fun (date, mail) =>
    match mail with
    | .event e _ => some (date, e)
    | _ => none

namespace Journal

/-- A trade is what the engine makes of the first trade and the events among the first mail. -/
def Shows (engine : Engine) (j : Journal) (position : Nat) (t : Trade) : Prop :=
  ∃ t₀, j.origin = some t₀ ∧ t = (engine.run t₀ (Mail.stream (j.read.take position))).1

/-- The journal of a worker after it has read something or nothing, by what is seen of the worker
before and after. What stands in the queue behind the mail that stood there before was placed. -/
def note (j : Journal) (heard : Option (Instant × Mail)) : Option Worker → Option Worker → Journal
  | none, some w' => { origin := some w'.trade, placed := w'.mailbox.queue }
  | some w, some w' =>
    { j with
      placed := j.placed ++
        w'.mailbox.queue.drop (w.mailbox.queue.length - heard.toList.length)
      read := j.read ++ heard.toList }
  | _, none => j

end Journal

namespace Node

/-- Whether a worker breaks down over some mail. -/
def breaksOn (n : Node) (t : Trade) : Mail → Bool
  | .event e _ => n.engine.crashesOn t e
  | .inspect _ | .persistFailed .. => false

/-- The mail that a worker reads and decides on in an action. -/
def heard (n : Node) (k : Nat) : Action → Option (Instant × Mail)
  | .step now (.worker k') => do
    let w ← n.workers.get? k
    if k' = k ∧ w.phase = .running ∧ w.chores = [] then
      (w.mailbox.queue.head?.filter fun mail => !n.breaksOn w.trade mail).map (now.date, ·)
    else none
  | _ => none

/-- The calls that were made, by number, after an action. -/
def callsAfter (n : Node) (calls : Nat → Option (Nat × Request)) :
    Action → Nat → Option (Nat × Request)
  | .call k request => fun c => if c = n.called then some (k, request) else calls c
  | _ => calls

/-- The mail whose sender is told in an action that it lies in a mailbox, and in whose. -/
def accepts (n : Node) : Action → List (Nat × Mail)
  | .call k request =>
    let mail := request.mail n.called
    if ({ n with called := n.called + 1 }.deliver k (.caller n.called) mail).2 = .delivered then
      [(k, mail)]
    else []
  | .enter k sender =>
    if (n.enter k sender).2 = .delivered then
      (((n.workers.get? k).bind (·.mailbox.admitted.lookup sender)).map (k, ·)).toList
    else []
  | _ => []

/-- The snapshots that are handed to the store in an action, and by which worker. -/
def handsIn (n : Node) : Action → List (Nat × Trade)
  | .step _ (.worker k) =>
    match n.workers.get? k with
    | some w =>
      match w.phase, w.chores with
      | .running, .persist _ :: _ => [(k, w.trade)]
      | _, _ => []
    | none => []
  | .launch _ t => [(n.started, t)]
  | _ => []

/-- A node with what was observed there. -/
structure Watched where
  node : Node
  journal : Nat → Journal := fun _ => {}
  /-- The calls that were made: to which worker, and what for. -/
  calls : Nat → Option (Nat × Request) := fun _ => none
  /-- The mail that was accepted, in order, and for which worker. -/
  accepted : List (Nat × Mail) := []
  /-- The trades whose snapshots were handed to the store, in order, and by which worker. -/
  handed : List (Nat × Trade) := []

namespace Watched

/-- A new node, where nothing has been observed. -/
def new (name : String) (engine : Engine) (settings : WorkerSettings) (backend : Backend)
    (identity : Peer) : Watched where
  node := .new name engine settings backend identity

/-- What is observed of an action that leads to some node. -/
def note (x : Watched) (a : Action) (n' : Node) : Watched where
  node := n'
  journal k := (x.journal k).note (x.node.heard k a) (x.node.workers.get? k) (n'.workers.get? k)
  calls := x.node.callsAfter x.calls a
  accepted := x.accepted ++ x.node.accepts a
  handed := x.handed ++ x.node.handsIn a

/-- A watched node after an action, if it is possible. -/
def act (x : Watched) (a : Action) : Option Watched := (x.node.act a).map (x.note a)

/-- A watched node after some actions, if they are possible one after the other. -/
def play (x : Watched) : List Action → Option Watched
  | [] => some x
  | a :: rest => (x.act a).bind (·.play rest)

/-- Some actions lead from a watched node to another. -/
inductive Run (x : Watched) : List Action → Watched → Prop where
  | nil : Run x [] x
  | concat {actions : List Action} {x₁ x₂ : Watched} {a : Action} :
      Run x actions x₁ → x₁.act a = some x₂ → Run x (actions ++ [a]) x₂

/-- A node that some actions lead to from a new one, with what was observed. -/
def Reachable (x : Watched) : Prop :=
  ∃ name engine settings backend identity actions,
    (new name engine settings backend identity).Run actions x

end Watched

end Node

/-! ## Notes about nothing -/

variable {j : Journal} {w w' : Worker}

theorem Mail.stream_append (xs ys : List (Instant × Mail)) :
    Mail.stream (xs ++ ys) = Mail.stream xs ++ Mail.stream ys := by
  simp [Mail.stream]

/-- What a journal shows it goes on to show when more is read. -/
theorem Journal.Shows.mono {engine : Engine} {j' : Journal} {i : Nat} {t : Trade}
    (h : j.Shows engine i t) (horigin : ∀ t, j.origin = some t → j'.origin = some t)
    (hread : j.read <+: j'.read) (hi : i ≤ j.read.length) : j'.Shows engine i t := by
  obtain ⟨t₀, ht₀, ht⟩ := h
  refine ⟨t₀, horigin t₀ ht₀, ?_⟩
  obtain ⟨more, hmore⟩ := hread
  rw [← hmore, List.take_append_of_le_length hi]
  exact ht

theorem Journal.note_of_queue_eq (j : Journal) (h : w'.mailbox.queue = w.mailbox.queue) :
    j.note none (some w) (some w') = j := by
  simp [Journal.note, h]

/-- A worker that stays where it is leaves no trace. -/
theorem Journal.note_still (h : w.Still w') (heard : Option (Instant × Mail))
    (before : Option Worker) :
    j.note heard before (some w') = j.note heard before (some w) := by
  cases before with
  | none => simp [Journal.note, h.trade, h.queue]
  | some w₀ => simp [Journal.note, h.queue]

namespace Node

variable {n m : Node} {a : Action} {k : Nat}

theorem heard_of_plain (n : Node) (k : Nat) (ha : a.IsPlain) : n.heard k a = none := by
  cases a with
  | step now actor =>
    cases actor with
    | worker => exact ha.elim
    | _ => rfl
  | _ => rfl

theorem handsIn_of_plain (n : Node) (ha : a.IsPlain) : n.handsIn a = [] := by
  cases a with
  | step now actor =>
    cases actor with
    | worker => exact ha.elim
    | _ => rfl
  | launch => exact ha.elim
  | _ => rfl

theorem callsAfter_of_plain (n : Node) (calls : Nat → Option (Nat × Request)) (ha : a.IsPlain) :
    n.callsAfter calls a = calls := by
  cases a with
  | call k request => exact ha.elim
  | _ => rfl

/-- What the workers add to a log in an action, with their numbers, if only the worker whose step it
is can have something to add. -/
def byWorker {α : Type} (f : Node → Nat → Action → List α) (n : Node) : Action → List (Nat × α)
  | .step now (.worker k) => (f n k (.step now (.worker k))).map (k, ·)
  | _ => []

/-- Nobody has something to add but the worker whose step it is. -/
def IsOwn {α : Type} (f : Node → Nat → Action → List α) : Prop :=
  ∀ n k a, f n k a ≠ [] → (∃ now, a = .step now (.worker k)) ∧ ∃ w, n.workers.get? k = some w

section Logs

variable {α : Type} {f : Node → Nat → Action → List α}

theorem IsOwn.filter_byWorker (hf : IsOwn f) (n : Node) (k : Nat) (a : Action) :
    ((n.byWorker f a).filter (·.1 = k)).map (·.2) = f n k a := by
  have hnone (hother : ∀ now, a ≠ .step now (.worker k)) : f n k a = [] := by
    by_contra hsome
    obtain ⟨⟨now, rfl⟩, -⟩ := hf n k a hsome
    exact hother now rfl
  cases a with
  | step now actor =>
    cases actor with
    | worker k' =>
      by_cases heq : k' = k
      · subst heq
        simp [byWorker, List.filter_map, Function.comp_def]
      · rw [hnone fun now' h => heq (by cases h; rfl)]
        simp [byWorker, List.filter_map, Function.comp_def, heq]
    | _ => rw [hnone fun _ => nofun]; rfl
  | _ => rw [hnone fun _ => nofun]; rfl

theorem IsOwn.exists_worker (hf : IsOwn f) {e : Nat × α} (h : e ∈ n.byWorker f a) :
    ∃ w, n.workers.get? e.1 = some w := by
  have hmem : e.2 ∈ f n e.1 a := by
    rw [← hf.filter_byWorker]
    exact List.mem_map_of_mem (List.mem_filter.2 ⟨h, decide_eq_true rfl⟩)
  exact (hf n e.1 a (List.ne_nil_of_mem hmem)).2

end Logs

theorem heard_of_ne {now : Time} {k' : Nat} (n : Node) (hne : k' ≠ k) :
    n.heard k (.step now (.worker k')) = none := by
  simp [heard, hne]

namespace Watched

variable {x x' : Watched}

theorem Run.trans {x'' : Watched} {actions more : List Action} (h : x.Run actions x')
    (hmore : x'.Run more x'') : x.Run (actions ++ more) x'' := by
  induction hmore with
  | nil => rwa [List.append_nil]
  | concat _ hact ih =>
    rw [← List.append_assoc]
    exact .concat ih hact

theorem run_of_play {actions : List Action} (h : x.play actions = some x') :
    x.Run actions x' := by
  induction actions generalizing x with
  | nil =>
    cases h
    exact .nil
  | cons a rest ih =>
    obtain ⟨x₁, hact, hrest⟩ := Option.bind_eq_some_iff.1 h
    exact (Run.concat .nil hact).trans (ih hrest)

/-- What every action keeps, a run keeps. -/
theorem Run.keeps {P : Watched → Prop} {actions : List Action} (h : x.Run actions x') (hx : P x)
    (step : ∀ x a x', P x → x.act a = some x' → P x') : P x' := by
  induction h with
  | nil => exact hx
  | concat _ hact ih => exact step _ _ _ ih hact

/-- What is logged of some actions, in order, if each of them adds something to the log. -/
def logIn {α : Type} (f : Node → Action → List α) (x : Watched) : List Action → List α
  | [] => []
  | a :: rest => f x.node a ++ ((x.act a).map (logIn f · rest)).getD []

section Logs

variable {α : Type} {f : Node → Action → List α} {actions : List Action}

theorem logIn_cons (h : x.act a = some x') (rest : List Action) :
    x.logIn f (a :: rest) = f x.node a ++ x'.logIn f rest := by
  rw [logIn, h]
  rfl

theorem Run.logIn_append (h : x.Run actions x') (more : List Action) :
    x.logIn f (actions ++ more) = x.logIn f actions ++ x'.logIn f more := by
  induction h generalizing more with
  | nil => rfl
  | concat _ hact ih =>
    rw [List.append_assoc, ih, ih, List.singleton_append, logIn_cons hact, logIn_cons hact, logIn,
      List.append_nil, List.append_assoc]

theorem Run.logIn_concat {x'' : Watched} (h : x.Run actions x') (hact : x'.act a = some x'') :
    x.logIn f (actions ++ [a]) = x.logIn f actions ++ f x'.node a := by
  rw [h.logIn_append, logIn_cons hact, logIn, List.append_nil]

end Logs

/-- A snapshot is passed over, or its trade is taken on. -/
theorem resumeOne_cases (now : Time) (n : Node) (r : Resumption) (s : Snapshot) :
    (∃ r', resumeOne now (n, r) s = (n, r')) ∨
      ∃ n' r', n.act (.resume now s) = some n' ∧ resumeOne now (n, r) s = (n', r') := by
  cases hrestore : n.engine.restore s with
  | error e =>
    refine .inl ⟨{ r with skipped := r.skipped ++ [(s.tradeId, e)] }, ?_⟩
    simp only [resumeOne, hrestore]
  | ok t =>
    cases hstart : n.start now t true with
    | error e => exact .inl ⟨r, by simp [resumeOne, hrestore, hstart]⟩
    | ok n' =>
      refine .inr ⟨n', { r with resumed := r.resumed ++ [s.tradeId] }, ?_, ?_⟩
      · simp [Node.act, hrestore, hstart, Except.toOption]
      · simp only [resumeOne, hrestore, hstart]

theorem exists_run_of_foldl_resumeOne (now : Time) (snapshots : List Snapshot) (x : Watched)
    (r : Resumption) :
    ∃ actions x', x.Run actions x' ∧
      x'.node = (snapshots.foldl (resumeOne now) (x.node, r)).1 ∧
        ∀ a ∈ actions, ∃ s ∈ snapshots, a = .resume now s := by
  induction snapshots generalizing x r with
  | nil => exact ⟨[], x, .nil, rfl, fun a ha => absurd ha List.not_mem_nil⟩
  | cons s rest ih =>
    have hlater {a : Action} : (∃ s' ∈ rest, a = .resume now s') →
        ∃ s' ∈ s :: rest, a = .resume now s' := by
      rintro ⟨s', hs', rfl⟩
      exact ⟨s', List.mem_cons_of_mem _ hs', rfl⟩
    rcases resumeOne_cases now x.node r s with ⟨r', heq⟩ | ⟨n', r', hact, heq⟩
    · obtain ⟨actions, x', hrun, hnode, hall⟩ := ih x r'
      exact ⟨actions, x', hrun, by rw [List.foldl_cons, heq, hnode],
        fun a ha => hlater (hall a ha)⟩
    · obtain ⟨actions, x', hrun, hnode, hall⟩ := ih (x.note (.resume now s) n') r'
      have hfirst : x.act (.resume now s) = some (x.note (.resume now s) n') := by
        rw [act, hact]
        rfl
      refine ⟨[.resume now s] ++ actions, x', (Run.concat .nil hfirst).trans hrun, ?_,
        fun a ha => ?_⟩
      · rw [List.foldl_cons, heq, hnode]
        rfl
      · rcases List.mem_cons.1 ha with rfl | ha
        · exact ⟨s, List.mem_cons_self, rfl⟩
        · exact hlater (hall a ha)

/-- Bringing back what the store holds is done snapshot by snapshot. -/
theorem exists_run_of_resume {now : Time} {n' : Node} {r : Resumption} {snapshots : List Snapshot}
    (hload : x.node.backend.loadAll = .ok snapshots) (h : x.node.resume now = .ok (n', r)) :
    ∃ actions x', x.Run actions x' ∧ x'.node = n' ∧
      ∀ a ∈ actions, ∃ s ∈ snapshots, a = .resume now s := by
  obtain ⟨actions, x', hrun, hnode, hall⟩ := exists_run_of_foldl_resumeOne now snapshots x {}
  refine ⟨actions, x', hrun, ?_, hall⟩
  rw [resume, hload] at h
  rw [hnode]
  exact congrArg Prod.fst (Except.ok.inj h)

/-- Every action amounts to one of the changes, which leaves the same trace. -/
theorem exists_change_of_act (hact : x.act a = some x') :
    ∃ m n', Change x.node a m ∧ m.Still n' ∧ x' = x.note a n' := by
  obtain ⟨n', hn', rfl⟩ := Option.map_eq_some_iff.1 hact
  obtain ⟨m, hchange, hstill⟩ := Node.exists_change_of_act hn'
  exact ⟨m, n', hchange, hstill, rfl⟩

/-- Nothing that was observed is forgotten. -/
structure Extends (x x' : Watched) : Prop where
  engine : x'.node.engine = x.node.engine
  journal : ∀ k t, (x.journal k).origin = some t → (x'.journal k).origin = some t ∧
    (x.journal k).read <+: (x'.journal k).read ∧ (x.journal k).placed <+: (x'.journal k).placed
  calls : ∀ c call, x.calls c = some call → x'.calls c = some call

theorem Extends.refl (x : Watched) : x.Extends x :=
  ⟨rfl, fun _ _ h => ⟨h, List.prefix_rfl, List.prefix_rfl⟩, fun _ _ h => h⟩

theorem Extends.trans {x'' : Watched} (h : x.Extends x') (h' : x'.Extends x'') :
    x.Extends x'' := by
  refine ⟨h'.engine.trans h.engine, fun k t ht => ?_, fun c call hc => h'.calls c _ (h.calls c _ hc)⟩
  obtain ⟨ht', hread, hplaced⟩ := h.journal k t ht
  obtain ⟨ht'', hread', hplaced'⟩ := h'.journal k t ht'
  exact ⟨ht'', hread.trans hread', hplaced.trans hplaced'⟩

/-- What a journal shows, a later one goes on to show. -/
theorem Extends.shows (hx : x.Extends x') {k i : Nat} {t : Trade}
    (h : (x.journal k).Shows x.node.engine i t) (hi : i ≤ (x.journal k).read.length) :
    (x.journal k).read <+: (x'.journal k).read ∧ (x'.journal k).Shows x'.node.engine i t := by
  obtain ⟨t₀, ht₀, -⟩ := id h
  obtain ⟨-, hread, -⟩ := hx.journal k t₀ ht₀
  rw [hx.engine]
  exact ⟨hread, h.mono (fun t ht => (hx.journal k t ht).1) hread hi⟩

/-- Steps that leave the trades alone leave no trace. -/
theorem note_of_still (x : Watched) (a : Action) {n' : Node} (h : m.Still n') (k : Nat) :
    (x.note a n').journal k = (x.note a m).journal k := by
  show (x.journal k).note _ _ _ = (x.journal k).note _ _ _
  cases hk : m.workers.get? k with
  | none => rw [h.absent k hk]
  | some w =>
    obtain ⟨w', hk', hw⟩ := h.present k w hk
    rw [hk']
    exact Journal.note_still hw _ _

end Watched

end Node

end PeerTrade

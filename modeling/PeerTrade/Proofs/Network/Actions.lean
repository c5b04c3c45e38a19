import PeerTrade.Network.Calls
import PeerTrade.Proofs.Dict
import PeerTrade.Proofs.Node.Shutdown

/-!
# Networks and their nodes

Whatever is done in a network, and in whichever order turns are taken there, for each of its nodes
it amounts to some actions (`Network.Leads`). So every node of a network is one that actions lead to
from a new one (`Network.Reached.leads`), and what holds of all of those holds throughout a network.
In particular a network shuts a node down by a call of shutdown there (`Network.exists_shutdown`).
-/

namespace PeerTrade

/-! ## One node -/

namespace Node

variable {n n' n'' : Node} {now : Time}

/-- Some actions lead from a node to another one, whoever watches. -/
def Leads (n n' : Node) : Prop :=
  ∀ x : Watched, x.node = n → ∃ actions x', x.Run actions x' ∧ x'.node = n'

theorem Leads.refl (n : Node) : n.Leads n := fun x hx => ⟨[], x, .nil, hx⟩

theorem Leads.trans (h : n.Leads n') (h' : n'.Leads n'') : n.Leads n'' := by
  intro x hx
  obtain ⟨actions, x', hrun, hx'⟩ := h x hx
  obtain ⟨more, x'', hmore, hx''⟩ := h' x' hx'
  exact ⟨actions ++ more, x'', hrun.trans hmore, hx''⟩

theorem leads_of_act {a : Action} (h : n.act a = some n') : n.Leads n' := by
  rintro x rfl
  exact ⟨[a], x.note a n', .concat .nil (by rw [Watched.act, h]; rfl), rfl⟩

theorem leads_rouse (n : Node) (woken : List Actor) : n.Leads { n with woken } :=
  leads_of_act (a := .rouse woken) rfl

theorem leads_wake (n : Node) (actors : List Actor) : n.Leads (n.wake actors) :=
  n.leads_rouse (n.woken ++ actors)

theorem leads_launch {t : Trade} (h : n.launch now t = .ok n') : n.Leads n' :=
  leads_of_act (a := .launch now t) (Checks.toOption_eq_some_iff.2 h)

theorem leads_create {id : String} {combination : Combination} {terms : Terms}
    {counterparty : Peer} (h : n.create now id combination terms counterparty = .ok n') :
    n.Leads n' := by
  obtain ⟨t, -, hlaunch⟩ := Checks.bind_eq_ok_iff.1 h
  exact leads_launch hlaunch

theorem leads_adopt {s : Snapshot} (h : n.adopt now s = .ok n') : n.Leads n' := by
  obtain ⟨t, -, hlaunch⟩ := Checks.bind_eq_ok_iff.1 h
  exact leads_launch hlaunch

theorem leads_resume {r : Resumption} (h : n.resume now = .ok (n', r)) : n.Leads n' := by
  obtain ⟨snapshots, hload, -⟩ := Checks.bind_eq_ok_iff.1 h
  rintro x rfl
  obtain ⟨actions, x', hrun, hnode, -⟩ :=
    Watched.exists_run_of_resume (Checks.mapError_eq_ok_iff.1 hload) h
  exact ⟨actions, x', hrun, hnode⟩

end Node

/-! ## All nodes -/

namespace Network

variable {w w' w'' : Network} {name : String} {n n' : Node}

/-- The nodes are the same, each after some actions. -/
structure Leads (w w' : Network) : Prop where
  absent : ∀ name, w.nodes.get? name = none → w'.nodes.get? name = none
  present : ∀ name n, w.nodes.get? name = some n →
    ∃ n', w'.nodes.get? name = some n' ∧ n.Leads n'

theorem leads_of_nodes_eq (h : w'.nodes = w.nodes) : w.Leads w' := by
  constructor
  · intro name hn
    rw [h, hn]
  · intro name n hn
    exact ⟨n, by rw [h, hn], .refl n⟩

theorem Leads.refl (w : Network) : w.Leads w := leads_of_nodes_eq rfl

theorem Leads.trans (h : w.Leads w') (h' : w'.Leads w'') : w.Leads w'' := by
  constructor
  · exact fun name hn => h'.absent name (h.absent name hn)
  · intro name n hn
    obtain ⟨n', hn', hleads⟩ := h.present name n hn
    obtain ⟨n'', hn'', hleads'⟩ := h'.present name n' hn'
    exact ⟨n'', hn'', hleads.trans hleads'⟩

theorem leads_setNode (hn : w.nodes.get? name = some n) (h : n.Leads n') :
    w.Leads (w.setNode name n') := by
  constructor
  · intro name' hnone
    have hne : name' ≠ name := by
      rintro rfl
      cases hn.symm.trans hnone
    simpa [setNode, Dict.get?_insert, hne] using hnone
  · intro name' m hm
    by_cases heq : name' = name
    · subst heq
      cases hn.symm.trans hm
      exact ⟨_, Dict.get?_insert_self .., h.trans (n'.leads_rouse [])⟩
    · exact ⟨m, by simpa [setNode, Dict.get?_insert, heq] using hm, .refl m⟩

/-! ## Turns -/

theorem leads_noteCarrier (w : Network) (source : String) (k : Nat) (d : Delivery) :
    w.Leads (w.noteCarrier source k d) := by
  cases d <;> exact leads_of_nodes_eq rfl

theorem leads_carryNext {source peer : String} (h : w.carryNext source peer = some w') :
    w.Leads w' := by
  obtain ⟨n, hn, h⟩ := Option.bind_eq_some_iff.1 h
  obtain ⟨m, -, h⟩ := Option.bind_eq_some_iff.1 h
  obtain ⟨target, htarget, h⟩ := Option.bind_eq_some_iff.1 h
  -- a message leaves the node, and comes to the worker of its trade if there is one
  have htaken := leads_setNode hn (Node.leads_of_act (a := .link n.link.take.1) rfl)
  split at h
  · cases h
    exact htaken
  next k _ =>
    cases h
    refine htaken.trans (.trans ?_ (leads_noteCarrier ..))
    exact leads_setNode htarget (Node.leads_of_act (a := .carry k source m) rfl)

theorem leads_carry {source : String} (h : w.carry source = some w') : w.Leads w' := by
  obtain ⟨peer, -, h⟩ := Option.bind_eq_some_iff.1 h
  split at h
  · exact leads_carryNext h
  next k _ =>
    obtain ⟨target, htarget, h⟩ := Option.bind_eq_some_iff.1 h
    have henters := leads_setNode htarget
      (Node.leads_of_act (a := .enter k (.carrier source)) rfl)
    split at h
    · cases h
    next target' d _ heq =>
      cases h
      rw [heq] at henters
      exact henters.trans (leads_noteCarrier ..)

theorem leads_move {a : Actor} (h : w.move name a = some w') : w.Leads w' := by
  unfold move at h
  split at h
  · exact leads_carry h
  · obtain ⟨n, hn, h⟩ := Option.bind_eq_some_iff.1 h
    obtain ⟨n', hn', h⟩ := Option.bind_eq_some_iff.1 h
    cases h
    exact leads_setNode hn (Node.leads_of_act (a := .step w.time a) hn')

theorem leads_tick (h : w.tick = some w') : w.Leads w' := by
  unfold tick at h
  split at h
  · cases h
  next name a rest _ =>
    cases h
    cases hmove : w.move name a with
    | none => exact leads_of_nodes_eq rfl
    | some w' => exact leads_move hmove

theorem leads_settleFor (fuel : Nat) (w : Network) : w.Leads (w.settleFor fuel) := by
  induction fuel generalizing w with
  | zero => exact .refl w
  | succ fuel ih =>
    rw [settleFor]
    split
    next w' htick => exact (leads_tick htick).trans (ih w')
    next => exact .refl w

theorem leads_settle (w : Network) : w.Leads w.settle := w.leads_settleFor patience

/-! ## Calls -/

theorem leads_deliver (hn : w.nodes.get? name = some n) (id : String) (request : Request) :
    w.Leads (w.deliver name id { n with called := n.called + 1 } n.called
      (request.mail n.called)).1 := by
  unfold deliver
  split
  · exact .refl w
  next k _ =>
    have hcalls := leads_setNode hn (Node.leads_of_act (a := .call k request) rfl)
    dsimp only
    split
    next n' heq =>
      rw [heq] at hcalls
      have hsettled := hcalls.trans (leads_settle _)
      split
      · exact hsettled
      next m hm =>
        -- the caller has waited for a place
        have henters := leads_setNode hm
          (Node.leads_of_act (a := .enter k (.caller n.called)) rfl)
        split <;> exact hsettled.trans henters
    next n' d _ heq =>
      rw [heq] at hcalls
      split <;> exact hcalls

theorem leads_call (w : Network) (name id : String) (request : Request) :
    w.Leads (w.call name id fun caller => request.mail caller).1 := by
  unfold call
  split
  · exact .refl w
  next n hn => exact leads_deliver hn id request

theorem leads_dispatch (w : Network) (name id : String) (e : Event) :
    w.Leads (w.dispatch name id e).1 :=
  w.leads_call name id (.dispatch e)

theorem leads_await (w : Network) (name : String) (caller : Nat) :
    w.Leads (w.await name caller).1 :=
  w.leads_settle

theorem leads_submit (w : Network) (name id : String) (e : Event) :
    w.Leads (w.submit name id e).1 := by
  have hcall := w.leads_call name id (.submit e)
  simp only [Request.mail] at hcall
  unfold submit
  split
  next w' _ heq =>
    rw [heq] at hcall
    exact hcall
  next w' caller heq =>
    rw [heq] at hcall
    have hawait := hcall.trans (w'.leads_await name caller)
    split <;>
      next heq' =>
        rw [heq'] at hawait
        exact hawait

theorem leads_inspect (w : Network) (name id : String) : w.Leads (w.inspect name id).1 := by
  have hcall := w.leads_call name id .inspect
  simp only [Request.mail] at hcall
  unfold inspect
  split
  next w' _ heq =>
    rw [heq] at hcall
    exact hcall
  next w' caller heq =>
    rw [heq] at hcall
    have hawait := hcall.trans (w'.leads_await name caller)
    split <;>
      next heq' =>
        rw [heq'] at hawait
        exact hawait

/-! ## Ending -/

theorem leads_modify (w : Network) (name : String) {f : Node → Node}
    (hf : ∀ n : Node, n.Leads (f n)) : w.Leads (w.modify name f) := by
  unfold modify
  split
  next n hn => exact leads_setNode hn (hf n)
  next => exact .refl w

theorem leads_release (name : String) (w : Network) (k : Nat) : w.Leads (release name w k) := by
  have hreleased := w.leads_modify name fun n => Node.leads_of_act (n := n) (a := .release k) rfl
  unfold release
  dsimp only
  split
  · exact hreleased.trans (leads_settle _)
  · exact hreleased

theorem leads_flush (w : Network) (name : String) : w.Leads (w.flush name) := by
  unfold flush
  split
  · exact .refl w
  next n hn =>
    split
    · exact .refl w
    next store _ heq =>
      refine (leads_setNode hn (Node.leads_of_act (a := .flush) ?_)).trans (leads_settle _)
      rw [Node.act, heq]

/-- A network that shuts a node down does there what every call of shutdown does. -/
theorem leads_shutDown (w : Network) (name : String) : w.Leads (w.shutDown name) := by
  unfold shutDown
  split
  · exact .refl w
  next n hn =>
    have hforgotten := leads_setNode hn (Node.leads_of_act (a := .forget) rfl)
    have hreleased (ks : List Nat) (w : Network) : w.Leads (ks.foldl (release name) w) := by
      induction ks generalizing w with
      | nil => exact .refl w
      | cons k ks ih => exact (leads_release name w k).trans (ih _)
    exact (hforgotten.trans (hreleased _ _)).trans (leads_flush _ name)

theorem leads_closeStore (w : Network) (name : String) : w.Leads (w.closeStore name) := by
  unfold closeStore
  split
  · exact .refl w
  next n hn =>
    have hclosed := leads_setNode hn
      ((Node.leads_of_act (a := .close) rfl).trans (Node.leads_wake _ [.writer]))
    dsimp only
    split
    · exact hclosed.trans (leads_settle _)
    · exact hclosed

/-! ## Time -/

theorem leads_moveTo (w : Network) (elapsed : Nat) : w.Leads (w.moveTo elapsed) := by
  -- every node is taken as it was in the beginning, since it comes only once
  have hring (l : List (String × Node)) (hl : (l.map (·.1)).Nodup) (w : Network)
      (hw : ∀ e ∈ l, w.nodes.get? e.1 = some e.2) :
      w.Leads (l.foldl (fun w (name, n) => w.setNode name (ring elapsed n)) w) := by
    induction l generalizing w with
    | nil => exact .refl w
    | cons e rest ih =>
      obtain ⟨hfirst, hrest⟩ := List.nodup_cons.1 hl
      refine (leads_setNode (hw e List.mem_cons_self) (Node.leads_wake e.2 _)).trans
        (ih hrest _ fun e' he' => ?_)
      have hne : e'.1 ≠ e.1 := fun heq => hfirst (List.mem_map.2 ⟨e', he', heq⟩)
      simpa [setNode, Dict.get?_insert, hne] using hw e' (List.mem_cons_of_mem _ he')
  let moved : Network := { w with
    time := { w.time with elapsed := max w.time.elapsed elapsed } }
  have hmoved : w.Leads moved := leads_of_nodes_eq rfl
  exact hmoved.trans (hring w.nodes.entries w.nodes.nodup_keys moved fun e he =>
    Dict.get?_eq_some_iff.2 he)

theorem leads_advanceFor (fuel target : Nat) (w : Network) :
    w.Leads (advanceFor fuel target w) := by
  induction fuel generalizing w with
  | zero => exact (leads_moveTo w target).trans (leads_settle _)
  | succ fuel ih =>
    rw [advanceFor]
    split
    next time _ => exact ((leads_moveTo w time).trans (leads_settle _)).trans (ih _)
    next => exact (leads_moveTo w target).trans (leads_settle _)

theorem leads_advance (w : Network) (d : Duration) : w.Leads (w.advance d) :=
  (leads_settle w).trans (leads_advanceFor ..)

/-! ## Networks from new nodes -/

/-- Every node of a network is one that actions lead to from a new one. -/
def Reached (w : Network) : Prop :=
  ∀ name n, w.nodes.get? name = some n → ∃ x : Node.Watched, x.Reachable ∧ x.node = n

theorem Reached.leads (h : w.Reached) (hleads : w.Leads w') : w'.Reached := by
  intro name n' hn'
  cases hn : w.nodes.get? name with
  | none => cases (hleads.absent name hn).symm.trans hn'
  | some n =>
    obtain ⟨x, ⟨_, _, _, _, _, _, hrun⟩, hx⟩ := h name n hn
    obtain ⟨n'', hn'', hmore⟩ := hleads.present name n hn
    cases hn'.symm.trans hn''
    obtain ⟨actions, x', hrun', hx'⟩ := hmore x hx
    exact ⟨x', ⟨_, _, _, _, _, _, hrun.trans hrun'⟩, hx'⟩

theorem Reached.install (h : w.Reached) {x : Node.Watched} (hx : x.Reachable) (name : String)
    (peer : Option String) : (w.install name x.node peer).Reached := by
  intro name' n hn
  by_cases heq : name' = name
  · subst heq
    obtain ⟨_, _, _, _, _, _, hrun⟩ := hx
    obtain ⟨actions, x', hrun', hx'⟩ := x.node.leads_rouse [] x rfl
    refine ⟨x', ⟨_, _, _, _, _, _, hrun.trans hrun'⟩, hx'.trans (Option.some.inj ?_)⟩
    rw [← hn]
    exact (Dict.get?_insert_self ..).symm
  · exact h name' n (by simpa [Network.install, setNode, Dict.get?_insert, heq] using hn)

/-! ## Shutting down -/

variable {x : Node.Watched}

theorem Leads.exists_run (h : w.Leads w') (hx : w.nodes.get? name = some x.node) :
    ∃ actions x', x.Run actions x' ∧ w'.nodes.get? name = some x'.node := by
  obtain ⟨n', hn', hleads⟩ := h.present name x.node hx
  obtain ⟨actions, x', hrun, hx'⟩ := hleads x rfl
  exact ⟨actions, x', hrun, by rw [hn', hx']⟩

/-- A node that was changed is watched on in the network. -/
theorem exists_run_of_setNode (w : Network) (name : String) (x : Node.Watched) :
    ∃ actions x', x.Run actions x' ∧ (w.setNode name x.node).nodes.get? name = some x'.node := by
  obtain ⟨actions, x', hrun, hx'⟩ := x.node.leads_rouse [] x rfl
  exact ⟨actions, x', hrun, by rw [hx']; exact Dict.get?_insert_self ..⟩

theorem exists_release (hx : w.nodes.get? name = some x.node) (k : Nat) :
    ∃ x₁ waiting x₂, x.act (.release k) = some x₁ ∧ x₁.Run waiting x₂ ∧
      (release name w k).nodes.get? name = some x₂.node := by
  let x₁ := x.note (.release k) (x.node.release k)
  obtain ⟨actions, x₂, hrun, hx₂⟩ := w.exists_run_of_setNode name x₁
  have hmodified : w.modify name (·.release k) = w.setNode name x₁.node := by
    simp [modify, hx, x₁, Node.Watched.note]
  unfold release
  rw [hmodified]
  dsimp only
  split
  · obtain ⟨more, x₃, hmore, hx₃⟩ := (leads_settle _).exists_run hx₂
    exact ⟨x₁, actions ++ more, x₃, rfl, hrun.trans hmore, hx₃⟩
  · exact ⟨x₁, actions, x₂, rfl, hrun, hx₂⟩

/-- Every worker has ended when the network is at rest again after it was let go of. -/
def AllEnd (name : String) : Network → List Nat → Prop
  | _, [] => True
  | w, k :: ks =>
    (∀ n, (release name w k).nodes.get? name = some n → n.isRunning k = false) ∧
      AllEnd name (release name w k) ks

theorem AllEnd.exists_ends {ks : List Nat} (h : AllEnd name w ks)
    (hx : w.nodes.get? name = some x.node) :
    ∃ actions x', x.Ends ks actions x' ∧
      (ks.foldl (release name) w).nodes.get? name = some x'.node := by
  induction ks generalizing w x with
  | nil => exact ⟨[], x, .nil .nil, hx⟩
  | cons k ks ih =>
    obtain ⟨hended, hrest⟩ := h
    obtain ⟨x₁, waiting, x₂, hrelease, hwaiting, hx₂⟩ := exists_release hx k
    obtain ⟨actions, x', hends, hx'⟩ := ih hrest hx₂
    exact ⟨_, x', .cons .nil hrelease hwaiting (hended _ hx₂) hends, hx'⟩

theorem exists_flush (hx : w.nodes.get? name = some x.node) :
    ∃ x₁ actions x', x.act .flush = some x₁ ∧ x₁.Run actions x' ∧
      (w.flush name).nodes.get? name = some x'.node := by
  let x₁ := x.note .flush { x.node with store := x.node.store.flush.1 }
  unfold flush
  rw [hx]
  dsimp only
  split
  next heq =>
    -- nothing is pending, and the flush changes nothing
    have hsame : x.node.store.flush.1 = x.node.store := by
      unfold Store.flush at heq ⊢
      split at heq
      next hidle => rw [if_pos hidle]
      next => cases heq
    have hnode : x₁.node = x.node := by
      show { x.node with store := x.node.store.flush.1 } = _
      rw [hsame]
    exact ⟨x₁, [], x₁, rfl, .nil, by rw [hx, hnode]⟩
  next store _ heq =>
    obtain ⟨actions, x₂, hrun, hx₂⟩ := w.exists_run_of_setNode name x₁
    have hstore : x₁.node = { x.node with store } := by
      show { x.node with store := x.node.store.flush.1 } = _
      rw [heq]
    rw [hstore] at hx₂
    obtain ⟨more, x₃, hmore, hx₃⟩ := (leads_settle _).exists_run hx₂
    exact ⟨x₁, actions ++ more, x₃, rfl, hrun.trans hmore, hx₃⟩

/-- If everybody whom it waits for comes to an end, a network shuts a node down by what is a call of
shutdown there. -/
theorem exists_shutdown (hx : w.nodes.get? name = some x.node)
    (hends : AllEnd name (w.setNode name x.node.forget.1) x.node.forget.2)
    (hflushed : ∀ n n',
      (x.node.forget.2.foldl (release name) (w.setNode name x.node.forget.1)).nodes.get? name =
          some n →
        (w.shutDown name).nodes.get? name = some n' →
          n'.store.isFlushed n.store.flush.2 = true) :
    ∃ actions x', x.Shutdown actions x' ∧ (w.shutDown name).nodes.get? name = some x'.node := by
  let x₁ := x.note .forget x.node.forget.1
  obtain ⟨actions, x₂, hrun, hx₂⟩ := w.exists_run_of_setNode name x₁
  obtain ⟨ending, x₃, hending, hx₃⟩ := hends.exists_ends hx₂
  obtain ⟨x₄, flushing, x', hflush, hflushing, hx'⟩ := exists_flush hx₃
  have hshut : (w.shutDown name).nodes.get? name = some x'.node := by
    simpa [shutDown, hx] using hx'
  exact ⟨_, x', .intro rfl (hending.prepend hrun) hflush hflushing (hflushed _ _ hx₃ hshut), hshut⟩

end Network

end PeerTrade

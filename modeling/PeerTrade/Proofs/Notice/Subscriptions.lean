import Mathlib.Data.List.Induction
import Mathlib.Order.Bounds.Basic
import PeerTrade.Notice.Board
import PeerTrade.Proofs.Dict

/-!
# What the readers of a board are given

A board is watched while notices are published, readers begin, and each of them reads at its own
pace. What a call gives a reader is said without the reader's position: it is the first notice
that was published since the reader began, that comes after everything the reader was given, that
is among the last ones the board keeps, and that the reader wants. All else follows from that and
from the one thing that the loops keep: what a reader has passed was given to it, or was not for
it, or had been pushed off the board by then.
-/

namespace PeerTrade

/-! ## One board and a list of all that was posted -/

namespace Board

variable {b : Board} {l : List Notice} {s : Subscription}

/-- The board has counted the notices of a list, and keeps the last of them. -/
structure Keeps (b : Board) (l : List Notice) : Prop where
  posted : b.posted = l.length
  kept : b.kept = l.drop (l.length - b.capacity)

theorem keeps_new (c : Nat) : (new c).Keeps [] := ⟨rfl, by simp [new]⟩

theorem Keeps.oldest (h : b.Keeps l) : b.oldest = l.length - b.capacity := by
  simp only [Board.oldest, h.posted, h.kept, List.length_drop]
  omega

theorem Keeps.post (h : b.Keeps l) (n : Notice) : (b.post n).Keeps (l ++ [n]) where
  posted := by simp [Board.post, h.posted]
  kept := by
    have : l.length - b.capacity ≤ l.length := Nat.sub_le _ _
    simp only [Board.post, h.kept, ← List.drop_append_of_le_length this, List.drop_drop,
      List.length_drop, List.length_append, List.length_cons, List.length_nil]
    congr 1
    omega

/-- What one look finds, by the list of all that was posted. -/
inductive Finds (b : Board) (l : List Notice) (s : Subscription) :
    Subscription → Sighting → Prop where
  | lagged (behind : s.position < l.length - b.capacity) :
      Finds b l s { s with position := l.length - b.capacity }
        (.lagged (l.length - b.capacity - s.position))
  | notice {n : Notice} (recent : l.length ≤ s.position + b.capacity)
      (found : l[s.position]? = some n) :
      Finds b l s { s with position := s.position + 1 } (.notice n)
  | empty (done : l.length ≤ s.position) (opened : b.closed = false) : Finds b l s s .empty
  | closed (done : l.length ≤ s.position) (closed : b.closed = true) : Finds b l s s .closed

theorem Keeps.finds (h : b.Keeps l) (s : Subscription) :
    Finds b l s (b.look s).1 (b.look s).2 := by
  simp only [look, h.oldest, h.kept, List.getElem?_drop]
  split
  · exact .lagged ‹_›
  · rename_i hrecent
    rw [show l.length - b.capacity + (s.position - (l.length - b.capacity)) = s.position by omega]
    split
    · exact .notice (by omega) ‹_›
    · have hdone := List.getElem?_eq_none_iff.1 ‹l[s.position]? = none›
      cases hclosed : b.closed
      · exact .empty hdone hclosed
      · exact .closed hdone hclosed

/-- A notice that a reader has not passed, that can still be read, and that the reader wants. -/
structure Awaits (b : Board) (l : List Notice) (s : Subscription) (place : Nat) : Prop where
  ahead : s.position ≤ place
  recent : l.length ≤ place + b.capacity
  wanted : ∃ n, l[place]? = some n ∧ s.wants n

/-- Moving on to the oldest notice that is left passes nothing that could be read. -/
theorem awaits_lagged (h : s.position < l.length - b.capacity) (place : Nat) :
    b.Awaits l { s with position := l.length - b.capacity } place ↔ b.Awaits l s place := by
  constructor <;> rintro ⟨hahead, hrecent, hwanted⟩
  · exact ⟨h.le.trans hahead, hrecent, hwanted⟩
  · refine ⟨?_, hrecent, hwanted⟩
    simp only
    omega

/-- Passing a notice that is not for the reader passes nothing that is. -/
theorem awaits_foreign {n : Notice} (hn : l[s.position]? = some n) (hforeign : ¬ s.wants n)
    (place : Nat) :
    b.Awaits l { s with position := s.position + 1 } place ↔ b.Awaits l s place := by
  constructor <;> rintro ⟨hahead, hrecent, m, hm, hwants⟩
  · exact ⟨Nat.le_of_succ_le hahead, hrecent, m, hm, hwants⟩
  · have hother : place ≠ s.position := by
      rintro rfl
      cases hn.symm.trans hm
      exact hforeign hwants
    exact ⟨lt_of_le_of_ne hahead hother.symm, hrecent, m, hm, hwants⟩

/-- What one call makes of a reader and gives it. -/
inductive Reads (b : Board) (l : List Notice) (s : Subscription) :
    Subscription → Option Notice → Prop where
  | notice {place : Nat} {n : Notice} (first : IsLeast {j | b.Awaits l s j} place)
      (found : l[place]? = some n) :
      Reads b l s { s with position := place + 1 } (some n)
  | nothing (nowhere : ∀ place, ¬ b.Awaits l s place) :
      Reads b l s { s with position := l.length } none

/-- At the end of the board there is nothing to wait for. -/
theorem Reads.of_done (hwithin : s.position ≤ l.length) (hdone : l.length ≤ s.position) :
    b.Reads l s s none := by
  have hnothing : b.Reads l s { s with position := l.length } none := by
    refine .nothing fun place hplace => ?_
    obtain ⟨n, hn, -⟩ := hplace.wanted
    have := (List.getElem?_eq_some_iff.1 hn).1
    have := hplace.ahead
    omega
  rwa [← le_antisymm hwithin hdone] at hnothing

theorem Reads.congr {t s' : Subscription} {answer : Option Notice} (h : b.Reads l t s' answer)
    (hname : t.tradeId = s.tradeId)
    (hsame : ∀ place, b.Awaits l t place ↔ b.Awaits l s place) : b.Reads l s s' answer := by
  obtain ⟨tradeId, position⟩ := s
  subst hname
  cases h with
  | notice first found => exact .notice (by simpa only [hsame] using first) found
  | nothing nowhere => exact .nothing fun place hplace => nowhere place ((hsame place).2 hplace)

/-- The loop over lag reports and notices for others stops at the first notice that the reader
wants among those that can be read, and at the end of the board if there is none. -/
theorem Keeps.reads (h : b.Keeps l) (hwithin : s.position ≤ l.length) :
    b.Reads l s (b.read s).1 (b.read s).2 := by
  fun_induction Board.read b s with
  | case1 s s' n hlook hwants =>
    cases hlook ▸ h.finds s with
    | notice hrecent found =>
      refine .notice ⟨⟨le_rfl, hrecent, n, found, hwants⟩, ?_⟩ found
      exact fun place hplace => hplace.ahead
  | case2 s s' n hlook hforeign ih =>
    cases hlook ▸ h.finds s with
    | notice hrecent found =>
      have hlt : s.position < l.length := (List.getElem?_eq_some_iff.1 found).1
      exact (ih hlt).congr rfl (awaits_foreign found hforeign)
  | case3 s s' missed hlook ih =>
    cases hlook ▸ h.finds s with
    | lagged hlags => exact (ih (Nat.sub_le _ _)).congr rfl (awaits_lagged hlags)
  | case4 s s' hlook =>
    cases hlook ▸ h.finds s with
    | empty hdone => exact .of_done hwithin hdone
  | case5 s s' hlook =>
    cases hlook ▸ h.finds s with
    | closed hdone => exact .of_done hwithin hdone

/-- Waiting goes through the same notices as reading. -/
theorem receive_eq (b : Board) (s : Subscription) :
    b.receive s =
      ((b.read s).1,
        match (b.read s).2 with
        | some n => .notice n
        | none => if b.closed then .closed else .pending) := by
  fun_induction Board.receive b s with
  | case1 s s' n hlook hwants => grind [Board.read]
  | case2 s s' n hlook hforeign ih => grind [Board.read]
  | case3 s s' missed hlook ih => grind [Board.read]
  | case4 s s' hlook =>
    have hclosed : b.closed = false := by grind [look]
    grind [Board.read]
  | case5 s s' hlook =>
    have hclosed : b.closed = true := by grind [look]
    grind [Board.read]

end Board

/-! ## The readers of a board -/

/-- A reader, with the places of the notices that it was given. -/
structure Reader where
  /-- How many notices had been published when the reader began. -/
  since : Nat
  subscription : Subscription
  given : List Nat := []

namespace Reader

/-- The reader asks for its next notice. -/
def tryReceive (x : Reader) (b : Board) : Reader × Option Notice :=
  match b.read x.subscription with
  | (s, some n) => ({ x with subscription := s, given := x.given ++ [s.position - 1] }, some n)
  | (s, none) => ({ x with subscription := s }, none)

/-- The reader asks for its next notice and is ready to wait. -/
def receive (x : Reader) (b : Board) : Reader × Board.Received :=
  match b.receive x.subscription with
  | (s, .notice n) =>
    ({ x with subscription := s, given := x.given ++ [s.position - 1] }, .notice n)
  | (s, answer) => ({ x with subscription := s }, answer)

theorem receive_eq (x : Reader) (b : Board) :
    x.receive b =
      ((x.tryReceive b).1,
        match (x.tryReceive b).2 with
        | some n => .notice n
        | none => if b.closed then .closed else .pending) := by
  simp only [receive, tryReceive, Board.receive_eq]
  grind

end Reader

/-- A board, everything that was ever published on it, and its readers. -/
structure Readership where
  board : Board
  published : List Notice := []
  readers : Dict String Reader := .empty

namespace Readership

/-- What happens at a board. A reader's name is used once. -/
inductive Action where
  | publish (n : Notice)
  | subscribe (name : String) (tradeId : Option String)
  | tryReceive (name : String)
  | receive (name : String)
  | close

/-- Whether an action can matter to a reader: all but what the other readers do. -/
def Action.concerns (name : String) : Action → Bool
  | .publish _ | .close => true
  | .subscribe other _ | .tryReceive other | .receive other => other == name

/-- A reader begins, unless the board is closed or the name is taken. -/
def subscribe (r : Readership) (name : String) (tradeId : Option String) : Readership :=
  if r.board.closed || (r.readers.get? name).isSome then r
  else
    let x : Reader := ⟨r.published.length, r.board.subscribe tradeId, []⟩
    { r with readers := r.readers.insert name x }

def act (r : Readership) : Action → Readership
  | .publish n =>
    if r.board.closed then r
    else { r with board := r.board.post n, published := r.published ++ [n] }
  | .subscribe name tradeId => r.subscribe name tradeId
  | .tryReceive name =>
    match r.readers.get? name with
    | some x => { r with readers := r.readers.insert name (x.tryReceive r.board).1 }
    | none => r
  | .receive name =>
    match r.readers.get? name with
    | some x => { r with readers := r.readers.insert name (x.receive r.board).1 }
    | none => r
  | .close => { r with board := r.board.close }

/-- A new board for so many notices, and what becomes of it. -/
def play (capacity : Nat) (actions : List Action) : Readership :=
  actions.foldl act { board := .new capacity }

variable {r : Readership} {x : Reader} {name : String} {c : Nat} {actions : List Action}

theorem play_concat (c : Nat) (actions : List Action) (a : Action) :
    play c (actions ++ [a]) = (play c actions).act a := by
  simp [play]

/-- Waiting for a notice and asking for one do the same to a reader. -/
theorem act_receive (r : Readership) (name : String) :
    r.act (.receive name) = r.act (.tryReceive name) := by
  simp only [act, Reader.receive_eq]

/-- A notice that is for a reader, by its place among everything that was published. -/
def IsFor (r : Readership) (x : Reader) (place : Nat) : Prop :=
  x.since ≤ place ∧ ∃ n, r.published[place]? = some n ∧ x.subscription.wants n

/-- A notice that a reader must be given some time: it is for the reader, it comes after
everything that the reader was given, and it is among the last that the board keeps. -/
structure Due (r : Readership) (x : Reader) (place : Nat) : Prop where
  isFor : r.IsFor x place
  fresh : ∀ i ∈ x.given, i < place
  recent : r.published.length ≤ place + r.board.capacity

/-- What a call has to give a reader, and what the reader then was given in all. -/
inductive Answers (r : Readership) (x : Reader) : Option Notice → List Nat → Prop where
  | notice {place : Nat} {n : Notice} (first : IsLeast {j | r.Due x j} place)
      (found : r.published[place]? = some n) : Answers r x (some n) (x.given ++ [place])
  | nothing (nowhere : ∀ place, ¬ r.Due x place) : Answers r x none x.given

/-- How a reader stands who has only been given what was for it: whatever it has passed was given
to it, was not for it, or is no longer on the board. -/
structure Sound (r : Readership) (x : Reader) : Prop where
  begun : x.since ≤ x.subscription.position
  within : x.subscription.position ≤ r.published.length
  sorted : x.given.Pairwise (· < ·)
  own : ∀ place ∈ x.given, r.IsFor x place ∧ place < x.subscription.position
  passed : ∀ place, r.IsFor x place → place < x.subscription.position →
    place ∈ x.given ∨ place + r.board.capacity < r.published.length

/-- What is due to a reader is what its position has not passed. -/
theorem Sound.due_iff (h : r.Sound x) (place : Nat) :
    r.Due x place ↔ r.board.Awaits r.published x.subscription place := by
  constructor
  · rintro ⟨hfor, hfresh, hrecent⟩
    refine ⟨?_, hrecent, hfor.2⟩
    by_contra hpassed
    obtain hgiven | hgone := h.passed place hfor (Nat.lt_of_not_le hpassed)
    · exact (hfresh place hgiven).false
    · omega
  · rintro ⟨hahead, hrecent, hwanted⟩
    refine ⟨⟨h.begun.trans hahead, hwanted⟩, fun i hi => ?_, hrecent⟩
    exact (h.own i hi).2.trans_le hahead

/-- A call as the loop makes it. -/
theorem Sound.tryReceive_cases (h : r.Sound x) (hkeeps : r.board.Keeps r.published) :
    (∃ place n, IsLeast {j | r.Due x j} place ∧ r.published[place]? = some n ∧
      x.tryReceive r.board =
        ({ x with subscription := { x.subscription with position := place + 1 },
                  given := x.given ++ [place] }, some n)) ∨
    ((∀ place, ¬ r.Due x place) ∧
      x.tryReceive r.board =
        ({ x with subscription := { x.subscription with position := r.published.length } },
          none)) := by
  have hreads := hkeeps.reads h.within
  rw [Reader.tryReceive]
  generalize r.board.read x.subscription = result at hreads
  obtain ⟨s, answer⟩ := result
  simp only [h.due_iff]
  cases hreads with
  | @notice place n first found => exact .inl ⟨place, n, first, found, by simp⟩
  | nothing nowhere => exact .inr ⟨nowhere, rfl⟩

theorem Sound.answers (h : r.Sound x) (hkeeps : r.board.Keeps r.published) :
    r.Answers x (x.tryReceive r.board).2 (x.tryReceive r.board).1.given := by
  obtain ⟨place, n, hfirst, hfound, hcall⟩ | ⟨hnowhere, hcall⟩ := h.tryReceive_cases hkeeps
  · rw [hcall]
    exact .notice hfirst hfound
  · rw [hcall]
    exact .nothing hnowhere

/-- A call keeps a reader sound: the only places that it passes without giving them to the reader
are those of notices for others and of notices that are gone. -/
theorem Sound.tryReceive (h : r.Sound x) (hkeeps : r.board.Keeps r.published) :
    r.Sound (x.tryReceive r.board).1 := by
  -- between the old position and the new one, what could be read and is for the reader is due
  have hdue {place : Nat} (hfor : r.IsFor x place) (hahead : x.subscription.position ≤ place)
      (hrecent : r.published.length ≤ place + r.board.capacity) : r.Due x place :=
    (h.due_iff place).2 ⟨hahead, hrecent, hfor.2⟩
  obtain ⟨place, n, ⟨hplace, hleast⟩, hfound, hcall⟩ | ⟨hnowhere, hcall⟩ :=
    h.tryReceive_cases hkeeps
  · rw [hcall]
    have hahead : x.subscription.position ≤ place := ((h.due_iff place).1 hplace).ahead
    have hlt : place < r.published.length := (List.getElem?_eq_some_iff.1 hfound).1
    refine ⟨hplace.isFor.1.trans (Nat.le_succ _), hlt, ?_, ?_, ?_⟩
    · exact List.pairwise_append.2
        ⟨h.sorted, List.pairwise_singleton _ _, by simpa using hplace.fresh⟩
    · intro j hj
      obtain hj | rfl := by simpa using hj
      · exact ⟨(h.own j hj).1, (h.own j hj).2.trans_le (hahead.trans (Nat.le_succ _))⟩
      · exact ⟨hplace.isFor, Nat.lt_succ_self _⟩
    · intro j hfor hj
      obtain hpassed | hahead := Nat.lt_or_ge j x.subscription.position
      · exact (h.passed j hfor hpassed).imp_left fun hgiven => List.mem_append_left _ hgiven
      · obtain hgone | hrecent := Nat.lt_or_ge (j + r.board.capacity) r.published.length
        · exact .inr hgone
        · have : place ≤ j := hleast (hdue hfor hahead hrecent)
          obtain rfl : place = j := le_antisymm this (Nat.lt_succ_iff.1 hj)
          exact .inl (by simp)
  · rw [hcall]
    refine ⟨h.begun.trans h.within, le_rfl, h.sorted, fun j hj => ?_, fun j hfor hj => ?_⟩
    · exact ⟨(h.own j hj).1, (h.own j hj).2.trans_le h.within⟩
    · obtain hpassed | hahead := Nat.lt_or_ge j x.subscription.position
      · exact h.passed j hfor hpassed
      · exact .inr (Nat.lt_of_not_le fun hrecent => hnowhere j (hdue hfor hahead hrecent))

theorem since_tryReceive (x : Reader) (b : Board) : (x.tryReceive b).1.since = x.since := by
  simp only [Reader.tryReceive]
  split <;> rfl

theorem Sound.tradeId_tryReceive (h : r.Sound x) (hkeeps : r.board.Keeps r.published) :
    (x.tryReceive r.board).1.subscription.tradeId = x.subscription.tradeId := by
  obtain ⟨place, n, -, -, hcall⟩ | ⟨-, hcall⟩ := h.tryReceive_cases hkeeps <;> rw [hcall]

theorem given_tryReceive (x : Reader) (b : Board) : x.given ⊆ (x.tryReceive b).1.given := by
  simp only [Reader.tryReceive]
  split <;> simp

/-! ## What an action does -/

/-- What has been published stays published, at its place. -/
theorem published_act (r : Readership) (a : Action) : r.published <+: (r.act a).published := by
  cases a <;> simp only [act, subscribe] <;> grind

@[simp] theorem capacity_act (r : Readership) (a : Action) :
    (r.act a).board.capacity = r.board.capacity := by
  cases a <;> simp only [act, subscribe, Board.post, Board.close] <;> grind

theorem keeps_act (h : r.board.Keeps r.published) (a : Action) :
    (r.act a).board.Keeps (r.act a).published := by
  cases a with
  | publish n =>
    simp only [act]
    split
    · exact h
    · exact h.post n
  | subscribe name tradeId => simp only [act, subscribe]; grind
  | tryReceive name => simp only [act]; grind
  | receive name => simp only [act]; grind
  | close => exact ⟨h.posted, h.kept⟩

theorem call_cases {other : String} (hx : (r.act (.tryReceive other)).readers.get? name = some x) :
    r.readers.get? name = some x ∨
      ∃ y, r.readers.get? name = some y ∧ x = (y.tryReceive r.board).1 := by
  simp only [act] at hx
  split at hx
  · rename_i y hy
    rw [Dict.get?_insert] at hx
    split at hx
    · obtain rfl : name = other := Std.LawfulEqOrd.compare_eq_iff_eq.1 ‹_›
      exact .inr ⟨y, hy, (Option.some.inj hx).symm⟩
    · exact .inl hx
  · exact .inl hx

/-- Where a reader comes from: it was there before, or it has just made a call, or it begins. -/
theorem reader_cases {a : Action} (hx : (r.act a).readers.get? name = some x) :
    r.readers.get? name = some x ∨
    (∃ y, r.readers.get? name = some y ∧ x = (y.tryReceive r.board).1) ∨
    ∃ tradeId, a = .subscribe name tradeId ∧ r.board.closed = false ∧
      r.readers.get? name = none ∧ x = ⟨r.published.length, r.board.subscribe tradeId, []⟩ := by
  cases a with
  | publish n =>
    simp only [act] at hx
    split at hx <;> exact .inl hx
  | subscribe other tradeId =>
    simp only [act, subscribe] at hx
    split at hx
    · exact .inl hx
    · rename_i hfree
      rw [Dict.get?_insert] at hx
      split at hx
      · obtain rfl : name = other := Std.LawfulEqOrd.compare_eq_iff_eq.1 ‹_›
        simp only [Bool.or_eq_true, not_or, Bool.not_eq_true, Option.isSome_eq_false_iff,
          Option.isNone_iff_eq_none] at hfree
        exact .inr (.inr ⟨tradeId, rfl, hfree.1, hfree.2, (Option.some.inj hx).symm⟩)
      · exact .inl hx
  | tryReceive other => exact (call_cases hx).imp_right .inl
  | receive other => exact (call_cases (act_receive r other ▸ hx)).imp_right .inl
  | close => exact .inl hx

/-- What was for a reader among the notices it has passed does not change any more. -/
theorem isFor_act {place : Nat} (hlt : place < r.published.length) (a : Action) :
    (r.act a).IsFor x place ↔ r.IsFor x place := by
  obtain ⟨more, hmore⟩ := published_act r a
  simp only [IsFor, ← hmore, List.getElem?_append_left hlt]

theorem Sound.act (h : r.Sound x) (a : Action) : (r.act a).Sound x := by
  have hlength := (published_act r a).length_le
  have hlt {place : Nat} (hpassed : place < x.subscription.position) :
      place < r.published.length := hpassed.trans_le h.within
  refine ⟨h.begun, h.within.trans hlength, h.sorted, fun place hgiven => ?_,
    fun place hfor hpassed => ?_⟩
  · obtain ⟨hfor, hpassed⟩ := h.own place hgiven
    exact ⟨(isFor_act (hlt hpassed) a).2 hfor, hpassed⟩
  · rw [isFor_act (hlt hpassed)] at hfor
    refine (h.passed place hfor hpassed).imp_right fun hgone => ?_
    rw [capacity_act]
    exact hgone.trans_le hlength

theorem sound_begin (hkeeps : r.board.Keeps r.published) (tradeId : Option String) :
    r.Sound ⟨r.published.length, r.board.subscribe tradeId, []⟩ := by
  have hposition : (r.board.subscribe tradeId).position = r.published.length := hkeeps.posted
  refine ⟨hposition.ge, hposition.le, .nil, by simp, fun place hfor hpassed => ?_⟩
  exact absurd (hfor.1.trans_lt hpassed) (by simp [hposition])

/-! ## What a run keeps -/

theorem capacity_play (c : Nat) (actions : List Action) :
    (play c actions).board.capacity = (max c 1).nextPowerOfTwo := by
  induction actions using List.reverseRecOn with
  | nil => rfl
  | append_singleton actions a ih => rw [play_concat, capacity_act, ih]

theorem keeps_play (c : Nat) (actions : List Action) :
    (play c actions).board.Keeps (play c actions).published := by
  induction actions using List.reverseRecOn with
  | nil => exact Board.keeps_new c
  | append_singleton actions a ih => exact play_concat c actions a ▸ keeps_act ih a

theorem closed_play (c : Nat) (actions : List Action) :
    (play c actions).board.closed = true ↔ .close ∈ actions := by
  induction actions using List.reverseRecOn with
  | nil => simp [play, Board.new]
  | append_singleton actions a ih =>
    rw [play_concat, List.mem_append, ← ih]
    cases a <;> simp only [act, subscribe, Board.post, Board.close] <;> grind

theorem sound_of_play (hx : (play c actions).readers.get? name = some x) :
    (play c actions).Sound x := by
  induction actions using List.reverseRecOn generalizing x with
  | nil => simp [play] at hx
  | append_singleton actions a ih =>
    rw [play_concat] at hx ⊢
    refine Sound.act ?_ a
    obtain hx | ⟨y, hy, rfl⟩ | ⟨tradeId, -, -, -, rfl⟩ := reader_cases hx
    · exact ih hx
    · exact (ih hy).tryReceive (keeps_play c actions)
    · exact sound_begin (keeps_play c actions) tradeId

/-- A reader follows what it asked for from the moment it began. -/
theorem begun_of_play (hx : (play c actions).readers.get? name = some x) :
    ∃ before after, actions = before ++ .subscribe name x.subscription.tradeId :: after ∧
      x.since = (play c before).published.length := by
  induction actions using List.reverseRecOn generalizing x with
  | nil => simp [play] at hx
  | append_singleton actions a ih =>
    rw [play_concat] at hx
    obtain hx | ⟨y, hy, rfl⟩ | ⟨tradeId, rfl, -, -, rfl⟩ := reader_cases hx
    · obtain ⟨before, after, rfl, hsince⟩ := ih hx
      exact ⟨before, after ++ [a], by simp, hsince⟩
    · obtain ⟨before, after, hactions, hsince⟩ := ih hy
      refine ⟨before, after ++ [a], ?_, ?_⟩
      · rw [(sound_of_play hy).tradeId_tryReceive (keeps_play c actions), hactions]
        simp
      · rw [since_tryReceive, hsince]
    · exact ⟨actions, [], rfl, rfl⟩

/-- At some moment a notice was gone before the reader had passed it. -/
def Missed (c : Nat) (actions : List Action) (name : String) (place : Nat) : Prop :=
  ∃ before, before <+: actions ∧ ∃ y, (play c before).readers.get? name = some y ∧
    y.subscription.position ≤ place ∧
    place + (play c before).board.capacity < (play c before).published.length

/-- At no moment was a reader behind by more than the board keeps. -/
def KeepsUp (c : Nat) (actions : List Action) (name : String) : Prop :=
  ∀ before, before <+: actions → ∀ y, (play c before).readers.get? name = some y →
    (play c before).published.length ≤
      y.subscription.position + (play c before).board.capacity

theorem Missed.mono {more : List Action} {place : Nat} (h : Missed c actions name place) :
    Missed c (actions ++ more) name place := by
  obtain ⟨before, hbefore, hmissed⟩ := h
  exact ⟨before, hbefore.trans (List.prefix_append _ _), hmissed⟩

/-- Of the notices for it that a reader has passed, it missed all that it was not given. -/
theorem missed_of_passed (hx : (play c actions).readers.get? name = some x) {place : Nat}
    (hfor : (play c actions).IsFor x place) (hpassed : place < x.subscription.position) :
    place ∈ x.given ∨ Missed c actions name place := by
  induction actions using List.reverseRecOn generalizing x with
  | nil => simp [play] at hx
  | append_singleton actions a ih =>
    rw [play_concat] at hx hfor
    obtain hx | ⟨y, hy, rfl⟩ | ⟨tradeId, -, -, -, rfl⟩ := reader_cases hx
    · have hlt := hpassed.trans_le (sound_of_play hx).within
      exact (ih hx ((isFor_act hlt a).1 hfor) hpassed).imp_right Missed.mono
    · have hkeeps := keeps_play c actions
      have hsound := sound_of_play hy
      have hlt := hpassed.trans_le (hsound.tryReceive hkeeps).within
      replace hfor := (isFor_act hlt a).1 hfor
      obtain hbefore | hahead := Nat.lt_or_ge place y.subscription.position
      · have hfor' : (play c actions).IsFor y place := by
          simpa only [IsFor, Subscription.wants, since_tryReceive,
            hsound.tradeId_tryReceive hkeeps] using hfor
        exact (ih hy hfor' hbefore).imp (given_tryReceive _ _ ·) Missed.mono
      · refine ((hsound.tryReceive hkeeps).passed place hfor hpassed).imp_right fun hgone => ?_
        exact ⟨actions, List.prefix_append _ _, y, hy, hahead, hgone⟩
    · have hposition := (keeps_play c actions).posted
      exact absurd (hfor.1.trans_lt hpassed) (by simp [Board.subscribe, hposition])

/-- Every notice that is for a reader was given to it, is due to it, or was missed by it. -/
theorem given_or_due_or_missed (hx : (play c actions).readers.get? name = some x) {place : Nat}
    (hfor : (play c actions).IsFor x place) :
    place ∈ x.given ∨ (play c actions).Due x place ∨ Missed c actions name place := by
  obtain hpassed | hahead := Nat.lt_or_ge place x.subscription.position
  · exact (missed_of_passed hx hfor hpassed).imp_right .inr
  · obtain hgone | hrecent := Nat.lt_or_ge (place + (play c actions).board.capacity)
      (play c actions).published.length
    · exact .inr (.inr ⟨actions, List.prefix_rfl, x, hx, hahead, hgone⟩)
    · exact .inr (.inl (((sound_of_play hx).due_iff place).2 ⟨hahead, hrecent, hfor.2⟩))

/-! ## Readers do not matter to each other -/

/-- Two boards look the same to one reader. -/
structure Alike (name : String) (r r' : Readership) : Prop where
  board : r'.board = r.board
  published : r'.published = r.published
  reader : r'.readers.get? name = r.readers.get? name

theorem Alike.act {r' : Readership} {a : Action} (h : Alike name r r')
    (hconcerns : a.concerns name = true) : Alike name (r.act a) (r'.act a) := by
  obtain ⟨hboard, hpublished, hreader⟩ := h
  have call : Alike name (r.act (.tryReceive name)) (r'.act (.tryReceive name)) := by
    simp only [Readership.act, hreader]
    split
    · exact ⟨hboard, hpublished, by simp [hboard]⟩
    · exact ⟨hboard, hpublished, hreader⟩
  cases a with
  | publish n =>
    simp only [Readership.act, hboard, hpublished]
    split <;> exact ⟨by simp [hboard], by simp [hpublished], hreader⟩
  | subscribe other tradeId =>
    obtain rfl : other = name := by simpa [Action.concerns] using hconcerns
    simp only [Readership.act, subscribe, hboard, hpublished, hreader]
    split
    · exact ⟨hboard, hpublished, hreader⟩
    · exact ⟨rfl, rfl, by simp⟩
  | tryReceive other =>
    obtain rfl : other = name := by simpa [Action.concerns] using hconcerns
    exact call
  | receive other =>
    obtain rfl : other = name := by simpa [Action.concerns] using hconcerns
    rwa [act_receive, act_receive]
  | close => exact ⟨congrArg Board.close hboard, hpublished, hreader⟩

theorem get?_insert_of_other {other : String} (h : (other == name) = false) (y : Reader) :
    (r.readers.insert other y).get? name = r.readers.get? name := by
  have hother : compare name other ≠ .eq := fun heq => by
    simp [Std.LawfulEqOrd.compare_eq_iff_eq.1 heq] at h
  rw [Dict.get?_insert, if_neg hother]

theorem alike_of_other {a : Action} (h : a.concerns name = false) : Alike name (r.act a) r := by
  have call {other : String} (h : (other == name) = false) :
      Alike name (r.act (.tryReceive other)) r := by
    simp only [act]
    split
    · exact ⟨rfl, rfl, (get?_insert_of_other h _).symm⟩
    · exact ⟨rfl, rfl, rfl⟩
  cases a with
  | publish n => cases h
  | subscribe other tradeId =>
    simp only [act, subscribe]
    split
    · exact ⟨rfl, rfl, rfl⟩
    · exact ⟨rfl, rfl, (get?_insert_of_other h _).symm⟩
  | tryReceive other => exact call h
  | receive other => exact act_receive r other ▸ call h
  | close => cases h

theorem Alike.trans {r₁ r₂ r₃ : Readership} (h₁₂ : Alike name r₁ r₂) (h₂₃ : Alike name r₂ r₃) :
    Alike name r₁ r₃ :=
  ⟨h₂₃.board.trans h₁₂.board, h₂₃.published.trans h₁₂.published, h₂₃.reader.trans h₁₂.reader⟩

/-- A reader stands as if it had been the only one all along. -/
theorem alike_play (c : Nat) (actions : List Action) (name : String) :
    Alike name (play c actions) (play c (actions.filter (·.concerns name))) := by
  induction actions using List.reverseRecOn with
  | nil => exact ⟨rfl, rfl, rfl⟩
  | append_singleton actions a ih =>
    rw [List.filter_append, play_concat]
    cases hconcerns : a.concerns name
    · rw [List.filter_cons_of_neg (by simp [hconcerns]), List.filter_nil, List.append_nil]
      exact (alike_of_other hconcerns).trans ih
    · rw [List.filter_cons_of_pos hconcerns, List.filter_nil, play_concat]
      exact ih.act hconcerns

/-! ## What a reader is given -/

/-- A reader at the end of a run. -/
structure Delivers (c : Nat) (actions : List Action) (name : String) (x : Reader) : Prop where
  /-- The board keeps as many notices as were asked for, rounded up to a power of two. -/
  capacity : (play c actions).board.capacity = (max c 1).nextPowerOfTwo
  /-- It is closed once it has been closed. -/
  closed : (play c actions).board.closed = true ↔ .close ∈ actions
  /-- The reader follows what it subscribed to, from then on. -/
  begun : ∃ before after, actions = before ++ .subscribe name x.subscription.tradeId :: after ∧
    x.since = (play c before).published.length
  /-- The next call gives it the first notice that is due, and none exactly if none is due. -/
  tryReceive : (play c actions).Answers x (x.tryReceive (play c actions).board).2
    (x.tryReceive (play c actions).board).1.given
  /-- So does a call that is ready to wait. If nothing is due, it ends only on a closed board. -/
  receive : x.receive (play c actions).board =
    ((x.tryReceive (play c actions).board).1,
      match (x.tryReceive (play c actions).board).2 with
      | some n => .notice n
      | none => if (play c actions).board.closed then .closed else .pending)
  /-- It was given notices in the order of their publication, none of them twice. -/
  sorted : x.given.Pairwise (· < ·)
  /-- All that it was given was for it. -/
  own : ∀ place ∈ x.given, (play c actions).IsFor x place
  /-- The other readers might as well not have been there. -/
  alone : (play c (actions.filter (·.concerns name))).readers.get? name = some x
  /-- It is or will be given all that is for it, but for what was gone before it came to it. -/
  thinned : ∀ place, (play c actions).IsFor x place →
    place ∈ x.given ∨ (play c actions).Due x place ∨ Missed c actions name place
  /-- If it was never behind by more than the capacity, it misses nothing. -/
  complete : KeepsUp c actions name → ∀ place, (play c actions).IsFor x place →
    place ∈ x.given ∨ (play c actions).Due x place

/-- Whatever is published, whoever reads in between, and whenever the board is closed: each call
gives a reader the first notice that is for it, that comes after all it was given, and that is
still kept; and only a reader that falls behind misses anything. -/
theorem delivers (c : Nat) (actions : List Action) (name : String) (x : Reader)
    (hx : (play c actions).readers.get? name = some x) : Delivers c actions name x where
  capacity := capacity_play c actions
  closed := closed_play c actions
  begun := begun_of_play hx
  tryReceive := (sound_of_play hx).answers (keeps_play c actions)
  receive := x.receive_eq _
  sorted := (sound_of_play hx).sorted
  own place hplace := ((sound_of_play hx).own place hplace).1
  alone := (alike_play c actions name).reader.trans hx
  thinned place hfor := given_or_due_or_missed hx hfor
  complete hkeepsUp place hfor := by
    obtain hgiven | hdue | ⟨before, hbefore, y, hy, hahead, hgone⟩ :=
      given_or_due_or_missed hx hfor
    · exact .inl hgiven
    · exact .inr hdue
    · have := hkeepsUp before hbefore y hy
      omega

/-- A board for two notices: the second notice of a trade pushes the first one off, and the notice
of another trade in between is passed over. -/
def overrun : List Action :=
  [.subscribe "slow" (some "a"), .publish ⟨"a", 1, .finalized .init⟩,
    .publish ⟨"b", 1, .finalized .init⟩, .publish ⟨"a", 2, .finalized .init⟩, .tryReceive "slow"]

theorem delivers_overrun : ∃ x, (play 2 overrun).readers.get? "slow" = some x ∧ x.given = [2] ∧
    Delivers 2 overrun "slow" x :=
  ⟨⟨0, ⟨some "a", 3⟩, [2]⟩, by cbv, rfl, delivers _ _ _ _ (by cbv)⟩

end Readership
end PeerTrade

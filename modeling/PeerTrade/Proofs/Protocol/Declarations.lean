import PeerTrade.Proofs.Dict
import PeerTrade.Proofs.Protocol.Draft

/-!
# Declarations one by one

A declaration goes through its states in order and is refused at the first one that has an entry for
its event by then, be it from an earlier declaration or from its own list. The states in front get
the declared transition, and nothing else changes. An entry of the finished table therefore is that
of the first declaration that lists its state in front of the position where it is refused.
-/

namespace PeerTrade.Draft

/-! ## Positions -/

/-- The state at a position has an entry already, or stands earlier in the list. -/
def ClashesAt (table : Table) (event : EventKind) (states : List State) (i : Nat) : Prop :=
  ∃ s, states[i]? = some s ∧ (table.contains ⟨s, event⟩ = true ∨ s ∈ states.take i)

/-- A position is the first that clashes. -/
def RefusedAt (table : Table) (event : EventKind) (states : List State) (i : Nat) : Prop :=
  ClashesAt table event states i ∧ ∀ j < i, ¬ClashesAt table event states j

/-- A state is listed in front of where the declaration is refused, or anywhere if it is not. -/
def InFront (table : Table) (event : EventKind) (states : List State) (s : State) : Prop :=
  ∃ i, states[i]? = some s ∧ ∀ j, RefusedAt table event states j → i < j

section Positions

variable {table : Table} {event : EventKind} {tr : Transition} {states rest : List State}
  {s s' : State}

theorem clashesAt_zero :
    ClashesAt table event (s :: rest) 0 ↔ table.contains ⟨s, event⟩ = true := by
  simp [ClashesAt]

/-- Behind the first state the list goes on as if that state had its entry already. -/
theorem clashesAt_succ (tr : Transition) {i : Nat} :
    ClashesAt table event (s :: rest) (i + 1) ↔
      ClashesAt (table.insert ⟨s, event⟩ tr) event rest i := by
  simp only [ClashesAt, List.getElem?_cons_succ, List.take_succ_cons, List.mem_cons,
    Dict.contains_insert, Bool.or_eq_true, decide_eq_true_eq, Trigger.mk.injEq, and_true]
  refine exists_congr fun x => and_congr_right fun _ => ?_
  rw [or_left_comm, or_assoc]

theorem refusedAt_zero :
    RefusedAt table event (s :: rest) 0 ↔ table.contains ⟨s, event⟩ = true := by
  simp [RefusedAt, clashesAt_zero]

theorem refusedAt_succ (tr : Transition) {i : Nat} :
    RefusedAt table event (s :: rest) (i + 1) ↔ table.contains ⟨s, event⟩ = false ∧
      RefusedAt (table.insert ⟨s, event⟩ tr) event rest i := by
  simp only [RefusedAt, Nat.forall_lt_succ_left, clashesAt_zero, clashesAt_succ tr,
    Bool.not_eq_true]
  exact and_left_comm

theorem inFront_cons (tr : Transition) :
    InFront table event (s :: rest) s' ↔ table.contains ⟨s, event⟩ = false ∧
      (s = s' ∨ InFront (table.insert ⟨s, event⟩ tr) event rest s') := by
  cases hheld : table.contains ⟨s, event⟩ with
  | true =>
    -- the declaration is refused at once
    simp only [InFront, reduceCtorEq, false_and, iff_false, not_exists, not_and]
    exact fun i _ h => absurd (h 0 (refusedAt_zero.2 hheld)) (Nat.not_lt_zero i)
  | false =>
    have hfirst : ∀ i, (∀ j, RefusedAt table event (s :: rest) j → i < j) ↔
        ∀ j, RefusedAt (table.insert ⟨s, event⟩ tr) event rest j → i < j + 1 := by
      intro i
      rw [← Nat.and_forall_add_one]
      simp [refusedAt_zero, refusedAt_succ tr, hheld]
    simp only [InFront, hfirst]
    rw [← Nat.or_exists_add_one]
    simp

/-- A state in front of the refusal had no entry before. -/
theorem InFront.get?_eq_none (h : InFront table event states s) :
    table.get? ⟨s, event⟩ = none := by
  induction states generalizing table with
  | nil =>
    obtain ⟨i, hs, -⟩ := h
    cases hs
  | cons s₀ rest ih =>
    obtain ⟨hfree, rfl | hrest⟩ := (inFront_cons { target := .init }).1 h
    · simpa [Dict.contains] using hfree
    · have hnone := ih hrest
      rw [Dict.get?_insert] at hnone
      split at hnone
      · cases hnone
      · exact hnone

/-! ## One declaration -/

theorem enter_snd_eq_some_iff :
    (enter event tr table states).2 = some s ↔
      ∃ i, states[i]? = some s ∧ RefusedAt table event states i := by
  induction states generalizing table with
  | nil => simp [enter]
  | cons s₀ rest ih =>
    rw [enter, ← Nat.or_exists_add_one]
    cases hheld : table.contains ⟨s₀, event⟩ <;>
      simp [refusedAt_zero, refusedAt_succ tr, hheld, ih]

theorem enter_snd_eq_none_iff :
    (enter event tr table states).2 = none ↔ ∀ i, ¬ClashesAt table event states i := by
  induction states generalizing table with
  | nil => simp [enter, ClashesAt]
  | cons s₀ rest ih =>
    rw [enter, ← Nat.and_forall_add_one]
    cases hheld : table.contains ⟨s₀, event⟩ <;>
      simp [clashesAt_zero, clashesAt_succ tr, hheld, ih]

theorem get?_enter {k : Trigger} {t : Transition} :
    (enter event tr table states).1.get? k = some t ↔ table.get? k = some t ∨
      event = k.event ∧ InFront table event states k.state ∧ t = tr := by
  induction states generalizing table with
  | nil => simp [enter, InFront]
  | cons s₀ rest ih =>
    rw [enter, inFront_cons tr]
    cases hheld : table.contains ⟨s₀, event⟩ with
    | true => simp
    | false =>
      simp only [Bool.false_eq_true, if_false, true_and, ih, Dict.get?_insert,
        Std.LawfulEqOrd.compare_eq_iff_eq]
      by_cases hk : k = ⟨s₀, event⟩
      · subst hk
        have hnone : table.get? ⟨s₀, event⟩ = none := by simpa [Dict.contains] using hheld
        -- the entry is the one that has just been made
        simp only [if_true, Option.some.injEq, true_or, true_and, hnone, reduceCtorEq, false_or]
        exact ⟨fun h => h.elim Eq.symm And.right, fun h => .inl h.symm⟩
      · have hother : event = k.event → s₀ ≠ k.state := by
          rintro rfl rfl
          exact hk rfl
        rw [if_neg hk]
        refine or_congr_right (and_congr_right fun hevent => ?_)
        rw [or_iff_right (hother hevent)]

end Positions

theorem declare_snd (d : Draft) (decl : Declaration) :
    (d.declare decl).2 = (enter decl.event (d.entry decl) d.table decl.states).2.map
      fun s => .conflictingTransition s decl.event := rfl

/-- The guard of the draft is put in front of the declared ones exactly for messages. -/
theorem entry_eq (d : Draft) (decl : Declaration) :
    d.entry decl = { decl.transition with
      guards := if decl.event.isMessage then d.envelope :: decl.transition.guards
        else decl.transition.guards } := by
  unfold entry
  split <;> rfl

theorem get?_declare {d : Draft} {decl : Declaration} {k : Trigger} {t : Transition} :
    (d.declare decl).1.table.get? k = some t ↔ d.table.get? k = some t ∨
      decl.event = k.event ∧ InFront d.table decl.event decl.states k.state ∧
        t = d.entry decl :=
  get?_enter

/-! ## All declarations -/

theorem declareAll_cons (d : Draft) (decl : Declaration) (rest : List Declaration) :
    d.declareAll (decl :: rest) =
      (((d.declare decl).1.declareAll rest).1,
        (d.declare decl).2 :: ((d.declare decl).1.declareAll rest).2) := rfl

theorem declareAll_append (d : Draft) (before after : List Declaration) :
    d.declareAll (before ++ after) =
      (((d.declareAll before).1.declareAll after).1,
        (d.declareAll before).2 ++ ((d.declareAll before).1.declareAll after).2) := by
  induction before generalizing d with
  | nil => rfl
  | cons decl rest ih =>
    rw [List.cons_append, declareAll_cons, declareAll_cons, ih]
    rfl

theorem length_declareAll (d : Draft) (decls : List Declaration) :
    (d.declareAll decls).2.length = decls.length := by
  induction decls generalizing d with
  | nil => rfl
  | cons decl rest ih => exact congrArg (· + 1) (ih _)

theorem entry_declareAll (d : Draft) (decls : List Declaration) (decl : Declaration) :
    (d.declareAll decls).1.entry decl = d.entry decl := by
  induction decls generalizing d with
  | nil => rfl
  | cons decl' rest ih => exact ih (d.declare decl').1

/-- The answer to a declaration among others. -/
theorem answer_eq (d : Draft) (before : List Declaration) (decl : Declaration)
    (after : List Declaration) :
    (d.declareAll (before ++ decl :: after)).2[before.length]? =
      some ((d.declareAll before).1.declare decl).2 := by
  rw [declareAll_append, ← length_declareAll d before]
  simp [declareAll]

/-- An entry has been there from the start, or comes from a declaration that lists its state in
front of the refusal. -/
theorem get?_declareAll {d : Draft} {decls : List Declaration} {k : Trigger} {t : Transition} :
    (d.declareAll decls).1.table.get? k = some t ↔ d.table.get? k = some t ∨
      ∃ before decl after, decls = before ++ decl :: after ∧ decl.event = k.event ∧
        InFront (d.declareAll before).1.table decl.event decl.states k.state ∧
        t = d.entry decl := by
  induction decls generalizing d with
  | nil => simp [declareAll]
  | cons decl rest ih =>
    rw [declareAll_cons, ih, get?_declare, or_assoc]
    refine or_congr_right ?_
    constructor
    · rintro (hfirst | ⟨before, decl', after, rfl, hrest⟩)
      · exact ⟨[], decl, rest, rfl, hfirst⟩
      · exact ⟨decl :: before, decl', after, rfl, hrest⟩
    · rintro ⟨_ | ⟨decl₀, before⟩, decl', after, heq, hrest⟩
      · obtain ⟨rfl, rfl⟩ := List.cons.inj heq
        exact .inl hrest
      · obtain ⟨rfl, rfl⟩ := List.cons.inj heq
        exact .inr ⟨before, decl', after, rfl, hrest⟩

/-- What declarations, refused or not, make of an empty table. One of them is refused exactly if some
state of its list has an entry by then or is repeated, and the error names the first such state.
It adds entries exactly for the states in front of that one, which had none, and changes no others.
So an entry of the finished table is the transition of the first declaration for its event that
lists its state in front of the refusal, behind the guard if the event is a message. -/
theorem declarations_never_overwrite (combination : Combination) (guard : Guard) :
    (∀ before decl after,
      let table := (drafted combination guard before).table
      let answer := (declareAll { combination, envelope := guard }
        (before ++ decl :: after)).2[before.length]?
      (answer = some none ↔ ∀ i, ¬ClashesAt table decl.event decl.states i) ∧
      (∀ error, answer = some (some error) ↔ ∃ i s, decl.states[i]? = some s ∧
        RefusedAt table decl.event decl.states i ∧
        error = .conflictingTransition s decl.event) ∧
      (∀ s, InFront table decl.event decl.states s → table.get? ⟨s, decl.event⟩ = none) ∧
      ∀ k t, (drafted combination guard (before ++ [decl])).table.get? k = some t ↔
        table.get? k = some t ∨ decl.event = k.event ∧
          InFront table decl.event decl.states k.state ∧
          t = { decl.transition with
            guards := if decl.event.isMessage then guard :: decl.transition.guards
              else decl.transition.guards }) ∧
    ∀ decls s event t, (drafted combination guard decls).lookup s event = some t ↔
      ∃ before decl after, decls = before ++ decl :: after ∧ decl.event = event ∧
        InFront (drafted combination guard before).table event decl.states s ∧
        (∀ before' decl' after', before = before' ++ decl' :: after' → decl'.event = event →
          ¬InFront (drafted combination guard before').table event decl'.states s) ∧
        t = { decl.transition with
          guards := if event.isMessage then guard :: decl.transition.guards
            else decl.transition.guards } := by
  let d : Draft := { combination, envelope := guard }
  have hentry : ∀ before decl, (d.declareAll before).1.entry decl = { decl.transition with
      guards := if decl.event.isMessage then guard :: decl.transition.guards
        else decl.transition.guards } := fun before decl => by
    rw [entry_declareAll, entry_eq]
  constructor
  · intro before decl after table answer
    have hanswer : answer = some ((d.declareAll before).1.declare decl).2 := answer_eq ..
    refine ⟨?_, fun error => ?_, fun s => InFront.get?_eq_none, fun k t => ?_⟩
    · rw [hanswer, declare_snd, Option.some_inj, Option.map_eq_none_iff]
      exact enter_snd_eq_none_iff
    · rw [hanswer, declare_snd, Option.some_inj, Option.map_eq_some_iff]
      constructor
      · rintro ⟨s, hs, rfl⟩
        obtain ⟨i, hi, hrefused⟩ := enter_snd_eq_some_iff.1 hs
        exact ⟨i, s, hi, hrefused, rfl⟩
      · rintro ⟨i, s, hi, hrefused, rfl⟩
        exact ⟨s, enter_snd_eq_some_iff.2 ⟨i, hi, hrefused⟩, rfl⟩
    · rw [drafted, declareAll_append, ← hentry before decl]
      exact get?_declare
  · intro decls s event t
    have hlookup : (drafted combination guard decls).lookup s event = some t ↔
        d.table.get? ⟨s, event⟩ = some t ∨ _ := get?_declareAll
    have hempty : d.table.get? ⟨s, event⟩ = none := rfl
    rw [hlookup, hempty]
    simp only [reduceCtorEq, false_or]
    constructor
    · rintro ⟨before, decl, after, rfl, rfl, hfront, rfl⟩
      refine ⟨before, decl, after, rfl, rfl, hfront, ?_, entry_eq d decl⟩
      -- had an earlier declaration listed the state in front, there would be an entry by now
      rintro before' decl' after' rfl hevent hearlier
      have hheld := get?_declareAll (d := d) (k := ⟨s, decl.event⟩) |>.2
        (.inr ⟨before', decl', after', rfl, hevent, hevent ▸ hearlier, rfl⟩)
      exact absurd (hfront.get?_eq_none.symm.trans hheld) (by simp)
    · rintro ⟨before, decl, after, rfl, rfl, hfront, -, rfl⟩
      exact ⟨before, decl, after, rfl, rfl, hfront, (entry_eq d decl).symm⟩

/-- A message is declared for three states, of which the second one has an entry. The first one gets
the new entry, guarded once; the second one keeps its own, and the third one gets none. -/
theorem declaration_stops_in_the_middle :
    let event : EventKind := .message .tradeCancelled
    let taken : Declaration := ⟨[.init], event, { target := .cancelled }⟩
    let next : Declaration := ⟨[.takeOfferSent, .init, .disputed], event, { target := .failed }⟩
    let table := drafted ⟨.buyerAsTaker, .reputationFiat⟩ .envelope [taken, next]
    table.lookup .takeOfferSent event = some { target := .failed, guards := [.envelope] } ∧
      table.lookup .init event = some { target := .cancelled, guards := [.envelope] } ∧
      table.lookup .disputed event = none := by
  intro event taken next table
  obtain ⟨-, hentries⟩ := declarations_never_overwrite ⟨.buyerAsTaker, .reputationFiat⟩ .envelope
  have hnext : table.lookup .takeOfferSent event =
      some { target := .failed, guards := [.envelope] } := by
    refine (hentries [taken, next] _ _ _).2 ⟨[taken], next, [], rfl, rfl,
      (inFront_cons next.transition).2 ⟨rfl, .inl rfl⟩, ?_, rfl⟩
    rintro (_ | ⟨_, _ | _⟩) decl' after' heq - hfront
    · obtain ⟨rfl, -⟩ := List.cons.inj heq
      obtain ⟨-, heq | ⟨i, hi, -⟩⟩ := (inFront_cons next.transition).1 hfront
      · cases heq
      · cases hi
    · cases heq
    · cases heq
  have htaken : table.lookup .init event =
      some { target := .cancelled, guards := [.envelope] } := by
    refine (hentries [taken, next] _ _ _).2 ⟨[], taken, [next], rfl, rfl,
      (inFront_cons taken.transition).2 ⟨rfl, .inl rfl⟩, ?_, rfl⟩
    rintro (_ | _) decl' after' heq <;> cases heq
  exact ⟨hnext, htaken, rfl⟩

end PeerTrade.Draft

import Mathlib.Data.List.Nodup
import PeerTrade.Proofs.Engine.Guards
import PeerTrade.Protocol.Draft

/-!
# What declarations leave in a table

A declaration enters one transition for some of its states, and overwrites nothing. Whatever holds of
the entries of a draft and of the transition that a declaration enters therefore holds of the
entries behind it, whether or not the declaration is refused (`Draft.forall_entries_declare`). In
particular every message of a table has to pass the envelope guard of its draft. Declarations are all
accepted exactly if no two of their transitions meet, and then only the transitions matter, not which
declaration entered them or in what order (`Draft.drafted_eq_of_perm`).
-/

namespace PeerTrade.Draft

variable {P : Trigger × Transition → Prop}

/-! ## Entries -/

theorem forall_entries_enter {event : EventKind} {tr : Transition} {table : Table}
    (htable : ∀ e ∈ table.entries, P e) (hnew : ∀ s, P (⟨s, event⟩, tr)) (states : List State) :
    ∀ e ∈ (enter event tr table states).1.entries, P e := by
  induction states generalizing table with
  | nil => exact htable
  | cons s rest ih =>
    unfold enter
    split
    · -- the declaration ends at a state that has an entry
      exact htable
    · refine ih fun e he => ?_
      rcases Dict.mem_insertEntry he with rfl | he
      · exact hnew s
      · exact htable e he

theorem forall_entries_declare {d : Draft} {decl : Declaration}
    (hd : ∀ e ∈ d.table.entries, P e) (hnew : ∀ s, P (⟨s, decl.event⟩, d.entry decl)) :
    ∀ e ∈ (d.declare decl).1.table.entries, P e :=
  forall_entries_enter hd hnew decl.states

theorem forall_entries_declareAll {d : Draft} {decls : List Declaration}
    (hd : ∀ e ∈ d.table.entries, P e)
    (hnew : ∀ decl ∈ decls, ∀ s, P (⟨s, decl.event⟩, d.entry decl)) :
    ∀ e ∈ (d.declareAll decls).1.table.entries, P e := by
  induction decls generalizing d with
  | nil => exact hd
  | cons decl rest ih =>
    obtain ⟨hfirst, hrest⟩ := List.forall_mem_cons.1 hnew
    -- a declaration leaves the guard of the draft as it is
    exact ih (forall_entries_declare hd hfirst) hrest

/-! ## The envelope guard -/

/-- What is declared for a message comes behind the guard of the draft. -/
theorem envelope_mem_entry (d : Draft) {decl : Declaration} (h : decl.event.isMessage = true) :
    d.envelope ∈ (d.entry decl).guards := by
  rw [entry, if_pos h]
  exact List.mem_cons_self

/-- Whatever is declared, and however much of it is refused, every message has to pass the guard. -/
theorem enveloped_build (combination : Combination) (decls : List Declaration) :
    (declareAll { combination } decls).1.build.Enveloped :=
  forall_entries_declareAll (fun _ he => nomatch he) fun _ _ _ hmessage =>
    envelope_mem_entry { combination } hmessage

/-! ## New entries -/

/-- Entries under different triggers, none of which a table has. -/
def Fresh (table : Table) (new : List (Trigger × Transition)) : Prop :=
  (new.map (·.1)).Nodup ∧ ∀ e ∈ new, table.get? e.1 = none

/-- A table with entries put into it. -/
def fill (table : Table) (new : List (Trigger × Transition)) : Table :=
  new.foldl (fun table e => table.insert e.1 e.2) table

theorem fresh_nil (table : Table) : Fresh table [] := by
  simp [Fresh]

theorem fresh_cons {table : Table} {e : Trigger × Transition} {new : List (Trigger × Transition)} :
    Fresh table (e :: new) ↔ table.get? e.1 = none ∧ Fresh (table.insert e.1 e.2) new := by
  -- a key is free behind an insertion if it was free and is another one
  have hget : ∀ k, (table.insert e.1 e.2).get? k = none ↔ k ≠ e.1 ∧ table.get? k = none := by
    intro k
    by_cases hk : k = e.1 <;> simp [Dict.get?_insert, hk]
  simp only [Fresh, List.map_cons, List.nodup_cons, List.mem_cons, forall_eq_or_imp, hget]
  constructor
  · rintro ⟨⟨hnew, hnodup⟩, hfree, hrest⟩
    refine ⟨hfree, hnodup, fun e' he' => ⟨?_, hrest e' he'⟩⟩
    intro hsame
    exact hnew (hsame ▸ List.mem_map_of_mem he')
  · rintro ⟨hfree, hnodup, hrest⟩
    refine ⟨⟨?_, hnodup⟩, hfree, fun e' he' => (hrest e' he').2⟩
    intro hmem
    obtain ⟨e', he', hsame⟩ := List.mem_map.1 hmem
    exact (hrest e' he').1 hsame

theorem fresh_append {table : Table} {new new' : List (Trigger × Transition)} :
    Fresh table (new ++ new') ↔ Fresh table new ∧ Fresh (fill table new) new' := by
  induction new generalizing table with
  | nil => simp [fresh_nil, fill]
  | cons e rest ih => rw [List.cons_append, fresh_cons, fresh_cons, ih, and_assoc, fill, fill,
      List.foldl_cons]

/-- What is new is found, and so is what was there. -/
theorem get?_fill {table : Table} {new : List (Trigger × Transition)} (h : Fresh table new)
    {k : Trigger} {tr : Transition} :
    (fill table new).get? k = some tr ↔ (k, tr) ∈ new ∨ table.get? k = some tr := by
  induction new generalizing table with
  | nil => simp [fill]
  | cons e rest ih =>
    obtain ⟨hfree, hrest⟩ := fresh_cons.1 h
    rw [fill, List.foldl_cons]
    refine (ih hrest).trans ?_
    rw [List.mem_cons, Dict.get?_insert]
    by_cases hk : k = e.1
    · subst hk
      simp [hfree, Prod.ext_iff, eq_comm, or_comm]
    · have hne : (k, tr) ≠ e := fun heq => hk (congrArg Prod.fst heq)
      simp [hk, hne]

/-- Entries in another order are new together as well, and fill a table alike. -/
theorem fill_eq_of_perm {table : Table} {new new' : List (Trigger × Transition)}
    (h : Fresh table new) (hperm : new.Perm new') :
    Fresh table new' ∧ fill table new' = fill table new := by
  have hfresh : Fresh table new' :=
    ⟨(hperm.map _).nodup_iff.1 h.1, fun e he => h.2 e (hperm.mem_iff.2 he)⟩
  refine ⟨hfresh, Dict.ext_get? fun k => Option.ext fun tr => ?_⟩
  rw [get?_fill h, get?_fill hfresh, hperm.mem_iff]

/-! ## Accepted declarations -/

/-- The entries that declarations ask for. -/
def entered (d : Draft) (decls : List Declaration) : List (Trigger × Transition) :=
  decls.flatMap fun decl => decl.states.map fun state => (⟨state, decl.event⟩, d.entry decl)

theorem entered_cons (d : Draft) (decl : Declaration) (rest : List Declaration) :
    d.entered (decl :: rest) =
      (decl.states.map fun state => (⟨state, decl.event⟩, d.entry decl)) ++ d.entered rest :=
  List.flatMap_cons

/-- None of the declarations is refused. -/
def Accepts (d : Draft) (decls : List Declaration) : Prop :=
  ∀ answer ∈ (d.declareAll decls).2, answer = none

instance (d : Draft) (decls : List Declaration) : Decidable (d.Accepts decls) :=
  inferInstanceAs (Decidable (∀ answer ∈ (d.declareAll decls).2, _))

theorem enter_eq_none_iff {event : EventKind} {tr : Transition} {table : Table}
    {states : List State} :
    (enter event tr table states).2 = none ↔
      Fresh table (states.map fun state => (⟨state, event⟩, tr)) := by
  induction states generalizing table with
  | nil => simp [enter, fresh_nil]
  | cons state rest ih =>
    rw [enter, List.map_cons, fresh_cons, ← ih]
    cases hget : table.get? ⟨state, event⟩ <;> simp [Dict.contains, hget]

theorem enter_fst_eq {event : EventKind} {tr : Transition} {table : Table} {states : List State}
    (h : (enter event tr table states).2 = none) :
    (enter event tr table states).1 =
      fill table (states.map fun state => (⟨state, event⟩, tr)) := by
  induction states generalizing table with
  | nil => rfl
  | cons state rest ih =>
    rw [enter] at h ⊢
    split at h
    · cases h
    next hfree =>
      rw [if_neg hfree]
      exact ih h

theorem accepts_cons {d : Draft} {decl : Declaration} {rest : List Declaration} :
    d.Accepts (decl :: rest) ↔
      (enter decl.event (d.entry decl) d.table decl.states).2 = none ∧
        (d.declare decl).1.Accepts rest := by
  simp [Accepts, declareAll, declare]

/-- Declarations are all accepted exactly if their entries are new. -/
theorem accepts_iff {d : Draft} {decls : List Declaration} :
    d.Accepts decls ↔ Fresh d.table (d.entered decls) := by
  induction decls generalizing d with
  | nil => simp [Accepts, declareAll, entered, fresh_nil]
  | cons decl rest ih =>
    rw [accepts_cons, ih, entered_cons, fresh_append, ← enter_eq_none_iff]
    refine and_congr_right fun haccepted => ?_
    -- a declaration leaves the guard as it is, and with it the entries of all others
    rw [← enter_fst_eq haccepted]
    rfl

theorem declareAll_fst_eq {d : Draft} {decls : List Declaration} (h : d.Accepts decls) :
    (d.declareAll decls).1 = { d with table := fill d.table (d.entered decls) } := by
  induction decls generalizing d with
  | nil => rfl
  | cons decl rest ih =>
    obtain ⟨hdecl, hrest⟩ := accepts_cons.1 h
    have htable : (d.declare decl).1 = { d with
        table := fill d.table (decl.states.map fun state => (⟨state, decl.event⟩, d.entry decl)) } := by
      rw [declare, ← enter_fst_eq hdecl]
    show ((d.declare decl).1.declareAll rest).1 = _
    rw [ih hrest, htable, entered_cons, fill, fill, fill, List.foldl_append]
    rfl

/-- The table that declarations make, with a guard on all messages. -/
def drafted (combination : Combination) (guard : Guard) (decls : List Declaration) : Protocol :=
  (declareAll { combination, envelope := guard } decls).1.build

theorem combination_declareAll (d : Draft) (decls : List Declaration) :
    (d.declareAll decls).1.combination = d.combination := by
  induction decls generalizing d with
  | nil => rfl
  | cons decl rest ih => exact ih (d.declare decl).1

theorem combination_drafted (combination : Combination) (guard : Guard) (decls : List Declaration) :
    (drafted combination guard decls).combination = combination :=
  combination_declareAll _ decls

/-- Of accepted declarations only the entries count, not their order. -/
theorem drafted_eq_of_perm {combination : Combination} {guard : Guard}
    {decls decls' : List Declaration} (h : Accepts { combination, envelope := guard } decls)
    (hperm : (entered { combination, envelope := guard } decls).Perm
      (entered { combination, envelope := guard } decls')) :
    Accepts { combination, envelope := guard } decls' ∧
      drafted combination guard decls' = drafted combination guard decls := by
  obtain ⟨hfresh, hfill⟩ := fill_eq_of_perm (accepts_iff.1 h) hperm
  have haccepts : Accepts { combination, envelope := guard } decls' := accepts_iff.2 hfresh
  refine ⟨haccepts, ?_⟩
  rw [drafted, drafted, declareAll_fst_eq h, declareAll_fst_eq haccepts, hfill]

/-- Declarations in another order ask for the same entries. -/
theorem entered_perm {d : Draft} {decls decls' : List Declaration} (h : decls.Perm decls') :
    (d.entered decls).Perm (d.entered decls') :=
  h.flatMap_right _

/-- One declaration for some states and then for others asks for the entries of a single one. -/
theorem entered_split {d : Draft} {states states' : List State} {event : EventKind}
    {tr : Transition} {rest : List Declaration} :
    d.entered (⟨states ++ states', event, tr⟩ :: rest) =
      d.entered (⟨states, event, tr⟩ :: ⟨states', event, tr⟩ :: rest) := by
  simp [entered, entry]

end PeerTrade.Draft

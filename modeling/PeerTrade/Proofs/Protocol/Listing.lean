import Mathlib.Data.List.Nodup
import PeerTrade.Proofs.Protocol.Draft
import PeerTrade.Proofs.Standard.Tables
import PeerTrade.Proofs.Trade.Restart
import PeerTrade.Protocol.Listing

/-!
# What a listing says

A listing is text for a reader: names, with bars, brackets and words between them. It says all there is
to a table nevertheless, but for the code of guards that are not built in. No name has a character that
can stand behind a name (`Catalog.Legible`), so that each part of a line shows where it ends
(`Delimited`), and two tables with one listing agree in everything that is listed
(`Protocol.listing_eq_iff`). How a table was declared leaves no trace in it: declarations that enter the
same transitions, in whatever order and however they are spread over calls, give one listing.
-/

namespace PeerTrade

/-! ## Texts that show where they end -/

/-- Each text shows where it ends: whatever follows it, the text and the rest can be told apart. -/
def Delimited {α : Type} (write : α → String) : Prop :=
  ∀ a b s t, write a ++ s = write b ++ t → a = b ∧ s = t

/-- A character that names are made of. -/
def isNameChar (c : Char) : Bool := c.isAlpha || c == '-'

/-- A text that does not go on with a name. -/
def Breaks (s : String) : Prop := s.toList.takeWhile isNameChar = []

theorem breaks_append {stop : String} (h : stop.toList.head?.any (fun c => !isNameChar c) = true)
    (rest : String) : Breaks (stop ++ rest) := by
  rw [Breaks, String.toList_append]
  cases hstop : stop.toList with
  | nil => simp [hstop] at h
  | cons c cs =>
    have hc : isNameChar c = false := by simpa [hstop] using h
    simp [hc]

/-- A text that is a name. -/
def IsName (u : String) : Prop := u ≠ "" ∧ ∀ c ∈ u.toList, isNameChar c = true

/-- It is decided by going through the text, and not through all characters there are. -/
instance (s : String) : Decidable (∀ c ∈ s.toList, isNameChar c = true) :=
  List.decidableBAll (fun c => isNameChar c = true) s.toList

instance : DecidablePred IsName := fun u =>
  inferInstanceAs (Decidable (_ ∧ ∀ c ∈ u.toList, isNameChar c = true))

namespace IsName

variable {u v s t : String}

theorem takeWhile_append (h : IsName u) (hs : Breaks s) :
    (u ++ s).toList.takeWhile isNameChar = u.toList := by
  rw [String.toList_append, List.takeWhile_append_of_pos h.2, hs, List.append_nil]

/-- What does not go on with a name does not begin with one either. -/
theorem not_breaks (h : IsName u) (s : String) : ¬Breaks (u ++ s) := by
  intro hbreaks
  rw [Breaks, String.toList_append, List.takeWhile_append_of_pos h.2] at hbreaks
  have hempty : u.toList = [] := (List.append_eq_nil_iff.1 hbreaks).1
  exact h.1 (by simpa using hempty)

/-- A name ends where the text does not go on with a name. -/
theorem append_inj (hu : IsName u) (hv : IsName v) (hs : Breaks s) (ht : Breaks t)
    (heq : u ++ s = v ++ t) : u = v ∧ s = t := by
  obtain rfl : u = v := by
    apply String.toList_inj.1
    rw [← hu.takeWhile_append hs, heq, hv.takeWhile_append ht]
  exact ⟨rfl, (String.append_right_inj _).1 heq⟩

end IsName

namespace Catalog

variable {α : Type} [Catalog α]

/-- Different listed members have different names. -/
def Legible (α : Type) [Catalog α] : Prop :=
  ((all : List α).map name).Nodup ∧ ∀ a ∈ (all : List α), IsName (name a)

instance : Decidable (Legible α) :=
  inferInstanceAs (Decidable (_ ∧ ∀ a ∈ (all : List α), IsName (name a)))

namespace Legible

variable [LawfulCatalog α] {a b : α} {s t : String}

theorem name_injective (h : Legible α) : Function.Injective (name : α → String) :=
  fun a b hname => List.inj_on_of_nodup_map h.1 (mem_all a) (mem_all b) hname

theorem isName (h : Legible α) (a : α) : IsName (name a) := h.2 a (mem_all a)

theorem append_inj (h : Legible α) (hs : Breaks s) (ht : Breaks t)
    (heq : name a ++ s = name b ++ t) : a = b ∧ s = t := by
  obtain ⟨hname, hend⟩ := (h.isName a).append_inj (h.isName b) hs ht heq
  exact ⟨h.name_injective hname, hend⟩

end Legible

/-! ## The names of the protocol -/

theorem legible_role : Legible Role := by decide

theorem legible_settlement : Legible Settlement := by decide

theorem legible_state : Legible State := by decide

theorem legible_guard : Legible Guard := by decide

theorem legible_messageKind : Legible MessageKind := by decide

theorem legible_commandKind : Legible CommandKind := by decide

theorem legible_deadlineKind : Legible DeadlineKind := by decide

theorem legible_payloadSource : Legible PayloadSource := by decide

end Catalog

open Catalog

/-! ## The parts of a line -/

/-- Texts that begin with different characters are different, whatever follows. -/
theorem append_ne_append {u v : String} (h : ∃ c d, u.toList.head? = some c ∧
    v.toList.head? = some d ∧ c ≠ d) (s t : String) : u ++ s ≠ v ++ t := by
  obtain ⟨c, d, hu, hv, hne⟩ := h
  intro heq
  have hheads := congrArg (fun w => w.toList.head?) heq
  simp [String.toList_append, hu, hv] at hheads
  exact hne hheads

theorem EventKind.delimited_listed : Delimited listed := by
  intro a b s t h
  -- the word in front of the brackets tells the source
  cases a with
  | message k =>
    cases b with
    | message k' =>
      simp only [listed, String.append_assoc, String.append_right_inj] at h
      obtain ⟨rfl, hend⟩ := legible_messageKind.append_inj (breaks_append (by decide) _)
        (breaks_append (by decide) _) h
      exact ⟨rfl, (String.append_right_inj _).1 hend⟩
    | timeout _ | command _ =>
      simp only [listed, String.append_assoc] at h
      exact absurd h (append_ne_append (by simp) _ _)
  | timeout k =>
    cases b with
    | timeout k' =>
      simp only [listed, String.append_assoc, String.append_right_inj] at h
      obtain ⟨rfl, hend⟩ := legible_deadlineKind.append_inj (breaks_append (by decide) _)
        (breaks_append (by decide) _) h
      exact ⟨rfl, (String.append_right_inj _).1 hend⟩
    | message _ | command _ =>
      simp only [listed, String.append_assoc] at h
      exact absurd h (append_ne_append (by simp) _ _)
  | command k =>
    cases b with
    | command k' =>
      simp only [listed, String.append_assoc, String.append_right_inj] at h
      obtain ⟨rfl, hend⟩ := legible_commandKind.append_inj (breaks_append (by decide) _)
        (breaks_append (by decide) _) h
      exact ⟨rfl, (String.append_right_inj _).1 hend⟩
    | message _ | timeout _ =>
      simp only [listed, String.append_assoc] at h
      exact absurd h (append_ne_append (by simp) _ _)

theorem Emission.delimited_listed : Delimited listed := by
  rintro ⟨k, source⟩ ⟨k', source'⟩ s t h
  unfold listed at h
  simp only [String.append_assoc, String.append_right_inj] at h
  obtain ⟨rfl, hsource⟩ := legible_messageKind.append_inj (breaks_append (by decide) _)
    (breaks_append (by decide) _) h
  obtain ⟨rfl, hend⟩ := legible_payloadSource.append_inj (breaks_append (by decide) _)
    (breaks_append (by decide) _) ((String.append_right_inj _).1 hsource)
  exact ⟨rfl, (String.append_right_inj _).1 hend⟩

theorem Emission.none_ne_listed (d : Emission) (s t : String) : "None" ++ s ≠ d.listed ++ t := by
  unfold listed
  simp only [String.append_assoc]
  exact append_ne_append (by simp) _ _

theorem Emission.delimited_option :
    Delimited fun send : Option Emission => (send.map listed).getD "None" := by
  intro a b s t h
  cases a with
  | none =>
    cases b with
    | none =>
      simp only [Option.map_none, Option.getD_none, String.append_right_inj] at h
      exact ⟨rfl, h⟩
    | some d => exact absurd h (none_ne_listed d s t)
  | some d =>
    cases b with
    | none => exact absurd h.symm (none_ne_listed d t s)
    | some d' =>
      obtain ⟨rfl, hend⟩ := Emission.delimited_listed d d' s t h
      exact ⟨rfl, hend⟩

namespace Protocol

section Names

variable {us vs : List String} {s t : String}

/-- What stands behind the first of the names in brackets. -/
def namesBehind : List String → String
  | [] => "]"
  | u :: rest => ", " ++ u ++ namesBehind rest

theorem bracketed_nil : Text.bracketed [] = "[" ++ "]" := by
  simp [Text.bracketed]

theorem bracketed_cons (u : String) (rest : List String) :
    Text.bracketed (u :: rest) = "[" ++ u ++ namesBehind rest := by
  have hbehind : ∀ u, String.intercalate ", " (u :: rest) ++ "]" = u ++ namesBehind rest := by
    induction rest with
    | nil => simp [namesBehind]
    | cons v rest ih =>
      intro u
      rw [String.intercalate_cons_cons, String.append_assoc, ih v, namesBehind]
      simp only [String.append_assoc]
  rw [Text.bracketed, String.append_assoc, hbehind u, String.append_assoc]

theorem breaks_namesBehind (us : List String) (s : String) : Breaks (namesBehind us ++ s) := by
  cases us with
  | nil =>
    rw [namesBehind]
    exact breaks_append (by decide) _
  | cons u rest =>
    rw [namesBehind, String.append_assoc, String.append_assoc]
    exact breaks_append (by decide) _

theorem namesBehind_append_inj (hus : ∀ u ∈ us, IsName u) (hvs : ∀ v ∈ vs, IsName v)
    (heq : namesBehind us ++ s = namesBehind vs ++ t) : us = vs ∧ s = t := by
  induction us generalizing vs with
  | nil =>
    cases vs with
    | nil => exact ⟨rfl, (String.append_right_inj _).1 heq⟩
    | cons v vs =>
      simp only [namesBehind, String.append_assoc] at heq
      exact absurd heq (append_ne_append (by simp) _ _)
  | cons u us ih =>
    cases vs with
    | nil =>
      simp only [namesBehind, String.append_assoc] at heq
      exact absurd heq (append_ne_append (by simp) _ _)
    | cons v vs =>
      obtain ⟨hu, hus'⟩ := List.forall_mem_cons.1 hus
      obtain ⟨hv, hvs'⟩ := List.forall_mem_cons.1 hvs
      simp only [namesBehind, String.append_assoc, String.append_right_inj] at heq
      obtain ⟨rfl, hbehind⟩ :=
        hu.append_inj hv (breaks_namesBehind us s) (breaks_namesBehind vs t) heq
      obtain ⟨rfl, hend⟩ := ih hus' hvs' hbehind
      exact ⟨rfl, hend⟩

/-- A comma or the closing bracket ends a name, so that names in brackets can be told apart. -/
theorem bracketed_append_inj (hus : ∀ u ∈ us, IsName u) (hvs : ∀ v ∈ vs, IsName v)
    (heq : Text.bracketed us ++ s = Text.bracketed vs ++ t) : us = vs ∧ s = t := by
  -- the bracket does not close where there is a name
  have hclosed : ∀ (u s t : String), IsName u → "]" ++ s ≠ u ++ t := by
    intro u s t hu heq
    have hbreaks : Breaks ("]" ++ s) := breaks_append (by decide) s
    rw [heq] at hbreaks
    exact hu.not_breaks t hbreaks
  cases us with
  | nil =>
    cases vs with
    | nil => exact ⟨rfl, (String.append_right_inj _).1 heq⟩
    | cons v vs =>
      rw [bracketed_nil, bracketed_cons] at heq
      simp only [String.append_assoc, String.append_right_inj] at heq
      exact absurd heq (hclosed v _ _ (hvs v List.mem_cons_self))
  | cons u us =>
    obtain ⟨hu, hus'⟩ := List.forall_mem_cons.1 hus
    cases vs with
    | nil =>
      rw [bracketed_nil, bracketed_cons] at heq
      simp only [String.append_assoc, String.append_right_inj] at heq
      exact absurd heq.symm (hclosed u _ _ hu)
    | cons v vs =>
      obtain ⟨hv, hvs'⟩ := List.forall_mem_cons.1 hvs
      rw [bracketed_cons, bracketed_cons] at heq
      simp only [String.append_assoc, String.append_right_inj] at heq
      obtain ⟨rfl, hbehind⟩ :=
        hu.append_inj hv (breaks_namesBehind us s) (breaks_namesBehind vs t) heq
      obtain ⟨rfl, hend⟩ := namesBehind_append_inj hus' hvs' hbehind
      exact ⟨rfl, hend⟩

theorem delimited_listedNames {α : Type} [Catalog α] [LawfulCatalog α] (h : Legible α) :
    Delimited (listedNames : List α → String) := by
  have hnames : ∀ as : List α, ∀ u ∈ as.map name, IsName u := by
    intro as u hu
    obtain ⟨a, -, rfl⟩ := List.mem_map.1 hu
    exact h.isName a
  intro as bs s t heq
  obtain ⟨hsame, hend⟩ := bracketed_append_inj (hnames as) (hnames bs) heq
  exact ⟨h.name_injective.list_map hsame, hend⟩

end Names

end Protocol

/-! ## What is listed of a table -/

/-- An entry as it is listed, with the names of its guards. -/
structure Transition.Shown where
  target : State
  guards : List String
  send : Option Emission
  arm : List DeadlineKind
  clear : List DeadlineKind
  deriving DecidableEq

/-- What a listing shows of an entry. -/
def Transition.shown (tr : Transition) : Shown :=
  ⟨tr.target, tr.guards.map name, tr.send, tr.arm, tr.clear⟩

/-- The guards of an entry have names that can be told apart from what stands around them. -/
def Transition.Legible (tr : Transition) : Prop := ∀ g ∈ tr.guards, IsName (name g)

instance : DecidablePred Transition.Legible := fun tr =>
  inferInstanceAs (Decidable (∀ g ∈ tr.guards, IsName (name g)))

/-- Built-in guards are known by their names. -/
theorem Transition.eq_of_shown {tr tr' : Transition} (h : ∀ g ∈ tr.guards, g.BuiltIn)
    (h' : ∀ g ∈ tr'.guards, g.BuiltIn) (hshown : tr.shown = tr'.shown) : tr = tr' := by
  obtain ⟨target, guards, send, arm, clear⟩ := tr
  obtain ⟨target', guards', send', arm', clear'⟩ := tr'
  simp only [shown, Shown.mk.injEq] at hshown
  obtain ⟨rfl, hnames, rfl, rfl, rfl⟩ := hshown
  obtain rfl : guards = guards' := by
    induction guards generalizing guards' with
    | nil => exact (List.map_eq_nil_iff.1 hnames.symm).symm
    | cons g rest ih =>
      obtain ⟨g', rest', rfl, hname, hrest⟩ := List.map_eq_cons_iff.1 hnames.symm
      obtain ⟨hg, hguards⟩ := List.forall_mem_cons.1 h
      obtain ⟨hg', hguards'⟩ := List.forall_mem_cons.1 h'
      rw [List.inj_on_of_nodup_map legible_guard.1 hg hg' hname.symm,
        ih hguards rest' hrest.symm hguards']
  rfl

namespace Protocol

/-- Two tables agree in everything that is listed. -/
structure Agrees (p q : Protocol) : Prop where
  combination : p.combination = q.combination
  initial : p.initial = q.initial
  entries (state : State) (event : EventKind) :
    (p.lookup state event).map Transition.shown = (q.lookup state event).map Transition.shown

theorem Agrees.refl (p : Protocol) : p.Agrees p := ⟨rfl, rfl, fun _ _ => rfl⟩

/-- Tables agree exactly if they have the same heading and list the same entries. -/
theorem agrees_iff {p q : Protocol} :
    p.Agrees q ↔ p.combination = q.combination ∧ p.initial = q.initial ∧
      p.table.map Transition.shown = q.table.map Transition.shown := by
  constructor
  · rintro ⟨hcombination, hinitial, hentries⟩
    refine ⟨hcombination, hinitial, Dict.ext_get? fun trigger => ?_⟩
    rw [Dict.get?_map, Dict.get?_map]
    exact hentries trigger.state trigger.event
  · rintro ⟨hcombination, hinitial, htable⟩
    refine ⟨hcombination, hinitial, fun state event => ?_⟩
    have hget := congrArg (·.get? ⟨state, event⟩) htable
    rwa [Dict.get?_map, Dict.get?_map] at hget

/-- Tables of built-in guards agree only if they are one table. -/
theorem Agrees.eq {p q : Protocol} (h : p.Agrees q) (hp : p.BuiltIn) (hq : q.BuiltIn) : p = q := by
  have htable : p.table = q.table := by
    refine Dict.ext_get? fun trigger => ?_
    have hentry := h.entries trigger.state trigger.event
    simp only [lookup] at hentry
    cases htr : p.table.get? trigger with
    | none =>
      rw [htr] at hentry
      exact (Option.map_eq_none_iff.1 hentry.symm).symm
    | some tr =>
      rw [htr] at hentry
      obtain ⟨tr', htr', hshown⟩ := Option.map_eq_some_iff.1 hentry.symm
      obtain rfl : tr = tr' := Transition.eq_of_shown (hp _ (Dict.get?_eq_some_iff.1 htr))
        (hq _ (Dict.get?_eq_some_iff.1 htr')) hshown.symm
      exact htr'.symm
  obtain ⟨hcombination, hinitial, -⟩ := h
  cases p
  cases q
  simp_all

/-- The guards of a table have names that can be told apart from what stands around them. -/
def Legible (p : Protocol) : Prop := ∀ e ∈ p.table.entries, e.2.Legible

theorem BuiltIn.legible {p : Protocol} (h : p.BuiltIn) : p.Legible :=
  fun e he g hg => legible_guard.2 g (h e he g hg)

/-! ## Lines and listings -/

/-- A line says everything about its entry, but for what stands behind the names of its guards. -/
theorem listedEntry_append_inj {trigger trigger' : Trigger} {tr tr' : Transition} {s t : String}
    (hlegible : tr.Legible) (hlegible' : tr'.Legible)
    (h : listedEntry trigger tr ++ s = listedEntry trigger' tr' ++ t) :
    (trigger, tr.shown) = (trigger', tr'.shown) ∧ s = t := by
  have hnames : ∀ tr : Transition, tr.Legible → ∀ u ∈ tr.guards.map name, IsName u := by
    intro tr hlegible u hu
    obtain ⟨g, hg, rfl⟩ := List.mem_map.1 hu
    exact hlegible g hg
  have hguarded := hnames tr hlegible
  have hguarded' := hnames tr' hlegible'
  obtain ⟨state, event⟩ := trigger
  obtain ⟨state', event'⟩ := trigger'
  simp only [listedEntry, String.append_assoc] at h
  obtain ⟨rfl, hevent⟩ := legible_state.append_inj (breaks_append (by decide) _)
    (breaks_append (by decide) _) h
  obtain ⟨rfl, htarget⟩ := EventKind.delimited_listed _ _ _ _ ((String.append_right_inj _).1 hevent)
  obtain ⟨hto, hguards⟩ := legible_state.append_inj (breaks_append (by decide) _)
    (breaks_append (by decide) _) ((String.append_right_inj _).1 htarget)
  obtain ⟨hchecks, hsend⟩ := bracketed_append_inj hguarded hguarded'
    ((String.append_right_inj _).1 hguards)
  obtain ⟨hemits, harm⟩ := Emission.delimited_option _ _ _ _ ((String.append_right_inj _).1 hsend)
  obtain ⟨harms, hclear⟩ := delimited_listedNames legible_deadlineKind _ _ _ _
    ((String.append_right_inj _).1 harm)
  obtain ⟨hclears, hend⟩ := delimited_listedNames legible_deadlineKind _ _ _ _
    ((String.append_right_inj _).1 hclear)
  refine ⟨?_, (String.append_right_inj _).1 hend⟩
  rw [Transition.shown, Transition.shown, hto, hchecks, hemits, harms, hclears]

theorem listedEntry_ne_empty (trigger : Trigger) (tr : Transition) : listedEntry trigger tr ≠ "" := by
  simp [listedEntry]

theorem listedEntry_congr {trigger : Trigger} {tr tr' : Transition} (h : tr.shown = tr'.shown) :
    listedEntry trigger tr = listedEntry trigger tr' := by
  simp only [Transition.shown, Transition.Shown.mk.injEq] at h
  obtain ⟨htarget, hguards, hsend, harm, hclear⟩ := h
  rw [listedEntry, listedEntry, htarget, listedNames, hguards, hsend, harm, hclear]
  rfl

/-- The lines of two tables are the same exactly if the same is listed in both. -/
theorem join_listedEntry_eq_iff {as bs : List (Trigger × Transition)}
    (has : ∀ e ∈ as, e.2.Legible) (hbs : ∀ e ∈ bs, e.2.Legible) :
    String.join (as.map fun e => listedEntry e.1 e.2) =
        String.join (bs.map fun e => listedEntry e.1 e.2) ↔
      as.map (fun e => (e.1, e.2.shown)) = bs.map fun e => (e.1, e.2.shown) := by
  induction as generalizing bs with
  | nil =>
    cases bs with
    | nil => simp
    | cons b bs => simp [listedEntry_ne_empty b.1 b.2]
  | cons a as ih =>
    cases bs with
    | nil => simp [listedEntry_ne_empty a.1 a.2]
    | cons b bs =>
      obtain ⟨ha, has⟩ := List.forall_mem_cons.1 has
      obtain ⟨hb, hbs⟩ := List.forall_mem_cons.1 hbs
      rw [List.map_cons, List.map_cons, String.join_cons, String.join_cons, List.map_cons,
        List.map_cons, List.cons.injEq, ← ih has hbs]
      constructor
      · exact listedEntry_append_inj ha hb
      · rintro ⟨hline, hrest⟩
        rw [Prod.mk.injEq] at hline
        rw [hline.1, listedEntry_congr hline.2, hrest]

/-- A listing says everything about a table, but for what stands behind the names of its guards. -/
theorem listing_eq_iff {p q : Protocol} (hp : p.Legible) (hq : q.Legible) :
    p.listing = q.listing ↔ p.Agrees q := by
  have hlines := join_listedEntry_eq_iff hp hq
  rw [agrees_iff]
  obtain ⟨⟨role, settlement⟩, initial, ⟨entries, sorted⟩⟩ := p
  obtain ⟨⟨role', settlement'⟩, initial', ⟨entries', sorted'⟩⟩ := q
  constructor
  · intro h
    simp only [listing, String.append_assoc] at h
    -- the heading, then the lines
    obtain ⟨rfl, hsettlement⟩ := legible_role.append_inj (breaks_append (by decide) _)
      (breaks_append (by decide) _) h
    obtain ⟨rfl, hinitial⟩ := legible_settlement.append_inj (breaks_append (by decide) _)
      (breaks_append (by decide) _) ((String.append_right_inj _).1 hsettlement)
    obtain ⟨rfl, hjoined⟩ := legible_state.append_inj (breaks_append (by decide) _)
      (breaks_append (by decide) _) ((String.append_right_inj _).1 hinitial)
    refine ⟨rfl, rfl, ?_⟩
    have hentries := hlines.1 ((String.append_right_inj _).1 hjoined)
    simp only [Dict.map, hentries]
  · rintro ⟨hcombination, rfl, htable⟩
    obtain ⟨rfl, rfl⟩ := Combination.mk.inj hcombination
    rw [listing, listing, hlines.2 (congrArg Dict.entries htable)]

end Protocol

/-- A table is legible if its guard for messages and the guards that are declared are. -/
theorem Draft.legible_drafted (combination : Combination) {guard : Guard} {decls : List Declaration}
    (hguard : IsName (name guard)) (hdecls : ∀ decl ∈ decls, decl.transition.Legible) :
    (drafted combination guard decls).Legible := by
  refine forall_entries_declareAll (fun _ he => nomatch he) fun decl hdecl _ g hg => ?_
  rw [entry] at hg
  split at hg
  · rcases List.mem_cons.1 hg with rfl | hg
    · exact hguard
    · exact hdecls decl hdecl g hg
  · exact hdecls decl hdecl g hg

/-! ## Restoring under the same table -/

/-- A trade can be restored only under a table with its own listing. -/
theorem Trade.Restorable.exists_restore_iff {registry registry' : Registry} {t : Trade}
    (ht : t.Restorable registry) (hlegible : t.protocol.Legible)
    (hlegible' : ∀ q, registry'.lookup t.combination = .ok q → q.Legible)
    (hdigest : ∀ q, registry'.lookup t.combination = .ok q →
      Sha256.digest (Bytes.ofText q.listing) = Sha256.digest (Bytes.ofText t.protocol.listing) →
      q.listing = t.protocol.listing) :
    (∃ t', restore registry' t.toSnapshot = .ok t') ↔
      ∃ q, registry'.lookup t.combination = .ok q ∧ q.Agrees t.protocol := by
  constructor
  · rintro ⟨t', h⟩
    obtain ⟨-, -, q, hlookup, hfingerprint, -⟩ := restore_eq_ok_iff.1 h
    have hlisting : q.listing = t.protocol.listing := by
      apply hdigest q hlookup
      exact Bytes.hex_inj hfingerprint
    exact ⟨q, hlookup, (Protocol.listing_eq_iff (hlegible' q hlookup) hlegible).1 hlisting⟩
  · rintro ⟨q, hlookup, hagrees⟩
    have hlisting := (Protocol.listing_eq_iff (hlegible' q hlookup) hlegible).2 hagrees
    have hfingerprint : q.fingerprint = t.protocol.fingerprint := by
      rw [Protocol.fingerprint, Protocol.fingerprint, hlisting]
    exact ⟨_, restore_eq_ok_iff.2 ⟨ht.id, ht.terms, q, hlookup, hfingerprint, rfl⟩⟩

/-- The listing of a table identifies it. Whatever is declared, under whatever guards for messages, two
listings are equal exactly if the tables have the same combination and for every state and event the
same entry, with guards of the same names; and if the guards are built in, then it is the same table.
Accepted declarations can be put in another order and their states be spread over other declarations,
and still give one fingerprint. And a snapshot of a trade, wherever the trade came from and whatever
happened to it, is restored by a registry exactly if the registry has the trade's own table, as long as
digests of different listings differ. -/
theorem Protocol.listing_identifies_table :
    (∀ (c c' : Combination) (guard guard' : Guard) (decls decls' : List Declaration),
      IsName (name guard) → IsName (name guard') →
      (∀ decl ∈ decls, decl.transition.Legible) → (∀ decl ∈ decls', decl.transition.Legible) →
      ((Draft.drafted c guard decls).listing = (Draft.drafted c' guard' decls').listing ↔
        c = c' ∧ ∀ state event,
          ((Draft.drafted c guard decls).lookup state event).map Transition.shown =
            ((Draft.drafted c' guard' decls').lookup state event).map Transition.shown)) ∧
    (∀ p q : Protocol, p.BuiltIn → q.BuiltIn → (p.listing = q.listing ↔ p = q)) ∧
    (∀ (combination : Combination) (guard : Guard) (decls decls' : List Declaration),
      Draft.Accepts { combination, envelope := guard } decls →
      (Draft.entered { combination, envelope := guard } decls).Perm
        (Draft.entered { combination, envelope := guard } decls') →
      Draft.Accepts { combination, envelope := guard } decls' ∧
        (Draft.drafted combination guard decls').fingerprint =
          (Draft.drafted combination guard decls).fingerprint) ∧
    ∀ (registry registry' : Registry) (e : Engine) (t₀ t : Trade) (stream : Stream),
      t₀.Origin registry → (e.run t₀ stream).1 = t → t.protocol.Legible →
      (∀ q, registry'.lookup t.combination = .ok q → q.Legible) →
      (∀ q, registry'.lookup t.combination = .ok q →
        Sha256.digest (Bytes.ofText q.listing) = Sha256.digest (Bytes.ofText t.protocol.listing) →
        q.listing = t.protocol.listing) →
      ((∃ t', Trade.restore registry' t.toSnapshot = .ok t') ↔
        ∃ q, registry'.lookup t.combination = .ok q ∧ q.Agrees t.protocol) := by
  refine ⟨?_, ?_, ?_, ?_⟩
  · intro c c' guard guard' decls decls' hguard hguard' hdecls hdecls'
    rw [listing_eq_iff (Draft.legible_drafted c hguard hdecls)
      (Draft.legible_drafted c' hguard' hdecls')]
    constructor
    · rintro ⟨hcombination, -, hentries⟩
      rw [Draft.combination_drafted, Draft.combination_drafted] at hcombination
      exact ⟨hcombination, hentries⟩
    · rintro ⟨rfl, hentries⟩
      exact ⟨by rw [Draft.combination_drafted, Draft.combination_drafted], rfl, hentries⟩
  · intro p q hp hq
    rw [listing_eq_iff hp.legible hq.legible]
    exact ⟨fun h => h.eq hp hq, fun h => h ▸ .refl p⟩
  · intro combination guard decls decls' haccepts hperm
    obtain ⟨haccepts', heq⟩ := Draft.drafted_eq_of_perm haccepts hperm
    exact ⟨haccepts', congrArg fingerprint heq⟩
  · rintro registry registry' e t₀ t stream horigin rfl hlegible hlegible' hdigest
    have ht := Engine.restorable_run horigin.restorable e stream
    exact ht.exists_restore_iff hlegible hlegible' hdigest

/-- What a selling maker declares, the other way round and with one declaration in two parts. -/
def scatteredDeclarations : List Declaration :=
  ⟨[.init], .command .cancelTrade, { target := .cancelled, send := some ⟨.tradeCancelled, .empty⟩ }⟩ ::
  ⟨[.takeOfferSent, .awaitingDeposit], .command .cancelTrade,
    { target := .cancelled, send := some ⟨.tradeCancelled, .empty⟩ }⟩ ::
  (Standard.Escrow.sellerDeclarations.filter (·.event != .command .cancelTrade)).reverse

theorem scatteredDeclarations_make_same_table :
    ∃ e : Engine, ∃ t,
      Trade.create e.registry .epoch "trade_1" ⟨.sellerAsMaker, .multisigEscrow⟩ Trade.soundTerms
        ⟨"taker"⟩ = .ok t ∧
      Draft.Accepts { combination := ⟨.sellerAsMaker, .multisigEscrow⟩ }
        Standard.Escrow.sellerDeclarations ∧
      (Draft.drafted ⟨.sellerAsMaker, .multisigEscrow⟩ .envelope scatteredDeclarations).fingerprint =
        Standard.Escrow.sellerAsMaker.fingerprint ∧
      (Draft.drafted ⟨.sellerAsMaker, .multisigEscrow⟩ .envelope scatteredDeclarations).listing ≠
        (Draft.drafted ⟨.sellerAsMaker, .multisigEscrow⟩ (.custom "stranger" 0)
          scatteredDeclarations).listing ∧
      (∃ t', Trade.restore e.registry t.toSnapshot = .ok t') ∧
      ¬∃ t', Trade.restore .empty t.toSnapshot = .ok t' := by
  let e : Engine := { registry := .standard, verifier := { accepts := fun _ _ _ => false } }
  let t : Trade := .initial .epoch "trade_1" ⟨.sellerAsMaker, .multisigEscrow⟩ Trade.soundTerms
    ⟨"taker"⟩ Standard.Escrow.sellerAsMaker
  have hcreate : Trade.create .standard .epoch "trade_1" ⟨.sellerAsMaker, .multisigEscrow⟩
      Trade.soundTerms ⟨"taker"⟩ = .ok t :=
    Trade.create_soundTerms rfl Registry.lookup_multisigEscrow_sellerAsMaker
  have haccepts : Draft.Accepts { combination := ⟨.sellerAsMaker, .multisigEscrow⟩ }
      Standard.Escrow.sellerDeclarations := by decide
  have hperm : (Draft.entered { combination := ⟨.sellerAsMaker, .multisigEscrow⟩ }
      Standard.Escrow.sellerDeclarations).Perm
      (Draft.entered { combination := ⟨.sellerAsMaker, .multisigEscrow⟩ } scatteredDeclarations) := by
    decide
  have hdecls : ∀ decl ∈ scatteredDeclarations, decl.transition.Legible := by decide
  have hlegible : t.protocol.Legible := Protocol.BuiltIn.legible (by decide)
  have hregistered : ∀ q, Registry.standard.lookup t.combination = .ok q → q = t.protocol :=
    fun q hq => Except.ok.inj (hq.symm.trans Registry.lookup_multisigEscrow_sellerAsMaker)
  obtain ⟨hidentifies, -, hrearranged, hrestores⟩ := Protocol.listing_identifies_table
  have hlistings := hidentifies ⟨.sellerAsMaker, .multisigEscrow⟩ ⟨.sellerAsMaker, .multisigEscrow⟩
    .envelope (.custom "stranger" 0) scatteredDeclarations scatteredDeclarations (by decide)
    (by decide) hdecls hdecls
  have hsame := hrestores .standard .standard e t t [] (.created hcreate) rfl hlegible
    (fun q hq => hregistered q hq ▸ hlegible) fun q hq _ => by rw [hregistered q hq]
  have hother := hrestores .standard .empty e t t [] (.created hcreate) rfl hlegible
    (fun _ hq => nomatch hq) fun _ hq => nomatch hq
  refine ⟨e, t, hcreate, haccepts, (hrearranged _ _ _ _ haccepts hperm).2, fun heq => ?_,
    hsame.2 ⟨_, Registry.lookup_multisigEscrow_sellerAsMaker, .refl _⟩, fun hrestored => ?_⟩
  · have hentry := (hlistings.1 heq).2 .init (.message .takeOfferRequest)
    revert hentry
    decide
  · obtain ⟨q, hq, -⟩ := hother.1 hrestored
    cases hq

end PeerTrade

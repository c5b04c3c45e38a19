import Mathlib.Data.List.Induction
import PeerTrade.Engine.Basic

/-!
# Moves of deadlines

A deadline is armed, cleared or expires. Which deadline of a kind is armed after some moves depends
on the last move of that kind alone, and a trade's own bookkeeping follows the moves.
-/

namespace PeerTrade

/-! ## Moves of deadlines -/

/-- Something that happens to the deadlines of a trade. -/
inductive DeadlineMove where
  | armed (id : DeadlineId)
  | cleared (kind : DeadlineKind)
  | expired (id : DeadlineId)
  deriving DecidableEq, Repr

namespace DeadlineMove

/-- The kind of deadline that a move is about. -/
def kind : DeadlineMove → DeadlineKind
  | armed id | expired id => id.kind
  | cleared kind => kind

/-- The deadline that is armed after a move, among those of its kind. -/
def left : DeadlineMove → Option DeadlineId
  | armed id => some id
  | cleared _ | expired _ => none

/-- The armed deadline of a kind after some moves. -/
def liveAfter (k : DeadlineKind) (start : Option DeadlineId) (moves : List DeadlineMove) :
    Option DeadlineId :=
  moves.foldl (fun live m => if m.kind = k then m.left else live) start

@[simp] theorem liveAfter_nil (k : DeadlineKind) (start : Option DeadlineId) :
    liveAfter k start [] = start := rfl

@[simp] theorem liveAfter_cons (k : DeadlineKind) (start : Option DeadlineId) (m : DeadlineMove)
    (moves : List DeadlineMove) :
    liveAfter k start (m :: moves) = liveAfter k (if m.kind = k then m.left else start) moves :=
  rfl

theorem liveAfter_append (k : DeadlineKind) (start : Option DeadlineId)
    (xs ys : List DeadlineMove) :
    liveAfter k start (xs ++ ys) = liveAfter k (liveAfter k start xs) ys :=
  List.foldl_append

theorem liveAfter_of_untouched {k : DeadlineKind} {moves : List DeadlineMove}
    (h : ∀ m ∈ moves, m.kind ≠ k) (start : Option DeadlineId) :
    liveAfter k start moves = start := by
  induction moves with
  | nil => rfl
  | cons m rest ih =>
    have hm : m.kind ≠ k := h m List.mem_cons_self
    rw [liveAfter_cons, if_neg hm]
    exact ih fun m' hm' => h m' (List.mem_cons_of_mem _ hm')

/-- A deadline that is armed after some moves was armed by one of them, or was armed before and none
of them was about its kind. -/
theorem armed_mem_or_untouched {k : DeadlineKind} {start : Option DeadlineId}
    {moves : List DeadlineMove} {id : DeadlineId} (h : liveAfter k start moves = some id) :
    (id.kind = k ∧ armed id ∈ moves) ∨ (start = some id ∧ ∀ m ∈ moves, m.kind ≠ k) := by
  induction moves generalizing start with
  | nil => exact .inr ⟨h, fun m hm => absurd hm List.not_mem_nil⟩
  | cons m rest ih =>
    rw [liveAfter_cons] at h
    rcases ih h with ⟨hid, harmed⟩ | ⟨hstart, huntouched⟩
    · exact .inl ⟨hid, List.mem_cons_of_mem _ harmed⟩
    · split at hstart
      next hk =>
        cases m with
        | armed id' =>
          cases hstart
          exact .inl ⟨hk, List.mem_cons_self⟩
        | cleared _ => cases hstart
        | expired _ => cases hstart
      next hk => exact .inr ⟨hstart, List.forall_mem_cons.2 ⟨hk, huntouched⟩⟩

/-- A deadline is live exactly if arming it was the last move of its kind. -/
theorem liveAfter_none_eq_some_iff {k : DeadlineKind} {moves : List DeadlineMove}
    {id : DeadlineId} :
    liveAfter k none moves = some id ↔
      id.kind = k ∧ ∃ before since, moves = before ++ armed id :: since ∧
        ∀ m ∈ since, m.kind ≠ k := by
  constructor
  · intro h
    -- the last move decides if it is of the kind; otherwise it belongs to the untouched end
    induction moves using List.reverseRecOn with
    | nil => cases h
    | append_singleton rest m ih =>
      rw [liveAfter_append, liveAfter_cons, liveAfter_nil] at h
      split at h
      next hk =>
        cases m with
        | armed id' =>
          cases h
          exact ⟨hk, rest, [], rfl, by simp⟩
        | cleared _ => cases h
        | expired _ => cases h
      next hk =>
        obtain ⟨hid, before, since, rfl, huntouched⟩ := ih h
        refine ⟨hid, before, since ++ [m], by simp, ?_⟩
        intro m' hm'
        rcases List.mem_append.1 hm' with hm' | hm'
        · exact huntouched m' hm'
        · rw [List.mem_singleton.1 hm']
          exact hk
  · rintro ⟨rfl, before, since, rfl, huntouched⟩
    rw [liveAfter_append, liveAfter_cons, liveAfter_of_untouched huntouched]
    exact if_pos rfl

end DeadlineMove

open DeadlineMove

/-- The move of deadlines that an event is. -/
def Event.deadlineMoves : Event → List DeadlineMove
  | .timeout id => [expired id]
  | .inbound _ | .command _ => []

/-- The move of deadlines that an effect is. -/
def Effect.move? : Effect → Option DeadlineMove
  | .arm id _ => some (armed id)
  | .clear kind => some (cleared kind)
  | .send _ => none

/-- The moves of deadlines among some effects. -/
def Effect.moves (effects : List Effect) : List DeadlineMove := effects.filterMap Effect.move?

@[simp] theorem Effect.moves_append (xs ys : List Effect) :
    Effect.moves (xs ++ ys) = Effect.moves xs ++ Effect.moves ys :=
  List.filterMap_append

/-! ## The armed deadlines of a trade -/

namespace Trade

/-- The name of the armed deadline of a kind. -/
def liveId? (t : Trade) (k : DeadlineKind) : Option DeadlineId := (t.deadline? k).map (·.id)

@[simp] theorem liveId?_arm (t : Trade) (d : Deadline) (k : DeadlineKind) :
    (t.arm d).liveId? k = if d.id.kind = k then some d.id else t.liveId? k := by
  by_cases h : d.id.kind = k
  · subst h
    simp [liveId?, deadline?, arm]
  · have hne : k ≠ d.id.kind := fun e => h e.symm
    simp [liveId?, deadline?, arm, Dict.get?_insert, h, hne]

@[simp] theorem liveId?_disarm (t : Trade) (j k : DeadlineKind) :
    (t.disarm j).liveId? k = if j = k then none else t.liveId? k := by
  by_cases h : j = k
  · subst h
    simp [liveId?, deadline?, disarm]
  · have hne : k ≠ j := fun e => h e.symm
    simp [liveId?, deadline?, disarm, Dict.get?_erase, h, hne]

theorem liveId?_of_mem_entries {t : Trade} {k : DeadlineKind} {d : Deadline}
    (h : (k, d) ∈ t.deadlines.entries) : t.liveId? k = some d.id := by
  rw [liveId?, deadline?, Dict.get?_eq_some_iff.2 h]
  rfl

theorem mem_armed_iff {t : Trade} (hkeyed : ∀ k id, t.liveId? k = some id → id.kind = k)
    {id : DeadlineId} : id ∈ t.armed ↔ t.liveId? id.kind = some id := by
  constructor
  · intro hid
    obtain ⟨d, hd, rfl⟩ := List.mem_map.1 hid
    obtain ⟨⟨k, d⟩, hentry, rfl⟩ := List.mem_map.1 hd
    have hlive := liveId?_of_mem_entries hentry
    rwa [← hkeyed k d.id hlive] at hlive
  · intro hlive
    rw [liveId?, deadline?, Option.map_eq_some_iff] at hlive
    obtain ⟨d, hget, rfl⟩ := hlive
    exact List.mem_map.2 ⟨d, List.mem_map.2 ⟨_, Dict.get?_eq_some_iff.1 hget, rfl⟩, rfl⟩

theorem armed_eq_nil {t : Trade} (h : ∀ k, t.liveId? k = none) : t.armed = [] := by
  refine List.map_eq_nil_iff.2 (List.map_eq_nil_iff.2 (List.eq_nil_iff_forall_not_mem.2 ?_))
  rintro ⟨k, d⟩ hentry
  have hlive := liveId?_of_mem_entries hentry
  rw [h k] at hlive
  cases hlive

theorem liveId?_eq_none_of_not_mem_keys {t : Trade} {k : DeadlineKind}
    (h : k ∉ t.deadlines.keys) : t.liveId? k = none := by
  rw [Dict.mem_keys_iff, Dict.contains] at h
  rw [liveId?, deadline?, Option.map_eq_none_iff]
  simpa using h

end Trade

end PeerTrade

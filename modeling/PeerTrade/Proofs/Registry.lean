import PeerTrade.Proofs.Trade.Origin
import PeerTrade.Proofs.Dict

/-!
# Registries only grow

A registry is built up by calls that add a table or mark a combination as having none yet. Whatever
the calls are, and whether or not they are refused, a combination has the table that the first of
them brought for it, and is marked only as long as none has. A trade that could once be created or
restored can therefore be created or restored at any later point, as the same trade.
-/

namespace PeerTrade

namespace Registry

/-! ## Calls -/

/-- A call that builds up a registry. -/
inductive Call where
  | register (p : Protocol)
  | declareUnimplemented (c : Combination)
  deriving DecidableEq

/-- The registry behind a call. -/
def call (r : Registry) : Call → Registry
  | .register p =>
    match r.register p with
    | .ok r => r
    | .error _ => r
  | .declareUnimplemented c => r.declareUnimplemented c

/-- The registry behind a sequence of calls. -/
def callAll (r : Registry) (calls : List Call) : Registry := calls.foldl call r

/-- The tables that calls bring, the refused ones included. -/
def brought : List Call → List Protocol
  | [] => []
  | .register p :: rest => p :: brought rest
  | .declareUnimplemented _ :: rest => brought rest

variable {r r' : Registry} {c : Combination} {p : Protocol}

theorem lookup_eq_ok_iff : r.lookup c = .ok p ↔ r.tables.get? c = some p := by
  unfold lookup
  cases r.tables.get? c <;> simp

/-- A table is refused exactly if its combination has one, and the refusal names the combination. -/
theorem register_eq_error_iff {e : SetupError} :
    r.register p = .error e ↔
      r.tables.contains p.combination = true ∧ e = .duplicateRegistration p.combination := by
  unfold register
  cases r.tables.contains p.combination <;> simp [eq_comm]

theorem call_of_refused {e : SetupError} (h : r.register p = .error e) :
    r.call (.register p) = r := by
  rw [call, h]

/-! ## What one call does -/

theorem get?_call_register (r : Registry) (p : Protocol) (c : Combination) :
    (r.call (.register p)).tables.get? c =
      (r.tables.get? c).or (if p.combination = c then some p else none) := by
  cases hheld : r.tables.contains p.combination with
  | true =>
    rw [call_of_refused (register_eq_error_iff.2 ⟨hheld, rfl⟩)]
    by_cases hc : p.combination = c
    · subst hc
      obtain ⟨q, hq⟩ := Option.isSome_iff_exists.1 hheld
      simp [hq]
    · simp [hc]
  | false =>
    simp only [call, register, hheld, Bool.false_eq_true, if_false, Dict.get?_insert,
      Std.LawfulEqOrd.compare_eq_iff_eq]
    by_cases hc : p.combination = c
    · subst hc
      have hnone : r.tables.get? p.combination = none := by
        simpa [Dict.contains] using hheld
      simp [hnone]
    · simp [hc, Ne.symm hc]

theorem tables_call_declareUnimplemented (r : Registry) (c : Combination) :
    (r.call (.declareUnimplemented c)).tables = r.tables := by
  simp only [call, declareUnimplemented]
  split <;> rfl

/-- No combination is marked that has a table. -/
def Apart (r : Registry) : Prop := ∀ c, r.isUnimplemented c = true → r.tables.contains c = false

theorem isUnimplemented_call (h : r.Apart) (k : Call) (c : Combination) :
    (r.call k).isUnimplemented c = true ↔
      (r.isUnimplemented c = true ∨ k = .declareUnimplemented c) ∧
        (r.call k).tables.contains c = false := by
  cases k with
  | register p =>
    cases hheld : r.tables.contains p.combination with
    | true =>
      rw [call_of_refused (register_eq_error_iff.2 ⟨hheld, rfl⟩)]
      simpa using h c
    | false =>
      -- the new table takes the mark of its combination away
      have hapart := h c
      simp only [call, register, hheld, Bool.false_eq_true, if_false, isUnimplemented,
        Dict.contains_erase, Dict.contains_insert] at hapart ⊢
      by_cases hc : c = p.combination
      · simp [hc]
      · simpa [hc] using hapart
  | declareUnimplemented c' =>
    rw [tables_call_declareUnimplemented]
    simp only [call, declareUnimplemented, Call.declareUnimplemented.injEq]
    cases hheld : r.tables.contains c' with
    | true =>
      by_cases hc : c' = c
      · subst hc
        have hunmarked : r.isUnimplemented c' = false :=
          Bool.eq_false_iff.2 fun hmark => by simp [h c' hmark] at hheld
        simp [hheld, hunmarked]
      · simpa [hc] using h c
    | false =>
      by_cases hc : c' = c
      · subst hc
        simp [hheld, isUnimplemented, Dict.contains_insert]
      · simpa [hc, Ne.symm hc, isUnimplemented, Dict.contains_insert] using h c

theorem Apart.call (h : r.Apart) (k : Call) : (r.call k).Apart := fun c hmark =>
  ((isUnimplemented_call h k c).1 hmark).2

/-! ## What all calls do -/

theorem get?_callAll (calls : List Call) (r : Registry) (c : Combination) :
    (r.callAll calls).tables.get? c =
      (r.tables.get? c).or ((brought calls).find? (·.combination = c)) := by
  induction calls generalizing r with
  | nil => simp [callAll, brought]
  | cons k rest ih =>
    rw [callAll, List.foldl_cons, ← callAll, ih]
    cases k with
    | register p =>
      rw [get?_call_register, Option.or_assoc, brought, List.find?_cons]
      by_cases hc : p.combination = c <;> simp [hc]
    | declareUnimplemented c' => rw [tables_call_declareUnimplemented, brought]

/-- Every table that a registry holds is held by another, too. -/
def Extends (r' r : Registry) : Prop := ∀ c p, r.lookup c = .ok p → r'.lookup c = .ok p

theorem extends_callAll (r : Registry) (calls : List Call) : (r.callAll calls).Extends r := by
  intro c p h
  rw [lookup_eq_ok_iff] at h ⊢
  rw [get?_callAll, h, Option.some_or]

theorem Extends.contains (h : r'.Extends r) (hc : r'.tables.contains c = false) :
    r.tables.contains c = false := by
  refine Bool.eq_false_iff.2 fun hheld => ?_
  obtain ⟨p, hp⟩ := Option.isSome_iff_exists.1 hheld
  have hp' := lookup_eq_ok_iff.1 (h c p (lookup_eq_ok_iff.2 hp))
  simp [Dict.contains, hp'] at hc

theorem isUnimplemented_callAll (calls : List Call) (h : r.Apart) (c : Combination) :
    (r.callAll calls).isUnimplemented c = true ↔
      (r.isUnimplemented c = true ∨ .declareUnimplemented c ∈ calls) ∧
        (r.callAll calls).tables.contains c = false := by
  induction calls generalizing r with
  | nil => simpa [callAll] using h c
  | cons k rest ih =>
    rw [callAll, List.foldl_cons, ← callAll, ih (h.call k), isUnimplemented_call h,
      List.mem_cons, eq_comm (a := k)]
    -- what has no table at the end had none behind the first call
    by_cases hend : ((r.call k).callAll rest).tables.contains c = false
    · simp [hend, (extends_callAll (r.call k) rest).contains hend, or_assoc]
    · simp [hend]

/-! ## Registries from the beginning -/

theorem lookup_callAll_empty (calls : List Call) (c : Combination) (p : Protocol) :
    (empty.callAll calls).lookup c = .ok p ↔
      (brought calls).find? (·.combination = c) = some p := by
  rw [lookup_eq_ok_iff, get?_callAll]
  rfl

theorem isUnimplemented_callAll_empty (calls : List Call) (c : Combination) :
    (empty.callAll calls).isUnimplemented c = true ↔
      .declareUnimplemented c ∈ calls ∧ ∀ p ∈ brought calls, p.combination ≠ c := by
  have hapart : empty.Apart := fun _ _ => rfl
  have hcontains : (empty.callAll calls).tables.contains c =
      ((brought calls).find? (·.combination = c)).isSome := by
    rw [Dict.contains, get?_callAll]
    rfl
  rw [isUnimplemented_callAll calls hapart, hcontains]
  simp [show empty.isUnimplemented c = false from rfl]

/-- The built-in registry is built up by calls. -/
theorem standard_eq_callAll :
    standard = empty.callAll (builtIn.map .register ++
      Standard.Escrow.unimplementedRoles.map (.declareUnimplemented ⟨·, .multisigEscrow⟩)) := by
  have hregister : ∀ (tables : List Protocol) (r : Registry),
      r.registerAll tables = r.callAll (tables.map .register) := by
    intro tables
    induction tables with
    | nil => exact fun _ => rfl
    | cons p rest ih =>
      intro r
      rw [registerAll, List.map_cons, callAll, List.foldl_cons, ← callAll, ← ih, call]
      cases r.register p <;> rfl
  rw [standard, hregister, callAll, callAll, List.foldl_append, List.foldl_map]
  rfl

/-! ## Trades under a registry that has grown -/

variable {now : Instant} {id : String} {terms : Terms} {counterparty : Peer} {t : Trade}

theorem Extends.create (h : r'.Extends r)
    (hcreate : Trade.create r now id c terms counterparty = .ok t) (later : Instant) :
    Trade.create r' later id c terms counterparty =
      .ok { t with createdAt := later, updatedAt := later } := by
  obtain ⟨hid, hverify, p, hlookup, rfl⟩ := Trade.create_eq_ok_iff.1 hcreate
  exact Trade.create_eq_ok_iff.2 ⟨hid, hverify, p, h c p hlookup, rfl⟩

theorem Extends.restore (h : r'.Extends r) {s : Snapshot} (hrestore : Trade.restore r s = .ok t) :
    Trade.restore r' s = .ok t := by
  obtain ⟨hid, hverify, p, hlookup, hfingerprint, ht⟩ := Trade.restore_eq_ok_iff.1 hrestore
  exact Trade.restore_eq_ok_iff.2 ⟨hid, hverify, p, h _ p hlookup, hfingerprint, ht⟩

/-- A registry that calls have built up from the empty one, and what it is after more of them. A
table is refused exactly if its combination has one, and leaves the registry as it is. Tables stand
under their own combinations, which are not marked. A combination has the first table that was
brought for it, now and later. A trade that can be created or restored now can be so later. -/
theorem registry_only_grows (calls more : List Call) :
    (∀ p e, (empty.callAll calls).register p = .error e ↔
      (∃ q, (empty.callAll calls).lookup p.combination = .ok q) ∧
        e = .duplicateRegistration p.combination) ∧
    (∀ p e, (empty.callAll calls).register p = .error e →
      empty.callAll (calls ++ [.register p]) = empty.callAll calls) ∧
    (∀ c p, (empty.callAll calls).lookup c = .ok p →
      p.combination = c ∧ (empty.callAll calls).isUnimplemented c = false) ∧
    (∀ c p, (empty.callAll calls).lookup c = .ok p ↔
      (brought calls).find? (·.combination = c) = some p) ∧
    (empty.callAll (calls ++ more)).Extends (empty.callAll calls) ∧
    (∀ now id c terms counterparty t,
      Trade.create (empty.callAll calls) now id c terms counterparty = .ok t →
      ∀ later, Trade.create (empty.callAll (calls ++ more)) later id c terms counterparty =
        .ok { t with createdAt := later, updatedAt := later }) ∧
    ∀ s t, Trade.restore (empty.callAll calls) s = .ok t →
      Trade.restore (empty.callAll (calls ++ more)) s = .ok t := by
  have happend : ∀ more, empty.callAll (calls ++ more) = (empty.callAll calls).callAll more :=
    fun more => List.foldl_append
  have hextends : (empty.callAll (calls ++ more)).Extends (empty.callAll calls) := by
    rw [happend]
    exact extends_callAll _ more
  refine ⟨fun p e => ?_, fun p e hrefused => ?_, fun c p hlookup => ?_,
    lookup_callAll_empty calls, hextends, fun _ _ _ _ _ _ => hextends.create,
    fun _ _ => hextends.restore⟩
  · simp only [register_eq_error_iff, lookup_eq_ok_iff, Dict.contains, Option.isSome_iff_exists]
  · rw [happend]
    exact call_of_refused hrefused
  · have hfirst := (lookup_callAll_empty calls c p).1 hlookup
    have hcombination : p.combination = c := by simpa using List.find?_some hfirst
    refine ⟨hcombination, Bool.eq_false_iff.2 fun hmark => ?_⟩
    obtain ⟨-, hnone⟩ := (isUnimplemented_callAll_empty calls c).1 hmark
    exact hnone p (List.mem_of_find?_eq_some hfirst) hcombination

/-- Neither a mark nor another table for the combination keeps a trade from being created and
restored as before. -/
theorem trade_outlasts_calls :
    let p := Standard.Escrow.buyerAsTaker
    let more := [.declareUnimplemented p.combination, .register { p with initial := .failed }]
    ∃ t, Trade.create (empty.callAll [.register p]) .epoch "trade_1" p.combination
        Trade.soundTerms ⟨"maker"⟩ = .ok t ∧
      Trade.create (empty.callAll (.register p :: more)) .epoch "trade_1" p.combination
        Trade.soundTerms ⟨"maker"⟩ = .ok t ∧
      Trade.restore (empty.callAll (.register p :: more)) t.toSnapshot = .ok t := by
  intro p more
  have hlookup : (empty.callAll [.register p]).lookup p.combination = .ok p := rfl
  obtain ⟨-, -, -, -, -, hcreate, hrestore⟩ := registry_only_grows [.register p] more
  have hcreated : Trade.create (empty.callAll [.register p]) .epoch "trade_1" p.combination
      Trade.soundTerms ⟨"maker"⟩ =
        .ok (.initial .epoch "trade_1" p.combination Trade.soundTerms ⟨"maker"⟩ p) :=
    Trade.create_soundTerms rfl hlookup
  refine ⟨_, hcreated, hcreate _ _ _ _ _ _ hcreated .epoch, hrestore _ _ ?_⟩
  exact Trade.restore_eq_ok_iff.2 ⟨rfl, Trade.verify_soundTerms, p, hlookup, rfl, rfl⟩

end Registry

end PeerTrade

import PeerTrade.Proofs.Cbor.Item

/-!
# Reading back records and choices

A record is taken back field by field: `ReadsFields` relates what has been read in front of some
fields to what has been read behind them. Fields at the end that have no value may be left out,
since reading them would not have changed anything.
-/

namespace PeerTrade.Cbor

variable {α β γ σ : Type}

/-! ## Records -/

/-- Reading fields, from the `i`-th on, leads from one state to another. -/
inductive ReadsFields (field : Nat → σ → Reader σ) :
    (i : Nat) → σ → List (Option Bytes) → σ → Prop where
  | nil (i : Nat) (s : σ) : ReadsFields field i s [] s
  | cons {i : Nat} {s s' s'' : σ} {part : Option Bytes} {parts : List (Option Bytes)} :
      Reads (field i s) (part.getD null) s' → (part = none → s' = s) →
      ReadsFields field (i + 1) s' parts s'' → ReadsFields field i s (part :: parts) s''

variable {field : Nat → σ → Reader σ} {i : Nat} {s s' s'' : σ} {parts : List (Option Bytes)}

theorem ReadsFields.set {b : Bytes} (h : Reads (field i s) b s')
    (hrest : ReadsFields field (i + 1) s' parts s'') :
    ReadsFields field i s (some b :: parts) s'' :=
  .cons h (by simp) hrest

theorem dropUnset_cons (part : Option Bytes) (rest : List (Option Bytes)) :
    dropUnset (part :: rest) =
      if dropUnset rest = [] ∧ part = none then [] else part :: dropUnset rest := by
  cases part with
  | none => cases h : dropUnset rest <;> simp [dropUnset, h]
  | some b => simp [dropUnset]

theorem ReadsFields.note {read : Reader α} {f : α → σ} {b : Bytes} {a : α}
    (hfield : field i s = read >>= fun a => pure (f a)) (h : Reads read b a)
    (hrest : ReadsFields field (i + 1) (f a) parts s'') :
    ReadsFields field i s (some b :: parts) s'' := by
  refine .set ?_ hrest
  rw [hfield]
  exact h.bind_nil (reads_pure _)

/-- Fields that are left out at the end would not have changed anything. -/
theorem ReadsFields.dropUnset (h : ReadsFields field i s parts s') :
    ReadsFields field i s (dropUnset parts) s' := by
  induction h with
  | nil i s => exact .nil i s
  | @cons i s s' s'' part parts hread hunset hrest ih =>
    rw [dropUnset_cons]
    split
    next hdrop =>
      -- nothing is left of the fields behind, so they did not change anything either
      rw [hdrop.1] at ih
      cases ih
      rw [hunset hdrop.2]
      exact .nil i s
    next => exact .cons hread hunset ih

theorem ReadsFields.reads_fields (h : ReadsFields field i s parts s') :
    Reads (fields field parts.length i s) (parts.flatMap (·.getD null)) s' := by
  induction h with
  | nil i s => exact reads_pure s
  | cons hread hunset hrest ih => exact hread.bind ih

theorem length_dropUnset_le (parts : List (Option Bytes)) :
    (dropUnset parts).length ≤ parts.length := by
  induction parts with
  | nil => exact Nat.le_refl 0
  | cons part rest ih =>
    rw [dropUnset_cons]
    split
    · exact Nat.zero_le _
    · rw [List.length_cons, List.length_cons]
      exact Nat.succ_le_succ ih

theorem ReadsFields.reads_record (hparts : parts.length < 2 ^ 64)
    (h : ReadsFields field 0 s parts s') : Reads (record field s) (ofFields parts) s' := by
  -- the head announces only what is left after dropping
  have hlength : (Cbor.dropUnset parts).length < 2 ^ 64 :=
    Nat.lt_of_le_of_lt (length_dropUnset_le parts) hparts
  exact (reads_sizeHead (by decide) hlength).bind h.dropUnset.reads_fields

theorem dropUnset_map_some (values : List Bytes) :
    dropUnset (values.map some) = values.map some := by
  induction values with
  | nil => rfl
  | cons b rest ih =>
    rw [List.map_cons, dropUnset_cons, ih, if_neg (by simp)]

theorem ofFields_map_some (values : List Bytes) : ofFields (values.map some) = ofRecord values := by
  rw [ofFields, dropUnset_map_some, ofList, ofRecord, List.length_map, List.flatMap_map]
  simp [List.flatMap_def]

theorem ReadsFields.reads_ofRecord (values : List Bytes) (hvalues : values.length < 2 ^ 64)
    (h : ReadsFields field 0 s (values.map some) s') :
    Reads (record field s) (ofRecord values) s' := by
  rw [← ofFields_map_some]
  exact h.reads_record (by rwa [List.length_map])

theorem present_ofFields (hparts : parts.length < 2 ^ 64) : Present (ofFields parts) :=
  present_head (.inr rfl) (Nat.lt_of_le_of_lt (length_dropUnset_le parts) hparts) _

/-! ## Fields that may be missing -/

theorem reads_optional {read : Reader α} {write : α → Bytes} (o : Option α)
    (h : ∀ a, o = some a → Present (write a) ∧ Reads read (write a) a) :
    Reads (optional read) ((o.map write).getD null) o := by
  have hoption : Reads (option read) ((o.map write).getD null) o := by
    cases o with
    | none => exact reads_option_null read
    | some a =>
      obtain ⟨hpresent, hread⟩ := h a rfl
      exact reads_option_some hpresent hread
  intro rest
  rw [optional, hoption rest]

theorem ReadsFields.maybe {read : Reader α} {write : α → Bytes} {o : Option α}
    {f : Option α → σ} (hfield : field i s = optional read >>= fun o => pure (f o))
    (hunset : f none = s) (h : ∀ a, o = some a → Present (write a) ∧ Reads read (write a) a)
    (hrest : ReadsFields field (i + 1) (f o) parts s'') :
    ReadsFields field i s (o.map write :: parts) s'' := by
  refine .cons ?_ (fun hnone => ?_) hrest
  · rw [hfield]
    exact (reads_optional o h).bind_nil (reads_pure _)
  · rw [Option.map_eq_none_iff.1 hnone, hunset]

/-! ## Choices -/

theorem reads_require (a : α) : Reads (require (some a)) [] a := reads_pure a

theorem reads_choice {form : Nat → Option (Reader α)} {n : Nat} {read : Reader α}
    {values : List Bytes} {a : α} (hn : n < 2 ^ 63) (hform : form n = some read)
    (h : Reads read (ofRecord values) a) : Reads (choice form) (ofForm n values) a := by
  rw [ofForm, List.append_assoc]
  apply (reads_sizeHead (by decide) (by decide)).bind
  apply (reads_signedInt_ofNat 64 (by omega) hn).bind
  simp only [hform]
  exact h

theorem present_ofForm (n : Nat) (values : List Bytes) : Present (ofForm n values) := by
  rw [ofForm, List.append_assoc]
  exact present_head (.inr rfl) (by decide) _

theorem reads_emptyForm (a : α) : Reads (emptyForm a) (ofRecord []) a := by
  intro rest
  rfl

theorem reads_form₁ {read : Reader β} {b : Bytes} {v : β} (make : β → α) (h : Reads read b v) :
    Reads (form₁ read make) (ofRecord [b]) (make v) := by
  have hfields : ReadsFields (fun i s => if i = 0 then some <$> read else unknownField s) 0 none
      [some b] (some v) := .set (h.map some) (.nil 1 _)
  apply (ReadsFields.reads_ofRecord [b] (by simp) hfields).bind_nil
  exact (reads_require v).map make

theorem reads_form₂ {first : Reader β} {second : Reader γ} {b b' : Bytes} {v : β} {v' : γ}
    (make : β → γ → α) (h : Reads first b v) (h' : Reads second b' v') :
    Reads (form₂ first second make) (ofRecord [b, b']) (make v v') := by
  refine (ReadsFields.reads_ofRecord [b, b'] (by simp)
    (.note (f := fun v => (some v, none)) rfl h
      (.note (f := fun v' => (some v, some v')) rfl h' (.nil 2 _)))).bind_nil ?_
  exact (reads_require v).bind_nil ((reads_require v').bind_nil (reads_pure _))

theorem reads_member [Catalog α] [LawfulCatalog α] (hall : (Catalog.all : List α).length < 2 ^ 63) (a : α) :
    Reads member (ofMember a) a := by
  have hindex : Catalog.index a < 2 ^ 63 := Nat.lt_trans (Catalog.index_lt a) hall
  refine reads_choice hindex ?_ (reads_emptyForm a)
  rw [Catalog.ofIndex?_index]
  rfl

end PeerTrade.Cbor

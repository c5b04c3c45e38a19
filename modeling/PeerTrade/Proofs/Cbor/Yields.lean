import Mathlib.Data.List.Induction
import PeerTrade.Cbor.Record
import PeerTrade.Proofs.Wire.Terms

/-!
# What readers yield

Whatever bytes a reader is given, the values that it accepts are such as can be written again: a text
has a length that a head can announce, and so has a list. `Yields` says so of a reader together with
the fact that it never leaves more than it was given, be it behind a value or behind a form that it
does not know; there is a lemma for each way of putting readers together.
-/

namespace PeerTrade

theorem Bytes.toNat_concat (b : Bytes) (d : UInt8) : toNat (b ++ [d]) = toNat b * 256 + d.toNat := by
  simp [toNat]

theorem Bytes.toNat_lt (b : Bytes) : toNat b < 256 ^ b.length := by
  induction b using List.reverseRecOn with
  | nil => decide
  | append_singleton b d ih =>
    have hd : d.toNat < 256 := d.toNat_lt
    rw [toNat_concat, List.length_append, List.length_singleton, Nat.pow_succ]
    omega

namespace Cbor

variable {α β γ σ : Type}

/-! ## Results -/

/-- A result with a property, that leaves no more than some number of bytes. -/
def Within (n : Nat) (P : α → Prop) : Except Fault (α × Bytes) → Prop
  | .ok (a, rest) => P a ∧ rest.length ≤ n
  | .error (.unknownVariant rest) => rest.length ≤ n
  | .error _ => True

/-- From an input that fits into a machine, a reader only takes values with a property. -/
def Yields (read : Reader α) (P : α → Prop) : Prop :=
  ∀ input : Bytes, input.length < 2 ^ 64 → Within input.length P (read input)

variable {n m : Nat} {P P' : α → Prop} {Q : β → Prop} {R : γ → Prop} {I : σ → Prop}
  {read : Reader α}

theorem Within.mono {x : Except Fault (α × Bytes)} (h : Within n P x) (hle : n ≤ m)
    (himp : ∀ a, P a → P' a) : Within m P' x := by
  cases x with
  | ok p => exact ⟨himp _ h.1, Nat.le_trans h.2 hle⟩
  | error fault =>
    cases fault with
    | unknownVariant rest => exact Nat.le_trans h hle
    | _ => trivial

theorem Within.bind {x : Except Fault (α × Bytes)} {f : α × Bytes → Except Fault (β × Bytes)}
    (h : Within n P x) (hf : ∀ a rest, P a → rest.length ≤ n → Within n Q (f (a, rest))) :
    Within n Q (x >>= f) := by
  cases x with
  | ok p => exact hf p.1 p.2 h.1 h.2
  | error fault =>
    cases fault with
    | unknownVariant rest => exact h
    | _ => trivial

theorem Yields.mono (h : Yields read P) (himp : ∀ a, P a → P' a) : Yields read P' :=
  fun input hinput => (h input hinput).mono (Nat.le_refl _) himp

theorem yields_pure {a : α} (ha : P a) : Yields (pure a) P :=
  fun _ _ => ⟨ha, Nat.le_refl _⟩

theorem Yields.bind {f : α → Reader β} (h : Yields read P) (hf : ∀ a, P a → Yields (f a) Q) :
    Yields (read >>= f) Q := by
  intro input hinput
  refine (h input hinput).bind fun a rest ha hrest => ?_
  exact (hf a ha rest (by omega)).mono hrest fun _ hb => hb

theorem Yields.map {f : α → β} (h : Yields read P) (hf : ∀ a, P a → Q (f a)) :
    Yields (f <$> read) Q :=
  h.bind fun a ha => yields_pure (hf a ha)

theorem Yields.ite {p : Prop} [Decidable p] {read' : Reader α} (h : p → Yields read P)
    (h' : ¬p → Yields read' P) : Yields (if p then read else read') P := by
  split
  next hp => exact h hp
  next hp => exact h' hp

/-! ## Bytes and heads -/

theorem yields_byte : Yields byte fun _ => True := by
  intro input _
  cases input with
  | nil => trivial
  | cons b rest => exact ⟨trivial, Nat.le_succ _⟩

theorem yields_peek : Yields peek fun _ => True := by
  intro input _
  cases input with
  | nil => trivial
  | cons b rest =>
    rw [peek]
    split
    · trivial
    · exact ⟨trivial, Nat.le_refl _⟩

theorem yields_mismatch (b : UInt8) : Yields (mismatch b) P := by
  intro input _
  rw [mismatch]
  split <;> trivial

theorem yields_take (n : Nat) : Yields (take n) fun b => b.length = n := by
  intro input _
  rw [take]
  split
  next hn => exact ⟨List.length_take_of_le hn, by simp⟩
  next => trivial

theorem yields_wide {width : Nat} (hwidth : width ≤ 8) :
    Yields (Bytes.toNat <$> take width) fun n => n < 2 ^ 64 := by
  refine (yields_take width).map fun b hb => ?_
  have hpow : 256 ^ width ≤ 256 ^ 8 := Nat.pow_le_pow_right (by decide) hwidth
  have hlt := b.toNat_lt
  rw [hb] at hlt
  omega

/-- No head announces more than a machine can hold. -/
theorem yields_argument (k : Nat) : Yields (argument k) fun n => n < 2 ^ 64 := by
  refine .ite (fun h => yields_pure (by omega)) fun _ => ?_
  refine .ite (fun _ => yields_wide (by decide)) fun _ => ?_
  refine .ite (fun _ => yields_wide (by decide)) fun _ => ?_
  refine .ite (fun _ => yields_wide (by decide)) fun _ => ?_
  exact .ite (fun _ => yields_wide (by decide)) fun _ _ _ => trivial

/-! ## Items -/

theorem yields_natUpTo (bound : Nat) : Yields (natUpTo bound) fun _ => True := by
  refine yields_byte.bind fun b _ => ?_
  refine .ite (fun _ => ?_) fun _ => yields_mismatch b
  refine (yields_argument _).bind fun n _ => ?_
  exact .ite (fun _ => yields_pure trivial) fun _ _ _ => trivial

theorem yields_signedInt (bits : Nat) : Yields (signedInt bits) fun _ => True := by
  refine yields_byte.bind fun b _ => ?_
  refine .ite (fun _ => ?_) fun _ => yields_mismatch b
  refine (yields_argument _).bind fun n _ => ?_
  exact .ite (fun _ => yields_pure trivial) fun _ _ _ => trivial

theorem yields_uint64 : Yields uint64 fun _ => True := (yields_natUpTo _).map fun _ _ => trivial

theorem yields_uint32 : Yields uint32 fun _ => True := (yields_natUpTo _).map fun _ _ => trivial

theorem yields_int64 : Yields int64 fun _ => True := (yields_signedInt _).map fun _ _ => trivial

theorem yields_int32 : Yields int32 fun _ => True := (yields_signedInt _).map fun _ _ => trivial

theorem yields_bool : Yields bool fun _ => True := by
  refine yields_byte.bind fun b _ => ?_
  refine .ite (fun _ => yields_pure trivial) fun _ => ?_
  exact .ite (fun _ => yields_pure trivial) fun _ => yields_mismatch b

theorem yields_sized (cls : Nat) : Yields (sized cls) fun b => b.length < 2 ^ 64 := by
  refine yields_byte.bind fun b _ => ?_
  refine .ite (fun _ => ?_) fun _ => yields_mismatch b
  refine (yields_argument _).bind fun n hn => ?_
  exact (yields_take n).mono fun b hb => by omega

theorem utf8ByteSize_of_toText? {b : Bytes} {s : String} (h : Bytes.toText? b = some s) :
    s.utf8ByteSize = b.length := by
  rw [Bytes.toText?, String.fromUTF8?] at h
  split at h
  · cases h
    simp [String.fromUTF8, String.utf8ByteSize]
    rfl
  · cases h

theorem yields_text : Yields text Fits := by
  refine (yields_sized 3).bind fun b hb => ?_
  split
  next s hs =>
    refine yields_pure ?_
    rwa [Fits, utf8ByteSize_of_toText? hs]
  next => exact fun _ _ => trivial

theorem yields_option (h : Yields read P) : Yields (option read) fun o => ∀ a ∈ o, P a := by
  refine yields_peek.bind fun b _ => ?_
  refine .ite (fun _ => ?_) fun _ => ?_
  · exact yields_byte.bind fun _ _ => yields_pure (by simp)
  · exact h.map fun a ha => by simpa using ha

/-! ## Lists -/

theorem yields_sizeHead (cls : Nat) : Yields (sizeHead cls) fun o => ∀ n ∈ o, n < 2 ^ 64 := by
  refine yields_byte.bind fun b _ => ?_
  refine .ite (fun _ => ?_) fun _ => yields_mismatch b
  refine .ite (fun _ => yields_pure (by simp)) fun _ => ?_
  exact (yields_argument _).map fun n hn => by simpa using hn

/-- Reading goes on up to the stop byte. -/
theorem Yields.unlessStop {v : α} (hv : P v) (h : Yields read P) :
    Yields (fun input => match input with
      | [] => .error .endOfInput
      | b :: rest => if b = stop then .ok (v, rest) else read input) P := by
  intro input hinput
  cases input with
  | nil => trivial
  | cons b rest =>
    show Within _ P (if b = stop then _ else _)
    split
    · exact ⟨hv, Nat.le_succ _⟩
    · exact h _ hinput

theorem yields_items (h : Yields read P) (n : Nat) :
    Yields (items read n) fun l => l.length = n ∧ ∀ a ∈ l, P a := by
  induction n with
  | zero => exact yields_pure ⟨rfl, by simp⟩
  | succ n ih =>
    refine h.bind fun a ha => ih.bind fun l hl => yields_pure ⟨?_, ?_⟩
    · rw [List.length_cons, hl.1]
    · exact List.forall_mem_cons.2 ⟨ha, hl.2⟩

theorem yields_itemsToStop (h : Yields read P) (fuel : Nat) :
    Yields (itemsToStop read fuel) fun l => l.length < fuel ∧ ∀ a ∈ l, P a := by
  induction fuel with
  | zero => exact fun _ _ => trivial
  | succ fuel ih =>
    refine .unlessStop ⟨Nat.succ_pos _, by simp⟩ ?_
    refine h.bind fun a ha => ih.bind fun l hl => yields_pure ⟨?_, ?_⟩
    · rw [List.length_cons]
      exact Nat.succ_lt_succ hl.1
    · exact List.forall_mem_cons.2 ⟨ha, hl.2⟩

theorem yields_list (h : Yields read P) :
    Yields (list read) fun l => l.length < 2 ^ 64 ∧ ∀ a ∈ l, P a := by
  refine (yields_sizeHead 4).bind fun o ho => ?_
  cases o with
  | some n =>
    refine (yields_items h n).mono fun l hl => ⟨?_, hl.2⟩
    rw [hl.1]
    exact ho n rfl
  | none =>
    -- each member takes at least one byte of an input that fits
    intro input hinput
    refine (yields_itemsToStop h (input.length + 1) input hinput).mono (Nat.le_refl _) ?_
    exact fun l hl => ⟨by omega, hl.2⟩

/-! ## Passing over items -/

theorem yields_skipSizeHead (cls weight : Nat) (o : Outstanding) :
    Yields (skipSizeHead cls weight o) fun _ => True := by
  refine (yields_sizeHead cls).bind fun size _ => ?_
  cases size <;> exact yields_pure trivial

theorem yields_chunks {check : Bytes → Reader Unit} (hcheck : ∀ b, Yields (check b) fun _ => True)
    (cls fuel : Nat) : Yields (chunks check cls fuel) fun _ => True := by
  induction fuel with
  | zero => exact fun _ _ => trivial
  | succ fuel ih =>
    refine .unlessStop trivial ?_
    exact (yields_sized cls).bind fun b _ => (hcheck b).bind fun _ _ => ih

theorem yields_skipString {check : Bytes → Reader Unit}
    (hcheck : ∀ b, Yields (check b) fun _ => True) (cls : Nat) :
    Yields (skipString check cls) fun _ => True := by
  intro input hinput
  cases input with
  | nil => trivial
  | cons b rest =>
    rw [skipString]
    split
    · have hrest : rest.length < 2 ^ 64 := Nat.lt_of_succ_lt hinput
      exact (yields_chunks hcheck cls _ rest hrest).mono (Nat.le_succ _) fun _ h => h
    · exact ((yields_sized cls).bind fun b _ => hcheck b) _ hinput

theorem yields_anyBytes (b : Bytes) : Yields (anyBytes b) fun _ => True := yields_pure trivial

theorem yields_textBytes (b : Bytes) : Yields (textBytes b) fun _ => True :=
  .ite (fun _ => yields_pure trivial) fun _ _ _ => trivial

theorem yields_skipStep (o : Outstanding) : Yields (skipStep o) fun _ => True := by
  have hargument (k : Nat) (o : Outstanding) :
      Yields (argument k *> pure o : Reader Outstanding) fun _ => True :=
    (yields_argument k).bind fun _ _ => yields_pure trivial
  have hstring {check : Bytes → Reader Unit} (hcheck : ∀ b, Yields (check b) fun _ => True)
      (cls : Nat) (o : Outstanding) :
      Yields (skipString check cls *> pure o : Reader Outstanding) fun _ => True :=
    (yields_skipString hcheck cls).bind fun _ _ => yields_pure trivial
  intro input hinput
  cases input with
  | nil => trivial
  | cons b rest =>
    have hrest : rest.length < 2 ^ 64 := Nat.lt_of_succ_lt hinput
    rw [skipStep]
    -- the same cases as in the step
    split
    · exact (hargument _ _ rest hrest).mono (Nat.le_succ _) fun _ h => h
    split
    · exact hstring yields_anyBytes 2 _ _ hinput
    split
    · exact hstring yields_textBytes 3 _ _ hinput
    split
    · exact yields_skipSizeHead 4 1 o _ hinput
    split
    · exact yields_skipSizeHead 5 2 o _ hinput
    split
    · exact (hargument _ _ rest hrest).mono (Nat.le_succ _) fun _ h => h
    split
    · exact ⟨trivial, Nat.le_succ _⟩
    · trivial

theorem yields_skipAll (fuel : Nat) (o : Outstanding) :
    Yields (skipAll fuel o) fun _ => True := by
  induction fuel generalizing o with
  | zero => exact fun _ _ => trivial
  | succ fuel ih =>
    exact .ite (fun _ => yields_pure trivial) fun _ => (yields_skipStep o).bind fun o _ => ih o

theorem yields_skip : Yields skip fun _ => True :=
  fun input hinput => yields_skipAll _ _ input hinput

/-! ## Records and choices -/

variable {field : Nat → σ → Reader σ}

theorem yields_fields (h : ∀ i s, I s → Yields (field i s) I) (n i : Nat) {s : σ} (hs : I s) :
    Yields (fields field n i s) I := by
  induction n generalizing i s with
  | zero => exact yields_pure hs
  | succ n ih => exact (h i s hs).bind fun s hs => ih (i + 1) hs

theorem yields_fieldsToStop (h : ∀ i s, I s → Yields (field i s) I) (fuel i : Nat) {s : σ}
    (hs : I s) : Yields (fieldsToStop field fuel i s) I := by
  induction fuel generalizing i s with
  | zero => exact fun _ _ => trivial
  | succ fuel ih =>
    refine yields_peek.bind fun b _ => ?_
    refine .ite (fun _ => ?_) fun _ => ?_
    · exact yields_byte.bind fun _ _ => yields_pure hs
    · exact (h i s hs).bind fun s hs => ih (i + 1) hs

/-- What every field keeps is kept by a record. -/
theorem yields_record (h : ∀ i s, I s → Yields (field i s) I) {s : σ} (hs : I s) :
    Yields (record field s) I := by
  refine (yields_sizeHead 4).bind fun o _ => ?_
  cases o with
  | some n => exact yields_fields h n 0 hs
  | none => exact fun input hinput => yields_fieldsToStop h _ 0 hs input hinput

theorem yields_unknownField {s : σ} (hs : I s) : Yields (unknownField s) I :=
  yields_skip.bind fun _ _ => yields_pure hs

theorem yields_optional (h : Yields read P) : Yields (optional read) fun o => ∀ a ∈ o, P a := by
  intro input hinput
  have hoption := yields_option h input hinput
  rw [optional]
  cases hresult : option read input with
  | ok p =>
    rw [hresult] at hoption
    exact hoption
  | error fault =>
    rw [hresult] at hoption
    cases fault with
    | unknownVariant rest =>
      -- what the unknown form holds is passed over
      have hskip : Yields (skip *> pure none : Reader (Option α)) fun o => ∀ a ∈ o, P a :=
        yields_skip.bind fun _ _ => yields_pure (by simp)
      exact (hskip rest (Nat.lt_of_le_of_lt hoption hinput)).mono hoption fun _ ho => ho
    | _ => trivial

theorem yields_require {o : Option α} (h : ∀ a ∈ o, P a) : Yields (require o) P := by
  cases o with
  | some a => exact yields_pure (h a rfl)
  | none => exact fun _ _ => trivial

theorem yields_choice {form : Nat → Option (Reader α)} (h : ∀ n read, form n = some read →
    Yields read P) : Yields (choice form) P := by
  have hunknown : Yields (fun rest => .error (.unknownVariant rest) : Reader α) P :=
    fun _ _ => Nat.le_refl _
  refine (yields_sizeHead 4).bind fun size _ => ?_
  split
  · refine (yields_signedInt 64).bind fun number _ => ?_
    split
    · split
      next hform => exact h _ _ hform
      next => exact hunknown
    · exact hunknown
  · exact fun _ _ => trivial

theorem yields_emptyForm {a : α} (ha : P a) : Yields (emptyForm a) P :=
  yields_skip.bind fun _ _ => yields_pure ha

theorem yields_form₁ {read : Reader β} {make : β → α} (h : Yields read Q)
    (hmake : ∀ b, Q b → P (make b)) : Yields (form₁ read make) P := by
  refine (yields_record (I := fun o => ∀ b ∈ o, Q b) (fun i s hs => ?_) (by simp)).bind
    fun o ho => (yields_require ho).map hmake
  refine .ite (fun _ => ?_) fun _ => yields_unknownField hs
  exact h.map fun b hb => by simpa using hb

theorem yields_form₂ {first : Reader β} {second : Reader γ} {make : β → γ → α}
    (h : Yields first Q) (h' : Yields second R) (hmake : ∀ b c, Q b → R c → P (make b c)) :
    Yields (form₂ first second make) P := by
  refine (yields_record (I := fun s => (∀ b ∈ s.1, Q b) ∧ ∀ c ∈ s.2, R c) (fun i s hs => ?_)
    ⟨by simp, by simp⟩).bind fun s hs => ?_
  · refine .ite (fun _ => ?_) fun _ => .ite (fun _ => ?_) fun _ => yields_unknownField hs
    · exact h.bind fun b hb => yields_pure ⟨by simpa using hb, hs.2⟩
    · exact h'.bind fun c hc => yields_pure ⟨hs.1, by simpa using hc⟩
  · exact (yields_require hs.1).bind fun b hb =>
      (yields_require hs.2).bind fun c hc => yields_pure (hmake b c hb hc)

theorem yields_member [Catalog α] : Yields (member : Reader α) fun _ => True := by
  refine yields_choice fun n read hform => ?_
  obtain ⟨a, -, rfl⟩ := Option.map_eq_some_iff.1 hform
  exact yields_emptyForm trivial

end Cbor

end PeerTrade

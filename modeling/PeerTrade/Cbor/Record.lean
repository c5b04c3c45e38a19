import PeerTrade.Catalog
import PeerTrade.Cbor.Skip

/-!
# Records and choices

A record is a list of its fields in order; fields at the end that have no value are left out, and
one in the middle is written as a missing value. A choice between several forms is a pair: the
number of the form, and the record of what the form holds. Reading is tolerant: fields behind the
known ones are passed over, and a field that may be missing counts as missing if it names a form
that this reader does not know.
-/

namespace PeerTrade.Cbor

/-! ## Writing -/

/-- Drops the fields without a value at the end. -/
def dropUnset : List (Option Bytes) → List (Option Bytes)
  | [] => []
  | field :: rest =>
    match dropUnset rest, field with
    | [], none => []
    | rest, field => field :: rest

/-- A record with some fields unset. -/
def ofFields (fields : List (Option Bytes)) : Bytes :=
  ofList (·.getD null) (dropUnset fields)

/-- A record with all fields set. -/
def ofRecord (fields : List Bytes) : Bytes := listHead fields.length ++ fields.flatten

/-- The form with a number, holding some fields. -/
def ofForm (number : Nat) (fields : List Bytes) : Bytes :=
  listHead 2 ++ ofNat number ++ ofRecord fields

/-- A member of a closed list: a form that holds nothing. -/
def ofMember {α : Type} [Catalog α] (a : α) : Bytes := ofForm (Catalog.index a) []

/-! ## Reading records -/

/-- Reads an announced number of fields, from the `i`-th on. -/
def fields {σ : Type} (field : Nat → σ → Reader σ) : (n i : Nat) → σ → Reader σ
  | 0, _, s => pure s
  | n + 1, i, s => do
    let s ← field i s
    fields field n (i + 1) s

/-- Reads fields up to the stop byte, from the `i`-th on. Each takes at least one byte. -/
def fieldsToStop {σ : Type} (field : Nat → σ → Reader σ) : (fuel i : Nat) → σ → Reader σ
  | 0, _, _ => throw .endOfInput
  | fuel + 1, i, s => do
    if (← peek) = stop then
      let _ ← byte
      pure s
    else
      let s ← field i s
      fieldsToStop field fuel (i + 1) s

/-- Reads a record: `field i s` reads the `i`-th field into what has been read so far. -/
def record {σ : Type} (field : Nat → σ → Reader σ) (s : σ) : Reader σ := do
  match ← sizeHead 4 with
  | some n => fields field n 0 s
  | none => fun input => fieldsToStop field (input.length + 1) 0 s input

/-- Passes over a field that is not known. -/
def unknownField {σ : Type} (s : σ) : Reader σ := do
  skip
  pure s

/-- Reads a field that may be missing. A form that is not known counts as missing; what it holds
is passed over. -/
def optional {α : Type} (read : Reader α) : Reader (Option α) := fun input =>
  match option read input with
  | .error (.unknownVariant rest) => (skip *> pure none : Reader (Option α)) rest
  | result => result

/-- Insists on a field. -/
def require {α : Type} : Option α → Reader α
  | some a => pure a
  | none => throw .missingValue

/-! ## Reading choices -/

/-- Reads a choice: `form n` reads what the form with number `n` holds. -/
def choice {α : Type} (form : Nat → Option (Reader α)) : Reader α := do
  match ← sizeHead 4 with
  | some 2 =>
    let number ← signedInt 64
    match number with
    | .ofNat n =>
      match form n with
      | some read => read
      | none => fun rest => .error (.unknownVariant rest)
    | .negSucc _ => fun rest => .error (.unknownVariant rest)
  | _ => throw .message

/-- Reads a form that holds nothing. -/
def emptyForm {α : Type} (a : α) : Reader α := do
  skip
  pure a

/-- Reads a form that holds one value. -/
def form₁ {α β : Type} (read : Reader β) (make : β → α) : Reader α := do
  let value ← record (fun i s => if i = 0 then some <$> read else unknownField s) none
  make <$> require value

/-- Reads a form that holds two values. -/
def form₂ {α β γ : Type} (first : Reader β) (second : Reader γ) (make : β → γ → α) :
    Reader α := do
  let value ← record (fun i s =>
    if i = 0 then do
      let a ← first
      pure (some a, s.2)
    else if i = 1 then do
      let b ← second
      pure (s.1, some b)
    else unknownField s) (none, none)
  let a ← require value.1
  let b ← require value.2
  pure (make a b)

/-- Reads a member of a closed list. -/
def member {α : Type} [Catalog α] : Reader α :=
  choice fun n => (Catalog.ofIndex? n : Option α).map emptyForm

end PeerTrade.Cbor

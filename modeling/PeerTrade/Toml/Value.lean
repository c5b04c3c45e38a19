/-!
# Values and tables of a configuration text

A configuration text is a table of named values in the notation TOML. Tables come about in four
ways: by a header, on the way to a deeper header, on the way along a dotted key, and in braces.
Which of these it was decides what may be added to the table later; nothing is ever defined twice.
-/

namespace PeerTrade.Toml

/-- How a table came about. -/
inductive Origin where
  /-- By a header of its own. -/
  | header
  /-- On the way to a deeper header. -/
  | implied
  /-- On the way along a dotted key. -/
  | dotted
  /-- In braces. -/
  | inline
  deriving DecidableEq, Repr

/-- A value of a configuration text. -/
inductive Value where
  | text (s : String)
  | integer (i : Int)
  /-- A number with a fraction or an exponent, as it is written. -/
  | float (literal : String)
  | truth (b : Bool)
  /-- A date, a time of day, or both, as it is written. -/
  | moment (literal : String)
  | array (items : List Value)
  | table (origin : Origin) (entries : List (String × Value))
  /-- Tables that headers in double brackets have added one after the other. -/
  | tables (elements : List Value)
  deriving Inhabited

/-- Named values, in the order in which they were defined. -/
abbrev Entries := List (String × Value)

namespace Entries

/-- Changes what stands under a key; the change sees none if there is nothing, and may refuse. -/
def alter (key : String) (change : Option Value → Option Value) : Entries → Option Entries
  | [] => (change none).map fun v => [(key, v)]
  | (k, v) :: rest =>
    if k = key then (change (some v)).map fun v => (k, v) :: rest
    else (alter key change rest).map fun rest => (k, v) :: rest

/-- Defines a key that has not been defined. -/
def define (es : Entries) (key : String) (v : Value) : Option Entries :=
  es.alter key fun
    | none => some v
    | some _ => none

/-- Changes the table at the end of a path, making the tables that are missing on the way. A path
leads through the last one of several tables. Along a dotted key it leads through no table that
has a header, and through a table in braces only while that one is being written. -/
def descend (way : Origin) (change : Origin → Entries → Option Entries) :
    (path : List String) → (origin : Origin) → Entries → Option Entries
  | [], origin, es => change origin es
  | key :: path, _, es =>
    es.alter key fun
      | none => (descend way change path way []).map (.table way)
      | some (.table origin sub) =>
        if way = .dotted ∧ origin = .header then none
        else if origin = .inline then none
        else (descend way change path origin sub).map (.table origin)
      | some (.tables elements) =>
        match elements.getLast? with
        | some (.table origin sub) =>
          (descend way change path origin sub).map fun sub =>
            .tables (elements.dropLast ++ [.table origin sub])
        | _ => none
      | some _ => none

/-- Defines a value under a dotted key. The table that holds it must have come about along dotted
keys as well, unless the key has a single part. -/
def assign (es : Entries) (path : List String) (key : String) (v : Value) : Option Entries :=
  descend .dotted (fun origin es =>
    if !path.isEmpty && origin != .dotted then none else define es key v) path .header es

end Entries

/-! ## Documents -/

/-- A text that has been read up to some line: the finished tables, and the one that is open. -/
structure Document where
  root : Entries := []
  /-- What the open table holds. -/
  entries : Entries := []
  /-- The path of the open table; the root table has none. -/
  path : List String := []
  /-- Whether the open table is one of several under its path. -/
  repeated : Bool := false

namespace Document

/-- Puts the open table in its place. -/
def close (d : Document) : Option Entries :=
  match d.path.getLast? with
  | none => some d.entries
  | some key =>
    Entries.descend .implied (fun _ es =>
      if d.repeated then
        es.alter key fun
          | none => some (.tables [.table .header d.entries])
          | some (.tables elements) => some (.tables (elements ++ [.table .header d.entries]))
          | some _ => none
      else es.define key (.table .header d.entries)) d.path.dropLast .header d.root

/-- Begins a table. One that came about on the way to a deeper header goes on; any other one must
be new. -/
def beginTable (d : Document) (path : List String) : Option Document := do
  let root ← d.close
  let key ← path.getLast?
  let root ← Entries.descend .implied (fun _ es => some es) path.dropLast .header root
  let found := lookup root path
  match found with
  | none => pure { root, path }
  | some (.table .implied entries) =>
    let root ← Entries.descend .implied (fun _ es => some (es.filter fun e => e.1 != key))
      path.dropLast .header root
    pure { root, path, entries }
  | some _ => none
where
  /-- The value at the end of a path. -/
  lookup (es : Entries) : List String → Option Value
    | [] => none
    | [key] => es.lookup key
    | key :: rest =>
      match es.lookup key with
      | some (.table _ sub) => lookup sub rest
      | some (.tables elements) =>
        match elements.getLast? with
        | some (.table _ sub) => lookup sub rest
        | _ => none
      | _ => none

/-- Begins one of several tables under a path. -/
def beginElement (d : Document) (path : List String) : Option Document := do
  let root ← d.close
  let key ← path.getLast?
  let _ ← Entries.descend .implied (fun _ es =>
    match es.lookup key with
    | none | some (.tables _) => some es
    | some _ => none) path.dropLast .header root
  pure { root, path, repeated := true }

/-- Defines a value in the open table. -/
def assign (d : Document) (path : List String) (key : String) (v : Value) : Option Document := do
  pure { d with entries := ← d.entries.assign path key v }

end Document

end PeerTrade.Toml

import PeerTrade.Protocol.Standard.Escrow
import PeerTrade.Protocol.Standard.Reputation

/-!
# Registries of transition tables

A registry holds at most one table for each combination of role and settlement mechanism, and
never exchanges it for another. A combination that is offered but has no table yet can be marked
as such; the mark goes away when the table comes. Creating a trade without a table is refused.
-/

namespace PeerTrade

/-- The tables under which trades can be created. -/
structure Registry where
  tables : Dict Combination Protocol := {}
  /-- The combinations that are known to have no table yet. -/
  unimplemented : Dict Combination Unit := {}

namespace Registry

/-- The registry without tables. -/
def empty : Registry := {}

/-- Adds a table, unless its combination already has one. -/
def register (r : Registry) (p : Protocol) : Except SetupError Registry :=
  if r.tables.contains p.combination then .error (.duplicateRegistration p.combination)
  else .ok
    { tables := r.tables.insert p.combination p
      unimplemented := r.unimplemented.erase p.combination }

/-- Marks a combination as having no table yet, unless it has one. -/
def declareUnimplemented (r : Registry) (c : Combination) : Registry :=
  if r.tables.contains c then r else { r with unimplemented := r.unimplemented.insert c () }

/-- The table of a combination. -/
def lookup (r : Registry) (c : Combination) : Except SetupError Protocol :=
  match r.tables.get? c with
  | some p => .ok p
  | none => .error (.unsupportedCombination c)

/-- Whether a combination is marked as having no table yet. -/
def isUnimplemented (r : Registry) (c : Combination) : Bool := r.unimplemented.contains c

/-- The combinations with a table, in order. -/
def supported (r : Registry) : List Combination := r.tables.keys

/-! ## The built-in tables -/

/-- Every built-in table. -/
def builtIn : List Protocol :=
  Catalog.all.map Standard.Reputation.table ++
    [Standard.Escrow.sellerAsMaker, Standard.Escrow.buyerAsTaker]

/-- Adds tables one after the other, passing over those that are refused. -/
def registerAll (r : Registry) : List Protocol → Registry
  | [] => r
  | p :: rest =>
    match r.register p with
    | .ok r => r.registerAll rest
    | .error _ => r.registerAll rest

/-- The registry of the built-in tables. -/
def standard : Registry :=
  Standard.Escrow.unimplementedRoles.foldl
    (fun r role => r.declareUnimplemented ⟨role, .multisigEscrow⟩) (empty.registerAll builtIn)

end Registry

end PeerTrade

import PeerTrade.Catalog

/-!
# Roles and settlement mechanisms

A trade has a buyer and a seller, and a maker who published the offer and a taker who answered
it. The four roles combine the two, and the other side of a trade always plays the opposite
part in both respects (`Role.counterpart`). How value changes hands is the settlement mechanism;
a role together with a mechanism is what a transition table is written for.
-/

namespace PeerTrade

/-! ## Roles -/

/-- The part that the local side plays in a trade. -/
inductive Role where
  | buyerAsMaker
  | buyerAsTaker
  | sellerAsMaker
  | sellerAsTaker
  deriving DecidableEq, Inhabited, Repr

namespace Role

instance : Catalog Role where
  all := [buyerAsMaker, buyerAsTaker, sellerAsMaker, sellerAsTaker]
  index := Role.ctorIdx
  name
    | buyerAsMaker => "BuyerAsMaker"
    | buyerAsTaker => "BuyerAsTaker"
    | sellerAsMaker => "SellerAsMaker"
    | sellerAsTaker => "SellerAsTaker"

instance : LawfulCatalog Role where
  all_index a := by cases a <;> rfl
  index_all := by decide

instance : Ord Role := ⟨Catalog.cmp⟩

instance : Std.TransOrd Role := inferInstanceAs (Std.TransCmp Catalog.cmp)

instance : Std.LawfulEqOrd Role := inferInstanceAs (Std.LawfulEqCmp Catalog.cmp)

/-- Whether this side pays for the base currency. -/
def isBuyer : Role → Bool
  | buyerAsMaker | buyerAsTaker => true
  | sellerAsMaker | sellerAsTaker => false

/-- Whether this side published the offer. -/
def isMaker : Role → Bool
  | buyerAsMaker | sellerAsMaker => true
  | buyerAsTaker | sellerAsTaker => false

/-- The role that the other side of the same trade plays. -/
def counterpart : Role → Role
  | buyerAsMaker => sellerAsTaker
  | buyerAsTaker => sellerAsMaker
  | sellerAsMaker => buyerAsTaker
  | sellerAsTaker => buyerAsMaker

@[simp] theorem counterpart_counterpart (r : Role) : r.counterpart.counterpart = r := by
  cases r <;> rfl

@[simp] theorem isBuyer_counterpart (r : Role) : r.counterpart.isBuyer = !r.isBuyer := by
  cases r <;> rfl

@[simp] theorem isMaker_counterpart (r : Role) : r.counterpart.isMaker = !r.isMaker := by
  cases r <;> rfl

end Role

/-! ## Settlement mechanisms -/

/-- The way in which value changes hands. -/
inductive Settlement where
  /-- A fiat payment; the seller relies on the buyer's reputation. -/
  | reputationFiat
  /-- A deposit on the chain that both sides sign. -/
  | multisigEscrow
  deriving DecidableEq, Inhabited, Repr

namespace Settlement

instance : Catalog Settlement where
  all := [reputationFiat, multisigEscrow]
  index := Settlement.ctorIdx
  name
    | reputationFiat => "ReputationFiat"
    | multisigEscrow => "MultisigEscrow"

instance : LawfulCatalog Settlement where
  all_index a := by cases a <;> rfl
  index_all := by decide

instance : Ord Settlement := ⟨Catalog.cmp⟩

instance : Std.TransOrd Settlement := inferInstanceAs (Std.TransCmp Catalog.cmp)

instance : Std.LawfulEqOrd Settlement := inferInstanceAs (Std.LawfulEqCmp Catalog.cmp)

end Settlement

/-! ## Combinations -/

/-- A role in a settlement mechanism: what a transition table is written for. -/
structure Combination where
  role : Role
  settlement : Settlement
  deriving DecidableEq, Inhabited, Repr

namespace Combination

/-- Combinations are listed by role, and for one role by mechanism. -/
instance : Ord Combination := ⟨compareLex (compareOn role) (compareOn settlement)⟩

instance : Std.TransOrd Combination :=
  inferInstanceAs (Std.TransCmp (compareLex (compareOn role) (compareOn settlement)))

instance : Std.LawfulEqOrd Combination where
  eq_of_compare {a b} h := by
    obtain ⟨hr, hs⟩ := Ordering.then_eq_eq.1 h
    have hrole : a.role = b.role := Std.LawfulEqOrd.eq_of_compare hr
    have hsettlement : a.settlement = b.settlement := Std.LawfulEqOrd.eq_of_compare hs
    cases a
    cases b
    cases hrole
    cases hsettlement
    rfl

end Combination

end PeerTrade

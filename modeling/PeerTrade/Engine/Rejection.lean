import PeerTrade.Catalog

/-!
# Rejections

An event that is refused leaves the trade as it is. The rejection says why, in a class and in
words.
-/

namespace PeerTrade

/-- The class of a rejection. -/
inductive RejectReason where
  | noMatchingTransition
  | guardFailed
  | invalidOperation
  | finalized
  | duplicate
  deriving DecidableEq, Inhabited, Repr

namespace RejectReason

instance : Catalog RejectReason where
  all := [noMatchingTransition, guardFailed, invalidOperation, finalized, duplicate]
  index := RejectReason.ctorIdx
  name
    | noMatchingTransition => "NoMatchingTransition"
    | guardFailed => "GuardFailed"
    | invalidOperation => "InvalidOperation"
    | finalized => "Finalized"
    | duplicate => "Duplicate"

instance : LawfulCatalog RejectReason where
  all_index a := by cases a <;> rfl
  index_all := by decide

/-- The class in words. -/
def text : RejectReason → String
  | noMatchingTransition => "no matching transition"
  | guardFailed => "guard failed"
  | invalidOperation => "invalid operation"
  | finalized => "trade is finalized"
  | duplicate => "duplicate event"

end RejectReason

/-- Why an event was refused. -/
structure Rejection where
  reason : RejectReason
  detail : String
  deriving DecidableEq, Repr

/-- The rejection in words. -/
def Rejection.text (r : Rejection) : String := r.reason.text ++ ": " ++ r.detail

end PeerTrade

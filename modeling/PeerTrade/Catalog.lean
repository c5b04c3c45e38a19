/-!
# Closed lists of names

Roles, states, message kinds and the other enumerations of the trade protocol are closed lists
of members in a fixed order. The order serves three purposes at once: it is the order of the
members in every table, it gives the number under which a member is stored, and the members'
names are what is shown to a reader. `Catalog` collects these; the two laws of `LawfulCatalog` make
`index` and `ofIndex?` inverse to each other. Only the guards go without the laws: their catalog lists
those that are built in.
-/

namespace PeerTrade

/-- A list of members in order, the place of each, and its name. -/
class Catalog (α : Type) where
  /-- The listed members, in the fixed order. -/
  all : List α
  /-- The place of a member in the order, counted from zero. -/
  index : α → Nat
  /-- The name of a member. -/
  name : α → String

/-- A closed enumeration: every member is listed at its own place. -/
class LawfulCatalog (α : Type) [Catalog α] : Prop where
  /-- A member stands at its own place. -/
  all_index (a : α) : (Catalog.all : List α)[Catalog.index a]? = some a
  /-- The place of a listed member is where it is listed. -/
  index_all (i : Nat) (h : i < (Catalog.all : List α).length) : Catalog.index Catalog.all[i] = i

namespace Catalog

variable {α : Type} [Catalog α]

/-- The member at a place, if the order is that long. -/
def ofIndex? (i : Nat) : Option α := (all : List α)[i]?

/-- The member with a given name. -/
def ofName? (s : String) : Option α := (all : List α).find? fun a => name a == s

/-- Members compare as their places do. -/
def cmp (a b : α) : Ordering := compare (index a) (index b)

instance : Std.TransCmp (cmp : α → α → Ordering) where
  eq_swap {a b} :=
    (Std.OrientedCmp.eq_swap : compare (index a) (index b) = (compare (index b) (index a)).swap)
  isLE_trans {a b c} h₁ h₂ :=
    (Std.TransCmp.isLE_trans :
      (compare (index a) (index b)).isLE → (compare (index b) (index c)).isLE →
        (compare (index a) (index c)).isLE) h₁ h₂

/-! ## Closed enumerations -/

variable [LawfulCatalog α]

@[simp] theorem ofIndex?_index (a : α) : ofIndex? (index a) = some a := LawfulCatalog.all_index a

theorem index_eq_of_ofIndex? {i : Nat} {a : α} (h : ofIndex? i = some a) : index a = i := by
  obtain ⟨hi, rfl⟩ := List.getElem?_eq_some_iff.1 h
  exact LawfulCatalog.index_all i hi

theorem ofIndex?_eq_some_iff {i : Nat} {a : α} : ofIndex? i = some a ↔ index a = i :=
  ⟨index_eq_of_ofIndex?, fun h => h ▸ ofIndex?_index a⟩

/-- Two members at the same place are the same member. -/
theorem index_inj {a b : α} (h : index a = index b) : a = b :=
  Option.some.inj (by rw [← ofIndex?_index a, h, ofIndex?_index b])

theorem index_lt (a : α) : index a < (all : List α).length :=
  (List.getElem?_eq_some_iff.1 (LawfulCatalog.all_index a)).1

theorem mem_all (a : α) : a ∈ (all : List α) :=
  List.mem_of_getElem? (LawfulCatalog.all_index a)

instance : Std.LawfulEqCmp (cmp : α → α → Ordering) where
  compare_self := by simp [cmp]
  eq_of_compare h := index_inj (Std.LawfulEqCmp.eq_of_compare h)

end Catalog

end PeerTrade

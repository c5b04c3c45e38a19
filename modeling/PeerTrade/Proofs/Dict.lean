import PeerTrade.Catalog
import PeerTrade.Dict

/-!
# Ordered tables and their listings

A table is rebuilt from its own listing, its keys are listed in one order only, and it holds no more
entries than there are keys. Exchanging the values under the keys commutes with every operation.
-/

namespace PeerTrade.Dict

variable {κ ν : Type} [Ord κ]

/-! ## Rebuilding a table -/

theorem findEntry_eq_none {k : κ} {l : List (κ × ν)} (h : ∀ e ∈ l, compare k e.1 = .lt) :
    findEntry k l = none := by
  induction l with
  | nil => rfl
  | cons e rest ih =>
    have he : compare k e.1 ≠ .eq := by
      rw [h e List.mem_cons_self]
      decide
    rw [findEntry, if_neg he]
    exact ih fun e' he' => h e' (List.mem_cons_of_mem _ he')

/-- Inserting the entries of a sorted list shadows what the table held under their keys. -/
theorem get?_foldl_insert [Std.TransOrd κ] {l : List (κ × ν)}
    (hl : l.Pairwise fun a b => compare a.1 b.1 = .lt) (d : Dict κ ν) (k : κ) :
    (l.foldl (fun d e => d.insert e.1 e.2) d).get? k = (findEntry k l).or (d.get? k) := by
  induction l generalizing d with
  | nil => rfl
  | cons e rest ih =>
    obtain ⟨hhead, hrest⟩ := List.pairwise_cons.1 hl
    rw [List.foldl_cons, ih hrest, get?_insert, findEntry]
    by_cases hk : compare k e.1 = .eq
    · -- no later entry has the same key
      have hnone : findEntry k rest = none := findEntry_eq_none fun e' he' =>
        Std.TransCmp.lt_of_eq_of_lt hk (hhead e' he')
      rw [hnone, if_pos hk, if_pos hk]
      rfl
    · rw [if_neg hk, if_neg hk]

theorem ofList_entries [Std.TransOrd κ] [Std.LawfulEqOrd κ] (d : Dict κ ν) :
    ofList d.entries = d := by
  -- two tables are the same if they hold the same under every key
  refine ext_get? fun k => ?_
  rw [ofList, get?_foldl_insert d.sorted, get?_empty, Option.or_none]
  rfl

/-! ## Keys -/

theorem pairwise_keys (d : Dict κ ν) : d.keys.Pairwise fun a b => compare a b = .lt :=
  List.pairwise_map.2 d.sorted

theorem nodup_keys [Std.LawfulEqOrd κ] (d : Dict κ ν) : d.keys.Nodup := by
  refine d.pairwise_keys.imp fun {a b} hlt heq => ?_
  rw [heq, Std.LawfulEqOrd.compare_eq_iff_eq.2 rfl] at hlt
  cases hlt

/-- Tables that hold something under the same keys list them alike. -/
theorem keys_eq_of_contains [Std.TransOrd κ] [Std.LawfulEqOrd κ] {d d' : Dict κ ν}
    (h : ∀ k, d'.contains k = d.contains k) : d'.keys = d.keys := by
  have hmem : ∀ k, k ∈ d'.keys ↔ k ∈ d.keys := fun k => by
    rw [mem_keys_iff, mem_keys_iff, h]
  have hperm : d'.keys.Perm d.keys := (List.perm_ext_iff_of_nodup d'.nodup_keys d.nodup_keys).2 hmem
  -- both lists are ascending, so that there is only one order
  refine hperm.eq_of_pairwise (fun a b _ _ hab hba => ?_) d'.pairwise_keys d.pairwise_keys
  exact absurd (Std.TransCmp.lt_trans hab hba) (by simp)

/-! ## Values -/

theorem mem_values_insert [Std.TransOrd κ] {d : Dict κ ν} {k : κ} {v w : ν}
    (h : w ∈ (d.insert k v).values) : w = v ∨ w ∈ d.values := by
  obtain ⟨entry, hentry, rfl⟩ := List.mem_map.1 h
  rcases mem_insertEntry hentry with rfl | hold
  · exact .inl rfl
  · exact .inr (List.mem_map_of_mem hold)

theorem mem_values_of_erase {d : Dict κ ν} {k : κ} {w : ν} (h : w ∈ (d.erase k).values) :
    w ∈ d.values := by
  obtain ⟨entry, hentry, rfl⟩ := List.mem_map.1 h
  exact List.mem_map_of_mem (List.mem_filter.1 hentry).1

/-! ## Inserting and erasing -/

theorem contains_insert [Std.TransOrd κ] [Std.LawfulEqOrd κ] [DecidableEq κ] (d : Dict κ ν)
    (k k' : κ) (v : ν) : (d.insert k v).contains k' = (decide (k' = k) || d.contains k') := by
  rw [contains, contains, get?_insert]
  by_cases hk : k' = k <;> simp [hk]

theorem contains_erase [Std.TransOrd κ] [Std.LawfulEqOrd κ] [DecidableEq κ] (d : Dict κ ν)
    (k k' : κ) : (d.erase k).contains k' = (decide (k' ≠ k) && d.contains k') := by
  rw [contains, contains, get?_erase]
  by_cases hk : k' = k <;> simp [hk]

theorem get?_foldl_erase [Std.TransOrd κ] [Std.LawfulEqOrd κ] [DecidableEq κ] (keys : List κ)
    (d : Dict κ ν) (k : κ) :
    (keys.foldl erase d).get? k = if k ∈ keys then none else d.get? k := by
  induction keys generalizing d with
  | nil => rfl
  | cons j rest ih =>
    rw [List.foldl_cons, ih, get?_erase]
    by_cases hk : k = j <;> simp [hk]

/-! ## Other values under the same keys -/

/-- The table with every value exchanged for what a function makes of it. -/
def map {μ : Type} (f : ν → μ) (d : Dict κ ν) : Dict κ μ :=
  ⟨d.entries.map fun e => (e.1, f e.2), List.pairwise_map.2 d.sorted⟩

section Map

variable {μ : Type} (f : ν → μ) (d : Dict κ ν) (k : κ)

theorem get?_map : (d.map f).get? k = (d.get? k).map f := by
  obtain ⟨l, hl⟩ := d
  simp only [get?, map]
  clear hl
  induction l with
  | nil => rfl
  | cons e rest ih =>
    rw [List.map_cons, findEntry, findEntry, ih]
    split <;> rfl

theorem contains_map : (d.map f).contains k = d.contains k := by
  rw [contains, contains, get?_map, Option.isSome_map]

theorem map_erase [Std.TransOrd κ] [Std.LawfulEqOrd κ] :
    (d.erase k).map f = (d.map f).erase k := by
  refine ext_get? fun k' => ?_
  rw [get?_map, get?_erase, get?_erase, get?_map]
  split <;> rfl

theorem map_insert [Std.TransOrd κ] [Std.LawfulEqOrd κ] (v : ν) :
    (d.insert k v).map f = (d.map f).insert k (f v) := by
  refine ext_get? fun k' => ?_
  rw [get?_map, get?_insert, get?_insert, get?_map]
  split <;> rfl

theorem map_eq_self {f : ν → ν} {d : Dict κ ν} (h : ∀ v ∈ d.values, f v = v) : d.map f = d := by
  have hentries : d.entries.map (fun e => (e.1, f e.2)) = d.entries := by
    refine (List.map_congr_left fun e he => ?_).trans (List.map_id' _)
    rw [h e.2 (List.mem_map_of_mem he)]
  obtain ⟨entries, sorted⟩ := d
  simp only [map, hentries]

end Map

/-! ## Size -/

theorem length_entries_le [Std.LawfulEqOrd κ] [Catalog κ] [LawfulCatalog κ] (d : Dict κ ν) :
    d.entries.length ≤ (Catalog.all : List κ).length := by
  -- the keys are different from each other, and each is in the catalog
  have hsubset : d.keys ⊆ Catalog.all := fun k _ => Catalog.mem_all k
  have hlength := d.nodup_keys.length_le_of_subset hsubset
  rwa [keys, List.length_map] at hlength

end PeerTrade.Dict

/-!
# Ordered tables

A `Dict` holds at most one value per key and lists its entries in ascending order of the keys.
Transition tables, registries, armed deadlines, pending snapshots and stored records are all
kept in this form, so that their listing order is part of their value: two tables that answer
every look-up alike are equal (`Dict.ext_get?`).
-/

namespace PeerTrade

/-- A finite map, kept as the list of its entries in ascending order of the keys. -/
structure Dict (κ ν : Type) [Ord κ] where
  /-- The entries, ascending. -/
  entries : List (κ × ν)
  /-- Each key is smaller than every later one. -/
  sorted : entries.Pairwise fun a b => compare a.1 b.1 = .lt

namespace Dict

variable {κ ν : Type} [Ord κ]

/-! ## Operations on sorted lists of entries -/

/-- The value that stands under a key. -/
def findEntry (k : κ) : List (κ × ν) → Option ν
  | [] => none
  | (k', v) :: rest => if compare k k' = .eq then some v else findEntry k rest

/-- Puts a value under a key, in front of the first larger key. -/
def insertEntry (k : κ) (v : ν) : List (κ × ν) → List (κ × ν)
  | [] => [(k, v)]
  | (k', v') :: rest =>
    match compare k k' with
    | .lt => (k, v) :: (k', v') :: rest
    | .eq => (k, v) :: rest
    | .gt => (k', v') :: insertEntry k v rest

theorem mem_insertEntry {k : κ} {v : ν} {l : List (κ × ν)} {e : κ × ν}
    (h : e ∈ insertEntry k v l) : e = (k, v) ∨ e ∈ l := by
  induction l with
  | nil => simpa [insertEntry] using h
  | cons p rest ih =>
    obtain ⟨k', v'⟩ := p
    unfold insertEntry at h
    split at h
    · simpa using h
    · rcases List.mem_cons.1 h with rfl | h
      · exact .inl rfl
      · exact .inr (List.mem_cons_of_mem _ h)
    · rcases List.mem_cons.1 h with rfl | h
      · exact .inr List.mem_cons_self
      · exact (ih h).imp_right (List.mem_cons_of_mem _)

theorem pairwise_insertEntry [Std.TransOrd κ] {k : κ} {v : ν} {l : List (κ × ν)}
    (h : l.Pairwise fun a b => compare a.1 b.1 = .lt) :
    (insertEntry k v l).Pairwise fun a b => compare a.1 b.1 = .lt := by
  induction l with
  | nil => simp [insertEntry]
  | cons p rest ih =>
    obtain ⟨k', v'⟩ := p
    obtain ⟨hhead, hrest⟩ := List.pairwise_cons.1 h
    unfold insertEntry
    split
    next hlt =>
      refine List.pairwise_cons.2 ⟨fun e he => ?_, h⟩
      rcases List.mem_cons.1 he with rfl | he
      · exact hlt
      · exact Std.TransCmp.lt_trans hlt (hhead e he)
    next heq =>
      exact List.pairwise_cons.2
        ⟨fun e he => Std.TransCmp.lt_of_eq_of_lt heq (hhead e he), hrest⟩
    next hgt =>
      refine List.pairwise_cons.2 ⟨fun e he => ?_, ih hrest⟩
      rcases mem_insertEntry he with rfl | he
      · exact Std.OrientedCmp.lt_of_gt hgt
      · exact hhead e he

theorem findEntry_insertEntry [Std.TransOrd κ] {k k' : κ} {v : ν} {l : List (κ × ν)} :
    findEntry k' (insertEntry k v l) =
      if compare k' k = .eq then some v else findEntry k' l := by
  induction l with
  | nil => rfl
  | cons p rest ih =>
    obtain ⟨k₀, v₀⟩ := p
    unfold insertEntry
    split
    · simp [findEntry]
    next heq =>
      simp only [findEntry]
      by_cases hk : compare k' k = .eq
      · simp [hk]
      · have : compare k' k₀ ≠ .eq := fun h =>
          hk (Std.TransCmp.eq_trans h (Std.OrientedCmp.eq_symm heq))
        simp [hk, this]
    next hgt =>
      simp only [findEntry, ih]
      by_cases hk : compare k' k = .eq
      · have : compare k' k₀ ≠ .eq := by
          rw [Std.TransCmp.congr_left hk, hgt]
          decide
        simp [hk, this]
      · simp [hk]

theorem findEntry_filter [Std.TransOrd κ] {k k' : κ} {l : List (κ × ν)} :
    findEntry k' (l.filter fun e => compare k e.1 != .eq) =
      if compare k' k = .eq then none else findEntry k' l := by
  induction l with
  | nil => simp [findEntry]
  | cons p rest ih =>
    obtain ⟨k₀, v₀⟩ := p
    by_cases h₀ : compare k k₀ = .eq
    · simp only [List.filter_cons, h₀, bne_self_eq_false, Bool.false_eq_true, if_false, ih,
        findEntry]
      by_cases hk : compare k' k = .eq
      · simp [hk]
      · have : compare k' k₀ ≠ .eq := fun h =>
          hk (Std.TransCmp.eq_trans h (Std.OrientedCmp.eq_symm h₀))
        simp [hk, this]
    · have hb : (compare k k₀ != .eq) = true := by simpa using h₀
      simp only [List.filter_cons, hb, if_true, findEntry, ih]
      by_cases hk : compare k' k = .eq
      · have : compare k' k₀ ≠ .eq := fun h =>
          h₀ (Std.TransCmp.eq_trans (Std.OrientedCmp.eq_symm hk) h)
        simp [hk, this]
      · simp [hk]

/-! ## The operations -/

/-- The table without entries. -/
def empty : Dict κ ν := ⟨[], .nil⟩

instance : Inhabited (Dict κ ν) := ⟨empty⟩

instance : EmptyCollection (Dict κ ν) := ⟨empty⟩

/-- The value under a key. -/
def get? (d : Dict κ ν) (k : κ) : Option ν := findEntry k d.entries

/-- Whether a key has a value. -/
def contains (d : Dict κ ν) (k : κ) : Bool := (d.get? k).isSome

/-- Puts a value under a key, replacing the one that stood there. -/
def insert [Std.TransOrd κ] (d : Dict κ ν) (k : κ) (v : ν) : Dict κ ν :=
  ⟨insertEntry k v d.entries, pairwise_insertEntry d.sorted⟩

/-- Takes the value under a key away. -/
def erase (d : Dict κ ν) (k : κ) : Dict κ ν :=
  ⟨d.entries.filter fun e => compare k e.1 != .eq, d.sorted.filter _⟩

/-- The keys, ascending. -/
def keys (d : Dict κ ν) : List κ := d.entries.map (·.1)

/-- The values, in the order of their keys. -/
def values (d : Dict κ ν) : List ν := d.entries.map (·.2)

/-- The number of entries. -/
def size (d : Dict κ ν) : Nat := d.entries.length

/-- Inserts entries one after the other; the last one of a key stays. -/
def ofList [Std.TransOrd κ] (l : List (κ × ν)) : Dict κ ν :=
  l.foldl (fun d e => d.insert e.1 e.2) empty

instance [BEq κ] [BEq ν] : BEq (Dict κ ν) := ⟨fun a b => a.entries == b.entries⟩

instance [DecidableEq κ] [DecidableEq ν] : DecidableEq (Dict κ ν) := fun a b =>
  decidable_of_iff (a.entries = b.entries)
    ⟨fun h => by cases a; cases b; cases h; rfl, fun h => h ▸ rfl⟩

/-! ## Looking up -/

@[simp] theorem get?_empty (k : κ) : (empty : Dict κ ν).get? k = none := rfl

theorem get?_insert [Std.TransOrd κ] (d : Dict κ ν) (k k' : κ) (v : ν) :
    (d.insert k v).get? k' = if compare k' k = .eq then some v else d.get? k' :=
  findEntry_insertEntry

@[simp] theorem get?_insert_self [Std.TransOrd κ] (d : Dict κ ν) (k : κ) (v : ν) :
    (d.insert k v).get? k = some v := by
  simp [get?_insert]

theorem get?_erase [Std.TransOrd κ] (d : Dict κ ν) (k k' : κ) :
    (d.erase k).get? k' = if compare k' k = .eq then none else d.get? k' :=
  findEntry_filter

@[simp] theorem get?_erase_self [Std.TransOrd κ] (d : Dict κ ν) (k : κ) :
    (d.erase k).get? k = none := by
  simp [get?_erase]

/-- Looking a key up finds exactly the entries. -/
theorem get?_eq_some_iff [Std.TransOrd κ] [Std.LawfulEqOrd κ] {d : Dict κ ν} {k : κ} {v : ν} :
    d.get? k = some v ↔ (k, v) ∈ d.entries := by
  obtain ⟨l, hl⟩ := d
  simp only [get?]
  induction l with
  | nil => simp [findEntry]
  | cons p rest ih =>
    obtain ⟨k₀, v₀⟩ := p
    obtain ⟨hhead, hrest⟩ := List.pairwise_cons.1 hl
    by_cases hk : k = k₀
    · subst hk
      have : (k, v) ∉ rest := fun h => by
        simpa using hhead _ h
      simp [findEntry, this, eq_comm]
    · simp [findEntry, hk, ih hrest]

theorem mem_keys_iff [Std.TransOrd κ] [Std.LawfulEqOrd κ] {d : Dict κ ν} {k : κ} :
    k ∈ d.keys ↔ d.contains k = true := by
  simp only [keys, List.mem_map, contains, Option.isSome_iff_exists, get?_eq_some_iff]
  exact ⟨fun ⟨⟨_, v⟩, h, e⟩ => ⟨v, e ▸ h⟩, fun ⟨v, h⟩ => ⟨⟨k, v⟩, h, rfl⟩⟩

/-- Two sorted lists with the same members are the same list. -/
private theorem entries_eq [Std.TransOrd κ] {l l' : List (κ × ν)}
    (hl : l.Pairwise fun a b => compare a.1 b.1 = .lt)
    (hl' : l'.Pairwise fun a b => compare a.1 b.1 = .lt)
    (h : ∀ e, e ∈ l ↔ e ∈ l') : l = l' := by
  induction l generalizing l' with
  | nil =>
    cases l' with
    | nil => rfl
    | cons p _ => exact absurd ((h p).2 List.mem_cons_self) List.not_mem_nil
  | cons p rest ih =>
    cases l' with
    | nil => exact absurd ((h p).1 List.mem_cons_self) List.not_mem_nil
    | cons q rest' =>
      obtain ⟨hp, hrest⟩ := List.pairwise_cons.1 hl
      obtain ⟨hq, hrest'⟩ := List.pairwise_cons.1 hl'
      have irrefl : ∀ a : κ × ν, compare a.1 a.1 ≠ .lt := fun a => by simp
      have hpq : p = q := by
        rcases List.mem_cons.1 ((h p).1 List.mem_cons_self) with e | hpm
        · exact e
        · rcases List.mem_cons.1 ((h q).2 List.mem_cons_self) with e | hqm
          · exact e.symm
          · exact absurd (Std.TransCmp.lt_trans (hp q hqm) (hq p hpm)) (irrefl p)
      subst hpq
      rw [ih hrest hrest' fun e => ?_]
      constructor
      · intro he
        rcases List.mem_cons.1 ((h e).1 (List.mem_cons_of_mem _ he)) with rfl | he'
        · exact absurd (hp e he) (irrefl e)
        · exact he'
      · intro he
        rcases List.mem_cons.1 ((h e).2 (List.mem_cons_of_mem _ he)) with rfl | he'
        · exact absurd (hq e he) (irrefl e)
        · exact he'

/-- Tables that answer every look-up alike are equal. -/
theorem ext_get? [Std.TransOrd κ] [Std.LawfulEqOrd κ] {d e : Dict κ ν}
    (h : ∀ k, d.get? k = e.get? k) : d = e := by
  have hentries : d.entries = e.entries :=
    entries_eq d.sorted e.sorted fun ⟨k, v⟩ => by
      rw [← get?_eq_some_iff, ← get?_eq_some_iff, h]
  cases d
  cases e
  cases hentries
  rfl

end Dict

end PeerTrade

import PeerTrade.Proofs.Cbor.Item

/-!
# Passing over well-formed items

`Item` says which bytes are a well-formed item, with heads of any width, texts in parts, tags, and
lists and maps of announced and of unannounced length inside each other. Every one of them is passed
over as a whole (`reads_skip`), whatever the reader's two counters and its stack say in between: on
the stack an item counts as one exactly (`Stepped.onStack`), as it does in the counters until a list
of unannounced length begins; within such a list the counters may fall short (`Left`), which does no
harm, since the list goes on until its stop (`Stepped.counted`).
-/

namespace PeerTrade.Cbor

/-! ## Well-formed items -/

/-- A byte string or text that is written in one part. -/
def Part (isText : Bytes → Prop) (cls : Nat) (b : Bytes) : Prop :=
  ∃ head content, Head cls content.length head ∧ (cls = 3 → isText content) ∧ b = head ++ content

/-- A well-formed item whose texts have a property. -/
inductive Item (isText : Bytes → Prop) : Bytes → Prop where
  /-- A whole number. -/
  | number {cls n : Nat} {b : Bytes} : cls = 0 ∨ cls = 1 → Head cls n b → Item isText b
  /-- A byte string or text in one part. -/
  | string {cls : Nat} {b : Bytes} : cls = 2 ∨ cls = 3 → Part isText cls b → Item isText b
  /-- A byte string or text in parts, up to a stop. -/
  | parts {cls : Nat} {parts : List Bytes} : cls = 2 ∨ cls = 3 →
      (∀ b ∈ parts, Part isText cls b) →
      Item isText (UInt8.ofNat (cls * 32 + 31) :: parts.flatten ++ [stop])
  /-- A list of announced length. -/
  | list {items : List Bytes} {head : Bytes} : Head 4 items.length head →
      (∀ b ∈ items, Item isText b) → Item isText (head ++ items.flatten)
  /-- A list up to a stop. -/
  | listToStop {items : List Bytes} :
      (∀ b ∈ items, Item isText b) → Item isText (0x9f :: items.flatten ++ [stop])
  /-- A map of announced length: keys and values in turn. -/
  | map {n : Nat} {items : List Bytes} {head : Bytes} : Head 5 n head → items.length = n * 2 →
      (∀ b ∈ items, Item isText b) → Item isText (head ++ items.flatten)
  /-- A map up to a stop. -/
  | mapToStop {n : Nat} {items : List Bytes} : items.length = n * 2 →
      (∀ b ∈ items, Item isText b) → Item isText (0xbf :: items.flatten ++ [stop])
  /-- An item behind a tag. -/
  | tag {n : Nat} {head b : Bytes} : Head 6 n head → Item isText b → Item isText (head ++ b)
  /-- A simple value or a number with a fraction. -/
  | simple {n : Nat} {b : Bytes} : Head 7 n b → Item isText b

/-- The UTF-8 form of a text. -/
def IsText (b : Bytes) : Prop := (Bytes.toText? b).isSome

instance : DecidablePred IsText := fun b =>
  inferInstanceAs (Decidable ((Bytes.toText? b).isSome = true))

variable {cls n : Nat} {b head : Bytes} {o o' o'' : Outstanding}

/-! ## One step -/

/-- The first bytes of items that are passed over with their argument. -/
theorem plain_iff (c : UInt8) :
    (c ≤ 0x1b || 0x20 ≤ c && c ≤ 0x3b || 0xe0 ≤ c && c ≤ 0xfb) = true ↔
      (major c = 0 ∨ major c = 1 ∨ major c = 7) ∧ info c < 28 := by
  have hc := toNat_eq c
  have hlt := c.toNat_lt
  simp only [Bool.or_eq_true, Bool.and_eq_true, decide_eq_true_eq, UInt8.le_iff_toNat_le]
  simp only [major, info] at hc ⊢
  show (c.toNat ≤ 27 ∨ 32 ≤ c.toNat ∧ c.toNat ≤ 59) ∨ 224 ≤ c.toNat ∧ c.toNat ≤ 251 ↔ _
  omega

theorem tag_iff (c : UInt8) :
    (0xc0 ≤ c && c ≤ 0xdb) = true ↔ major c = 6 ∧ info c < 28 := by
  have hlt := c.toNat_lt
  simp only [Bool.and_eq_true, decide_eq_true_eq, UInt8.le_iff_toNat_le]
  simp only [major, info]
  show 192 ≤ c.toNat ∧ c.toNat ≤ 219 ↔ _
  omega

theorem skipStep_plain (h : Head cls n b) (hcls : cls = 0 ∨ cls = 1 ∨ cls = 7) (o : Outstanding) :
    Reads (skipStep o) b o.itemDone := by
  obtain ⟨c, w, rfl, hmajor, hinfo, hread⟩ := h.exists_eq (by omega)
  intro rest
  have hplain := (plain_iff c).2 ⟨by rwa [hmajor], hinfo⟩
  show skipStep o (c :: (w ++ rest)) = _
  rw [skipStep, if_pos hplain]
  exact (hread.bind_nil (reads_pure o.itemDone)) rest

theorem skipStep_tag (h : Head 6 n b) (o : Outstanding) : Reads (skipStep o) b o := by
  obtain ⟨c, w, rfl, hmajor, hinfo, hread⟩ := h.exists_eq (by decide)
  intro rest
  have hplain := mt (plain_iff c).1 (by omega)
  show skipStep o (c :: (w ++ rest)) = _
  rw [skipStep, if_neg hplain, if_neg (by omega), if_neg (by omega), if_neg (by omega),
    if_neg (by omega), if_pos ((tag_iff c).2 ⟨hmajor, hinfo⟩)]
  exact (hread.bind_nil (reads_pure o)) rest

/-- A first byte of a string, list or map decides which step is taken. -/
theorem skipStep_of_major {c : UInt8} (hmajor : major c = cls) (rest : Bytes) (o : Outstanding) :
    (cls = 2 → skipStep o (c :: rest) =
      (skipString anyBytes 2 *> pure o.itemDone : Reader Outstanding) (c :: rest)) ∧
    (cls = 3 → skipStep o (c :: rest) =
      (skipString textBytes 3 *> pure o.itemDone : Reader Outstanding) (c :: rest)) ∧
    (cls = 4 → skipStep o (c :: rest) = skipSizeHead 4 1 o (c :: rest)) ∧
    (cls = 5 → skipStep o (c :: rest) = skipSizeHead 5 2 o (c :: rest)) := by
  subst hmajor
  have hplain : 2 ≤ major c → major c ≤ 5 →
      ¬(c ≤ 0x1b || 0x20 ≤ c && c ≤ 0x3b || 0xe0 ≤ c && c ≤ 0xfb) = true := fun _ _ =>
    mt (plain_iff c).1 (by omega)
  refine ⟨fun h => ?_, fun h => ?_, fun h => ?_, fun h => ?_⟩ <;>
    rw [skipStep, if_neg (hplain (by omega) (by omega))]
  · rw [if_pos h]
  · rw [if_neg (by omega), if_pos h]
  · rw [if_neg (by omega), if_neg (by omega), if_pos h]
  · rw [if_neg (by omega), if_neg (by omega), if_neg (by omega), if_pos h]

theorem reads_skipSizeHead (h : Reads (sizeHead cls) b (some n)) (weight : Nat)
    (o : Outstanding) :
    Reads (skipSizeHead cls weight o) b (o.beginSized (n * weight)).itemDone := by
  apply h.bind_nil
  exact reads_pure _

theorem skipStep_sized (h : Head cls n b) (hcls : cls = 4 ∨ cls = 5) (o : Outstanding) :
    Reads (skipStep o) b (o.beginSized (n * (cls - 3))).itemDone := by
  obtain ⟨c, w, rfl, hmajor, hinfo, hread⟩ := h.exists_eq (by omega)
  have hsize : Reads (sizeHead cls) (c :: w) (some n) := by
    apply reads_byte_bind
    rw [if_pos hmajor, if_neg (by omega)]
    exact hread.map some
  intro rest
  show skipStep o (c :: (w ++ rest)) = _
  rcases hcls with rfl | rfl
  · rw [(skipStep_of_major hmajor _ o).2.2.1 rfl]
    exact reads_skipSizeHead hsize 1 o rest
  · rw [(skipStep_of_major hmajor _ o).2.2.2 rfl]
    exact reads_skipSizeHead hsize 2 o rest

theorem skipStep_unsized (o : Outstanding) :
    Reads (skipStep o) [0x9f] o.beginUnsized.itemDone ∧
      Reads (skipStep o) [0xbf] o.beginUnsized.itemDone :=
  ⟨fun _ => rfl, fun _ => rfl⟩

theorem skipStep_stop (o : Outstanding) : Reads (skipStep o) [stop] o.endUnsized.itemDone :=
  fun _ => rfl

/-! ## Strings -/

variable {isText : Bytes → Prop}

/-- What a string of a class is checked for. -/
def check (cls : Nat) : Bytes → Reader Unit := if cls = 2 then anyBytes else textBytes

/-- A part of a string is taken as a whole and passes its check. -/
theorem Part.reads (h : Part IsText cls b) (hcls : cls = 2 ∨ cls = 3) :
    Reads (do check cls (← sized cls) : Reader Unit) b () ∧
      ∃ c w, b = c :: w ∧ major c = cls ∧ info c < 28 := by
  obtain ⟨head, content, hhead, htext, rfl⟩ := h
  obtain ⟨c, w, rfl, hmajor, hinfo, hread⟩ := hhead.exists_eq (by omega)
  refine ⟨?_, c, w ++ content, rfl, hmajor, hinfo⟩
  have hsized : Reads (sized cls) (c :: w ++ content) content := by
    apply reads_byte_bind
    rw [if_pos (by simp [hmajor]; omega)]
    exact hread.bind (reads_take content)
  have hcheck : Reads (check cls content) [] () := by
    rcases hcls with rfl | rfl
    · exact reads_pure ()
    · have hvalid : (Bytes.toText? content).isSome = true := htext rfl
      intro rest
      simp [check, textBytes, hvalid]
      rfl
  exact hsized.bind_nil hcheck

/-- Parts are read up to the stop. Each takes a byte at least, which is what the fuel counts. -/
theorem reads_chunks {parts : List Bytes} (h : ∀ b ∈ parts, Part IsText cls b)
    (hcls : cls = 2 ∨ cls = 3) {fuel : Nat} (hfuel : parts.flatten.length < fuel) :
    Reads (chunks (check cls) cls fuel) (parts.flatten ++ [stop]) () := by
  obtain ⟨fuel, rfl⟩ := Nat.exists_eq_add_one.2 (Nat.zero_lt_of_lt hfuel)
  induction parts generalizing fuel with
  | nil => exact fun _ => rfl
  | cons part parts ih =>
    have hpart := h part List.mem_cons_self
    obtain ⟨hread, c, w, rfl, hmajor, hinfo⟩ := hpart.reads hcls
    have hc : c ≠ stop := by
      rintro rfl
      have hstop : major stop = 7 := by decide
      omega
    simp only [List.flatten_cons, List.length_append, List.length_cons] at hfuel
    have hrest := ih (fun b hb => h b (List.mem_cons_of_mem _ hb)) (fuel - 1) (by omega)
    rw [Nat.sub_add_cancel (by omega)] at hrest
    have hboth := hread.bind (f := fun _ => chunks (check cls) cls fuel) hrest
    rw [bind_assoc] at hboth
    intro rest
    rw [List.flatten_cons, List.append_assoc (c :: w)]
    exact (if_neg hc).trans (hboth rest)

theorem Part.reads_skipString (h : Part IsText cls b) (hcls : cls = 2 ∨ cls = 3) :
    Reads (skipString (check cls) cls) b () := by
  obtain ⟨hread, c, w, rfl, hmajor, hinfo⟩ := h.reads hcls
  intro rest
  show skipString (check cls) cls (c :: (w ++ rest)) = _
  rw [skipString, if_neg (by omega)]
  exact hread rest

theorem reads_skipString_parts {parts : List Bytes} (h : ∀ b ∈ parts, Part IsText cls b)
    (hcls : cls = 2 ∨ cls = 3) :
    Reads (skipString (check cls) cls)
      (UInt8.ofNat (cls * 32 + 31) :: parts.flatten ++ [stop]) () := by
  intro rest
  show skipString (check cls) cls
    (UInt8.ofNat (cls * 32 + 31) :: (parts.flatten ++ [stop] ++ rest)) = _
  rw [skipString, if_pos (info_first (by omega) (by decide))]
  exact reads_chunks h hcls (by simp only [List.length_append]; omega) rest

theorem skipStep_string (hcls : cls = 2 ∨ cls = 3) (o : Outstanding) {c : UInt8} {w : Bytes}
    (hmajor : major c = cls) (h : Reads (skipString (check cls) cls) (c :: w) ()) :
    Reads (skipStep o) (c :: w) o.itemDone := by
  intro rest
  have hread := h.bind_nil (f := fun _ => pure o.itemDone) (reads_pure _) rest
  rcases hcls with rfl | rfl
  · exact ((skipStep_of_major hmajor _ o).1 rfl).trans hread
  · exact ((skipStep_of_major hmajor _ o).2.1 rfl).trans hread

/-! ## What the steps make of an item -/

/-- An item as the steps take it: as a whole, a tag first, or a head and then item by item. -/
inductive Stepped : Bytes → Prop where
  | whole {b : Bytes} : b ≠ [] → (∀ o, Reads (skipStep o) b o.itemDone) → Stepped b
  | tagged {head b : Bytes} : head ≠ [] → (∀ o, Reads (skipStep o) head o) → Stepped b →
      Stepped (head ++ b)
  | sized {head : Bytes} {items : List Bytes} : head ≠ [] →
      (∀ o, Reads (skipStep o) head (o.beginSized items.length).itemDone) →
      (∀ b ∈ items, Stepped b) → Stepped (head ++ items.flatten)
  | toStop {c : UInt8} {items : List Bytes} :
      (∀ o, Reads (skipStep o) [c] o.beginUnsized.itemDone) →
      (∀ b ∈ items, Stepped b) → Stepped ([c] ++ items.flatten ++ [stop])

theorem Item.stepped (h : Item IsText b) : Stepped b := by
  induction h with
  | number hcls h => exact .whole h.ne_nil (skipStep_plain h (by omega))
  | simple h => exact .whole h.ne_nil (skipStep_plain h (by omega))
  | string hcls h =>
    obtain ⟨-, c, w, rfl, hmajor, -⟩ := h.reads hcls
    exact .whole (List.cons_ne_nil c w) fun o =>
      skipStep_string hcls o hmajor (h.reads_skipString hcls)
  | @parts cls parts hcls h =>
    have hmajor : major (UInt8.ofNat (cls * 32 + 31)) = cls := major_first (by omega) (by decide)
    exact .whole (List.cons_ne_nil _ _) fun o =>
      skipStep_string hcls o hmajor (reads_skipString_parts h hcls)
  | @list items head h _ ih =>
    refine .sized h.ne_nil (fun o => ?_) ih
    have hstep := skipStep_sized h (.inl rfl) o
    rwa [Nat.mul_one] at hstep
  | @map n items head h hlength _ ih =>
    refine .sized h.ne_nil (fun o => ?_) ih
    rw [hlength]
    exact skipStep_sized h (.inr rfl) o
  | listToStop _ ih => exact .toStop (fun o => (skipStep_unsized o).1) ih
  | mapToStop _ _ ih => exact .toStop (fun o => (skipStep_unsized o).2) ih
  | tag h _ ih => exact .tagged h.ne_nil (skipStep_tag h) ih

/-! ## Passing over -/

/-- Some bytes lead from one reckoning of what is outstanding to another, with a step for each byte
at most. -/
def Passes (o : Outstanding) (b : Bytes) (o' : Outstanding) : Prop :=
  ∃ k ≤ b.length, ∀ fuel rest, skipAll (fuel + k) o (b ++ rest) = skipAll fuel o' rest

namespace Passes

theorem refl (o : Outstanding) : Passes o [] o := ⟨0, Nat.le_refl _, fun _ _ => rfl⟩

theorem trans {b' : Bytes} (h : Passes o b o') (h' : Passes o' b' o'') :
    Passes o (b ++ b') o'' := by
  obtain ⟨k, hk, hpass⟩ := h
  obtain ⟨k', hk', hpass'⟩ := h'
  refine ⟨k' + k, by rw [List.length_append]; omega, fun fuel rest => ?_⟩
  rw [← Nat.add_assoc, List.append_assoc, hpass, hpass']

theorem step (hfinished : o.finished = false) (hb : b ≠ []) (h : Reads (skipStep o) b o') :
    Passes o b o' := by
  refine ⟨1, List.length_pos_iff.2 hb, fun fuel rest => ?_⟩
  rw [skipAll, hfinished]
  show (skipStep o >>= fun o => skipAll fuel o) (b ++ rest) = _
  show (skipStep o (b ++ rest) >>= fun p => skipAll fuel p.1 p.2) = _
  rw [h rest]
  rfl

end Passes

/-- Items that lead one by one from a reckoning to the next lead through all of them. -/
theorem passes_flatten {l : List Bytes} {I : Nat → Outstanding → Prop}
    (h : ∀ b ∈ l, ∀ n o, I (n + 1) o → ∃ o', Passes o b o' ∧ I n o') {n : Nat}
    (ho : I (n + l.length) o) : ∃ o', Passes o l.flatten o' ∧ I n o' := by
  induction l generalizing o with
  | nil => exact ⟨o, .refl o, ho⟩
  | cons b l ih =>
    obtain ⟨o₁, hfirst, ho₁⟩ := h b List.mem_cons_self _ _ ho
    obtain ⟨o₂, hrest, ho₂⟩ := ih (fun b hb => h b (List.mem_cons_of_mem _ hb)) ho₁
    exact ⟨o₂, hfirst.trans hrest, ho₂⟩

/-! ## On the stack -/

/-- The reckoning when the stack decides. -/
def stacked (levels : List (Option Nat)) : Outstanding := ⟨0, 0, levels⟩

variable {levels : List (Option Nat)}

theorem finished_stacked (h : levels ≠ []) : (stacked levels).finished = false := by
  cases levels with
  | nil => exact absurd rfl h
  | cons => rfl

@[simp] theorem beginUnsized_stacked :
    (stacked levels).beginUnsized = stacked (none :: levels) := rfl

@[simp] theorem endUnsized_stacked :
    (stacked (none :: levels)).endUnsized = stacked levels := rfl

@[simp] theorem itemDone_stacked_none :
    (stacked (none :: levels)).itemDone = stacked (none :: levels) := by
  simp [stacked, Outstanding.itemDone, Outstanding.onStack]

@[simp] theorem itemDone_stacked_zero :
    (stacked (some 0 :: levels)).itemDone = (stacked levels).itemDone := by
  simp [stacked, Outstanding.itemDone, Outstanding.onStack]

@[simp] theorem itemDone_stacked_succ :
    (stacked (some (n + 1) :: levels)).itemDone = stacked (some n :: levels) := by
  simp [stacked, Outstanding.itemDone, Outstanding.onStack]

/-- Items in front of a stop close the list that is innermost on the stack. -/
theorem passes_toStop (levels : List (Option Nat)) {items : List Bytes}
    (h : ∀ b ∈ items, ∀ levels, levels ≠ [] →
      Passes (stacked levels) b (stacked levels).itemDone) :
    Passes (stacked (none :: levels)) (items.flatten ++ [stop]) (stacked levels).itemDone := by
  obtain ⟨o', hpass, rfl⟩ := passes_flatten (l := items)
    (I := fun _ o => o = stacked (none :: levels)) (n := 0) (fun b hb n o ho => by
      subst ho
      exact ⟨_, h b hb _ (List.cons_ne_nil _ _), itemDone_stacked_none⟩) rfl
  refine hpass.trans ?_
  exact .step (finished_stacked (List.cons_ne_nil _ _)) (List.cons_ne_nil _ _) (skipStep_stop _)

/-- On the stack every item counts as one, however it is made up. -/
theorem Stepped.onStack (h : Stepped b) (hlevels : levels ≠ []) :
    Passes (stacked levels) b (stacked levels).itemDone := by
  induction h generalizing levels with
  | whole hb hstep => exact .step (finished_stacked hlevels) hb (hstep _)
  | tagged hhead hstep _ ih =>
    exact (Passes.step (finished_stacked hlevels) hhead (hstep _)).trans (ih hlevels)
  | @sized head items hhead hstep _ ih =>
    have hbegin := Passes.step (finished_stacked hlevels) hhead (hstep _)
    -- with `n` members left, the reckoning is that of a list of `n` whose head has been read
    obtain ⟨o', hmembers, rfl⟩ := passes_flatten (l := items)
      (I := fun n o => o = (stacked (some n :: levels)).itemDone)
      (o := (stacked (some items.length :: levels)).itemDone) (n := 0) (fun b hb n o ho => by
        rw [itemDone_stacked_succ] at ho
        subst ho
        exact ⟨_, ih b hb (List.cons_ne_nil _ _), rfl⟩) (by rw [Nat.zero_add])
    rw [itemDone_stacked_zero] at hmembers
    exact hbegin.trans hmembers
  | @toStop first items hstep _ ih =>
    have hbegin := Passes.step (finished_stacked hlevels) (List.cons_ne_nil first []) (hstep _)
    rw [beginUnsized_stacked, itemDone_stacked_none] at hbegin
    rw [List.append_assoc]
    exact hbegin.trans (passes_toStop levels fun b hb levels hlevels => ih b hb hlevels)

/-! ## In the counters -/

theorem itemDone_counted (c s : Nat) :
    (⟨c, s, []⟩ : Outstanding).itemDone = ⟨c - 1, s, []⟩ := by
  unfold Outstanding.itemDone
  split
  next h =>
    have hzero : c = 0 := by simp_all [Outstanding.onStack]
    rw [hzero]
    rfl
  next => rfl

/-- In front of the stops of `s` open lists of unannounced length, `n` items are left at most. As
long as no such list is open the count is exact; within one it may fall short, which does no harm,
since the list goes on until its stop. -/
inductive Left (s n : Nat) : Outstanding → Prop where
  | counted {c : Nat} : c ≤ n → (s = 0 → c = n) → Left s n ⟨c, s, []⟩
  | listed {k : Nat} : k < n → (s = 0 → k + 1 = n) →
      Left s n (stacked (some k :: List.replicate s none))
  | unlisted : (s = 0 → n = 0) → Left s n (stacked (List.replicate s none))

namespace Left

variable {s : Nat}

/-- While items are left, either the counters decide or the stack does. -/
theorem counted_or_stacked (h : Left s (n + 1) o) :
    (∃ c ≤ n + 1, (s = 0 → c = n + 1) ∧ o = ⟨c, s, []⟩) ∨
      ∃ levels, levels ≠ [] ∧ o = stacked levels := by
  cases h with
  | counted hc hexact => exact .inl ⟨_, hc, hexact, rfl⟩
  | listed => exact .inr ⟨_, List.cons_ne_nil _ _, rfl⟩
  | unlisted hs => exact .inr ⟨_, by simpa using hs, rfl⟩

theorem not_onStack {c : Nat} (hexact : s = 0 → c = n + 1) :
    (⟨c, s, []⟩ : Outstanding).onStack = false := by
  have hcounted : ¬(c = 0 ∧ s = 0) := by omega
  simpa [Outstanding.onStack] using hcounted

theorem not_finished (h : Left s (n + 1) o) : o.finished = false := by
  obtain ⟨c, hc, hexact, rfl⟩ | ⟨levels, hlevels, rfl⟩ := h.counted_or_stacked
  · rw [Outstanding.finished, not_onStack hexact, Bool.false_and]
  · exact finished_stacked hlevels

theorem itemDone (h : Left s (n + 1) o) : Left s n o.itemDone := by
  cases h with
  | counted hc hexact =>
    rw [itemDone_counted]
    exact .counted (by omega) (by omega)
  | @listed k hk hexact =>
    cases k with
    | succ k =>
      rw [itemDone_stacked_succ]
      exact .listed (by omega) (by omega)
    | zero =>
      rw [itemDone_stacked_zero]
      cases s with
      | zero => exact .unlisted (by omega)
      | succ s =>
        rw [List.replicate_succ, itemDone_stacked_none]
        exact .unlisted (by omega)
  | unlisted hs =>
    obtain ⟨s, rfl⟩ := Nat.exists_eq_add_one.2 (Nat.pos_of_ne_zero fun h => by cases hs h)
    rw [List.replicate_succ, itemDone_stacked_none]
    exact .unlisted (by omega)

/-- The members of a list of announced length come on top of what is left. -/
theorem beginSized {c : Nat} (hc : c ≤ n + 1) (hexact : s = 0 → c = n + 1) (m : Nat) :
    Left s (n + m) ((⟨c, s, []⟩ : Outstanding).beginSized m).itemDone := by
  rw [Outstanding.beginSized, not_onStack hexact]
  show Left s (n + m) (⟨c + m, s, []⟩ : Outstanding).itemDone
  rw [itemDone_counted]
  exact .counted (by omega) (by omega)

/-- Within a list of unannounced length the count need not be exact. -/
theorem succ (h : Left (s + 1) n o) : Left (s + 1) (n + 1) o := by
  cases h with
  | counted hc _ => exact .counted (by omega) (by omega)
  | listed hk _ => exact .listed (by omega) (by omega)
  | unlisted _ => exact .unlisted (by omega)

/-- A stop ends the innermost list, which then counts as an item of what is around it. -/
theorem endUnsized (h : Left (s + 1) 0 o) (hlast : s = 0 → n = 0) :
    Left s n o.endUnsized.itemDone := by
  cases h with
  | @counted c hc _ =>
    obtain rfl := Nat.le_zero.1 hc
    show Left s n (⟨0, s, []⟩ : Outstanding).itemDone
    rw [itemDone_counted]
    exact .counted (Nat.zero_le _) (by omega)
  | listed hk => exact absurd hk (Nat.not_lt_zero _)
  | unlisted _ =>
    rw [List.replicate_succ, endUnsized_stacked]
    cases s with
    | zero => exact .unlisted hlast
    | succ s =>
      rw [List.replicate_succ, itemDone_stacked_none]
      exact .unlisted (by omega)

end Left

/-- An item counts as one. -/
theorem Stepped.counted {s : Nat} (h : Stepped b) (ho : Left s (n + 1) o) :
    ∃ o', Passes o b o' ∧ Left s n o' := by
  induction h generalizing s n o with
  | whole hb hstep => exact ⟨_, .step ho.not_finished hb (hstep o), ho.itemDone⟩
  | tagged hhead hstep _ ih =>
    obtain ⟨o', hpass, ho'⟩ := ih ho
    exact ⟨o', (Passes.step ho.not_finished hhead (hstep o)).trans hpass, ho'⟩
  | @sized head items hhead hstep hitems ih =>
    obtain ⟨c, hc, hexact, rfl⟩ | ⟨levels, hlevels, rfl⟩ := ho.counted_or_stacked
    · have hbegin := Passes.step ho.not_finished hhead (hstep _)
      have hmembers := Left.beginSized hc hexact items.length
      obtain ⟨o', hpass, ho'⟩ := passes_flatten (I := Left s) (fun b hb n o => ih b hb) hmembers
      exact ⟨o', hbegin.trans hpass, ho'⟩
    · exact ⟨_, (Stepped.sized hhead hstep hitems).onStack hlevels, ho.itemDone⟩
  | @toStop first items hstep hitems ih =>
    obtain ⟨c, hc, hexact, rfl⟩ | ⟨levels, hlevels, rfl⟩ := ho.counted_or_stacked
    · have hbegin := Passes.step ho.not_finished (List.cons_ne_nil first []) (hstep _)
      rw [Outstanding.beginUnsized, Left.not_onStack hexact] at hbegin
      by_cases hfew : c < 2
      · -- one more list is counted, and nothing is left in front of its stop
        have hopen : Left (s + 1) 0 (⟨c, s + 1, []⟩ : Outstanding).itemDone := by
          rw [itemDone_counted]
          exact .counted (by omega) (by omega)
        rw [if_neg (by decide), if_pos hfew] at hbegin
        obtain ⟨o', hpass, ho'⟩ := passes_flatten (l := items)
          (I := fun _ o => Left (s + 1) 0 o) (n := 0) (fun b hb _ o ho => ih b hb ho.succ) hopen
        have hstop := Passes.step ho'.succ.not_finished (List.cons_ne_nil stop []) (skipStep_stop _)
        exact ⟨_, (hbegin.trans hpass).trans hstop, ho'.endUnsized (by omega)⟩
      · -- the counters are moved to the stack
        have hmoved : Left s (n + 1) (stacked (some (c - 1) :: List.replicate s none)) :=
          .listed (by omega) (by omega)
        rw [if_neg (by decide), if_neg hfew, List.append_nil] at hbegin
        have hrest := passes_toStop (some (c - 1) :: List.replicate s none)
          fun b hb levels hlevels => (hitems b hb).onStack hlevels
        rw [List.append_assoc]
        exact ⟨_, (itemDone_stacked_none ▸ hbegin).trans hrest, hmoved.itemDone⟩
    · exact ⟨_, (Stepped.toStop hstep hitems).onStack hlevels, ho.itemDone⟩

theorem Left.finished (h : Left 0 0 o) : o.finished = true := by
  cases h with
  | counted _ hexact =>
    rw [hexact rfl]
    rfl
  | listed hk => exact absurd hk (Nat.not_lt_zero _)
  | unlisted => rfl

/-- A well-formed item is passed over as a whole. -/
theorem reads_skip (h : Item IsText b) : Reads skip b () := by
  obtain ⟨o', ⟨k, hk, hpass⟩, ho'⟩ := h.stepped.counted (s := 0) (n := 0) (o := {})
    (.counted (Nat.le_refl 1) fun _ => rfl)
  intro rest
  -- what is left of the fuel after the item is enough to see that nothing is outstanding
  obtain ⟨fuel, hfuel⟩ : ∃ fuel, (b ++ rest).length + 2 = fuel + 1 + k :=
    ⟨(b ++ rest).length + 1 - k, by rw [List.length_append]; omega⟩
  rw [skip, hfuel, hpass, skipAll, if_pos ho'.finished]
  rfl

end PeerTrade.Cbor

import PeerTrade.Proofs.Node.Ledger

/-!
# News of failed writes

A failed write is reported once for each of the requests that it covered, and is to be acted upon
once. All that a worker remembers of the failures that it has read is the one that it acted upon
last. This is enough as long as the requests are answered in order: of those that are answered
together only the oldest can be a repeated one, and what is remembered when its turn comes is about
another sequence or an earlier attempt (`Ledger.Batch`). So each failed write is news once, and no
sequence is written more often than the limit allows (`Ledger.Account.step`).
-/

namespace PeerTrade.Ledger

variable {limit a : UInt32} {v v' : Ledger} {last : Option (UInt64 × UInt32)} {s : UInt64}
  {e : UInt64 × UInt32} {u u' : List (UInt64 × UInt32)} {told : List UInt64}

/-! ## Reading one failure after the other -/

/-- Whether a failure tells nothing new, if another was acted upon last. -/
def knows (last : Option (UInt64 × UInt32)) (e : UInt64 × UInt32) : Bool :=
  last.any fun l => l.1 == e.1 && e.2 ≤ l.2

/-- Which of some failures are acted upon when they are read one after the other. -/
def news : Option (UInt64 × UInt32) → List (UInt64 × UInt32) → List (UInt64 × UInt32)
  | _, [] => []
  | last, e :: rest => if knows last e then news last rest else e :: news (some e) rest

/-- Which failure was acted upon last when some have been read. -/
def memory (last : Option (UInt64 × UInt32)) (u : List (UInt64 × UInt32)) :
    Option (UInt64 × UInt32) :=
  u.foldl (fun last e => if knows last e then last else some e) last

/-- What has been acted upon if this is what was remembered before and after. -/
def acted (last last' : Option (UInt64 × UInt32)) : List (UInt64 × UInt32) :=
  if last' = last then [] else last'.toList

theorem news_append (last : Option (UInt64 × UInt32)) (u u' : List (UInt64 × UInt32)) :
    news last (u ++ u') = news last u ++ news (memory last u) u' := by
  induction u generalizing last with
  | nil => rfl
  | cons e rest ih =>
    rw [List.cons_append, news, news, memory, List.foldl_cons]
    split
    · exact ih last
    · exact congrArg (e :: ·) (ih (some e))

theorem memory_append (last : Option (UInt64 × UInt32)) (u u' : List (UInt64 × UInt32)) :
    memory last (u ++ u') = memory (memory last u) u' :=
  List.foldl_append

theorem news_sublist (last : Option (UInt64 × UInt32)) (u : List (UInt64 × UInt32)) :
    (news last u).Sublist u := by
  induction u generalizing last with
  | nil => exact .slnil
  | cons e rest ih =>
    rw [news]
    split
    · exact (ih last).cons e
    · exact (ih (some e)).cons_cons e

theorem memory_cases (last : Option (UInt64 × UInt32)) (u : List (UInt64 × UInt32)) :
    memory last u = last ∨ ∃ e ∈ u, memory last u = some e := by
  induction u generalizing last with
  | nil => exact .inl rfl
  | cons e rest ih =>
    rw [memory, List.foldl_cons]
    split
    · exact (ih last).imp_right fun ⟨e', he', heq⟩ => ⟨e', List.mem_cons_of_mem _ he', heq⟩
    · rcases ih (some e) with hsame | ⟨e', he', heq⟩
      · exact .inr ⟨e, List.mem_cons_self, hsame⟩
      · exact .inr ⟨e', List.mem_cons_of_mem _ he', heq⟩

theorem knows_self (e : UInt64 × UInt32) : knows (some e) e = true := by
  simp [knows]

theorem not_knows_of_ne (h : ∀ l, last = some l → l.1 ≠ s) : knows last (s, a) = false := by
  cases last with
  | none => rfl
  | some l => simp [knows, h l rfl]

/-- Of what is read in one turn, that is acted upon which is remembered then. -/
theorem news_toList (last : Option (UInt64 × UInt32)) (o : Option (UInt64 × UInt32)) :
    news last o.toList = acted last (memory last o.toList) := by
  cases o with
  | none => simp [news, acted, memory]
  | some e =>
    by_cases hknows : knows last e = true
    · simp [news, acted, memory, hknows]
    · have hne : some e ≠ last := by
        rintro rfl
        exact hknows (knows_self e)
      simp [news, acted, memory, hknows, hne]

/-- A failure that is reported to all who waited for a write is news once. -/
theorem news_of_requests (hnew : knows last (s, a) = false) (n : Nat) :
    news last ((a :: List.replicate n 0).map (s, ·)) = [(s, a)] ∧
      memory last ((a :: List.replicate n 0).map (s, ·)) = some (s, a) := by
  -- the other requests were made at the first attempt, and no attempt comes before that
  have hzero : knows (some (s, a)) (s, 0) = true := by simp [knows]
  have hrest : news (some (s, a)) (List.replicate n (s, 0)) = [] ∧
      memory (some (s, a)) (List.replicate n (s, 0)) = some (s, a) := by
    induction n with
    | zero => exact ⟨rfl, rfl⟩
    | succ n ih =>
      rw [List.replicate_succ, news, memory, List.foldl_cons, if_pos hzero, if_pos hzero]
      exact ih
  have hnot : ¬knows last (s, a) = true := by simp [hnew]
  rw [List.map_cons, List.map_replicate, news, memory, List.foldl_cons, if_neg hnot, if_neg hnot]
  exact ⟨congrArg ((s, a) :: ·) hrest.1, hrest.2⟩

/-- Old news are not about the current snapshot, and do not hide its failure. -/
theorem Stale.news (h : v.Stale a u) :
    (∀ e ∈ news v.last u, e.1 ≠ v.current) ∧ knows (memory v.last u) (v.current, a) = false := by
  rcases h with ⟨hlast, hall⟩ | ⟨⟨b, hb, hlast⟩, hall⟩
  · refine ⟨fun e he => UInt64.ne_of_lt (hall e ((news_sublist _ _).subset he)), ?_⟩
    refine not_knows_of_ne fun l hl => ?_
    rcases memory_cases v.last u with hsame | ⟨e, he, heq⟩
    · rintro hcurrent
      refine hlast l.2 ?_
      rw [← hsame, hl, ← hcurrent]
    · obtain rfl := Option.some.inj (hl.symm.trans heq)
      exact UInt64.ne_of_lt (hall l he)
  · have hknows : knows v.last (v.current, 0) = true := by simp [knows, hlast]
    have hnone : Ledger.news v.last u = [] ∧ memory v.last u = v.last := by
      clear hb
      induction u with
      | nil => exact ⟨rfl, rfl⟩
      | cons e rest ih =>
        obtain rfl := hall e List.mem_cons_self
        rw [Ledger.news, memory, List.foldl_cons, if_pos hknows, if_pos hknows]
        exact ih fun e he => hall e (List.mem_cons_of_mem _ he)
    have hnot : ¬a ≤ b := UInt32.not_le.2 hb
    rw [hnone.1, hnone.2, hlast]
    exact ⟨fun e he => absurd he List.not_mem_nil, by simp [knows, hnot]⟩

/-! ## Accounts -/

/-- How many writes of a sequence have ended. -/
def tried (v : Ledger) (s : UInt64) : Nat := v.finished.countP (·.1 == s)

/-- The sequences that could not be written, in order. -/
def refused (v : Ledger) : List UInt64 := (v.finished.filter (!·.2)).map (·.1)

/-- Requests that are answered together. Only the oldest of them can be a repeated one, at the
attempt `a`, and there was an attempt for every write before. If the write fails, that is news, and
there are no other news of its sequence. -/
structure Batch (limit : UInt32) (v : Ledger) (p : UInt64 × List UInt32) (a : UInt32) : Prop where
  requests : ∃ n, p.2 = a :: List.replicate n 0
  limited : a ≤ limit
  used : v.tried p.1 ≤ a.toNat
  unknown : knows (memory v.last v.unread) (p.1, a) = false
  apart : ∀ e ∈ news v.last v.unread, e.1 ≠ p.1

/-- Each failed write has been acted upon, in order, or will be, and none of the sequences is
written too often. -/
structure Account (limit : UInt32) (v : Ledger) (told : List UInt64) : Prop where
  told : told ++ (news v.last v.unread).map (·.1) = v.refused
  due : ∀ a ∈ v.due, a ≤ limit ∧ v.tried v.current ≤ a.toNat
  pending : ∀ p, v.pending = some p →
    (∃ a, v.Batch limit p a) ∧ ∀ q, v.writing = some q → q.1 ≠ p.1
  writing : ∀ p, v.writing = some p → ∃ a, v.Batch limit p a
  news : ∀ e ∈ news v.last v.unread, v.tried e.1 ≤ e.2.toNat + 1
  bounded : ∀ s, v.tried s ≤ limit.toNat + 1

/-- What becomes of other requests does not matter, as long as there are no more news. -/
theorem Batch.of_same {p : UInt64 × List UInt32} (h : v.Batch limit p a)
    (hfinished : v'.finished = v.finished)
    (hmemory : memory v'.last v'.unread = memory v.last v.unread)
    (hnews : ∀ e ∈ news v'.last v'.unread, e ∈ news v.last v.unread) : v'.Batch limit p a where
  requests := h.requests
  limited := h.limited
  used := by
    rw [tried, hfinished]
    exact h.used
  unknown := hmemory ▸ h.unknown
  apart e he := h.apart e (hnews e he)

theorem tried_finish (v : Ledger) (p : UInt64 × List UInt32) (succeeded : Bool) (s : UInt64) :
    (v.finish p succeeded).tried s = v.tried s + if p.1 = s then 1 else 0 := by
  show (v.finished ++ [(p.1, succeeded)]).countP _ = _
  rw [List.countP_append, List.countP_singleton, tried]
  simp

theorem Within.tried_eq_zero {P : UInt64 → Prop} (h : v.Within P) (hs : ¬P s) : v.tried s = 0 :=
  List.countP_eq_zero.2 fun e he heq => hs (beq_iff_eq.1 heq ▸ h.finished e he)

/-- The attempt at which the current snapshot is handed in follows those that were used up, or it is
handed in together with what is pending. -/
theorem Account.joins (h : v.Account limit told)
    (hstate : v.Unhanded limit ∨ ∃ a₀, v.Handed limit a₀) {attempt : UInt32} {rest : List UInt32}
    (hdue : v.due = attempt :: rest) :
    rest = [] ∧ (∀ q, v.writing = some q → q.1 ≠ v.current) ∧
      ∃ a, v.Batch limit (v.current, v.pending.elim [] (·.2) ++ [attempt]) a := by
  rcases hstate with hunhanded | ⟨a₀, hhanded⟩
  · -- for the first time, perhaps beside what is pending of an older snapshot
    obtain ⟨rfl, rfl⟩ := hunhanded.eq_of_due hdue
    have hnone : v.tried v.current = 0 := hunhanded.older.tried_eq_zero (UInt64.lt_irrefl _)
    have hused (a : UInt32) : v.tried v.current ≤ a.toNat := hnone ▸ Nat.zero_le _
    refine ⟨rfl, fun q hq => UInt64.ne_of_lt (hunhanded.older.writing q hq), ?_⟩
    cases hpending : v.pending with
    | none =>
      obtain ⟨hapart, hunknown⟩ := (hunhanded.stale 0).news
      exact ⟨0, ⟨0, rfl⟩, UInt32.zero_le, hused 0, hunknown, hapart⟩
    | some p =>
      obtain ⟨b, n, hp, hle⟩ := hunhanded.pending p hpending
      obtain ⟨hapart, hunknown⟩ := (hunhanded.stale b).news
      refine ⟨b, ⟨n + 1, ?_⟩, hle, hused b, hunknown, hapart⟩
      simp [hp, List.replicate_succ']
  · -- once more, and then nothing else is under way
    obtain ⟨a, hcarries, hstale, hle, -⟩ :=
      hhanded.fares.carries fun hrest => by simp [hrest.due] at hdue
    cases hcarries with
    | due hone hpending hwriting =>
      rw [hone] at hdue
      cases hdue
      obtain ⟨hapart, hunknown⟩ := hstale.news
      have hused := (h.due attempt (by simp [hone])).2
      refine ⟨rfl, fun q hq => by simp [hwriting] at hq, attempt, ⟨0, ?_⟩, hle, hused, hunknown,
        hapart⟩
      simp [hpending]
    | pending hidle => simp [hidle] at hdue
    | writing hidle => simp [hidle] at hdue

/-! ## Steps -/

theorem Account.commit (h : v.Account limit told) (hnone : v.tried s = 0) :
    (v.commit s).Account limit told where
  told := h.told
  due a ha := by
    obtain rfl := List.mem_singleton.1 ha
    exact ⟨UInt32.zero_le, Nat.le_of_eq hnone⟩
  pending p hp := by
    obtain ⟨⟨a, hbatch⟩, hother⟩ := h.pending p hp
    exact ⟨⟨a, hbatch.of_same rfl rfl fun _ he => he⟩, hother⟩
  writing p hp := by
    obtain ⟨a, hbatch⟩ := h.writing p hp
    exact ⟨a, hbatch.of_same rfl rfl fun _ he => he⟩
  news := h.news
  bounded := h.bounded

theorem Account.handIn (h : v.Account limit told)
    (hstate : v.Unhanded limit ∨ ∃ a₀, v.Handed limit a₀) {attempt : UInt32} {rest : List UInt32}
    (hdue : v.due = attempt :: rest) : (v.handIn attempt rest).Account limit told := by
  obtain ⟨rfl, hother, a, hbatch⟩ := h.joins hstate hdue
  refine ⟨h.told, fun a ha => absurd ha List.not_mem_nil, fun p hp => ?_, fun p hp => ?_, h.news,
    h.bounded⟩
  · cases hp
    exact ⟨⟨a, hbatch.of_same rfl rfl fun _ he => he⟩, hother⟩
  · obtain ⟨a, hbatch⟩ := h.writing p hp
    exact ⟨a, hbatch.of_same rfl rfl fun _ he => he⟩

theorem Account.take (h : v.Account limit told) {p : UInt64 × List UInt32}
    (hpending : v.pending = some p) : (v.take p).Account limit told := by
  refine ⟨h.told, h.due, nofun, fun q hq => ?_, h.news, h.bounded⟩
  cases hq
  obtain ⟨⟨a, hbatch⟩, -⟩ := h.pending p hpending
  exact ⟨a, hbatch.of_same rfl rfl fun _ he => he⟩

/-- Of all the reports of a failed write the first one is news, behind those before. -/
theorem Batch.finish {p : UInt64 × List UInt32} (h : v.Batch limit p a) (succeeded : Bool) :
    Ledger.news v.last (v.finish p succeeded).unread =
        Ledger.news v.last v.unread ++ (if succeeded then [] else [(p.1, a)]) ∧
      memory v.last (v.finish p succeeded).unread =
        if succeeded then memory v.last v.unread else some (p.1, a) := by
  obtain ⟨n, hrequests⟩ := h.requests
  have hunread : (v.finish p succeeded).unread =
      v.unread ++ if succeeded then [] else (a :: List.replicate n 0).map (p.1, ·) := by
    rw [← hrequests]
    rfl
  rw [hunread, news_append, memory_append]
  cases succeeded with
  | true => exact ⟨rfl, rfl⟩
  | false =>
    obtain ⟨hnews, hmemory⟩ := news_of_requests h.unknown n
    exact ⟨congrArg _ hnews, hmemory⟩

/-- A write that ends is counted, and if it has failed, it is news. -/
theorem Account.finish (h : v.Account limit told)
    (hother : ∀ q, v.writing = some q → v.due ≠ [] → q.1 ≠ v.current) {p : UInt64 × List UInt32}
    (succeeded : Bool) (hwriting : v.writing = some p) :
    (v.finish p succeeded).Account limit told := by
  obtain ⟨a, hbatch⟩ := h.writing p hwriting
  obtain ⟨hnews, hmemory⟩ := hbatch.finish succeeded
  have hlimited := UInt32.le_iff_toNat_le.1 hbatch.limited
  have hused := hbatch.used
  -- the write does not count for what is due, pending or already news
  have hsame (s : UInt64) (hne : p.1 ≠ s) : (v.finish p succeeded).tried s = v.tried s := by
    simp [tried_finish, hne]
  have hone : (v.finish p succeeded).tried p.1 = v.tried p.1 + 1 := by simp [tried_finish]
  -- nor is there more to tell than of this sequence
  have hall {P : UInt64 × UInt32 → Prop} (hbefore : ∀ e ∈ Ledger.news v.last v.unread, P e)
      (hthis : P (p.1, a)) : ∀ e ∈ Ledger.news v.last (v.finish p succeeded).unread, P e := by
    rw [hnews]
    refine List.forall_mem_append.2 ⟨hbefore, fun e he => ?_⟩
    cases succeeded with
    | true => cases he
    | false => exact List.mem_singleton.1 he ▸ hthis
  exact {
    told := by
      show told ++ (Ledger.news v.last (v.finish p succeeded).unread).map (·.1) =
        ((v.finished ++ [(p.1, succeeded)]).filter _).map _
      rw [hnews, List.map_append, ← List.append_assoc, h.told, List.filter_append,
        List.map_append, refused]
      cases succeeded <;> rfl
    due := by
      intro b hb
      have hne := hother p hwriting (List.ne_nil_of_mem hb)
      exact ⟨(h.due b hb).1, (hsame v.current hne).symm ▸ (h.due b hb).2⟩
    pending := by
      intro q hq
      obtain ⟨⟨b, hbatch'⟩, hwritten⟩ := h.pending q hq
      have hne := hwritten p hwriting
      refine ⟨⟨b, hbatch'.requests, hbatch'.limited, (hsame q.1 hne).symm ▸ hbatch'.used, ?_,
        hall hbatch'.apart hne⟩, nofun⟩
      show knows (memory v.last (v.finish p succeeded).unread) _ = false
      rw [hmemory]
      split
      · exact hbatch'.unknown
      · exact not_knows_of_ne fun l hl => Option.some.inj hl ▸ hne
    writing := nofun
    news := by
      refine hall (fun e he => ?_) (hone.symm ▸ Nat.succ_le_succ hused)
      rw [hsame e.1 (Ne.symm (hbatch.apart e he))]
      exact h.news e he
    bounded := by
      intro s
      by_cases hs : p.1 = s
      · subst hs
        omega
      · rw [hsame s hs]
        exact h.bounded s }

/-- A failure that tells nothing new is read without consequence. -/
theorem Account.read_again (h : v.Account limit told) {rest : List (UInt64 × UInt32)}
    (hunread : v.unread = e :: rest) (hknows : knows v.last e = true) :
    Account limit { v with unread := rest } told := by
  have hnews : Ledger.news v.last rest = Ledger.news v.last v.unread := by
    rw [hunread, Ledger.news, if_pos hknows]
  have hmemory : memory v.last rest = memory v.last v.unread := by
    rw [hunread, memory, memory, List.foldl_cons, if_pos hknows]
  have hmem : ∀ e ∈ Ledger.news v.last rest, e ∈ Ledger.news v.last v.unread :=
    fun e he => hnews ▸ he
  refine ⟨?_, h.due, fun p hp => ?_, fun p hp => ?_, fun e he => h.news e (hmem e he), h.bounded⟩
  · rw [hnews]
    exact h.told
  · obtain ⟨⟨a, hb⟩, hother⟩ := h.pending p hp
    exact ⟨⟨a, hb.of_same rfl hmemory hmem⟩, hother⟩
  · obtain ⟨a, hb⟩ := h.writing p hp
    exact ⟨a, hb.of_same rfl hmemory hmem⟩

/-- A failure that is news is acted upon, and if the snapshot is handed in again, then at an attempt
that has not been used up. -/
theorem Account.read_news (h : v.Account limit told) (hwithin : ∀ e ∈ v.unread, e.1 ≤ v.current)
    {rest : List (UInt64 × UInt32)} (hunread : v.unread = e :: rest)
    (hknows : ¬knows v.last e = true) :
    Account limit { v with
      unread := rest
      last := some e
      due := if v.current ≤ e.1 && e.2 < limit then [e.2 + 1] else [] } (told ++ [e.1]) := by
  have hnews : Ledger.news v.last v.unread = e :: Ledger.news (some e) rest := by
    rw [hunread, Ledger.news, if_neg hknows]
  have hmemory : memory (some e) rest = memory v.last v.unread := by
    rw [hunread, memory, memory, List.foldl_cons, if_neg hknows]
  have hmem : ∀ e' ∈ Ledger.news (some e) rest, e' ∈ Ledger.news v.last v.unread := fun e' he' => by
    rw [hnews]
    exact List.mem_cons_of_mem _ he'
  refine ⟨?_, fun a ha => ?_, fun p hp => ?_, fun p hp => ?_, fun e' he' => h.news e' (hmem e' he'),
    h.bounded⟩
  · rw [List.append_assoc]
    show told ++ (e :: Ledger.news (some e) rest).map (·.1) = _
    rw [← hnews]
    exact h.told
  · -- there has been an attempt for every write, and this is the next one
    change a ∈ (if v.current ≤ e.1 && e.2 < limit then [e.2 + 1] else []) at ha
    split at ha
    next hagain =>
      obtain rfl := List.mem_singleton.1 ha
      obtain ⟨hle, hlt⟩ : v.current ≤ e.1 ∧ e.2 < limit := by simpa using hagain
      have hcurrent : e.1 = v.current :=
        UInt64.le_antisymm (hwithin e (hunread ▸ List.mem_cons_self)) hle
      have hsucc := toNat_succ_of_lt hlt
      have htried := h.news e (hnews ▸ List.mem_cons_self)
      refine ⟨UInt32.le_iff_toNat_le.2 ?_, ?_⟩
      · rw [hsucc]
        exact UInt32.lt_iff_toNat_lt.1 hlt
      · rw [hsucc, ← hcurrent]
        exact htried
    next => cases ha
  · obtain ⟨⟨a, hb⟩, hother⟩ := h.pending p hp
    exact ⟨⟨a, hb.of_same rfl hmemory hmem⟩, hother⟩
  · obtain ⟨a, hb⟩ := h.writing p hp
    exact ⟨a, hb.of_same rfl hmemory hmem⟩

theorem Account.read (h : v.Account limit told) (hwithin : ∀ e ∈ v.unread, e.1 ≤ v.current)
    {rest : List (UInt64 × UInt32)} (hunread : v.unread = e :: rest) :
    (hear limit { v with unread := rest } e).Account limit
      (told ++ (acted v.last (hear limit { v with unread := rest } e).last).map (·.1)) := by
  by_cases hknows : knows v.last e = true
  · have hsame : hear limit { v with unread := rest } e = { v with unread := rest } := if_pos hknows
    rw [hsame, acted, if_pos rfl, List.map_nil, List.append_nil]
    exact h.read_again hunread hknows
  · have hsame : hear limit { v with unread := rest } e = { v with
        unread := rest
        last := some e
        due := if v.current ≤ e.1 && e.2 < limit then [e.2 + 1] else [] } := if_neg hknows
    have hne : some e ≠ v.last := fun heq => hknows (heq ▸ knows_self e)
    rw [hsame, acted, if_neg hne]
    exact h.read_news hwithin hunread hknows

/-- Every sequence is at most the current one. -/
theorem within_of_state (hstate : v.Unhanded limit ∨ ∃ a₀, v.Handed limit a₀) :
    v.Within (· ≤ v.current) := by
  rcases hstate with hunhanded | ⟨a₀, hhanded⟩
  · exact hunhanded.older.mono fun s => UInt64.le_of_lt
  · exact hhanded.within

/-- Whatever happens, each failed write is acted upon in its turn. -/
theorem Account.step (h : v.Account limit told)
    (hstate : v.Unhanded limit ∨ ∃ a₀, v.Handed limit a₀) (hstep : v.Step limit v') :
    v'.Account limit (told ++ (acted v.last v'.last).map (·.1)) := by
  have hwithin := within_of_state hstate
  have hquiet (hlast : v'.last = v.last) (haccount : v'.Account limit told) :
      v'.Account limit (told ++ (acted v.last v'.last).map (·.1)) := by
    rwa [acted, if_pos hlast, List.map_nil, List.append_nil]
  cases hstep with
  | same => exact hquiet rfl h
  | commit _ hlt =>
    exact hquiet rfl (h.commit (hwithin.tried_eq_zero (UInt64.not_le.2 hlt)))
  | handIn hdue => exact hquiet rfl (h.handIn hstate hdue)
  | take hpending => exact hquiet rfl (h.take hpending)
  | finish succeeded hwriting =>
    refine hquiet rfl (h.finish (fun q hq hbusy => ?_) succeeded hwriting)
    obtain ⟨attempt, rest, hdue⟩ := List.exists_cons_of_ne_nil hbusy
    exact (h.joins hstate hdue).2.1 q hq
  | read _ hunread => exact h.read hwithin.unread hunread

theorem account_new (limit : UInt32) (sequence : UInt64) {due : List UInt32}
    (hdue : due = [] ∨ due = [0]) : Account limit { current := sequence, due } [] where
  told := rfl
  due a ha := by
    have hzero : a = 0 := by
      rcases hdue with rfl | rfl
      · cases ha
      · exact List.mem_singleton.1 ha
    exact ⟨hzero ▸ UInt32.zero_le, Nat.zero_le _⟩
  pending := nofun
  writing := nofun
  news := nofun
  bounded _ := Nat.zero_le _

end PeerTrade.Ledger

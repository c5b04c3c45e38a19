import Mathlib.Algebra.Group.Int.Defs
import PeerTrade.Cbor.Record
import PeerTrade.Proofs.Cbor.Head

/-!
# Reading back numbers, texts and lists

Every simple item is taken back by its own reader. The conditions are those of the heads: lengths
and numbers of members stay below two to the sixty-fourth, as they do for everything that fits
into the memory of a machine.
-/

namespace PeerTrade.Cbor

variable {α : Type} {read : Reader α} {b : Bytes} {a : α}

/-! ## Numbers -/

theorem le_of_major_eq_zero {c : UInt8} (hmajor : major c = 0) (hinfo : info c < 28) :
    c ≤ 0x1b := by
  have hc := toNat_eq c
  rw [UInt8.le_iff_toNat_le]
  show c.toNat ≤ 27
  omega

theorem between_of_major_eq_one {c : UInt8} (hmajor : major c = 1) (hinfo : info c < 28) :
    ¬c ≤ 0x1b ∧ 0x20 ≤ c ∧ c ≤ 0x3b := by
  have hc := toNat_eq c
  rw [UInt8.le_iff_toNat_le, UInt8.le_iff_toNat_le, UInt8.le_iff_toNat_le]
  show ¬c.toNat ≤ 27 ∧ 32 ≤ c.toNat ∧ c.toNat ≤ 59
  omega

theorem reads_natUpTo (bound : Nat) {n : Nat} (hn : n < 2 ^ 64) (hbound : n ≤ bound) :
    Reads (natUpTo bound) (ofNat n) n := by
  obtain ⟨c, w, hhead, hmajor, hinfo, hargument⟩ := exists_head_eq 0 (by decide) hn
  rw [ofNat, hhead]
  apply reads_byte_bind
  rw [if_pos (le_of_major_eq_zero hmajor hinfo)]
  apply hargument.bind_nil
  rw [if_pos hbound]
  exact reads_pure n

theorem reads_uint64 (n : UInt64) : Reads uint64 (ofNat n.toNat) n := by
  have hn : n.toNat < 2 ^ 64 := n.toNat_lt
  have hread := (reads_natUpTo _ hn (Nat.le_sub_one_of_lt n.toNat_lt_size)).map UInt64.ofNat
  rwa [UInt64.ofNat_toNat] at hread

theorem reads_uint32 (n : UInt32) : Reads uint32 (ofNat n.toNat) n := by
  have hn : n.toNat < 2 ^ 64 := Nat.lt_trans n.toNat_lt (by decide)
  have hread := (reads_natUpTo _ hn (Nat.le_sub_one_of_lt n.toNat_lt_size)).map UInt32.ofNat
  rwa [UInt32.ofNat_toNat] at hread

theorem reads_signedInt_ofNat (bits : Nat) {n : Nat} (hn : n < 2 ^ 64)
    (hbound : n < 2 ^ (bits - 1)) :
    Reads (signedInt bits) (ofNat n) n := by
  obtain ⟨c, w, hhead, hmajor, hinfo, hargument⟩ := exists_head_eq 0 (by decide) hn
  -- the first byte alone tells the sign
  have hc : c ≤ 0x1b := le_of_major_eq_zero hmajor hinfo
  rw [ofNat, hhead]
  apply reads_byte_bind
  rw [if_pos (by simp [hc])]
  apply hargument.bind_nil
  rw [Nat.one_shiftLeft, if_pos hbound, if_pos hc]
  exact reads_pure _

theorem reads_signedInt_of_neg (bits : Nat) {n : Nat} (hn : n < 2 ^ 64)
    (hbound : n < 2 ^ (bits - 1)) :
    Reads (signedInt bits) (head 1 n) (-1 - n) := by
  obtain ⟨c, w, hhead, hmajor, hinfo, hargument⟩ := exists_head_eq 1 (by decide) hn
  obtain ⟨hpositive, hnegative⟩ := between_of_major_eq_one hmajor hinfo
  rw [hhead]
  apply reads_byte_bind
  rw [if_pos (by simp [hnegative])]
  apply hargument.bind_nil
  rw [Nat.one_shiftLeft, if_pos hbound, if_neg hpositive]
  exact reads_pure _

theorem reads_signedInt (bits : Nat) {i : Int} (hbits : bits ≤ 64) (hlow : -2 ^ (bits - 1) ≤ i)
    (hhigh : i < 2 ^ (bits - 1)) : Reads (signedInt bits) (ofInt i) i := by
  have hpow : 2 ^ (bits - 1) ≤ 2 ^ 63 := Nat.pow_le_pow_right (by decide) (by omega)
  have hcast : ((2 ^ (bits - 1) : Nat) : Int) = 2 ^ (bits - 1) := by simp
  unfold ofInt
  split
  next hpos =>
    have hread := reads_signedInt_ofNat bits (n := i.toNat) (by omega) (by omega)
    rwa [Int.toNat_of_nonneg hpos] at hread
  next hneg =>
    -- negative numbers count downwards from minus one
    have hread := reads_signedInt_of_neg bits (n := (-1 - i).toNat) (by omega) (by omega)
    rwa [Int.toNat_of_nonneg (by omega), show -1 - (-1 - i) = i by omega] at hread

theorem reads_int64 (n : Int64) : Reads int64 (ofInt n.toInt) n := by
  have hread := (reads_signedInt 64 (by decide) n.le_toInt n.toInt_lt).map Int64.ofInt
  rwa [Int64.ofInt_toInt] at hread

theorem reads_int32 (n : Int32) : Reads int32 (ofInt n.toInt) n := by
  have hread := (reads_signedInt 32 (by decide) n.le_toInt n.toInt_lt).map Int32.ofInt
  rwa [Int32.ofInt_toInt] at hread

/-! ## Truth values and texts -/

theorem reads_bool (v : Bool) : Reads bool (ofBool v) v := by
  intro rest
  cases v <;> rfl

theorem reads_sized {cls : Nat} (hcls : cls < 8) (hb : b.length < 2 ^ 64) :
    Reads (sized cls) (head cls b.length ++ b) b := by
  obtain ⟨c, w, hhead, hmajor, hinfo, hargument⟩ := exists_head_eq cls hcls hb
  have hstop : info c ≠ 31 := by omega
  rw [hhead]
  apply reads_byte_bind
  rw [if_pos (by simp [hmajor, hstop])]
  exact hargument.bind (reads_take b)

theorem reads_text {s : String} (hs : s.utf8ByteSize < 2 ^ 64) : Reads text (ofText s) s := by
  apply (reads_sized (by decide) (by rwa [Bytes.length_ofText])).bind_nil
  rw [Bytes.toText?_ofText]
  exact reads_pure s

/-! ## Lists -/

theorem reads_sizeHead {cls n : Nat} (hcls : cls < 8) (hn : n < 2 ^ 64) :
    Reads (sizeHead cls) (head cls n) (some n) := by
  obtain ⟨c, w, hhead, hmajor, hinfo, hargument⟩ := exists_head_eq cls hcls hn
  have hstop : info c ≠ 31 := by omega
  rw [hhead]
  apply reads_byte_bind
  rw [if_pos hmajor, if_neg hstop]
  exact hargument.map some

theorem reads_items {β : Type} {write : β → Bytes} {f : β → α} {l : List β}
    (h : ∀ b ∈ l, Reads read (write b) (f b)) :
    Reads (items read l.length) (l.flatMap write) (l.map f) := by
  induction l with
  | nil => exact reads_pure []
  | cons b rest ih =>
    have hrest := ih fun b' hb' => h b' (List.mem_cons_of_mem _ hb')
    rw [List.flatMap_cons]
    apply (h b List.mem_cons_self).bind
    exact hrest.bind_nil (reads_pure _)

theorem reads_list {β : Type} {write : β → Bytes} {f : β → α} {l : List β} (hl : l.length < 2 ^ 64)
    (h : ∀ b ∈ l, Reads read (write b) (f b)) : Reads (list read) (ofList write l) (l.map f) :=
  (reads_sizeHead (by decide) hl).bind (reads_items h)

/-! ## Options -/

/-- Bytes that do not look like a missing value. A negative number does not begin like this
either, so that one byte is enough to tell. -/
def Present (b : Bytes) : Prop := ∃ c w, b = c :: w ∧ c ≠ 0xf6 ∧ isWideNegative c = false

theorem present_head {cls n : Nat} (hcls : cls = 3 ∨ cls = 4) (hn : n < 2 ^ 64) (b : Bytes) :
    Present (head cls n ++ b) := by
  obtain ⟨c, w, hhead, hmajor, hinfo, -⟩ := exists_head_eq cls (by omega) hn
  have hc := toNat_eq c
  refine ⟨c, w ++ b, by rw [hhead]; rfl, ?_, ?_⟩
  · -- the byte of a missing value is of class seven
    rintro rfl
    change 246 = _ at hc
    omega
  · have hlarge : ¬c ≤ 0x3b := by
      rw [UInt8.le_iff_toNat_le]
      show ¬c.toNat ≤ 59
      omega
    simp [isWideNegative, hlarge]

theorem reads_option_null (read : Reader α) : Reads (option read) null none := fun _ => rfl

theorem reads_option_some (hpresent : Present b) (h : Reads read b a) :
    Reads (option read) b (some a) := by
  obtain ⟨c, w, rfl, hnull, hwide⟩ := hpresent
  intro rest
  have hpeek : peek (c :: w ++ rest) = .ok (c, c :: w ++ rest) := by
    simp [peek, hwide]
  -- looking at the first byte takes nothing, so the member is read from the start
  show (peek (c :: w ++ rest) >>= fun p => (if p.1 = 0xf6 then _ else _ : Reader _) p.2) = _
  rw [hpeek]
  show (if c = 0xf6 then _ else some <$> read : Reader _) (c :: w ++ rest) = _
  rw [if_neg hnull]
  exact (h.map some) rest

end PeerTrade.Cbor

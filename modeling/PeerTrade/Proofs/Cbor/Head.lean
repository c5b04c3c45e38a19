import Mathlib.Algebra.Group.Nat.Defs
import PeerTrade.Cbor.Head

/-!
# Reading back heads

A reader takes a value back if it finds the value's bytes in front of any rest and leaves that
rest (`Reads`). Readers in sequence read sequences of bytes, so that each stored form is taken
back part by part.
-/

namespace PeerTrade

namespace Bytes

/-! ## Numbers in big-endian form -/

theorem foldl_ofNat (width n start : Nat) :
    (ofNat width n).foldl (fun n d => n * 256 + d.toNat) start =
      start * 256 ^ width + n % 256 ^ width := by
  induction width generalizing start with
  | zero => simp [ofNat, Nat.mod_one]
  | succ width ih =>
    -- the first digit and the number behind it make up the remainder
    have hdigit : (UInt8.ofNat (n >>> (8 * width))).toNat = n / 256 ^ width % 256 := by
      rw [UInt8.toNat_ofNat', Nat.shiftRight_eq_div_pow, Nat.pow_mul]
    have hmod : n % 256 ^ (width + 1) = n / 256 ^ width % 256 * 256 ^ width + n % 256 ^ width := by
      rw [Nat.pow_succ, Nat.mod_mul, Nat.mul_comm, Nat.add_comm]
    rw [ofNat, List.foldl_cons, ih, hdigit, hmod, Nat.add_mul, Nat.pow_succ, Nat.mul_assoc,
      Nat.mul_comm 256, Nat.add_assoc]

theorem toNat_ofNat {width n : Nat} (h : n < 256 ^ width) : toNat (ofNat width n) = n := by
  rw [toNat, foldl_ofNat, Nat.zero_mul, Nat.zero_add, Nat.mod_eq_of_lt h]

end Bytes

namespace Cbor

/-! ## Reading back -/

/-- A reader takes a value back from its bytes, whatever stands behind them. -/
def Reads {α : Type} (read : Reader α) (b : Bytes) (a : α) : Prop :=
  ∀ rest, read (b ++ rest) = .ok (a, rest)

variable {α β : Type} {read : Reader α} {b b' : Bytes} {a : α}

theorem reads_pure (a : α) : Reads (pure a) [] a := fun _ => rfl

/-- A reader takes only one value back from the same bytes. -/
theorem Reads.unique {a' : α} (h : Reads read b a) (h' : Reads read b a') : a = a' := by
  have hboth : (.ok (a, []) : Except Fault (α × Bytes)) = .ok (a', []) := by
    rw [← h [], h' []]
  cases hboth
  rfl

theorem Reads.bind {f : α → Reader β} {a' : β} (h : Reads read b a) (h' : Reads (f a) b' a') :
    Reads (read >>= f) (b ++ b') a' := by
  intro rest
  show (read (b ++ b' ++ rest) >>= fun p => f p.1 p.2) = _
  rw [List.append_assoc, h]
  exact h' rest

theorem Reads.bind_nil {f : α → Reader β} {a' : β} (h : Reads read b a)
    (h' : Reads (f a) [] a') : Reads (read >>= f) b a' := by
  have hseq := h.bind h'
  rwa [List.append_nil] at hseq

theorem Reads.map (f : α → β) (h : Reads read b a) : Reads (f <$> read) b (f a) := by
  intro rest
  show (fun p : α × Bytes => (f p.1, p.2)) <$> read (b ++ rest) = _
  rw [h]
  rfl

theorem reads_byte_bind {f : UInt8 → Reader α} {c : UInt8} (h : Reads (f c) b a) :
    Reads (byte >>= f) (c :: b) a := h

theorem reads_take (b : Bytes) : Reads (take b.length) b b := by
  intro rest
  simp [take]

/-! ## Heads -/

theorem toNat_eq (c : UInt8) : c.toNat = major c * 32 + info c := by
  rw [major, info]
  omega

theorem major_first {cls k : Nat} (hcls : cls < 8) (hk : k < 32) :
    major (UInt8.ofNat (cls * 32 + k)) = cls := by
  have hlt : cls * 32 + k < 2 ^ 8 := by omega
  simp only [major, UInt8.toNat_ofNat', Nat.mod_eq_of_lt hlt]
  omega

theorem info_first {cls k : Nat} (hcls : cls < 8) (hk : k < 32) :
    info (UInt8.ofNat (cls * 32 + k)) = k := by
  have hlt : cls * 32 + k < 2 ^ 8 := by omega
  simp only [info, UInt8.toNat_ofNat', Nat.mod_eq_of_lt hlt]
  omega

theorem reads_argument_wide {n width : Nat} (h : n < 256 ^ width) :
    Reads (Bytes.toNat <$> take width) (Bytes.ofNat width n) n := by
  have hread := (reads_take (Bytes.ofNat width n)).map Bytes.toNat
  rwa [Bytes.length_ofNat, Bytes.toNat_ofNat h] at hread

/-- A head of a class with an argument, not necessarily the shortest one. -/
inductive Head (cls n : Nat) : Bytes → Prop where
  | short : n < 24 → Head cls n [UInt8.ofNat (cls * 32 + n)]
  | one : n < 256 ^ 1 → Head cls n (UInt8.ofNat (cls * 32 + 24) :: Bytes.ofNat 1 n)
  | two : n < 256 ^ 2 → Head cls n (UInt8.ofNat (cls * 32 + 25) :: Bytes.ofNat 2 n)
  | four : n < 256 ^ 4 → Head cls n (UInt8.ofNat (cls * 32 + 26) :: Bytes.ofNat 4 n)
  | eight : n < 256 ^ 8 → Head cls n (UInt8.ofNat (cls * 32 + 27) :: Bytes.ofNat 8 n)

/-- A head is a first byte of its class and the bytes that the short argument announces. -/
theorem Head.exists_eq {cls n : Nat} (h : Head cls n b) (hcls : cls < 8) :
    ∃ c w, b = c :: w ∧ major c = cls ∧ info c < 28 ∧ Reads (argument (info c)) w n := by
  have hwide (k : Nat) (w : Bytes) (hk : k < 28) (hread : Reads (argument k) w n) :
      ∃ c w', UInt8.ofNat (cls * 32 + k) :: w = c :: w' ∧ major c = cls ∧ info c < 28 ∧
        Reads (argument (info c)) w' n := by
    refine ⟨_, w, rfl, major_first hcls (by omega), ?_, ?_⟩
    · rwa [info_first hcls (by omega)]
    · rwa [info_first hcls (by omega)]
  cases h with
  | short h => exact hwide n [] (by omega) (by rw [argument, if_pos h]; exact reads_pure n)
  | one h => exact hwide 24 _ (by decide) (reads_argument_wide h)
  | two h => exact hwide 25 _ (by decide) (reads_argument_wide h)
  | four h => exact hwide 26 _ (by decide) (reads_argument_wide h)
  | eight h => exact hwide 27 _ (by decide) (reads_argument_wide h)

theorem head_head (cls : Nat) {n : Nat} (hn : n < 2 ^ 64) : Head cls n (head cls n) := by
  unfold head
  split
  next h => exact .short h
  split
  next h => exact .one h
  split
  next h => exact .two h
  split
  next h => exact .four h
  next => exact .eight hn

theorem Head.ne_nil {cls n : Nat} (h : Head cls n b) : b ≠ [] := by cases h <;> simp

/-- The first byte and the rest of what is written as a head. -/
theorem exists_head_eq (cls : Nat) {n : Nat} (hcls : cls < 8) (hn : n < 2 ^ 64) :
    ∃ c w, head cls n = c :: w ∧ major c = cls ∧ info c < 28 ∧ Reads (argument (info c)) w n :=
  (head_head cls hn).exists_eq hcls

end Cbor

end PeerTrade

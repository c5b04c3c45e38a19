import PeerTrade.Commitment
import Mathlib.Data.List.Basic

/-!
# What a commitment binds

The verifier accepts one signature for a handle and a payload: the commitment. Whether that
commitment also holds for another handle or another payload depends on whether the two can be
recovered from the bytes that the digest is taken of, a handle, a zero byte and a payload.

They can be when no handle contains a zero character. A handle is any text, though, and one that
contains a zero character can be split there: what stands behind the zero character can as well be
the beginning of a payload under the shorter handle. Two pairs have the same bytes exactly when
they are equal or arise from each other in this way.

Nothing is assumed of the digest in general, where collisions exist. What is said about two pairs
assumes of their own bytes that they do not collide.
-/

namespace PeerTrade

/-! ## Texts that begin with a text -/

namespace Bytes

@[simp] theorem ofText_append (s t : String) : ofText (s ++ t) = ofText s ++ ofText t := by
  simp [ofText]

/-- What stands behind characters in a text is a text. -/
theorem isValidUTF8_of_append (l : List Char) {b : ByteArray}
    (h : (l.utf8Encode ++ b).IsValidUTF8) : b.IsValidUTF8 := by
  induction l with
  | nil => simpa using h
  | cons c l ih =>
    rw [List.utf8Encode_cons, ByteArray.append_assoc] at h
    exact ih (ByteArray.isValidUTF8_utf8Encode_singleton_append_iff.1 h)

/-- If the bytes of a text begin with those of another, then so do the texts. -/
theorem exists_of_ofText_eq_append {s t : String} {rest : Bytes}
    (h : ofText t = ofText s ++ rest) : ∃ u : String, t = s ++ u ∧ rest = ofText u := by
  have hbytes : t.toByteArray = s.toByteArray ++ ⟨rest.toArray⟩ := by
    apply ByteArray.ext
    rw [ByteArray.data_append, ← Array.toList_inj, Array.toList_append]
    exact h
  have hvalid : (⟨rest.toArray⟩ : ByteArray).IsValidUTF8 := by
    apply isValidUTF8_of_append s.toList
    rw [← String.toByteArray_ofList, String.ofList_toList, ← hbytes]
    exact t.isValidUTF8
  have hrest : rest = ofText (String.fromUTF8 _ hvalid) := rfl
  refine ⟨String.fromUTF8 _ hvalid, ofText_inj ?_, hrest⟩
  rw [ofText_append, ← hrest, h]

end Bytes

namespace Commitment

/-! ## Which signatures hold -/

/-- The commitment is the one signature that the verifier accepts. -/
theorem accepts_iff (signer : Peer) (payload signature : Bytes) :
    verifier.accepts signer payload signature = true ↔ signature = commit signer payload := by
  have hnonempty : Sha256.digest (preimage signer payload) ≠ [] := by
    rw [← List.length_pos_iff, Sha256.length_digest]
    decide
  constructor
  · intro h
    simp only [verifier, Sha256.hexDigest, Bool.and_eq_true, beq_iff_eq] at h
    exact Bytes.hex_inj h.2
  · rintro rfl
    simp [verifier, Sha256.hexDigest, commit, hnonempty]

theorem accepts_commit (signer : Peer) (payload : Bytes) :
    verifier.accepts signer payload (commit signer payload) = true :=
  (accepts_iff signer payload _).2 rfl

/-! ## What can be recovered -/

theorem ofText_zero : Bytes.ofText "\x00" = [0] := by decide

/-- The second handle is the first one, a zero character and a rest, and the first payload is that
rest, a zero byte and the second payload. -/
def Splits (s : Peer) (p : Bytes) (s' : Peer) (p' : Bytes) : Prop :=
  ∃ rest : String, s'.handle = s.handle ++ "\x00" ++ rest ∧ p = Bytes.ofText rest ++ 0 :: p'

theorem Splits.preimage_eq {s s' : Peer} {p p' : Bytes} (h : Splits s p s' p') :
    preimage s p = preimage s' p' := by
  obtain ⟨rest, hhandle, hpayload⟩ := h
  simp [preimage, hhandle, hpayload, ofText_zero]

/-- Where the bytes of two pairs are the same, one handle's bytes begin with the other's: the
handles are equal, or the longer one is split. -/
theorem eq_or_splits {s s' : Peer} {p p' more : Bytes}
    (hhandle : Bytes.ofText s'.handle = Bytes.ofText s.handle ++ more)
    (hpayload : 0 :: p = more ++ 0 :: p') : s = s' ∧ p = p' ∨ Splits s p s' p' := by
  cases more with
  | nil =>
    have hsame : s'.handle = s.handle := Bytes.ofText_inj (by simpa using hhandle)
    exact .inl ⟨congrArg Peer.mk hsame.symm, by simpa using hpayload⟩
  | cons b rest =>
    obtain ⟨rfl, hp⟩ := List.cons.inj hpayload
    have hbytes : Bytes.ofText s'.handle = Bytes.ofText (s.handle ++ "\x00") ++ rest := by
      rw [hhandle, Bytes.ofText_append, ofText_zero, List.append_assoc, List.singleton_append]
    obtain ⟨u, hu, rfl⟩ := Bytes.exists_of_ofText_eq_append hbytes
    exact .inr ⟨u, hu, hp⟩

/-- A handle that has been split contains a zero character. -/
theorem Splits.zero_mem {s s' : Peer} {p p' : Bytes} (h : Splits s p s' p') :
    '\x00' ∈ s'.handle.toList := by
  obtain ⟨rest, hhandle, -⟩ := h
  simp [hhandle]

/-- Two pairs have the same bytes exactly when they are equal or the handle of one is split. -/
theorem preimage_eq_iff {s s' : Peer} {p p' : Bytes} :
    preimage s p = preimage s' p' ↔ s = s' ∧ p = p' ∨ Splits s p s' p' ∨ Splits s' p' s p := by
  constructor
  · intro h
    obtain ⟨more, hlong, htail⟩ | ⟨more, hlong, htail⟩ := List.append_eq_append_iff.1 h
    · obtain heq | hsplit := eq_or_splits hlong htail
      · exact .inl heq
      · exact .inr (.inl hsplit)
    · obtain heq | hsplit := eq_or_splits hlong htail
      · exact .inl ⟨heq.1.symm, heq.2.symm⟩
      · exact .inr (.inr hsplit)
  · rintro (⟨rfl, rfl⟩ | h | h)
    · rfl
    · exact h.preimage_eq
    · exact h.preimage_eq.symm

/-! ## What is bound -/

/-- A commitment of one pair that is checked for another, if the bytes of the two do not collide.
It holds exactly when the pairs are equal or the handle of one can be split; so it binds both
handle and payload unless a handle contains a zero character. In any case it is the only signature
that holds for its own pair. -/
theorem commit_binds {s s' : Peer} {p p' : Bytes}
    (hcollision : Sha256.digest (preimage s p) = Sha256.digest (preimage s' p') →
      preimage s p = preimage s' p') :
    (verifier.accepts s' p' (commit s p) = true ↔
      s = s' ∧ p = p' ∨ Splits s p s' p' ∨ Splits s' p' s p) ∧
    ('\x00' ∉ s.handle.toList → '\x00' ∉ s'.handle.toList →
      (verifier.accepts s' p' (commit s p) = true ↔ s = s' ∧ p = p')) ∧
    ∀ signature, verifier.accepts s p signature = true ↔ signature = commit s p := by
  have hholds : verifier.accepts s' p' (commit s p) = true ↔
      s = s' ∧ p = p' ∨ Splits s p s' p' ∨ Splits s' p' s p := by
    rw [accepts_iff, ← preimage_eq_iff]
    exact ⟨hcollision, fun h => congrArg Sha256.digest h⟩
  refine ⟨hholds, fun hs hs' => hholds.trans ⟨?_, .inl⟩, accepts_iff s p⟩
  rintro (heq | hsplit | hsplit)
  · exact heq
  · exact absurd hsplit.zero_mem hs'
  · exact absurd hsplit.zero_mem hs

/-- What one peer has committed to is not signed by another. -/
theorem commit_of_alice_is_not_of_bob :
    Sha256.digest (preimage ⟨"peer_alice"⟩ (.ofText "deposit-tx")) ≠
        Sha256.digest (preimage ⟨"peer_bob"⟩ (.ofText "deposit-tx")) ∧
      verifier.accepts ⟨"peer_bob"⟩ (.ofText "deposit-tx")
        (commit ⟨"peer_alice"⟩ (.ofText "deposit-tx")) = false := by
  have hdigest : Sha256.digest (preimage ⟨"peer_alice"⟩ (.ofText "deposit-tx")) ≠
      Sha256.digest (preimage ⟨"peer_bob"⟩ (.ofText "deposit-tx")) := by decide +kernel
  obtain ⟨-, hbinds, -⟩ := commit_binds fun h => absurd h hdigest
  refine ⟨hdigest, Bool.eq_false_iff.2 fun h => ?_⟩
  obtain ⟨hsigner, -⟩ := (hbinds (by decide) (by decide)).1 h
  exact absurd hsigner (by decide)

/-- Where a handle is split, one commitment holds for two peers and two payloads. -/
theorem commit_holds_twice :
    verifier.accepts ⟨"a\x00b"⟩ [99] (commit ⟨"a"⟩ [98, 0, 99]) = true ∧
      (⟨"a\x00b"⟩ : Peer) ≠ ⟨"a"⟩ ∧ ([99] : Bytes) ≠ [98, 0, 99] := by
  refine ⟨?_, by decide, by decide⟩
  rw [accepts_iff]
  exact congrArg Sha256.digest (by decide)

end Commitment

end PeerTrade

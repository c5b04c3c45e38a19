import PeerTrade.Proofs.Cbor.Record
import PeerTrade.Wire.Terms

/-!
# Reading back terms

Terms are taken back from their stored form, whatever parts of them are set. A text has to be one
that fits into the memory of a machine (`Fits`), which is all that is asked of any text.
-/

namespace PeerTrade

open Cbor

/-! ## Texts -/

theorem Bytes.length_hexChars (b : Bytes) : (hexChars b).length = 2 * b.length := by
  induction b with
  | nil => rfl
  | cons d rest ih =>
    rw [hexChars, List.length_cons, List.length_cons, List.length_cons, ih]
    omega

/-- A text whose length a machine of sixty-four bits can hold. -/
def Fits (s : String) : Prop := s.utf8ByteSize < 2 ^ 64

instance (s : String) : Decidable (Fits s) := inferInstanceAs (Decidable (_ < _))

theorem utf8ByteSize_ofList_le (l : List Char) :
    (String.ofList l).utf8ByteSize ≤ 4 * l.length := by
  induction l with
  | nil => exact Nat.le_refl 0
  | cons c rest ih =>
    have hc : c.utf8Size ≤ 4 := c.utf8Size_le_four
    rw [String.ofList_cons, String.utf8ByteSize_append, String.utf8ByteSize_singleton,
      List.length_cons]
    omega

theorem fits_hexDigest (m : Bytes) : Fits (Sha256.hexDigest m) := by
  -- sixty-four digits of at most four bytes each
  have hsize := utf8ByteSize_ofList_le (Bytes.hexChars (Sha256.digest m))
  rw [Bytes.length_hexChars, Sha256.length_digest] at hsize
  exact Nat.lt_of_le_of_lt hsize (by decide)

theorem present_ofText {s : String} (hs : Fits s) : Present (ofText s) :=
  present_head (.inl rfl) (by rwa [Bytes.length_ofText]) _

/-! ## Parts -/

theorem Amount.reads_decode (a : Amount) : Reads decode a.encode a := by
  cases a with
  | baseFixed n => exact reads_choice (by decide) rfl (reads_form₁ baseFixed (reads_uint64 n))
  | quoteFixed n => exact reads_choice (by decide) rfl (reads_form₁ quoteFixed (reads_uint64 n))
  | baseRange min max =>
    exact reads_choice (by decide) rfl
      (reads_form₂ baseRange (reads_uint64 min) (reads_uint64 max))
  | quoteRange min max =>
    exact reads_choice (by decide) rfl
      (reads_form₂ quoteRange (reads_uint64 min) (reads_uint64 max))

theorem Amount.present_encode (a : Amount) : Present a.encode := by
  cases a <;> exact present_ofForm _ _

theorem Price.reads_decode (p : Price) : Reads decode p.encode p := by
  cases p with
  | market => exact reads_choice (by decide) rfl (reads_emptyForm market)
  | fixed price => exact reads_choice (by decide) rfl (reads_form₁ fixed (reads_uint64 price))
  | float points => exact reads_choice (by decide) rfl (reads_form₁ float (reads_int32 points))

theorem Price.present_encode (p : Price) : Present p.encode := by
  cases p <;> exact present_ofForm _ _

/-- The texts in a rail. -/
def Rail.texts : Rail → List String
  | custom name => [name]
  | _ => []

theorem Rail.reads_decode {r : Rail} (htexts : ∀ s ∈ r.texts, Fits s) :
    Reads decode r.encode r := by
  cases r with
  | custom name =>
    have hname : Fits name := htexts name List.mem_cons_self
    exact reads_choice (by decide) rfl (reads_form₁ custom (reads_text hname))
  | _ => exact reads_choice (by decide) rfl (reads_emptyForm _)

namespace Method

/-- The texts in a payment method. -/
def texts (m : Method) : List String := m.rail.texts ++ m.currency :: m.country.toList

theorem reads_decode {m : Method} (htexts : ∀ s ∈ m.texts, Fits s) :
    Reads decode m.encode m := by
  have hrail : ∀ s ∈ m.rail.texts, Fits s := fun s hs =>
    htexts s (List.mem_append_left _ hs)
  have hcurrency : Fits m.currency :=
    htexts _ (List.mem_append_right _ List.mem_cons_self)
  have hcountry : ∀ s, m.country = some s → Fits s := fun s hs =>
    htexts s (List.mem_append_right _ (List.mem_cons_of_mem _ (by simp [hs])))
  have hfields : ReadsFields Fields.read 0 {}
      [some m.rail.encode, some (ofText m.currency), m.country.map ofText]
      ⟨some m.rail, some m.currency, m.country⟩ := by
    refine .note (f := fun rail => ⟨some rail, none, none⟩) rfl (Rail.reads_decode hrail)
      (.note (f := fun currency => ⟨some m.rail, some currency, none⟩) rfl (reads_text hcurrency)
        (.maybe (f := fun country => ⟨some m.rail, some m.currency, country⟩) rfl rfl ?_
          (.nil 3 _)))
    intro s hs
    exact ⟨present_ofText (hcountry s hs), reads_text (hcountry s hs)⟩
  apply (hfields.reads_record (by simp)).bind_nil
  exact (reads_require m.rail).bind_nil ((reads_require m.currency).bind_nil (reads_pure _))

theorem present_encode (m : Method) : Present m.encode := present_ofFields (by simp)

end Method

/-! ## Terms -/

namespace Terms

/-- The texts in terms. -/
def texts (t : Terms) : List String :=
  t.base.toList ++ t.quote.toList ++ t.method.toList.flatMap Method.texts

theorem reads_decode {t : Terms} (htexts : ∀ s ∈ t.texts, Fits s) : Reads decode t.encode t := by
  have hbase : ∀ s, t.base = some s → Fits s := fun s hs => htexts s (by simp [texts, hs])
  have hquote : ∀ s, t.quote = some s → Fits s := fun s hs => htexts s (by simp [texts, hs])
  have hmethod : ∀ m, t.method = some m → ∀ s ∈ m.texts, Fits s := fun m hm s hs =>
    htexts s (by simp [texts, hm, hs])
  obtain ⟨base, quote, amount, price, method⟩ := t
  have hfields : ReadsFields readPart 0 {}
      [base.map ofText, quote.map ofText, amount.map Amount.encode, price.map Price.encode,
        method.map Method.encode] ⟨base, quote, amount, price, method⟩ := by
    -- each part is read into terms that hold the parts in front of it
    refine .maybe (f := fun base => ⟨base, none, none, none, none⟩) rfl rfl ?_
      (.maybe (f := fun quote => ⟨base, quote, none, none, none⟩) rfl rfl ?_
        (.maybe (f := fun amount => ⟨base, quote, amount, none, none⟩) rfl rfl ?_
          (.maybe (f := fun price => ⟨base, quote, amount, price, none⟩) rfl rfl ?_
            (.maybe (f := fun method => ⟨base, quote, amount, price, method⟩) rfl rfl ?_
              (.nil 5 _)))))
    · intro s hs
      exact ⟨present_ofText (hbase s hs), reads_text (hbase s hs)⟩
    · intro s hs
      exact ⟨present_ofText (hquote s hs), reads_text (hquote s hs)⟩
    · intro a _
      exact ⟨a.present_encode, a.reads_decode⟩
    · intro p _
      exact ⟨p.present_encode, p.reads_decode⟩
    · intro m hm
      exact ⟨m.present_encode, Method.reads_decode (hmethod m hm)⟩
  exact hfields.reads_record (by simp)

/-! ## One form for one value -/

/-- The stored form leaves nothing about terms open: two terms with the same form are equal, in every
part that is set and in every part that is not. -/
theorem encode_inj {s t : Terms} (hs : ∀ x ∈ s.texts, Fits x) (ht : ∀ x ∈ t.texts, Fits x) :
    s.encode = t.encode ↔ s = t := by
  constructor
  · intro h
    have hread : Reads decode s.encode t := by
      rw [h]
      exact reads_decode ht
    exact (reads_decode hs).unique hread
  · intro h
    rw [h]

/-- Terms with the same fingerprint are equal, unless their stored forms collide. -/
theorem fingerprint_inj {s t : Terms} (hs : ∀ x ∈ s.texts, Fits x) (ht : ∀ x ∈ t.texts, Fits x)
    (hdigest : Sha256.digest s.encode = Sha256.digest t.encode → s.encode = t.encode) :
    s.fingerprint = t.fingerprint ↔ s = t := by
  constructor
  · intro h
    have hforms : s.encode = t.encode := hdigest (Bytes.hex_inj h)
    exact (encode_inj hs ht).1 hforms
  · intro h
    rw [h]

end Terms

end PeerTrade

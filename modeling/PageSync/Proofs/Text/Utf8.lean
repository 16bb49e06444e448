import PageSync.Text.Utf8

/-! # Characters and bytes

A character takes one byte if it is an ASCII character, and else several that
are all no ASCII characters. So an ASCII byte in the encoding of a text is a
character of the text, with the encodings of what stands before and behind it
on either side. The byte behind it starts a character.
-/

namespace PageSync.Text.Utf8

theorem encode_eq_flatMap (text : String) :
    encode text = text.toList.flatMap String.utf8EncodeChar := by
  have hbytes : text.toByteArray = text.toList.utf8Encode := by
    have hlist := @String.toByteArray_ofList text.toList
    rwa [String.ofList_toList] at hlist
  rw [encode, String.toUTF8_eq_toByteArray, hbytes, List.utf8Encode]
  simp

theorem encode_injective {text other : String} (h : encode text = encode other) :
    text = other := by
  rw [encode, encode, String.toUTF8_eq_toByteArray, String.toUTF8_eq_toByteArray] at h
  apply String.toByteArray_inj.mp
  exact ByteArray.ext (Array.toList_inj.mp h)

/-- The bytes behind the first byte of a character are no ASCII characters, and the first one is
that character alone or lies above all bytes that stand behind a first one. -/
theorem exists_encodeChar (c : Char) : ∃ first more, String.utf8EncodeChar c = first :: more ∧
    (∀ b ∈ more, 128 ≤ b.toNat) ∧
    (first.toNat < 128 ∧ more = [] ∧ first.toNat = c.toNat ∨ 192 ≤ first.toNat) := by
  have hc : c.val.toNat = c.toNat := rfl
  simp only [String.utf8EncodeChar, hc]
  split
  next => exact ⟨_, _, rfl, by simp, Or.inl ⟨by simp; omega, rfl, by simp; omega⟩⟩
  next =>
    split
    next => exact ⟨_, _, rfl, by simp; omega, by simp; omega⟩
    next =>
      split
      next => exact ⟨_, _, rfl, by simp; omega, by simp; omega⟩
      next => exact ⟨_, _, rfl, by simp; omega, by simp; omega⟩

/-- An ASCII byte in an encoding stands for a character. -/
theorem exists_append_of_flatMap {a : Char} {b : UInt8} (hb : b.toNat < 128)
    (ha : a.toNat = b.toNat) {chars : List Char} {front back : List UInt8}
    (h : chars.flatMap String.utf8EncodeChar = front ++ b :: back) :
    ∃ before after, chars = before ++ a :: after ∧
      before.flatMap String.utf8EncodeChar = front ∧
      after.flatMap String.utf8EncodeChar = back := by
  induction chars generalizing front with
  | nil => simp at h
  | cons c chars ih =>
      obtain ⟨first, more, hencode, hmore, hfirst⟩ := exists_encodeChar c
      rw [List.flatMap_cons, hencode] at h
      cases front with
      | nil =>
          obtain ⟨rfl, hrest⟩ := List.cons.inj h
          obtain ⟨-, rfl, hvalue⟩ := hfirst.resolve_right (by omega)
          have hchar : c = a := Char.toNat_inj.mp (by omega)
          exact ⟨[], chars, by rw [hchar]; rfl, rfl, hrest⟩
      | cons x front =>
          obtain ⟨rfl, hrest⟩ := List.cons.inj h
          rcases List.append_eq_append_iff.mp hrest with
            ⟨rest, hfront, htail⟩ | ⟨rest, hsplit, htail⟩
          · obtain ⟨before, after, rfl, hbefore, hafter⟩ := ih htail
            refine ⟨c :: before, after, rfl, ?_, hafter⟩
            rw [List.flatMap_cons, hencode, hbefore, hfront]
            rfl
          · cases rest with
            | nil =>
                obtain ⟨before, after, rfl, hbefore, hafter⟩ := @ih [] htail.symm
                refine ⟨c :: before, after, rfl, ?_, hafter⟩
                rw [List.flatMap_cons, hencode, hbefore, hsplit, List.append_nil, List.append_nil]
            | cons y rest =>
                -- the byte would stand inside the character
                obtain ⟨rfl, -⟩ := List.cons.inj htail
                have hlarge := hmore b (hsplit ▸ List.mem_append_right _ List.mem_cons_self)
                omega

/-- Behind an ASCII byte stands the first byte of a character. -/
theorem lt_or_le_of_encode_eq_append {text : String} {a b : UInt8} {front back : List UInt8}
    (ha : a.toNat < 128) (h : encode text = front ++ a :: b :: back) :
    b.toNat < 128 ∨ 192 ≤ b.toNat := by
  have hchar : (Char.ofNat a.toNat).toNat = a.toNat := by
    rw [Char.ofNat, dif_pos (Or.inl (by omega))]
    rfl
  rw [encode_eq_flatMap] at h
  obtain ⟨-, after, -, -, hafter⟩ := exists_append_of_flatMap ha hchar h
  cases after with
  | nil => simp at hafter
  | cons c after =>
      obtain ⟨first, more, hencode, -, hfirst⟩ := exists_encodeChar c
      rw [List.flatMap_cons, hencode] at hafter
      obtain ⟨rfl, -⟩ := List.cons.inj hafter
      exact hfirst.imp_left And.left

end PageSync.Text.Utf8

import PageSync.Deflate.Delivery
import PageSync.Proofs.Deflate.Stored

/-! # Reading stored members

A member of stored blocks is read whole, or as far as a cut lets it, and then
the fault is one after which none of the output is lost.
-/

namespace PageSync.Deflate

open Gzip

theorem littleEndian_toLittleEndian (width n : Nat) :
    littleEndian (toLittleEndian width n) = n % 256 ^ width := by
  induction width generalizing n with
  | zero => rw [Nat.pow_zero, Nat.mod_one]; rfl
  | succ width ih =>
      have hcons : littleEndian (toLittleEndian (width + 1) n) =
          (UInt8.ofNat n).toNat + 256 * littleEndian (toLittleEndian width (n / 256)) := rfl
      rw [hcons, ih, UInt8.toNat_ofNat', Nat.pow_succ' (m := 256) (n := width)]
      exact Nat.mod_mul.symm

theorem takeExactly_append {count : Nat} {front : List UInt8} (hfront : front.length = count)
    (rest : List UInt8) : takeExactly count (front ++ rest) = .ok (front, rest) := by
  subst hfront
  rw [takeExactly, List.take_left, List.drop_left, if_pos rfl]

theorem takeExactly_of_short {count : Nat} {bytes : List UInt8} (h : bytes.length < count) :
    takeExactly count bytes = .error .unexpectedEnd := by
  have hlength : (bytes.take count).length ≠ count := by
    rw [List.length_take]
    omega
  rw [takeExactly, if_neg hlength]

section Frame

variable (member : StoredMember)

theorem skipHeader_header (rest : List UInt8) :
    skipHeader (member.header ++ rest) = .ok rest := by
  have hreadable : isReadable member.header = true := rfl
  have hflags : member.header.getD 3 0 = 0 := rfl
  have hskip (flag : UInt8) (skip : List UInt8 → Except Cause (List UInt8)) :
      whenSet 0 flag skip rest = .ok rest := if_pos (UInt8.zero_and)
  rw [skipHeader, takeExactly_append member.length_header]
  simp only [bind, Except.bind, hreadable, hflags, hskip, if_true]

theorem checkTrailer_trailer (rest : List UInt8) :
    checkTrailer member.payload (member.trailer ++ rest) = .ok rest := by
  have hsum := UInt32.toNat_lt (~~~(member.payload.foldl Crc32.addBits 0xFFFFFFFF))
  rw [checkTrailer, StoredMember.trailer, List.append_assoc,
    takeExactly_append (length_toLittleEndian 4 _)]
  simp only [bind, Except.bind]
  rw [takeExactly_append (length_toLittleEndian 4 _)]
  simp only [littleEndian_toLittleEndian, Crc32.checksum_eq]
  exact if_pos ⟨Nat.mod_eq_of_lt hsum, rfl⟩

end Frame

theorem skipHeader_of_short {bytes : List UInt8} (h : bytes.length < 10) :
    skipHeader bytes = .error .unexpectedEnd := by
  rw [skipHeader, takeExactly_of_short h]
  rfl

theorem checkTrailer_of_short {bytes : List UInt8} (h : bytes.length < 8) (output : List UInt8) :
    checkTrailer output bytes = .error .unexpectedEnd := by
  rcases Nat.lt_or_ge bytes.length 4 with hshort | hlong
  · rw [checkTrailer, takeExactly_of_short hshort]
    rfl
  · have hsplit := takeExactly_append (List.length_take_of_le hlong) (bytes.drop 4)
    have hrest : (bytes.drop 4).length < 4 := by
      rw [List.length_drop]
      omega
    rw [List.take_append_drop] at hsplit
    rw [checkTrailer, hsplit]
    simp only [bind, Except.bind, takeExactly_of_short hrest]

/-! ## Nothing is lost at a cut -/

theorem lastFilled_lt {size : Nat} (hsize : 0 < size) : Stretch.lastFilled size < size := by
  have hle := Nat.div_mul_le_self (size - 1) windowSize
  rw [Stretch.lastFilled]
  omega

theorem contentOf_take_succ {data : List (UInt8 × Bool)} {n : Nat}
    (hmark : (data[n]?).any Prod.snd = false) :
    contentOf (data.take (n + 1)) = contentOf (data.take n) := by
  rw [List.take_add_one, contentOf_append]
  cases hn : data[n]? with
  | none => exact List.append_nil _
  | some entry =>
      rw [hn, Option.any_some] at hmark
      simp [contentOf, hmark]

/-- Stored data that break off have not been used up when decoding paused: either the byte in front
of the cut was compressed, and stays where it is until there is room, or there is as much output
without it. -/
theorem breaksOffPaused_take {blocks : List StoredBlock} {last : StoredBlock} {n : Nat}
    (hn : n < (storedData blocks last).length) (bytes : List UInt8)
    (rest : Except Cause (List UInt8)) :
    Member.breaksOffPaused ⟨bytes, bytesOf ((storedData blocks last).take n),
      contentOf ((storedData blocks last).take n), rest⟩ = false := by
  set data := storedData blocks last
  rw [Member.breaksOffPaused, Bool.and_eq_false_iff]
  rcases Nat.eq_zero_or_pos (contentOf (data.take n)).length with hempty | hpos
  · left
    simp only [hempty]
    rfl
  · right
    cases n with
    | zero => exact absurd hpos (Nat.lt_irrefl 0)
    | succ n =>
        have hshorter : (bytesOf (data.take (n + 1))).take n = bytesOf (data.take n) := by
          rw [← bytesOf_take, List.take_take, Nat.min_eq_left (Nat.le_succ n)]
        have hinflate := inflate_take_storedData blocks last (Nat.lt_of_succ_lt hn)
        simp only [Stretch.isUsedUp, length_bytesOf, List.length_take_of_le (Nat.le_of_lt hn),
          Nat.add_sub_cancel, hshorter]
        rw [hinflate, faultAt]
        cases hmark : (data[n]?).any Prod.snd with
        | true => rfl
        | false =>
            rw [contentOf_take_succ hmark] at hpos ⊢
            have hlt := lastFilled_lt hpos
            have hsize : (#[].appendList (contentOf (data.take n))).size =
                (contentOf (data.take n)).length := by
              simp
            exact decide_eq_false (by rw [hsize]; omega)

/-! ## Members that are read -/

/-- What was read of a member is lost neither now nor when the file ends with it. -/
def Member.EndsEarly (member : Member) : Prop :=
  member.rest = .error .unexpectedEnd ∨
    member.rest = .error .incompleteData ∧ member.breaksOffPaused = false

section Read

variable (member : StoredMember)

theorem toList_appendList_empty (bytes : List UInt8) : (#[].appendList bytes).toList = bytes := by
  simp

/-- A whole member gives what was compressed, and what is behind it. -/
theorem readMember_marked (rest : List UInt8) :
    (readMember (bytesOf member.marked ++ rest)).output = member.payload ∧
      (readMember (bytesOf member.marked ++ rest)).rest = .ok rest := by
  rw [readMember, StoredMember.bytesOf_marked, List.append_assoc, List.append_assoc,
    skipHeader_header]
  simp only [StoredMember.data, inflate_storedData, toList_appendList_empty, Bits.align,
    Bits.ofBytes]
  rw [← StoredMember.data, member.contentOf_data, checkTrailer_trailer]
  exact ⟨rfl, rfl⟩

/-- A member that is cut gives the compressed bytes in front of the cut. -/
theorem readMember_take {n : Nat} (hpos : 0 < n) (hn : n < member.marked.length) :
    (readMember (bytesOf (member.marked.take n))).output = contentOf (member.marked.take n) ∧
      (readMember (bytesOf (member.marked.take n))).EndsEarly := by
  refine member.cut_cases (motive := fun read => (readMember (bytesOf read)).output =
    contentOf read ∧ (readMember (bytesOf read)).EndsEarly) ?_ ?_ ?_ hpos hn
  · intro n _ hn
    have hshort : (member.header.take n).length < 10 := by
      rw [List.length_take, member.length_header] at *
      omega
    rw [bytesOf_frame, contentOf_frame, readMember, skipHeader_of_short hshort]
    exact ⟨rfl, Or.inl rfl⟩
  · intro n hn
    have hinflate := inflate_take_storedData member.blocks member.last hn
    have hpaused := breaksOffPaused_take hn
    rw [bytesOf_append, contentOf_append, bytesOf_frame, contentOf_frame, List.nil_append,
      readMember, skipHeader_header]
    have hfault : faultAt member.data n = .storedIncomplete ∨
        faultAt member.data n = .incomplete := by
      rw [faultAt]
      exact ite_eq_or_eq _ _ _
    rw [← StoredMember.data] at hinflate hpaused
    rcases hfault with hfault | hfault <;> rw [hfault] at hinflate <;>
      simp only [hinflate, toList_appendList_empty, true_and] <;>
      exact Or.inr ⟨rfl, hpaused _ _⟩
  · intro n hn
    have hshort : (member.trailer.take n).length < 8 := by
      rw [member.length_trailer] at hn
      rw [List.length_take]
      omega
    simp only [bytesOf_append, contentOf_append, bytesOf_frame, contentOf_frame, List.nil_append,
      List.append_nil]
    rw [readMember, skipHeader_header]
    simp only [StoredMember.data, inflate_storedData, toList_appendList_empty, Bits.align,
      Bits.ofBytes, checkTrailer_of_short hshort, true_and]
    exact Or.inl rfl

end Read

end PageSync.Deflate

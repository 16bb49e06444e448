import PageSync.Index.Read
import PageSync.Proofs.Deflate.Decoder
import PageSync.Proofs.Gzip.Stored

/-! # Compressed files that are cut

A file of stored members is decompressed to what was compressed, by any decoder
that reads stored members. If it is cut anywhere behind the two bytes that mark
it, it is decompressed to exactly the compressed bytes in front of the cut, over
all its members and blocks. Only if there are none, and the cut is not at the
end of a member, is it an error.
-/

namespace PageSync

namespace Gzip

namespace ReadsStored

variable [Decoder] {members : List StoredMember} {n : Nat}

/-- A member that is cut gives the stored bytes in front of the cut, and a fault. -/
theorem breaksOff (h : ReadsStored) (member : StoredMember) (hpos : 0 < n)
    (hn : n < member.marked.length) :
    (Decoder.read (bytesOf (member.marked.take n))).BreaksOff
      (contentOf (member.marked.take n)) := by
  refine member.cut_cases (motive := fun read =>
    (Decoder.read (bytesOf read)).BreaksOff (contentOf read)) ?_ ?_ ?_ hpos hn
  · intro n hpos hn
    rw [bytesOf_frame, contentOf_frame]
    exact h.header member hpos hn
  · intro n hn
    obtain ⟨front, block, isLast, m, hm, htake⟩ :=
      exists_block_of_lt member.blocks member.last hn
    rw [bytesOf_append, contentOf_append, bytesOf_frame, contentOf_frame, List.nil_append,
      StoredMember.data, htake]
    exact h.data member front block isLast hm
  · intro n hn
    simp only [bytesOf_append, contentOf_append, bytesOf_frame, contentOf_frame, List.nil_append,
      List.append_nil, member.contentOf_data]
    exact h.trailer member hn

/-- A file that is cut gives the stored bytes in front of the cut, over all its members. -/
theorem covers (h : ReadsStored) (hpos : 0 < n) (hn : n ≤ (storedFile members).length) :
    (Decoder.read (bytesOf ((storedFile members).take n))).Covers members n := by
  refine cut_induction (motive := fun members n =>
    (Decoder.read (bytesOf ((storedFile members).take n))).Covers members n) ?_ ?_ ?_ hpos hn
  · intro member members n hpos hn
    obtain ⟨houtput, hfault⟩ := h.breaksOff member hpos hn
    rw [take_storedFile_of_le (Nat.le_of_lt hn)]
    refine ⟨?_, iff_of_false hfault (not_endsMember_of_lt hpos hn)⟩
    rw [houtput, take_storedFile_of_le (Nat.le_of_lt hn)]
  · intro member members
    rw [take_storedFile_of_le (Nat.le_refl _), List.take_length, h.whole]
    refine ⟨?_, iff_of_true rfl (endsMember_marked member members)⟩
    rw [take_storedFile_of_le (Nat.le_refl _), List.take_length, member.contentOf_marked]
  · intro member members n hpos hn ih
    obtain ⟨houtput, hfault⟩ := h.next member members hpos hn
    rw [take_storedFile_add, bytesOf_append]
    refine ⟨?_, hfault.trans (ih.fault_iff.trans endsMember_cons_iff.symm)⟩
    rw [houtput, ih.output_eq, take_storedFile_add, contentOf_append, member.contentOf_marked]

end ReadsStored

/-! ## Decompression -/

theorem isGzip_take {members : List StoredMember} {n : Nat} (htwo : 2 ≤ n)
    (hn : n ≤ (storedFile members).length) :
    isGzip (bytesOf ((storedFile members).take n)) = true := by
  obtain ⟨m, rfl⟩ := Nat.exists_eq_add_of_le' htwo
  cases members with
  | nil => exact absurd hn (by simp [storedFile])
  | cons member members =>
      obtain ⟨rest, hfile⟩ : ∃ rest, storedFile (member :: members) =
          (0x1F, false) :: (0x8B, false) :: rest := ⟨_, rfl⟩
      rw [hfile]
      rfl

section Decompress

variable [Decoder] {members : List StoredMember} {n : Nat}

/-- A cut file is decompressed to the stored bytes in front of the cut. It counts as cut unless the
cut is at the end of a member, and is an error if there are no such bytes then. -/
theorem decompress_take (h : ReadsStored) (htwo : 2 ≤ n) (hn : n ≤ (storedFile members).length) :
    (EndsMember members n → decompress (bytesOf ((storedFile members).take n)) =
      .ok ⟨contentOf ((storedFile members).take n), false⟩) ∧
    (¬ EndsMember members n → contentOf ((storedFile members).take n) ≠ [] →
      decompress (bytesOf ((storedFile members).take n)) =
        .ok ⟨contentOf ((storedFile members).take n), true⟩) ∧
    (¬ EndsMember members n → contentOf ((storedFile members).take n) = [] →
      ∃ cause, decompress (bytesOf ((storedFile members).take n)) = .error (.damaged cause)) := by
  obtain ⟨houtput, hfault⟩ := h.covers (Nat.lt_of_lt_of_le Nat.two_pos htwo) hn
  rw [decompress, isGzip_take htwo hn, if_pos rfl]
  simp only [houtput, List.isEmpty_iff]
  refine ⟨fun hends => ?_, fun hends hne => ?_, fun hends hnil => ?_⟩
  · rw [hfault.mpr hends]
  · obtain ⟨cause, hcause⟩ := Option.ne_none_iff_exists'.mp (mt hfault.mp hends)
    rw [hcause]
    exact if_neg hne
  · obtain ⟨cause, hcause⟩ := Option.ne_none_iff_exists'.mp (mt hfault.mp hends)
    rw [hcause]
    exact ⟨cause, if_pos hnil⟩

theorem decompress_file (h : ReadsStored) (members : List StoredMember) :
    decompress (bytesOf (storedFile members)) =
      .ok ⟨members.flatMap StoredMember.payload, false⟩ := by
  cases members with
  | nil => rfl
  | cons member members =>
      have htwo : 2 ≤ (storedFile (member :: members)).length := by
        rw [storedFile_cons, List.length_append, StoredMember.length_marked]
        omega
      have hwhole := (decompress_take h htwo (Nat.le_refl _)).1 (endsMember_length _)
      rwa [List.take_length, contentOf_storedFile] at hwhole

end Decompress

end Gzip

namespace Index

open Gzip

section File

variable [Decoder] {bytes : List UInt8}

theorem ofFile_of_ok {decompressed : Decompressed} (h : decompress bytes = .ok decompressed)
    (root : Option String) : ofFile root bytes = .ok (ofDocument root decompressed.output) := by
  rw [ofFile, Reading.ofFile, h]
  rfl

theorem ofFile_of_error {error : DecompressError} (h : decompress bytes = .error error)
    (root : Option String) : ofFile root bytes = .error error := by
  rw [ofFile, Reading.ofFile, h]
  rfl

/-- A file of stored members, whatever was compressed and however it was split into members and
blocks, is decompressed to what was compressed. If it is cut behind its first two bytes, exactly the
compressed bytes in front of the cut are left, and the index of the file is that of these bytes. It
is an error only if there are none and the cut is not at the end of a member. -/
theorem ofFile_take_storedFile (h : ReadsStored) (members : List StoredMember) :
    decompress (bytesOf (storedFile members)) =
      .ok ⟨members.flatMap StoredMember.payload, false⟩ ∧
    ∀ n, 2 ≤ n → n ≤ (storedFile members).length →
      (contentOf ((storedFile members).take n) ≠ [] ∨ EndsMember members n →
        decompress ((bytesOf (storedFile members)).take n) =
          .ok ⟨contentOf ((storedFile members).take n), !decide (EndsMember members n)⟩ ∧
        ∀ root, ofFile root ((bytesOf (storedFile members)).take n) =
          .ok (ofDocument root (contentOf ((storedFile members).take n)))) ∧
      (contentOf ((storedFile members).take n) = [] → ¬ EndsMember members n →
        ∃ cause, decompress ((bytesOf (storedFile members)).take n) = .error (.damaged cause) ∧
          ∀ root, ofFile root ((bytesOf (storedFile members)).take n) =
            .error (.damaged cause)) := by
  refine ⟨decompress_file h members, fun n htwo hn => ?_⟩
  obtain ⟨hwhole, hcut, herror⟩ := decompress_take h htwo hn
  rw [← bytesOf_take]
  constructor
  · intro hkept
    by_cases hends : EndsMember members n
    · have hresult := hwhole hends
      rw [decide_eq_true hends]
      exact ⟨hresult, ofFile_of_ok hresult⟩
    · have hresult := hcut hends (hkept.resolve_right hends)
      rw [decide_eq_false hends]
      exact ⟨hresult, ofFile_of_ok hresult⟩
  · intro hnone hends
    obtain ⟨cause, hresult⟩ := herror hends hnone
    exact ⟨cause, hresult, ofFile_of_error hresult⟩

end File

/-- A file of two members, of which the first one has two blocks, is cut in the second one, and in
its first header. -/
theorem ofFile_take_storedFile_second :
    let members : List StoredMember :=
      [⟨[0, 0, 0, 0, 0, 255], rfl, [⟨0, Text.Utf8.encode "Content:\n", by decide⟩],
          ⟨0, Text.Utf8.encode "\x7b1\n", by decide⟩⟩,
        ⟨[0, 0, 0, 0, 0, 255], rfl, [], ⟨0, Text.Utf8.encode "(1,5:0,0\n", by decide⟩⟩]
    let file := bytesOf (storedFile members)
    let before := Text.Utf8.encode "Content:\n\x7b1\n(1,5"
    (ReadsStored ∧ 2 ≤ 59 ∧ 59 ≤ (storedFile members).length ∧
      contentOf ((storedFile members).take 59) = before ∧ before ≠ []) ∧
      decompress file = .ok ⟨Text.Utf8.encode "Content:\n\x7b1\n(1,5:0,0\n", false⟩ ∧
      decompress (file.take 59) = .ok ⟨before, true⟩ ∧
      ofFile none (file.take 59) = .ok (ofDocument none before) ∧
      ∃ cause, decompress (file.take 12) = .error (.damaged cause) := by
  intro members file before
  have hn : 59 ≤ (storedFile members).length := by decide +kernel
  have hbefore : contentOf ((storedFile members).take 59) = before := by decide +kernel
  have hne : before ≠ [] := by decide +kernel
  have hends : ¬ EndsMember members 59 := by decide +kernel
  obtain ⟨hfile, hcuts⟩ := ofFile_take_storedFile Deflate.readsStored members
  obtain ⟨hcut, hindex⟩ := (hcuts 59 (by decide) hn).1 (Or.inl (hbefore ▸ hne))
  obtain ⟨cause, hdamaged, -⟩ := (hcuts 12 (by decide) (Nat.le_trans (by decide) hn)).2
    (by decide +kernel) (by decide +kernel)
  rw [hbefore, decide_eq_false hends] at hcut
  rw [← hbefore]
  exact ⟨⟨Deflate.readsStored, by decide, hn, rfl, by rwa [hbefore]⟩, hfile, by rwa [hbefore],
    hindex none, cause, hdamaged⟩

end Index

end PageSync

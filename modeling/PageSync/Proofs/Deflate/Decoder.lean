import PageSync.Deflate.Decoder
import PageSync.Proofs.Deflate.Member

/-! # Reading stored files

The decoder reads a file of stored members one after the other up to where the
file is cut, and loses nothing of it. So it is one that reads stored members.
-/

namespace PageSync.Deflate

open Gzip

/-- The members hold the stored bytes in front of the cut behind those from before, none of which is
lost, and there is a fault if the cut is not at the end of a member. -/
structure Members.Covers (read : Members) (members : List StoredMember) (n : Nat)
    (before : List UInt8) : Prop where
  output : read.members.flatMap Member.output =
    before ++ contentOf ((storedFile members).take n)
  loses : read.losesOutput = false
  fault : read.fault = none ↔ EndsMember members n

theorem flatMap_output_reverse (member : Member) (found : List Member) :
    (member :: found).reverse.flatMap Member.output =
      found.reverse.flatMap Member.output ++ member.output := by
  simp

theorem Member.EndsEarly.exists_cause {member : Member} (h : member.EndsEarly) :
    ∃ cause, member.rest = .error cause := by
  rcases h with hend | ⟨hdata, -⟩
  · exact ⟨_, hend⟩
  · exact ⟨_, hdata⟩

theorem losesOutput_of_endsEarly {found : List Member} {member : Member} {cause : Cause}
    (hearly : member.EndsEarly) (hcause : member.rest = .error cause) :
    Members.losesOutput ⟨(member :: found).reverse, some cause⟩ = false := by
  rcases hearly with hend | ⟨hdata, hpaused⟩
  · rw [hend] at hcause
    cases hcause
    rfl
  · rw [hdata] at hcause
    cases hcause
    simp [Members.losesOutput, hpaused]

theorem readMembers_of_error {bytes : List UInt8} {cause : Cause}
    (h : (readMember bytes).rest = .error cause) (found : List Member) (steps : Nat) :
    readMembers found bytes (steps + 1) = ⟨(readMember bytes :: found).reverse, some cause⟩ := by
  rw [readMembers]
  simp only [h]

theorem readMembers_of_ok {bytes rest : List UInt8} (h : (readMember bytes).rest = .ok rest)
    (found : List Member) (steps : Nat) :
    readMembers found bytes (steps + 1) =
      if rest = [] then ⟨(readMember bytes :: found).reverse, none⟩
      else readMembers (readMember bytes :: found) rest steps := by
  rw [readMembers]
  simp only [h, List.isEmpty_iff]

/-- Of a file that is cut, all members in front of the cut are read, and the one that is cut as far
as it goes. -/
theorem covers_readMembers {members : List StoredMember} {n steps : Nat} (hpos : 0 < n)
    (hn : n ≤ (storedFile members).length) (hsteps : n ≤ steps) (found : List Member) :
    (readMembers found (bytesOf ((storedFile members).take n)) steps).Covers members n
      (found.reverse.flatMap Member.output) := by
  refine cut_induction (motive := fun members n => ∀ (found : List Member) (steps : Nat),
    n ≤ steps → (readMembers found (bytesOf ((storedFile members).take n)) steps).Covers members n
      (found.reverse.flatMap Member.output)) ?_ ?_ ?_ hpos hn found steps hsteps
  · intro member members n hpos hn found steps hsteps
    obtain ⟨steps, rfl⟩ := Nat.exists_eq_add_one.mpr (Nat.lt_of_lt_of_le hpos hsteps)
    obtain ⟨houtput, hearly⟩ := readMember_take member hpos hn
    obtain ⟨cause, hcause⟩ := hearly.exists_cause
    rw [take_storedFile_of_le (Nat.le_of_lt hn), readMembers_of_error hcause]
    refine ⟨?_, losesOutput_of_endsEarly hearly hcause, ?_⟩
    · rw [flatMap_output_reverse, houtput, take_storedFile_of_le (Nat.le_of_lt hn)]
    · exact iff_of_false (Option.some_ne_none cause) (not_endsMember_of_lt hpos hn)
  · intro member members found steps hsteps
    have hlength := member.length_marked
    obtain ⟨steps, rfl⟩ := Nat.exists_eq_succ_of_ne_zero (n := steps) (by omega)
    obtain ⟨houtput, hrest⟩ := readMember_marked member []
    rw [List.append_nil] at houtput hrest
    rw [take_storedFile_of_le (Nat.le_refl _), List.take_length, readMembers_of_ok hrest,
      if_pos rfl]
    refine ⟨?_, rfl, iff_of_true rfl (endsMember_marked member members)⟩
    rw [flatMap_output_reverse, houtput, take_storedFile_of_le (Nat.le_refl _), List.take_length,
      member.contentOf_marked]
  · intro member members n hpos hn ih found steps hsteps
    have hlength := member.length_marked
    obtain ⟨steps, rfl⟩ := Nat.exists_eq_succ_of_ne_zero (n := steps) (by omega)
    obtain ⟨houtput, hrest⟩ := readMember_marked member (bytesOf ((storedFile members).take n))
    have hne : bytesOf ((storedFile members).take n) ≠ [] := by
      rw [← List.length_pos_iff, length_bytesOf, List.length_take_of_le hn]
      exact hpos
    obtain ⟨hcovers, hloses, hfault⟩ := ih (readMember
      (bytesOf member.marked ++ bytesOf ((storedFile members).take n)) :: found) steps (by omega)
    rw [take_storedFile_add, bytesOf_append, readMembers_of_ok hrest, if_neg hne]
    refine ⟨?_, hloses, hfault.trans endsMember_cons_iff.symm⟩
    rw [hcovers, flatMap_output_reverse, houtput, take_storedFile_add, contentOf_append,
      member.contentOf_marked, List.append_assoc]

theorem covers_decode {members : List StoredMember} {n : Nat} (hpos : 0 < n)
    (hn : n ≤ (storedFile members).length) :
    (decode (bytesOf ((storedFile members).take n))).Covers members n := by
  have hlength : (bytesOf ((storedFile members).take n)).length = n := by
    rw [length_bytesOf, List.length_take_of_le hn]
  obtain ⟨houtput, hloses, hfault⟩ :=
    covers_readMembers hpos hn (Nat.le_of_eq hlength.symm) []
  constructor
  · rw [decode, Members.output, hloses]
    exact houtput
  · rw [decode, Option.map_eq_none_iff]
    exact hfault

theorem breaksOff_decode (member : StoredMember) {n : Nat} (hpos : 0 < n)
    (hn : n < member.marked.length) :
    (decode (bytesOf (member.marked.take n))).BreaksOff (contentOf (member.marked.take n)) := by
  have hle : n ≤ (storedFile [member]).length := by
    rw [storedFile_cons, List.length_append]
    omega
  obtain ⟨houtput, hfault⟩ := covers_decode hpos hle
  rw [take_storedFile_of_le (Nat.le_of_lt hn)] at houtput hfault
  exact ⟨houtput, mt hfault.mp (not_endsMember_of_lt hpos hn)⟩

/-- The decoder is one that reads stored members. -/
theorem readsStored : ReadsStored where
  whole member := by
    have hfile : storedFile [member] = member.marked := List.append_nil _
    have hpos : 0 < (storedFile [member]).length := by
      rw [hfile, member.length_marked]
      omega
    obtain ⟨houtput, hfault⟩ := covers_decode hpos (Nat.le_refl _)
    rw [List.take_length, hfile] at houtput hfault
    rw [member.contentOf_marked] at houtput
    exact Decoded.ext houtput (hfault.mpr (endsMember_marked member []))
  next member members n hpos hn := by
    have hle : member.marked.length + n ≤ (storedFile (member :: members)).length := by
      rw [storedFile_cons, List.length_append]
      omega
    obtain ⟨houtput, hfault⟩ := covers_decode hpos hn
    obtain ⟨hboth, hfaults⟩ := covers_decode (Nat.lt_of_lt_of_le hpos (Nat.le_add_left n _)) hle
    rw [take_storedFile_add, bytesOf_append] at hboth hfaults
    rw [contentOf_append, member.contentOf_marked, ← houtput] at hboth
    exact ⟨hboth, hfaults.trans (endsMember_cons_iff.trans hfault.symm)⟩
  header member n hpos hn := by
    have hlt : n < member.marked.length := by
      rw [member.length_marked]
      rw [member.length_header] at hn
      omega
    have hbreaks := breaksOff_decode member hpos hlt
    rwa [member.take_marked_header (Nat.le_of_lt hn), bytesOf_frame, contentOf_frame] at hbreaks
  data member blocks block isLast n hn := by
    obtain ⟨others, last, hlt, htake⟩ := exists_storedData_take block blocks isLast hn
    let other : StoredMember := ⟨member.fields, member.fields_length, others, last⟩
    have hcut : other.header.length + ((innerBlocks blocks).length + n) < other.marked.length := by
      rw [other.length_marked, other.length_header]
      exact Nat.lt_of_lt_of_le (Nat.add_lt_add_left hlt 10) (Nat.le_add_right _ 8)
    have hpos : 0 < other.header.length + ((innerBlocks blocks).length + n) := by simp
    have hbreaks := breaksOff_decode other hpos hcut
    have hdata : other.data.take ((innerBlocks blocks).length + n) =
        innerBlocks blocks ++ (block.marked isLast).take n := htake
    rw [other.take_marked_data (Nat.le_of_lt hlt), hdata, bytesOf_append, contentOf_append,
      bytesOf_frame, contentOf_frame] at hbreaks
    exact hbreaks
  trailer member n hn := by
    have hcut : member.header.length + (member.data.length + n) < member.marked.length := by
      rw [member.length_marked, member.length_header]
      rw [member.length_trailer] at hn
      omega
    have hbreaks := breaksOff_decode member (by simp) hcut
    rw [member.take_marked_trailer] at hbreaks
    simp only [bytesOf_append, contentOf_append, bytesOf_frame, contentOf_frame, List.nil_append,
      List.append_nil, member.contentOf_data] at hbreaks
    exact hbreaks

end PageSync.Deflate

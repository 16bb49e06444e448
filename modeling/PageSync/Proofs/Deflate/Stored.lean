import PageSync.Deflate.Inflate
import PageSync.Proofs.Gzip.Stored

/-! # Inflating stored blocks

When stored data are cut anywhere, inflating them gives the compressed bytes in
front of the cut, and tells whether the cut lies in front of another one.
-/

namespace PageSync.Deflate

open Gzip

/-- Why data that are cut here cannot be inflated any further. -/
def faultAt (data : List (UInt8 × Bool)) (n : Nat) : Fault :=
  if (data[n]?).any Prod.snd then .storedIncomplete else .incomplete

section Block

variable (block : StoredBlock) (isLast : Bool)

/-- A cut in the frame of a block is in front of none of its bytes. -/
theorem faultAt_marked_of_lt {n : Nat} (hn : n < 5) :
    faultAt (block.marked isLast) n = .incomplete := by
  have hmark : (block.marked isLast)[n]? =
      ((block.flags isLast :: block.lengths)[n]?).map fun b => (b, false) := by
    rw [StoredBlock.marked, List.getElem?_append_left (by simpa using hn), frame, List.getElem?_map]
  rw [faultAt, hmark, Option.any_map]
  exact if_neg (by simp)

theorem faultAt_marked_of_ge {n : Nat} (hn : n < block.payload.length) :
    faultAt (block.marked isLast) (5 + n) = .storedIncomplete := by
  have hmark : (block.marked isLast)[5 + n]? = some (block.payload[n], true) := by
    rw [StoredBlock.marked, List.getElem?_append_right (by simp)]
    simp [content, hn]
  rw [faultAt, hmark]
  rfl

/-! ### One block -/

theorem beq_one {b : UInt8} {value : Bool} (hb : b.toNat = value.toNat) : (b == 1) = value := by
  have hone : (b == 1) = decide (b.toNat = 1) := by
    rw [Bool.beq_eq_decide_eq]
    exact decide_eq_decide.mpr UInt8.toNat_inj.symm
  rw [hone, hb]
  cases value <;> rfl

/-- The first bit marks the last block, and the next two are those of type 0. -/
theorem bits_flags : (block.flags isLast % 2 == 1) = isLast ∧
    (block.flags isLast / 2 % 2 == 1) = false ∧
    (block.flags isLast / 2 / 2 % 2 == 1) = false := by
  have hflags : (block.flags isLast).toNat =
      (8 * block.padding.toNat % 256 + isLast.toNat) % 256 := by
    simp only [StoredBlock.flags, UInt8.toNat_add, UInt8.toNat_mul]
    cases isLast <;> rfl
  have hlast := Bool.toNat_lt isLast
  refine ⟨beq_one ?_, beq_one ?_, beq_one ?_⟩ <;>
    simp only [UInt8.toNat_mod, UInt8.toNat_div, hflags, UInt8.reduceToNat, Bool.toNat_false] <;>
    omega

theorem read_flags (rest : List UInt8) : ∃ current,
    (Bits.ofBytes (block.flags isLast :: rest)).read 3 =
      .ok (isLast.toNat, ⟨current, 5, rest⟩) := by
  obtain ⟨hfirst, hsecond, hthird⟩ := bits_flags block isLast
  refine ⟨block.flags isLast / 2 / 2 / 2, ?_⟩
  simp only [Bits.read, Bits.ofBytes, Bits.next?, hfirst, hsecond, hthird]
  rfl

theorem inflateStored_of_short {bytes : List UInt8} (h : bytes.length < 4)
    (output : Array UInt8) : inflateStored output bytes = ⟨output, .error .incomplete⟩ := by
  rw [inflateStored]
  intro low high lowInverse highInverse data hbytes
  rw [hbytes] at h
  simp only [List.length_cons] at h
  omega

/-- Behind the lengths of a block its bytes follow, as far as they are there. -/
theorem inflateStored_lengths (output : Array UInt8) (data : List UInt8) :
    inflateStored output (block.lengths ++ data) =
      ⟨output.appendList (data.take block.payload.length),
        if data.length < block.payload.length then .error .storedIncomplete
        else .ok (Bits.ofBytes (data.drop block.payload.length))⟩ := by
  have hlength : (UInt8.ofNat block.payload.length).toNat +
      256 * (UInt8.ofNat (block.payload.length / 256)).toNat = block.payload.length := by
    have hfits := block.fits
    rw [UInt8.toNat_ofNat', UInt8.toNat_ofNat']
    omega
  have hlengths : block.lengths = [UInt8.ofNat block.payload.length,
      UInt8.ofNat (block.payload.length / 256), ~~~UInt8.ofNat block.payload.length,
      ~~~UInt8.ofNat (block.payload.length / 256)] := rfl
  rw [hlengths, List.cons_append, List.cons_append, List.cons_append, List.cons_append,
    List.nil_append, inflateStored, if_pos ⟨rfl, rfl⟩, hlength]
  have hshort : (data.take block.payload.length).length < block.payload.length ↔
      data.length < block.payload.length := by
    rw [List.length_take]
    omega
  simp only [hshort]
  split
  · rfl
  · rfl

section Flags

variable {output stored : Array UInt8} {data : List UInt8} {bits : Bits} {fault : Fault}

/-- What follows the first byte of a block is read as stored bytes. -/
theorem inflateBlocks_flags_of_ok (hstored : inflateStored output data = ⟨stored, .ok bits⟩)
    (total steps : Nat) :
    inflateBlocks output (Bits.ofBytes (block.flags isLast :: data)) total (steps + 1) =
      if isLast then ⟨stored, .ok bits⟩ else inflateBlocks stored bits total steps := by
  obtain ⟨current, hread⟩ := read_flags block isLast data
  have htype : isLast.toNat / 2 = 0 := by cases isLast <;> rfl
  have hmark : isLast.toNat % 2 = 1 ↔ isLast = true := by cases isLast <;> decide
  rw [inflateBlocks]
  simp only [hread, htype, hmark, inflateBody, Bits.align, hstored]

theorem inflateBlocks_flags_of_error
    (hstored : inflateStored output data = ⟨stored, .error fault⟩) (total steps : Nat) :
    inflateBlocks output (Bits.ofBytes (block.flags isLast :: data)) total (steps + 1) =
      ⟨stored, .error fault⟩ := by
  obtain ⟨current, hread⟩ := read_flags block isLast data
  have htype : isLast.toNat / 2 = 0 := by cases isLast <;> rfl
  rw [inflateBlocks]
  simp only [hread, htype, inflateBody, Bits.align, hstored]

end Flags

theorem inflateBlocks_marked (output : Array UInt8) (rest : List UInt8) (total steps : Nat) :
    inflateBlocks output (Bits.ofBytes (bytesOf (block.marked isLast) ++ rest)) total (steps + 1) =
      if isLast then ⟨output.appendList block.payload, .ok (Bits.ofBytes rest)⟩
      else inflateBlocks (output.appendList block.payload) (Bits.ofBytes rest) total steps := by
  have hstored : inflateStored output (block.lengths ++ (block.payload ++ rest)) =
      ⟨output.appendList block.payload, .ok (Bits.ofBytes rest)⟩ := by
    rw [inflateStored_lengths, List.take_left, List.drop_left, if_neg (by simp)]
  rw [StoredBlock.bytesOf_marked, List.cons_append, List.append_assoc,
    inflateBlocks_flags_of_ok _ _ hstored]

/-- A block that is cut gives its bytes in front of the cut. -/
theorem inflateBlocks_take {n : Nat} (hn : n < (block.marked isLast).length) {steps : Nat}
    (hsteps : n ≤ steps) (output : Array UInt8) (total : Nat) :
    inflateBlocks output (Bits.ofBytes (bytesOf ((block.marked isLast).take n))) total steps =
      ⟨output.appendList (contentOf ((block.marked isLast).take n)),
        .error (faultAt (block.marked isLast) n)⟩ := by
  cases n with
  | zero =>
      have hfault : faultAt (block.marked isLast) 0 = .incomplete := rfl
      cases steps with
      | zero =>
          rw [hfault]
          rfl
      | succ steps =>
          rw [hfault]
          rfl
  | succ n =>
      obtain ⟨steps, rfl⟩ := Nat.exists_eq_succ_of_ne_zero (Nat.ne_of_gt (Nat.zero_lt_of_lt hsteps))
      rw [StoredBlock.length_marked] at hn
      rw [bytesOf_take, StoredBlock.bytesOf_marked, List.take_succ_cons, Nat.succ_eq_add_one]
      rcases Nat.lt_or_ge n 4 with hshort | hlong
      · -- in the lengths
        have hlength : ((block.lengths ++ block.payload).take n).length < 4 := by
          rw [List.length_take]
          omega
        rw [inflateBlocks_flags_of_error _ _ (inflateStored_of_short hlength output),
          StoredBlock.contentOf_take_marked, faultAt_marked_of_lt _ _ (by omega),
          Nat.sub_eq_zero_of_le (by omega), List.take_zero]
        rfl
      · -- in the bytes
        obtain ⟨m, rfl⟩ := Nat.exists_eq_add_of_le hlong
        have hm : m < block.payload.length := by omega
        have hstored : inflateStored output (block.lengths ++ block.payload.take m) =
            ⟨output.appendList (block.payload.take m), .error .storedIncomplete⟩ := by
          rw [inflateStored_lengths, List.take_take, Nat.min_eq_right (Nat.le_of_lt hm), if_pos]
          rw [List.length_take]
          omega
        have htake : (block.lengths ++ block.payload).take (4 + m) =
            block.lengths ++ block.payload.take m := by
          rw [← block.length_lengths, List.take_length_add_append]
        rw [htake, inflateBlocks_flags_of_error _ _ hstored, StoredBlock.contentOf_take_marked,
          show 4 + m + 1 = 5 + m by omega, faultAt_marked_of_ge _ _ hm, Nat.add_sub_cancel_left]

end Block

/-! ## All blocks -/

section Blocks

variable (block : StoredBlock) (blocks : List StoredBlock) (last : StoredBlock)

theorem faultAt_append_left {front : List (UInt8 × Bool)} {n : Nat} (hn : n < front.length)
    (back : List (UInt8 × Bool)) : faultAt (front ++ back) n = faultAt front n := by
  rw [faultAt, List.getElem?_append_left hn, faultAt]

theorem faultAt_append_right (front back : List (UInt8 × Bool)) (n : Nat) :
    faultAt (front ++ back) (front.length + n) = faultAt back n := by
  rw [faultAt, List.getElem?_append_right (Nat.le_add_right _ _), Nat.add_sub_cancel_left, faultAt]

theorem appendList_appendList (output : Array UInt8) (bytes more : List UInt8) :
    (output.appendList bytes).appendList more = output.appendList (bytes ++ more) := by
  apply Array.ext'
  simp

/-- Whole blocks are inflated up to what is behind the last one. -/
theorem inflateBlocks_storedData {steps : Nat} (hsteps : blocks.length < steps)
    (output : Array UInt8) (rest : List UInt8) (total : Nat) :
    inflateBlocks output (Bits.ofBytes (bytesOf (storedData blocks last) ++ rest)) total steps =
      ⟨output.appendList (contentOf (storedData blocks last)), .ok (Bits.ofBytes rest)⟩ := by
  obtain ⟨steps, rfl⟩ := Nat.exists_eq_succ_of_ne_zero (Nat.ne_of_gt (Nat.zero_lt_of_lt hsteps))
  induction blocks generalizing output steps with
  | nil =>
      rw [storedData_nil, inflateBlocks_marked, if_pos rfl,
        StoredBlock.contentOf_marked]
  | cons block blocks ih =>
      rw [List.length_cons, Nat.succ_lt_succ_iff] at hsteps
      obtain ⟨steps, rfl⟩ :=
        Nat.exists_eq_succ_of_ne_zero (Nat.ne_of_gt (Nat.zero_lt_of_lt hsteps))
      rw [storedData_cons, bytesOf_append, List.append_assoc, inflateBlocks_marked,
        if_neg Bool.false_ne_true, ih _ _ hsteps, appendList_appendList, contentOf_append,
        StoredBlock.contentOf_marked]

/-- Blocks that are cut are inflated up to the cut. -/
theorem inflateBlocks_take_storedData {n steps : Nat} (hn : n < (storedData blocks last).length)
    (hsteps : n ≤ steps) (output : Array UInt8) (total : Nat) :
    inflateBlocks output (Bits.ofBytes (bytesOf ((storedData blocks last).take n))) total steps =
      ⟨output.appendList (contentOf ((storedData blocks last).take n)),
        .error (faultAt (storedData blocks last) n)⟩ := by
  induction blocks generalizing output n steps with
  | nil => exact inflateBlocks_take last true hn hsteps output total
  | cons block blocks ih =>
      rw [storedData_cons] at hn ⊢
      rcases Nat.lt_or_ge n (block.marked false).length with hblock | hblock
      · rw [List.take_append_of_le_length (Nat.le_of_lt hblock), faultAt_append_left hblock]
        exact inflateBlocks_take block false hblock hsteps output total
      · obtain ⟨m, rfl⟩ := Nat.exists_eq_add_of_le hblock
        have hlength := block.length_marked false
        rw [List.length_append] at hn
        obtain ⟨steps, rfl⟩ := Nat.exists_eq_succ_of_ne_zero (n := steps) (by omega)
        rw [List.take_length_add_append, bytesOf_append, inflateBlocks_marked,
          if_neg Bool.false_ne_true, ih (by omega) (by omega), appendList_appendList,
          contentOf_append, StoredBlock.contentOf_marked, faultAt_append_right]

theorem length_lt_length_storedData : blocks.length < (storedData blocks last).length := by
  induction blocks with
  | nil =>
      rw [storedData_nil, StoredBlock.length_marked, List.length_nil]
      omega
  | cons block blocks ih =>
      rw [storedData_cons, List.length_append, StoredBlock.length_marked, List.length_cons]
      omega

theorem inflate_storedData (rest : List UInt8) :
    inflate (bytesOf (storedData blocks last) ++ rest) =
      ⟨#[].appendList (contentOf (storedData blocks last)), .ok (Bits.ofBytes rest)⟩ := by
  have hlength := length_lt_length_storedData blocks last
  rw [inflate]
  apply inflateBlocks_storedData
  rw [Bits.size, Bits.ofBytes, List.length_append, length_bytesOf]
  omega

theorem inflate_take_storedData {n : Nat} (hn : n < (storedData blocks last).length) :
    inflate (bytesOf ((storedData blocks last).take n)) =
      ⟨#[].appendList (contentOf ((storedData blocks last).take n)),
        .error (faultAt (storedData blocks last) n)⟩ := by
  rw [inflate]
  apply inflateBlocks_take_storedData blocks last hn
  rw [Bits.size, Bits.ofBytes, length_bytesOf, List.length_take_of_le (Nat.le_of_lt hn)]
  omega

end Blocks

end PageSync.Deflate

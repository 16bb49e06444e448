import Mathlib.Data.List.Basic
import Mathlib.Data.List.Infix
import PageSync.Gzip.Decompress
import PageSync.Proofs.Gzip.Crc32

/-! # Stored files

Bytes can be compressed by storing them as they are, in blocks of limited size
that members frame with a header and a trailer. Every byte of such a file is
either one of those that were compressed or belongs to the frames, and is marked
with which. What the decoder makes of such files, whole or cut, is not proved
but assumed, one part of a member at a time.
-/

namespace PageSync.Gzip

/-! ## Marked bytes -/

/-- Bytes of the frame. -/
def frame (bytes : List UInt8) : List (UInt8 × Bool) := bytes.map fun b => (b, false)

/-- Bytes that were compressed. -/
def content (bytes : List UInt8) : List (UInt8 × Bool) := bytes.map fun b => (b, true)

/-- All bytes. -/
def bytesOf (marked : List (UInt8 × Bool)) : List UInt8 := marked.map Prod.fst

/-- The bytes that were compressed. -/
def contentOf (marked : List (UInt8 × Bool)) : List UInt8 := (marked.filter Prod.snd).map Prod.fst

section Marked

variable (bytes : List UInt8) (marked more : List (UInt8 × Bool)) (n : Nat)

@[simp]
theorem bytesOf_append : bytesOf (marked ++ more) = bytesOf marked ++ bytesOf more :=
  List.map_append

@[simp]
theorem length_bytesOf : (bytesOf marked).length = marked.length := List.length_map _

theorem bytesOf_take : bytesOf (marked.take n) = (bytesOf marked).take n := List.map_take

@[simp]
theorem bytesOf_frame : bytesOf (frame bytes) = bytes := by
  simp [bytesOf, frame, Function.comp_def]

@[simp]
theorem bytesOf_content : bytesOf (content bytes) = bytes := by
  simp [bytesOf, content, Function.comp_def]

@[simp]
theorem contentOf_append : contentOf (marked ++ more) = contentOf marked ++ contentOf more := by
  simp [contentOf]

@[simp]
theorem contentOf_frame : contentOf (frame bytes) = [] := by
  simp [contentOf, frame]

@[simp]
theorem contentOf_content : contentOf (content bytes) = bytes := by
  simp [contentOf, content, List.filter_map, Function.comp_def]

@[simp]
theorem take_frame : (frame bytes).take n = frame (bytes.take n) := List.map_take.symm

@[simp]
theorem take_content : (content bytes).take n = content (bytes.take n) := List.map_take.symm

@[simp]
theorem length_frame : (frame bytes).length = bytes.length := List.length_map _

@[simp]
theorem length_content : (content bytes).length = bytes.length := List.length_map _

end Marked

/-! ## Numbers -/

/-- A number in so many bytes, the least significant one first. What does not fit is left out. -/
def toLittleEndian : Nat → Nat → List UInt8
  | 0, _ => []
  | width + 1, n => UInt8.ofNat n :: toLittleEndian width (n / 256)

@[simp]
theorem length_toLittleEndian (width n : Nat) : (toLittleEndian width n).length = width := by
  induction width generalizing n with
  | zero => rfl
  | succ width ih => rw [toLittleEndian, List.length_cons, ih]

/-! ## Blocks -/

/-- A block that stores some bytes. The bits of its first byte that have no meaning may be any. -/
structure StoredBlock where
  padding : UInt8
  payload : List UInt8
  fits : payload.length < 65536

namespace StoredBlock

/-- The first byte of a block, which says whether it is the last one. -/
def flags (block : StoredBlock) (isLast : Bool) : UInt8 :=
  8 * block.padding + if isLast then 1 else 0

/-- The length of a block, once as it is and once with all bits inverted. -/
def lengths (block : StoredBlock) : List UInt8 :=
  toLittleEndian 2 block.payload.length ++
    (toLittleEndian 2 block.payload.length).map fun b => ~~~b

/-- The bytes of a block. -/
def marked (block : StoredBlock) (isLast : Bool) : List (UInt8 × Bool) :=
  frame (block.flags isLast :: block.lengths) ++ content block.payload

end StoredBlock

/-- Blocks of which none is marked as the last one. -/
def innerBlocks (blocks : List StoredBlock) : List (UInt8 × Bool) :=
  blocks.flatMap fun block => block.marked false

/-- Blocks and the last one. -/
def storedData (blocks : List StoredBlock) (last : StoredBlock) : List (UInt8 × Bool) :=
  innerBlocks blocks ++ last.marked true

namespace StoredBlock

variable (block : StoredBlock) (isLast : Bool)

@[simp]
theorem length_lengths : block.lengths.length = 4 := by
  simp [lengths]

theorem length_marked : (block.marked isLast).length = 5 + block.payload.length := by
  simp [marked]

@[simp]
theorem contentOf_marked : contentOf (block.marked isLast) = block.payload := by
  simp [marked]

theorem bytesOf_marked : bytesOf (block.marked isLast) =
    block.flags isLast :: (block.lengths ++ block.payload) := by
  simp [marked]

theorem contentOf_take_marked (n : Nat) :
    contentOf ((block.marked isLast).take n) = block.payload.take (n - 5) := by
  simp [marked, List.take_append]

end StoredBlock

section Blocks

variable (block : StoredBlock) (blocks : List StoredBlock) (last : StoredBlock)

theorem innerBlocks_cons :
    innerBlocks (block :: blocks) = block.marked false ++ innerBlocks blocks := rfl

theorem storedData_nil : storedData [] last = last.marked true := rfl

theorem storedData_cons :
    storedData (block :: blocks) last = block.marked false ++ storedData blocks last :=
  List.append_assoc _ _ _

theorem contentOf_storedData : contentOf (storedData blocks last) =
    blocks.flatMap StoredBlock.payload ++ last.payload := by
  induction blocks with
  | nil => exact last.contentOf_marked true
  | cons block blocks ih =>
      rw [storedData_cons, contentOf_append, ih, StoredBlock.contentOf_marked, List.flatMap_cons,
        List.append_assoc]

/-- Where data are cut, some whole blocks are in front of a block that is cut. -/
theorem exists_block_of_lt {n : Nat} (hn : n < (storedData blocks last).length) :
    ∃ (front : List StoredBlock) (block : StoredBlock) (isLast : Bool) (m : Nat),
      m < (block.marked isLast).length ∧
        (storedData blocks last).take n = innerBlocks front ++ (block.marked isLast).take m := by
  induction blocks generalizing n with
  | nil => exact ⟨[], last, true, n, hn, rfl⟩
  | cons block blocks ih =>
      rw [storedData_cons] at hn ⊢
      rcases Nat.lt_or_ge n (block.marked false).length with hcut | hwhole
      · refine ⟨[], block, false, n, hcut, ?_⟩
        rw [List.take_append_of_le_length (Nat.le_of_lt hcut)]
        rfl
      · obtain ⟨i, rfl⟩ := Nat.exists_eq_add_of_le hwhole
        rw [List.length_append, Nat.add_lt_add_iff_left] at hn
        obtain ⟨front, other, isLast, m, hm, htake⟩ := ih hn
        refine ⟨block :: front, other, isLast, m, hm, ?_⟩
        rw [List.take_length_add_append, htake, innerBlocks_cons, List.append_assoc]

/-- Whole blocks and a block that is cut are data of some member that is cut. -/
theorem exists_storedData_take (isLast : Bool) {n : Nat} (hn : n < (block.marked isLast).length) :
    ∃ (others : List StoredBlock) (last : StoredBlock),
      (innerBlocks blocks).length + n < (storedData others last).length ∧
        (storedData others last).take ((innerBlocks blocks).length + n) =
          innerBlocks blocks ++ (block.marked isLast).take n := by
  cases isLast with
  | true =>
      refine ⟨blocks, block, ?_, ?_⟩
      · rw [storedData, List.length_append]
        exact Nat.add_lt_add_left hn _
      · rw [storedData, List.take_length_add_append]
  | false =>
      have hinner : innerBlocks (blocks ++ [block]) = innerBlocks blocks ++ block.marked false := by
        simp [innerBlocks]
      refine ⟨blocks ++ [block], block, ?_, ?_⟩
      · rw [storedData, hinner, List.length_append, List.length_append]
        omega
      · rw [storedData, hinner, List.append_assoc, List.take_length_add_append,
          List.take_append_of_le_length (Nat.le_of_lt hn)]

end Blocks

/-! ## Members -/

/-- A member that stores some bytes. The fields of its header that have no meaning here, which are
the time, the flags of the compressor and its system, may be any. -/
structure StoredMember where
  fields : List UInt8
  fields_length : fields.length = 6
  blocks : List StoredBlock
  last : StoredBlock

namespace StoredMember

variable (member : StoredMember)

/-- The header of a member, with the mark of gzip, the one known method and no flags. -/
def header : List UInt8 := 0x1F :: 0x8B :: 8 :: 0 :: member.fields

/-- The compressed data of a member. -/
def data : List (UInt8 × Bool) := storedData member.blocks member.last

/-- What was compressed. -/
def payload : List UInt8 :=
  member.blocks.flatMap StoredBlock.payload ++ member.last.payload

/-- The trailer of a member: the checksum of what was compressed, and its size. -/
def trailer : List UInt8 :=
  toLittleEndian 4 (~~~(member.payload.foldl Crc32.addBits 0xFFFFFFFF)).toNat ++
    toLittleEndian 4 member.payload.length

/-- The bytes of a member. -/
def marked : List (UInt8 × Bool) := frame member.header ++ member.data ++ frame member.trailer

@[simp]
theorem length_header : member.header.length = 10 := by
  simp [header, member.fields_length]

@[simp]
theorem length_trailer : member.trailer.length = 8 := by
  simp [trailer]

theorem length_marked : member.marked.length = 10 + member.data.length + 8 := by
  simp [marked, Nat.add_assoc]

theorem contentOf_data : contentOf member.data = member.payload :=
  contentOf_storedData member.blocks member.last

@[simp]
theorem contentOf_marked : contentOf member.marked = member.payload := by
  simp [marked, contentOf_data]

theorem bytesOf_marked :
    bytesOf member.marked = member.header ++ (bytesOf member.data ++ member.trailer) := by
  simp [marked]

/-! ### Cuts of a member -/

variable {n : Nat}

theorem take_marked_header (hn : n ≤ member.header.length) :
    member.marked.take n = frame (member.header.take n) := by
  have hframe : n ≤ (frame member.header).length := by rwa [length_frame]
  rw [marked, List.append_assoc, List.take_append_of_le_length hframe, take_frame]

theorem take_marked_data (hn : n ≤ member.data.length) :
    member.marked.take (member.header.length + n) = frame member.header ++ member.data.take n := by
  rw [marked, List.append_assoc, ← length_frame member.header, List.take_length_add_append,
    List.take_append_of_le_length hn]

theorem take_marked_trailer (n : Nat) :
    member.marked.take (member.header.length + (member.data.length + n)) =
      frame member.header ++ (member.data ++ frame (member.trailer.take n)) := by
  rw [marked, List.append_assoc, ← length_frame member.header, List.take_length_add_append,
    List.take_length_add_append, take_frame]

/-- A member that is cut ends in its header, in its data or in its trailer. -/
theorem cut_cases {motive : List (UInt8 × Bool) → Prop}
    (header : ∀ n, 0 < n → n < member.header.length → motive (frame (member.header.take n)))
    (data : ∀ n < member.data.length, motive (frame member.header ++ member.data.take n))
    (trailer : ∀ n < member.trailer.length,
      motive (frame member.header ++ (member.data ++ frame (member.trailer.take n))))
    (hpos : 0 < n) (hn : n < member.marked.length) : motive (member.marked.take n) := by
  rcases Nat.lt_or_ge n member.header.length with hheader | hheader
  · rw [member.take_marked_header (Nat.le_of_lt hheader)]
    exact header n hpos hheader
  · obtain ⟨i, rfl⟩ := Nat.exists_eq_add_of_le hheader
    rcases Nat.lt_or_ge i member.data.length with hdata | hdata
    · rw [member.take_marked_data (Nat.le_of_lt hdata)]
      exact data i hdata
    · obtain ⟨j, rfl⟩ := Nat.exists_eq_add_of_le hdata
      have hj : j < member.trailer.length := by
        rw [length_marked, length_header] at hn
        rw [length_trailer]
        omega
      rw [member.take_marked_trailer]
      exact trailer j hj

end StoredMember

/-! ## Files -/

/-- The bytes of a file. -/
def storedFile (members : List StoredMember) : List (UInt8 × Bool) :=
  members.flatMap StoredMember.marked

/-- Some of the members, from the first one on, have so many bytes. -/
def EndsMember (members : List StoredMember) (n : Nat) : Prop :=
  ∃ front, front <+: members ∧ (storedFile front).length = n

instance (members : List StoredMember) (n : Nat) : Decidable (EndsMember members n) :=
  decidable_of_iff (∃ front ∈ members.inits, (storedFile front).length = n)
    (by simp only [EndsMember, List.mem_inits])

section File

variable (member : StoredMember) (members : List StoredMember) {n : Nat}

theorem storedFile_cons : storedFile (member :: members) = member.marked ++ storedFile members :=
  List.flatMap_cons

theorem contentOf_storedFile :
    contentOf (storedFile members) = members.flatMap StoredMember.payload := by
  induction members with
  | nil => rfl
  | cons member members ih =>
      rw [storedFile_cons, contentOf_append, StoredMember.contentOf_marked, ih, List.flatMap_cons]

theorem endsMember_length : EndsMember members (storedFile members).length :=
  ⟨members, List.prefix_refl members, rfl⟩

variable {member members}

theorem endsMember_marked (member : StoredMember) (members : List StoredMember) :
    EndsMember (member :: members) member.marked.length := by
  refine ⟨[member], List.cons_prefix_cons.mpr ⟨rfl, List.nil_prefix⟩, ?_⟩
  rw [storedFile_cons]
  exact congrArg List.length (List.append_nil _)

theorem not_endsMember_of_lt (hpos : 0 < n) (hn : n < member.marked.length) :
    ¬ EndsMember (member :: members) n := by
  rintro ⟨front, hfront, rfl⟩
  cases front with
  | nil => exact Nat.lt_irrefl 0 hpos
  | cons first front =>
      rw [List.cons_prefix_cons] at hfront
      rw [storedFile_cons, hfront.1, List.length_append] at hn
      omega

theorem endsMember_cons_iff :
    EndsMember (member :: members) (member.marked.length + n) ↔ EndsMember members n := by
  constructor
  · rintro ⟨front, hfront, hlength⟩
    cases front with
    | nil =>
        have hmember := member.length_marked
        rw [show storedFile [] = [] from rfl, List.length_nil] at hlength
        omega
    | cons first front =>
        rw [List.cons_prefix_cons] at hfront
        rw [storedFile_cons, hfront.1, List.length_append, Nat.add_left_cancel_iff] at hlength
        exact ⟨front, hfront.2, hlength⟩
  · rintro ⟨front, hfront, rfl⟩
    refine ⟨member :: front, List.cons_prefix_cons.mpr ⟨rfl, hfront⟩, ?_⟩
    rw [storedFile_cons, List.length_append]

theorem take_storedFile_of_le (hn : n ≤ member.marked.length) :
    (storedFile (member :: members)).take n = member.marked.take n := by
  rw [storedFile_cons, List.take_append_of_le_length hn]

theorem take_storedFile_add : (storedFile (member :: members)).take (member.marked.length + n) =
    member.marked ++ (storedFile members).take n := by
  rw [storedFile_cons, List.take_length_add_append]

/-- A file can be cut inside its first member, behind it, or at any place in the file of the
others. -/
theorem cut_induction {motive : List StoredMember → Nat → Prop}
    (within : ∀ member members n, 0 < n → n < member.marked.length → motive (member :: members) n)
    (behind : ∀ member members, motive (member :: members) member.marked.length)
    (further : ∀ member members n, 0 < n → n ≤ (storedFile members).length → motive members n →
      motive (member :: members) (member.marked.length + n))
    (hpos : 0 < n) (hn : n ≤ (storedFile members).length) : motive members n := by
  induction members generalizing n with
  | nil => exact absurd hn (Nat.not_le_of_lt hpos)
  | cons member members ih =>
      rcases Nat.lt_or_ge n member.marked.length with hcut | hwhole
      · exact within member members n hpos hcut
      · obtain ⟨m, rfl⟩ := Nat.exists_eq_add_of_le hwhole
        rw [storedFile_cons, List.length_append, Nat.add_le_add_iff_left] at hn
        rcases Nat.eq_zero_or_pos m with rfl | hm
        · exact behind member members
        · exact further member members m hm hn (ih hm hn)

end File

/-! ## What a decoder makes of them -/

/-- The decoder handed these bytes over and then found a fault. -/
def Decoded.BreaksOff (decoded : Decoded) (output : List UInt8) : Prop :=
  decoded.output = output ∧ decoded.fault ≠ none

/-- The decoder handed over the bytes that are stored in front of the cut, and found no fault only
if the cut is at the end of a member. -/
structure Decoded.Covers (decoded : Decoded) (members : List StoredMember) (n : Nat) : Prop where
  output_eq : decoded.output = contentOf ((storedFile members).take n)
  fault_iff : decoded.fault = none ↔ EndsMember members n

/-- The decoder at hand reads stored members as gzip has them, one after the other. Where a member
breaks off it hands over every stored byte that is there before it reports the fault. -/
structure ReadsStored [Decoder] : Prop where
  /-- A member with nothing behind it is a file without a fault. -/
  whole : ∀ member : StoredMember, Decoder.read (bytesOf member.marked) = ⟨member.payload, none⟩
  /-- Behind a member the next one starts, and what is there is read like a file of its own. -/
  next : ∀ (member : StoredMember) (members : List StoredMember) {n : Nat}, 0 < n →
    n ≤ (storedFile members).length →
    let rest := bytesOf ((storedFile members).take n)
    let decoded := Decoder.read (bytesOf member.marked ++ rest)
    decoded.output = member.payload ++ (Decoder.read rest).output ∧
      (decoded.fault = none ↔ (Decoder.read rest).fault = none)
  /-- In front of the data nothing is stored. -/
  header : ∀ (member : StoredMember) {n : Nat}, 0 < n → n < member.header.length →
    (Decoder.read (member.header.take n)).BreaksOff []
  /-- Behind whole blocks, a block breaks off in front of the stored bytes or among them. -/
  data : ∀ (member : StoredMember) (blocks : List StoredBlock) (block : StoredBlock)
    (isLast : Bool) {n : Nat}, n < (block.marked isLast).length →
    let read := innerBlocks blocks ++ (block.marked isLast).take n
    (Decoder.read (member.header ++ bytesOf read)).BreaksOff (contentOf read)
  /-- Behind the data, the checksum or the size is missing. -/
  trailer : ∀ (member : StoredMember) {n : Nat}, n < member.trailer.length →
    (Decoder.read (member.header ++ (bytesOf member.data ++ member.trailer.take n))).BreaksOff
      member.payload

end PageSync.Gzip

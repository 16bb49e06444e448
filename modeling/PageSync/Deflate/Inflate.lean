import PageSync.Deflate.Tables

/-! # Inflating

Compressed data is a sequence of blocks. A block is stored as it is, or written
with two codes: a symbol is a byte, the end of the block, or the length of a
repetition of what came before. Bytes from before the start are 0.

What was decoded before a fault is part of the result.
-/

namespace PageSync.Deflate

/-- What was decoded, and the data behind it or why there is no more. -/
structure Inflated where
  output : Array UInt8
  rest : Except Fault Bits

/-- For each length symbol from 257 on: the least length and how many bits the
remainder has. -/
def lengthTable : Array (Nat × Nat) :=
  #[(3, 0), (4, 0), (5, 0), (6, 0), (7, 0), (8, 0), (9, 0), (10, 0), (11, 1), (13, 1), (15, 1),
    (17, 1), (19, 2), (23, 2), (27, 2), (31, 2), (35, 3), (43, 3), (51, 3), (59, 3), (67, 4),
    (83, 4), (99, 4), (115, 4), (131, 5), (163, 5), (195, 5), (227, 5), (258, 0)]

/-- For each distance symbol: the least distance and how many bits the
remainder has. -/
def distanceTable : Array (Nat × Nat) :=
  #[(1, 0), (2, 0), (3, 0), (4, 0), (5, 1), (7, 1), (9, 2), (13, 2), (17, 3), (25, 3), (33, 4),
    (49, 4), (65, 5), (97, 5), (129, 6), (193, 6), (257, 7), (385, 7), (513, 8), (769, 8),
    (1025, 9), (1537, 9), (2049, 10), (3073, 10), (4097, 11), (6145, 11), (8193, 12), (12289, 12),
    (16385, 13), (24577, 13)]

/-- The number that an entry of a table and the bits of its remainder give.
There is none for symbols outside the table. -/
def readExtended {Source : Type} (reader : Reader Source) (table : Array (Nat × Nat))
    (symbol : Nat) (source : Source) : Except Fault (Nat × Source) :=
  match table[symbol]? with
  | none => .error .corrupt
  | some (least, width) =>
    match reader.number source width with
    | .error fault => .error fault
    | .ok (n, source) => .ok (least + n, source)

/-- Repeats what was written at a distance before the end, byte by byte. -/
def repeatBack (output : Array UInt8) (distance : Nat) : Nat → Array UInt8
  | 0 => output
  | length + 1 =>
    let b := if distance ≤ output.size then output.getD (output.size - distance) 0 else 0
    repeatBack (output.push b) distance length

/-- Reads the length and the distance of a repetition. -/
def readRepetition (tables : Tables) (symbol : Nat) (bits : Bits) :
    Except Fault (Nat × Nat × Bits) := do
  let (length, bits) ← readExtended Bits.reader lengthTable (symbol - 257) bits
  let (symbol, bits) ← tables.distances.decode bits
  let (distance, bits) ← readExtended Bits.reader distanceTable symbol bits
  .ok (length, distance, bits)

/-- Reads the symbols of a block up to its end. Every symbol takes a bit at
least, so as many steps as there are bits suffice, and without bits the block is
incomplete. -/
def inflateSymbols (tables : Tables) (output : Array UInt8) (bits : Bits) : Nat → Inflated
  | 0 => ⟨output, .error .incomplete⟩
  | steps + 1 =>
    match tables.literals.decode bits with
    | .error fault => ⟨output, .error fault⟩
    | .ok (symbol, bits) =>
      if symbol < 256 then inflateSymbols tables (output.push symbol.toUInt8) bits steps
      else if symbol = 256 then ⟨output, .ok bits⟩
      else
        match readRepetition tables symbol bits with
        | .error fault => ⟨output, .error fault⟩
        | .ok (length, distance, bits) =>
          inflateSymbols tables (repeatBack output distance length) bits steps

/-- Copies a stored block. Its length is written twice, the second time with
all bits inverted. -/
def inflateStored (output : Array UInt8) (bytes : List UInt8) : Inflated :=
  match bytes with
  | low :: high :: lowInverse :: highInverse :: data =>
    if lowInverse = ~~~low ∧ highInverse = ~~~high then
      let length := low.toNat + 256 * high.toNat
      let stored := data.take length
      if stored.length < length then ⟨output.appendList stored, .error .storedIncomplete⟩
      else ⟨output.appendList stored, .ok (Bits.ofBytes (data.drop length))⟩
    else ⟨output, .error .corrupt⟩
  | _ => ⟨output, .error .incomplete⟩

/-- Decodes the body of a block of the given type. -/
def inflateBody (output : Array UInt8) (type : Nat) (bits : Bits) (steps : Nat) : Inflated :=
  match type with
  | 0 => inflateStored output bits.align
  | 1 => inflateSymbols Tables.fixed output bits steps
  | 2 =>
    match Tables.read Bits.reader bits with
    | .error fault => ⟨output, .error fault⟩
    | .ok (tables, bits) => inflateSymbols tables output bits steps
  | _ => ⟨output, .error .corrupt⟩

/-- Decodes blocks up to the one that is marked as the last. Every block takes
a bit at least, so as many steps as there are bits suffice. -/
def inflateBlocks (output : Array UInt8) (bits : Bits) (total : Nat) : Nat → Inflated
  | 0 => ⟨output, .error .incomplete⟩
  | steps + 1 =>
    match bits.read 3 with
    | .error fault => ⟨output, .error fault⟩
    | .ok (header, bits) =>
      let body := inflateBody output (header / 2) bits total
      match body.rest with
      | .error _ => body
      | .ok bits =>
        if header % 2 = 1 then body else inflateBlocks body.output bits total steps

/-- Decodes compressed data. -/
def inflate (bytes : List UInt8) : Inflated :=
  let bits := Bits.ofBytes bytes
  inflateBlocks #[] bits bits.size bits.size

end PageSync.Deflate

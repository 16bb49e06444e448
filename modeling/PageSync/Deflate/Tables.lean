import PageSync.Deflate.Reader

/-! # The codes of a block

Compressed data is written with two codes: one for bytes and the lengths of
repetitions, one for how far back a repetition starts. The codes are fixed, or
a block brings the lengths of their words, which are themselves compressed.
-/

namespace PageSync.Deflate

/-- The two codes of a block. -/
structure Tables where
  literals : Code
  distances : Code
  deriving DecidableEq, Repr

namespace Tables

variable {Source : Type}

/-- The codes of a block that brings none. -/
def fixed : Tables where
  literals := Code.ofLengths
    (List.replicate 144 8 ++ List.replicate 112 9 ++ List.replicate 24 7 ++ List.replicate 8 8)
  distances := Code.ofLengths (List.replicate 32 5)

/-- The order in which the lengths for the code of lengths are written. -/
def lengthOrder : List Nat :=
  [16, 17, 18, 0, 8, 7, 9, 6, 10, 5, 11, 4, 12, 3, 13, 2, 14, 1, 15]

/-- Reads lengths of three bits, one for each of the given symbols. -/
def readShortLengths (reader : Reader Source) (lengths : Array Nat) (source : Source) :
    List Nat → Except Fault (Array Nat × Source)
  | [] => .ok (lengths, source)
  | symbol :: symbols =>
    match reader.number source 3 with
    | .error fault => .error fault
    | .ok (length, source) =>
      readShortLengths reader (lengths.setIfInBounds symbol length) source symbols

/-- How a symbol of the code of lengths repeats a length: which one, with how
many bits for the count, and from which count on. Symbol 16 repeats the last
length and needs one; 17 and 18 repeat 0. -/
def repetition (lengths : Array Nat) (symbol : Nat) : Except Fault (Nat × Nat × Nat) :=
  match symbol with
  | 16 =>
    match lengths.back? with
    | some last => .ok (last, 2, 3)
    | none => .error .corrupt
  | 17 => .ok (0, 3, 3)
  | _ => .ok (0, 7, 11)

/-- Reads lengths until there are enough. The steps are the lengths that are
still missing at least; too many lengths are a fault. -/
def readLengths (reader : Reader Source) (code : Code) (total : Nat) (lengths : Array Nat)
    (source : Source) : Nat → Except Fault (Array Nat × Source)
  | 0 => if lengths.size = total then .ok (lengths, source) else .error .corrupt
  | steps + 1 =>
    if lengths.size < total then
      match reader.word code source with
      | .error fault => .error fault
      | .ok (symbol, source) =>
        if symbol < 16 then readLengths reader code total (lengths.push symbol) source steps
        else
          match repetition lengths symbol with
          | .error fault => .error fault
          | .ok (length, width, least) =>
            match reader.number source width with
            | .error fault => .error fault
            | .ok (n, source) =>
              let lengths := lengths ++ Array.replicate (least + n) length
              readLengths reader code total lengths source steps
    else if lengths.size = total then .ok (lengths, source)
    else .error .corrupt

/-- Reads the codes that a block brings. -/
def read (reader : Reader Source) (source : Source) : Except Fault (Tables × Source) := do
  let (literals, source) ← reader.number source 5
  let (distances, source) ← reader.number source 5
  let (shorts, source) ← reader.number source 4
  let literals := literals + 257
  let distances := distances + 1
  if literals > 286 ∨ distances > 30 then
    .error .corrupt
  else
    let (shortLengths, source) ←
      readShortLengths reader (Array.replicate 19 0) source (lengthOrder.take (shorts + 4))
    if Code.isComplete shortLengths.toList then
      let total := literals + distances
      let (lengths, source) ←
        readLengths reader (Code.ofLengths shortLengths.toList) total #[] source total
      let literalLengths := lengths.toList.take literals
      let distanceLengths := lengths.toList.drop literals
      if Code.isUsable literalLengths ∧ Code.isUsable distanceLengths then
        .ok (⟨Code.ofLengths literalLengths, Code.ofLengths distanceLengths⟩, source)
      else .error .corrupt
    else .error .corrupt

end Tables

end PageSync.Deflate

import PageSync.Deflate.Inflate

/-! # Taking bytes in

Decoding takes the bytes of a chunk in before it needs their bits: four before a
symbol, two before another word, and for a number only those that it needs. The
output does not depend on it. But a stored block may begin with bytes that were
taken in with the code before it, and these are used up when decoding pauses
because there is no room for them.

This is decoding without the output itself. It finds out which stored bytes are
taken in early.
-/

namespace PageSync.Deflate

/-- The size of the window for the output. -/
def windowSize : Nat := 32768

/-- How symbols are read: one by one when room or bytes are scarce; else with
bytes taken in for two symbols if the first one stands for a byte; and with
bytes taken in for the numbers of a repetition as well. -/
inductive Pace
  | careful
  | paired
  | fast
  deriving DecidableEq, Repr

/-- Where decoding stands: the bits taken in and not used, the rest of the chunk,
what is behind the chunk, how much output there is, and how much there was when
the chunk was begun. Stored bytes of the output before `earlyEnd` were taken in
early; this is noted for the block that the data end in. -/
structure Intake where
  bits : Bits
  chunk : List UInt8
  later : List UInt8
  filled : Nat
  begun : Nat
  earlyEnd : Nat

namespace Intake

/-- The start of data of which nothing is taken in. -/
def ofChunks (chunk later : List UInt8) : Intake :=
  ⟨Bits.ofBytes [], chunk, later, 0, 0, 0⟩

/-- Whether the rest of the chunk has so many bytes. -/
def has (intake : Intake) (count : Nat) : Bool :=
  count == 0 || !(intake.chunk.drop (count - 1)).isEmpty

/-- Takes in bytes of the chunk. -/
def take (intake : Intake) (count : Nat) : Intake :=
  { intake with
    bits := { intake.bits with rest := intake.bits.rest ++ intake.chunk.take count }
    chunk := intake.chunk.drop count }

/-- Takes in bytes of the chunk when there are fewer bits than `least`. -/
def refill (intake : Intake) (least count : Nat) : Intake :=
  if intake.bits.size < least && intake.has count then intake.take count else intake

/-- Takes in the rest of the chunk and begins the next one. -/
def nextChunk (intake : Intake) : Intake :=
  { intake with
    bits := { intake.bits with rest := intake.bits.rest ++ intake.chunk }
    chunk := intake.later
    later := []
    begun := intake.filled }

/-- Leaves the bytes that were not begun to the chunk again. -/
def giveBack (intake : Intake) : Intake :=
  { intake with
    bits := { intake.bits with rest := [] }
    chunk := intake.bits.rest ++ intake.chunk }

/-- Takes in bytes one by one until there are as many bits as a number has. A
step takes a byte in or begins the next chunk. -/
def gather (intake : Intake) (width : Nat) : Nat → Intake
  | 0 => intake
  | steps + 1 =>
    if width ≤ intake.bits.size then intake
    else (if intake.has 1 then intake.take 1 else intake.nextChunk).gather width steps

/-- Reads a number. -/
def number (intake : Intake) (width : Nat) : Except Fault (Nat × Intake) := do
  let intake := intake.gather width (width + 1)
  let (n, bits) ← intake.bits.read width
  .ok (n, { intake with bits })

/-- Reads a word that the bits taken in hold. -/
def heldWord (intake : Intake) (code : Code) : Except Fault (Nat × Intake) := do
  let (symbol, bits) ← code.decode intake.bits
  .ok (symbol, { intake with bits })

/-- Begins the next chunk if the rest of this one does not hold the next word.
Two bytes always do, with what is taken in when words are short of bits. -/
def reach (intake : Intake) (code : Code) : Intake :=
  if intake.has 2 || intake.later.isEmpty then intake
  else
    match (intake.take 1).heldWord code with
    | .error .incomplete => intake.nextChunk
    | _ => intake

/-- Reads a word. Words have fifteen bits at most. -/
def word (code : Code) (intake : Intake) : Except Fault (Nat × Intake) :=
  let intake := (intake.reach code).refill 15 2
  match intake.heldWord code with
  | .error .incomplete => (intake.take 1).heldWord code
  | result => result

/-- Reads from the chunks of the data. -/
def reader : Reader Intake := ⟨number, word⟩

/-- How much room the window has. When it is full it starts anew with the next
chunk, or when there is more output. -/
def windowRoom (intake : Intake) : Nat :=
  if intake.filled % windowSize = 0 ∧ intake.filled ≠ intake.begun then 0
  else windowSize - intake.filled % windowSize

/-- Puts so much into the window. Decoding pauses when it is full, and bytes that
were not begun are left to the chunk. -/
def emit (intake : Intake) (count : Nat) : Intake :=
  let paused := if intake.windowRoom < count then intake.giveBack else intake
  { paused with filled := intake.filled + count }

/-- How the next symbol is read. -/
def pace (intake : Intake) : Pace :=
  if intake.has 4 && 2 ≤ intake.windowRoom then
    if intake.has 14 && 259 ≤ intake.windowRoom then .fast else .paired
  else .careful

/-- Reads the rest of a repetition and puts it into the window. -/
def repeatBack (intake : Intake) (tables : Tables) (symbol : Nat) (isFast : Bool) :
    Except Fault Intake := do
  let intake := if isFast then intake.refill 30 4 else intake
  let (length, intake) ← readExtended reader lengthTable (symbol - 257) intake
  let (symbol, intake) ← intake.word tables.distances
  let hasRemainder := (distanceTable[symbol]?).any (0 < ·.2)
  let intake := if isFast && hasRemainder then intake.refill 30 4 else intake
  let (_, intake) ← readExtended reader distanceTable symbol intake
  .ok (intake.emit length)

/-- Reads the symbols of a block up to its end. The second symbol of a pair keeps
the pace of the first one, and nothing is taken in for it. -/
def readSymbols (tables : Tables) (second : Option Pace) (intake : Intake) :
    Nat → Except Fault Intake
  | 0 => .error .incomplete
  | steps + 1 => do
    let intake := if second.isNone then intake.reach tables.literals else intake
    let pace := second.getD intake.pace
    let startsPair := second.isNone && pace ≠ .careful
    let intake := if startsPair then intake.refill 30 4 else intake
    let (symbol, intake) ← intake.word tables.literals
    if symbol < 256 then
      readSymbols tables (if startsPair then some pace else none) (intake.emit 1) steps
    else if symbol = 256 then .ok intake
    else
      let intake ← intake.repeatBack tables symbol (pace == .fast)
      readSymbols tables none intake steps

/-- Leaves out stored bytes. -/
def skip (intake : Intake) (count : Nat) : Intake :=
  let more := count - intake.bits.rest.length
  let intake := { intake with bits := { intake.bits with rest := intake.bits.rest.drop count } }
  if intake.has more then { intake with chunk := intake.chunk.drop more }
  else { intake with chunk := (intake.chunk ++ intake.later).drop more, later := [] }

/-- Reads a stored block. -/
def readStored (intake : Intake) : Except Fault Intake := do
  let (length, intake) ← { intake with bits := { intake.bits with count := 0 } }.number 16
  let (_, intake) ← intake.number 16
  let held := intake.bits.rest
  let endsData := ((held ++ intake.chunk ++ intake.later).drop length).isEmpty
  let earlyEnd := if endsData && !held.isEmpty then intake.filled + held.length else 0
  .ok { (intake.skip length).emit length with earlyEnd }

/-- Reads the body of a block of the given type. -/
def readBody (intake : Intake) (type steps : Nat) : Except Fault Intake :=
  match type with
  | 0 => intake.readStored
  | 1 => readSymbols Tables.fixed none intake steps
  | 2 => do
    let (tables, intake) ← Tables.read reader intake
    readSymbols tables none intake steps
  | _ => .error .corrupt

/-- Reads blocks as far as there are whole ones. -/
def readBlocks (intake : Intake) (total : Nat) : Nat → Intake
  | 0 => intake
  | steps + 1 =>
    match intake.number 3 with
    | .error _ => intake
    | .ok (header, body) =>
      match body.readBody (header / 2) total with
      | .error _ => intake
      | .ok next => if header % 2 = 1 then next else next.readBlocks total steps

/-- Up to which size of the output stored bytes at the end of the data are taken
in early, or 0 if the data do not end with such bytes. Every block takes a bit
at least, so as many steps as there are bits suffice. -/
def storedEarly (chunk later : List UInt8) : Nat :=
  let total := 8 * (chunk.length + later.length)
  ((ofChunks chunk later).readBlocks total total).earlyEnd

end Intake

end PageSync.Deflate

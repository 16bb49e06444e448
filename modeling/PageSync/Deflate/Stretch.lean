import PageSync.Deflate.Intake
import PageSync.Deflate.Member

/-! # Stretches

Decoding pauses where the window for the output is full, where a chunk of the
input is used up, where a member ends, and where the file ends. What is decoded
between two pauses is a stretch. Where chunks end is found by decoding the bytes
before that place on their own: output needs nothing but what stands before it.
-/

namespace PageSync.Deflate

/-- The size of the chunks that the input is taken in. -/
def chunkSize : Nat := 32768

/-- Why decoding pauses. -/
inductive Pause
  | windowFull
  | inputUsedUp
  | fileUsedUp
  deriving DecidableEq, Repr

/-- The output before a pause and behind the one before it. -/
structure Stretch where
  length : Nat
  pause : Pause
  deriving DecidableEq, Repr

namespace Stretch

/-- The lengths of the stretches that fill a window, from one size of the output
to another. A window counts as filled when there is more output behind it. -/
def fillingLengths (start size : Nat) : List Nat :=
  match (size - 1) / windowSize - start / windowSize with
  | 0 => []
  | more + 1 => (windowSize - start % windowSize) :: List.replicate more windowSize

/-- Where the window was full for the last time in output of the given size. -/
def lastFilled (size : Nat) : Nat := (size - 1) / windowSize * windowSize

/-- Whether decoding has used up so many bytes of the data when it pauses for
room behind so much output: without the last of these bytes there is no more
output. Stored bytes are an exception, being left where they are until there is
room, unless they are taken in early. -/
def isUsedUp (data : List UInt8) (count size : Nat) : Bool :=
  let shorter := inflate (data.take (count - 1))
  match shorter.rest with
  | .error .storedIncomplete => false
  | _ => shorter.output.size ≤ size

/-- Whether the bytes of the data up to `count`, of which the first `before` were
taken in with earlier chunks, end with a stored byte that is taken in before
there is room for it behind so much output. -/
def isTakenEarly (data : List UInt8) (before count size : Nat) : Bool :=
  size < Intake.storedEarly (data.take before) ((data.take count).drop before)

/-- The stretches in the data of a member behind the start of the output, given
how many bytes of the data were taken in before, and where the chunks of the
data end. When the data break off and there are no more bytes to take in, what
is still decoded from bits left over is the last stretch in the file. -/
def ofData (data : List UInt8) (start before : Nat) : List Nat → List Stretch
  | [] => []
  | count :: counts =>
    let inflated := inflate (data.take count)
    let size := inflated.output.size
    let filling := fillingLengths start size
    let paused := if filling.isEmpty then start else lastFilled size
    filling.map (⟨·, .windowFull⟩) ++
      if !filling.isEmpty && (isUsedUp data count paused
          || size == paused + 1 && isTakenEarly data before count paused) then
        ⟨0, .inputUsedUp⟩ :: ofData data paused count counts
      else
        match inflated.rest with
        | .ok _ => [⟨size - paused, .inputUsedUp⟩]
        | .error .corrupt => []
        | .error _ =>
          if count ≤ before then [⟨size - paused, .fileUsedUp⟩]
          else ⟨size - paused, .inputUsedUp⟩ :: ofData data size count counts

/-- Where the chunks end that data at a given place in the file stand in, counted
from the start of the data. Chunks are counted from `origin`. Behind the end of
the data there is nothing to take, which is told once more at least. -/
def chunkEnds (origin place length : Nat) : List Nat :=
  (List.range (length / chunkSize + 3)).map fun n =>
    min length (chunkSize - (place - origin) % chunkSize + n * chunkSize)

/-- How long the extra field in a header is. -/
def extraLength (header : List UInt8) : Nat :=
  if header.getD 3 0 &&& 4 = 0 then 0 else littleEndian ((header.drop 10).take 2)

/-- Where chunks are counted from behind a header. An extra field is taken in one
piece if it goes on for a whole chunk behind the chunk that it starts in, and a
new chunk starts behind it. -/
def originBehind (origin place : Nat) (header : List UInt8) : Nat :=
  let start := place + 12
  let left := (chunkSize - (start - origin) % chunkSize) % chunkSize
  let length := extraLength header
  if left + chunkSize ≤ length then start + length else origin

/-- The stretches in the members of a file of the given size. -/
def ofMembers (size origin : Nat) : List Member → List Stretch
  | [] => []
  | member :: members =>
    let origin := originBehind origin (size - member.bytes.length) member.bytes
    let ends := chunkEnds origin (size - member.data.length) member.data.length
    ofData member.data 0 0 ends ++ ofMembers size origin members

end Stretch

end PageSync.Deflate

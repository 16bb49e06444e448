import PageSync.Deflate.Stretch

/-! # Handing over the output

Output is handed over while more of it is decoded, and what was handed over
stays when the data turn out to be damaged. A read takes stretches in as long as
it has room, and is lost as a whole when it meets corrupt data. When the file
ends too early, what the last read has no room for is lost. So the sizes of
windows, chunks and reads say how much of the output stays.
-/

namespace PageSync.Deflate

/-- The place that output is read into. It has room for `capacity` bytes. A read
takes `limit` of them at most, or what a read before it left open. -/
structure Buffer where
  initial : Nat
  capacity : Nat
  filled : Nat
  limit : Nat
  leftOpen : Nat
  deriving DecidableEq, Repr

namespace Buffer

/-- The empty buffer for a file of the given size. -/
def ofSize (size : Nat) : Buffer where
  initial := 5 * size
  capacity := 5 * size
  filled := 0
  limit := 8192
  leftOpen := 0

/-- Less room than this is not read into. -/
def leastRoom : Nat := 32

/-- Whether the buffer is full for the first time, or nearly so. It only grows if
a small read shows that there is more output than it has room for. -/
def isProbing (buffer : Buffer) : Bool :=
  buffer.capacity - buffer.filled < leastRoom && buffer.capacity == buffer.initial

/-- Doubles the capacity of a buffer with little room, or adds more if that is
too little. -/
def grow (buffer : Buffer) (least : Nat) : Buffer :=
  if buffer.filled + least ≤ buffer.capacity then buffer
  else { buffer with capacity := max (2 * buffer.capacity) (buffer.filled + least) }

/-- How much the next read takes at most. -/
def room (buffer : Buffer) : Nat :=
  if buffer.isProbing then leastRoom
  else
    let free := (buffer.grow leastRoom).capacity - buffer.filled
    min free (if buffer.leftOpen = 0 then buffer.limit else buffer.leftOpen)

/-- Takes in what a read got. What a read left open is for the next one, unless
it is very little. The limit is doubled after a read that reached it. -/
def add (buffer : Buffer) (count : Nat) : Buffer :=
  if buffer.isProbing then { buffer.grow count with filled := buffer.filled + count }
  else
    let room := buffer.room
    { buffer.grow leastRoom with
      filled := buffer.filled + count
      limit := if count = room ∧ buffer.limit ≤ room then 2 * buffer.limit else buffer.limit
      leftOpen := if room - count ≤ leastRoom then 0 else room - count }

/-- Reads what is pending. Every read takes a byte at least, so as many steps as
there are bytes suffice. -/
def addPending (buffer : Buffer) (pending : Nat) : Nat → Buffer
  | 0 => buffer
  | steps + 1 =>
    if pending = 0 then buffer
    else
      let count := min pending buffer.room
      (buffer.add count).addPending (pending - count) steps

end Buffer

/-- What was read, and how much the running read has got. -/
structure Reads where
  buffer : Buffer
  got : Nat
  deriving DecidableEq, Repr

/-- Takes in one more stretch. A read ends when it has no room left, and what is
left of the stretch then is read before decoding goes on, unless there is
nothing to go on with. A read that has got some output ends as well where the
input is used up. -/
def Reads.add (reads : Reads) (stretch : Stretch) : Reads :=
  let room := reads.buffer.room
  let got := reads.got + stretch.length
  if room ≤ got then
    let buffer := reads.buffer.add room
    if stretch.pause = .fileUsedUp then ⟨buffer, 0⟩
    else ⟨buffer.addPending (got - room) (got - room), 0⟩
  else if stretch.pause ≠ .windowFull ∧ 0 < got then ⟨reads.buffer.add got, 0⟩
  else ⟨reads.buffer, got⟩

/-- How much output of a file of the given size was read when the last of its
members turned out to be damaged. -/
def delivered (size : Nat) (members : List Member) : Nat :=
  ((Stretch.ofMembers size 0 members).foldl Reads.add ⟨Buffer.ofSize size, 0⟩).buffer.filled

/-- Whether the data of a member that breaks off were used up already when
decoding paused with the window full. -/
def Member.breaksOffPaused (member : Member) : Bool :=
  let paused := Stretch.lastFilled member.output.length
  0 < paused && Stretch.isUsedUp member.data member.data.length paused

end PageSync.Deflate

import PageSync.Gzip.Crc32
import PageSync.Deflate.Inflate

/-! # Members

A gzip file is a sequence of members. A member has a header, compressed data,
and a trailer with the checksum and the size of what was compressed.
-/

namespace PageSync.Deflate

/-- What may be wrong with a member. -/
inductive Cause
  | unexpectedEnd
  | invalidHeader
  | fieldTooLong
  | checksumMismatch
  | incompleteData
  | corruptData
  deriving DecidableEq, Repr

/-- The cause in words. -/
def Cause.message : Cause → String
  | unexpectedEnd => "unexpected end of file"
  | invalidHeader => "invalid gzip header"
  | fieldTooLong => "gzip header field too long"
  | checksumMismatch => "corrupt gzip stream does not have a matching checksum"
  | incompleteData => "incomplete deflate stream"
  | corruptData => "corrupt deflate stream"

/-- The number that some bytes write, the least significant one first. -/
def littleEndian (bytes : List UInt8) : Nat :=
  bytes.foldr (fun b n => b.toNat + 256 * n) 0

/-- Takes a given number of bytes off. -/
def takeExactly (count : Nat) (bytes : List UInt8) : Except Cause (List UInt8 × List UInt8) :=
  let taken := bytes.take count
  if taken.length = count then .ok (taken, bytes.drop count) else .error .unexpectedEnd

/-- The longest a text in a header may be. -/
def maxTextLength : Nat := 65535

/-- Leaves out a text that a zero byte ends. -/
def skipText (bytes : List UInt8) : Except Cause (List UInt8) :=
  let rest := bytes.dropWhile (· != 0)
  if bytes.length - rest.length > maxTextLength then .error .fieldTooLong
  else if rest.isEmpty then .error .unexpectedEnd
  else .ok (rest.drop 1)

/-- Leaves out the extra field, which starts with its length. -/
def skipExtra (bytes : List UInt8) : Except Cause (List UInt8) := do
  let (length, bytes) ← takeExactly 2 bytes
  let (_, bytes) ← takeExactly (littleEndian length) bytes
  .ok bytes

/-- Compares the checksum of the header with the header before it. -/
def checkHeader (header bytes : List UInt8) : Except Cause (List UInt8) := do
  let (sum, rest) ← takeExactly 2 bytes
  let read := header.take (header.length - bytes.length)
  if littleEndian sum = (Gzip.Crc32.checksum read).toNat % 65536 then .ok rest
  else .error .checksumMismatch

/-- Does something to the bytes if a flag is set. -/
def whenSet (flags flag : UInt8) (skip : List UInt8 → Except Cause (List UInt8))
    (bytes : List UInt8) : Except Cause (List UInt8) :=
  if flags &&& flag = 0 then .ok bytes else skip bytes

/-- Whether the first ten bytes of a header are those of a member that can be
read: the two bytes that mark gzip, the one known method and no unknown flags. -/
def isReadable (fixed : List UInt8) : Bool :=
  match fixed with
  | 0x1F :: 0x8B :: 8 :: flags :: _ => flags &&& 0xE0 == 0
  | _ => false

/-- The data behind the header that the bytes start with. The header has ten
bytes, whose fourth holds the flags, and then what the flags say. -/
def skipHeader (bytes : List UInt8) : Except Cause (List UInt8) := do
  let (fixed, rest) ← takeExactly 10 bytes
  if isReadable fixed then
    let flags := fixed.getD 3 0
    let rest ← whenSet flags 4 skipExtra rest
    let rest ← whenSet flags 8 skipText rest
    let rest ← whenSet flags 16 skipText rest
    whenSet flags 2 (checkHeader bytes) rest
  else .error .invalidHeader

/-- Compares the trailer that the bytes start with to the output before it. -/
def checkTrailer (output : List UInt8) (bytes : List UInt8) : Except Cause (List UInt8) := do
  let (sum, bytes) ← takeExactly 4 bytes
  let (size, bytes) ← takeExactly 4 bytes
  if littleEndian sum = (Gzip.Crc32.checksum output).toNat
      ∧ littleEndian size = output.length % UInt32.size then .ok bytes
  else .error .checksumMismatch

/-- A member that was read: the bytes from its header and from its data on,
what was decoded, and the bytes behind it or what is wrong. -/
structure Member where
  bytes : List UInt8
  data : List UInt8
  output : List UInt8
  rest : Except Cause (List UInt8)

/-- Decodes the member that the bytes start with. -/
def readMember (bytes : List UInt8) : Member :=
  match skipHeader bytes with
  | .error cause => ⟨bytes, [], [], .error cause⟩
  | .ok data =>
    let inflated := inflate data
    let output := inflated.output.toList
    match inflated.rest with
    | .error .corrupt => ⟨bytes, data, output, .error .corruptData⟩
    | .error _ => ⟨bytes, data, output, .error .incompleteData⟩
    | .ok bits => ⟨bytes, data, output, checkTrailer output bits.align⟩

end PageSync.Deflate

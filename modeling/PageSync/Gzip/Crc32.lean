/-! # CRC-32

The checksum of gzip: the remainder of a division of bit polynomials, taken
with the bits of every byte in reverse.
-/

namespace PageSync.Gzip.Crc32

/-- The divisor, without its leading term, in reverse. -/
def divisor : UInt32 := 0xEDB88320

/-- One step of the division. -/
def shift (remainder : UInt32) : UInt32 :=
  if remainder % 2 = 1 then divisor ^^^ (remainder >>> 1) else remainder >>> 1

/-- What eight steps make of each byte. -/
def table : Array UInt32 :=
  (Array.range 256).map fun n => Nat.repeat shift 8 (UInt32.ofNat n)

/-- Takes one more byte into the remainder. -/
def add (remainder : UInt32) (b : UInt8) : UInt32 :=
  table.getD ((remainder ^^^ b.toUInt32) % 256).toNat 0 ^^^ (remainder >>> 8)

/-- The checksum of some bytes. -/
def checksum (bytes : List UInt8) : UInt32 := ~~~(bytes.foldl add 0xFFFFFFFF)

end PageSync.Gzip.Crc32

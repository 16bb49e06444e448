/-! # Decoders

The library does not decompress files itself. Whatever decoder is at hand reads
them: it hands over bytes up to the end of a file, or up to where it finds that
the file is damaged, and then says in words what is wrong.
-/

namespace PageSync.Gzip

/-- What a decoder makes of a file: the bytes that it handed over, and what is
wrong if it did not come to the end. -/
@[ext]
structure Decoded where
  output : List UInt8
  fault : Option String
  deriving DecidableEq, Repr

/-- The decoder at hand, by what it makes of each file. -/
class Decoder where
  read : List UInt8 → Decoded

end PageSync.Gzip

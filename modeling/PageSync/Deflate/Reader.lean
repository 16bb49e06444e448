import PageSync.Deflate.Code

/-! # Readers

What compressed data is made of, however it is taken in: numbers of a known
width, and words of a code.
-/

namespace PageSync.Deflate

/-- How to read numbers and words from a source. -/
structure Reader (Source : Type) where
  number : Source → Nat → Except Fault (Nat × Source)
  word : Code → Source → Except Fault (Nat × Source)

/-- Reads from bits that are all there. -/
def Bits.reader : Reader Bits := ⟨Bits.read, Code.decode⟩

end PageSync.Deflate

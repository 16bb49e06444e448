import PageSync.Gzip.Decompress
import PageSync.Index.Draft
import PageSync.Settings

/-! # Reading a file

A file holds a document, compressed or not. Reading it gives the draft of its
index, which also tells how much of the document could not be used.
-/

namespace PageSync

/-- What became of a file: the draft of its index, and whether the end of the
document was lost. -/
structure Reading where
  draft : Draft
  truncated : Bool

/-- Reads a document that is not compressed. -/
def Reading.ofDocument (root : Option String) (text : List UInt8) : Reading :=
  ⟨Draft.ofEvents root (Document.events text), false⟩

variable [Gzip.Decoder]

/-- Reads a file. -/
def Reading.ofFile (root : Option String) (bytes : List UInt8) :
    Except Gzip.DecompressError Reading :=
  (Gzip.decompress bytes).map fun decompressed =>
    { ofDocument root decompressed.output with truncated := decompressed.truncated }

/-- The index of a file. -/
def Index.ofFile (root : Option String) (bytes : List UInt8) :
    Except Gzip.DecompressError Index :=
  (Reading.ofFile root bytes).map fun reading => reading.draft.index

end PageSync

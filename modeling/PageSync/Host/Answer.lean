import PageSync.Forward.Search
import PageSync.Host.Term
import PageSync.Inverse.Search

/-! # Answers

A call answers with a term, or with a report on memory. The answers of searches
and of questions about an index are maps and lists. The entries of a map are in
the order of their names.
-/

namespace PageSync.Host

/-- What can be said of the memory in use. Its size depends on the machine. -/
structure MemoryReport where
  inUse : Bool := true
  peakAtLeastCurrent : Bool := true
  deriving DecidableEq, Repr

/-- What a call answers. -/
inductive Answer
  | value (term : Term)
  | memory (report : MemoryReport)

namespace Term

/-- A place in a source file. -/
def ofSourceLine (source : SourceLine) : Term :=
  record [("file", text source.file), ("line", word source.line)]

/-- A rectangle on a page. -/
def ofRegion (region : Region) : Term :=
  record
    [("height", float region.height), ("page", word region.page), ("width", float region.width),
      ("x", float region.x), ("y", float region.y)]

/-- The declarations of a document. A version or an output that was not
declared is absent. -/
def ofHeader (header : Header) : Term :=
  record
    [("magnification", int header.scale.magnification),
      ("output", ofOption text header.output),
      ("unit", int header.scale.unit),
      ("version", ofOption int header.version),
      ("x_offset", int header.scale.xOffset),
      ("y_offset", int header.scale.yOffset)]

/-- The inputs as pairs of tag and name, by tag. -/
def ofInputs (inputs : Inputs) : Term :=
  list (inputs.toList.map fun (tag, name) => tuple [word tag, text name])

end Term

end PageSync.Host

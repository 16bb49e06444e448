import PageSync.Stream.Record

/-! # Events

A document is read as a sequence of events: what its header declares, the
inputs it was made from, and for each page the records and the ends of boxes.
Lines that cannot be read leave an event too, so that they can be counted.
-/

namespace PageSync

/-- A declaration of the header. -/
inductive HeaderField
  | version (n : Int)
  | output (path : List UInt8)
  | magnification (n : Int)
  | unit (n : Int)
  | xOffset (n : Int)
  | yOffset (n : Int)
  deriving DecidableEq, Repr

/-- What a line of the document says. -/
inductive Event
  | header (field : HeaderField)
  | input (tag : UInt32) (path : List UInt8)
  | pageStart (page : UInt32)
  | pageEnd (page : UInt32)
  | record (record : Record)
  | malformed (kind : Kind)
  | boxEnd
  | skipped (line : List UInt8)
  deriving DecidableEq, Repr

/-- How often each sort of event occurs that a line can ask for. -/
structure EventCounts where
  header : Nat := 0
  input : Nat := 0
  pageStart : Nat := 0
  pageEnd : Nat := 0
  record : Nat := 0
  boxEnd : Nat := 0
  deriving DecidableEq, Repr

/-- Counts one more event. Lines that could not be read are not counted. -/
def EventCounts.add (counts : EventCounts) : Event → EventCounts
  | .header _ => { counts with header := counts.header + 1 }
  | .input _ _ => { counts with input := counts.input + 1 }
  | .pageStart _ => { counts with pageStart := counts.pageStart + 1 }
  | .pageEnd _ => { counts with pageEnd := counts.pageEnd + 1 }
  | .record _ => { counts with record := counts.record + 1 }
  | .boxEnd => { counts with boxEnd := counts.boxEnd + 1 }
  | .malformed _ | .skipped _ => counts

def EventCounts.ofEvents (events : List Event) : EventCounts :=
  events.foldl add {}

end PageSync

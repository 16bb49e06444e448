import PageSync.Stream.Event
import PageSync.Text.Lines
import PageSync.Text.Utf8

/-! # Documents

A document has a header, which ends at the line `Content:`, the content, and a
postamble, which starts at a line that begins with `Postamble:` and is not
read. Empty lines are left out. `Document.events` reads a document from front
to back; a line is understood by its part of the document alone.
-/

namespace PageSync.Document

open Text

/-- The part of the document a line stands in. -/
inductive Part
  | header
  | content
  | postamble
  deriving DecidableEq, Repr

/-- The line behind a label, if it starts with the label. -/
def after? (label : String) (line : List UInt8) : Option (List UInt8) :=
  let bytes := Utf8.encode label
  if bytes.isPrefixOf line then some (line.drop bytes.length) else none

/-- What the body of an `Input:` line declares. The name may hold any byte. -/
def inputEvent (line body : List UInt8) : Event :=
  match readWordBefore? .colon body with
  | some (tag, path) => .input tag path
  | none => .skipped line

/-- The labels of the header's integers. -/
def integerLabels : List (String × (Int → HeaderField)) :=
  [("SyncTeX Version:", .version), ("Magnification:", .magnification), ("Unit:", .unit),
    ("X Offset:", .xOffset), ("Y Offset:", .yOffset)]

/-- The integer that a header line declares. -/
def integerField? (line : List UInt8) : Option HeaderField :=
  integerLabels.findSome? fun (label, field) =>
    ((after? label line).bind Decimal.parse?).map field

/-- What a line of the header says. -/
def headerEvent (line : List UInt8) : Event :=
  match after? "Input:" line with
  | some body => inputEvent line body
  | none =>
    match after? "Output:" line with
    | some path => .header (.output path)
    | none =>
      match integerField? line with
      | some field => .header field
      | none => .skipped line

/-- The page number behind a page bracket. -/
def pageNumber? (body : List UInt8) : Option UInt32 :=
  (Decimal.parse? body).bind Decimal.word?

/-- What a record line of a given kind says. -/
def recordEvents (kind : Kind) (line body : List UInt8) : List Event :=
  match Record.parse? kind body with
  | some record => [.record record]
  | none => [.malformed kind, .skipped line]

/-- What a line of the content says. A left brace opens a page and a right one
closes it, either bracket ends a box, and an exclamation mark starts an anchor,
which says nothing. -/
def contentEvents (line : List UInt8) : List Event :=
  match line with
  | [] => []
  | 0x7B :: body =>
    match pageNumber? body with
    | some page => [.pageStart page]
    | none => [.skipped line]
  | 0x7D :: body => [.pageEnd ((pageNumber? body).getD 0)]
  | 0x5D :: _ => [.boxEnd]
  | 0x29 :: _ => [.boxEnd]
  | 0x21 :: _ => []
  | first :: body =>
    match after? "Input:" line with
    | some declaration => [inputEvent line declaration]
    | none =>
      match Kind.ofByte? first with
      | some kind => recordEvents kind line body
      | none => [.skipped line]

/-- How far a document is read: the part that the next line stands in, and the
events so far. -/
structure Progress where
  part : Part := .header
  events : Array Event := #[]
  deriving Repr

/-- Reads one line. -/
def Progress.read (progress : Progress) (line : List UInt8) : Progress :=
  if line.isEmpty then progress
  else
    match progress.part with
    | .header =>
      if line = Utf8.encode "Content:" then { progress with part := .content }
      else { progress with events := progress.events.push (headerEvent line) }
    | .content =>
      if (after? "Postamble:" line).isSome then { progress with part := .postamble }
      else { progress with events := progress.events.appendList (contentEvents line) }
    | .postamble => progress

/-- All events of a document, in order. -/
def events (text : List UInt8) : List Event :=
  ((lines text).foldl Progress.read {}).events.toList

end PageSync.Document

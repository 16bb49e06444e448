import PageSync.Index.Basic
import PageSync.Stream.Document

/-! # Drafts

A draft is an index to which the events of a document are still being added.
It knows which page is open and which boxes on it are. A box whose line could
not be read is open too, so that its end is not taken for that of another, but
it is no parent.
-/

namespace PageSync

open Text

/-- An index in the making. The innermost open box comes first; `none` stands
for a box that could not be read. What could not be used is counted in
`skipped`: lines, and records that lie outside every page. The latter are
counted in `outside` too. -/
structure Draft where
  root : Option String
  index : Index := {}
  openPage : Option UInt32 := none
  openBoxes : List (Option Nat) := []
  skipped : Nat := 0
  outside : Nat := 0

namespace Draft

/-- The innermost open box that could be read. -/
def parent? (draft : Draft) : Option Nat := draft.openBoxes.findSome? id

/-- Takes over a declaration of the header. The last one of its sort stays. -/
def declare (header : Header) : HeaderField → Header
  | .version n => { header with version := some n }
  | .output path =>
    { header with output := some (String.ofList (trimWhitespace (Utf8.decodeLenient path).toList)) }
  | .magnification n => { header with scale.magnification := n }
  | .unit n => { header with scale.unit := n }
  | .xOffset n => { header with scale.xOffset := n }
  | .yOffset n => { header with scale.yOffset := n }

/-- Adds a record to the open page. Without an open page it is only counted. -/
def addRecord (draft : Draft) (record : Record) : Draft :=
  match draft.openPage with
  | none => { draft with skipped := draft.skipped + 1, outside := draft.outside + 1 }
  | some page =>
    let id := (draft.index.page? page).elim 0 Page.size
    let node := Node.ofRecord draft.index.header.scale page record
    { draft with
      index := draft.index.addNode node draft.parent?
      openBoxes :=
        if record.kind.isContainer then some id :: draft.openBoxes else draft.openBoxes }

/-- Adds one event. The end of a box closes the innermost one, whatever its
kind, and the end of a page closes the open page, whatever its number. -/
def add (draft : Draft) : Event → Draft
  | .header field => { draft with index.header := declare draft.index.header field }
  | .input tag path =>
    { draft with
      index.inputs := draft.index.inputs.insert draft.root tag (Utf8.decodeLenient path) }
  | .pageStart page =>
    { draft with index := draft.index.ensurePage page, openPage := some page, openBoxes := [] }
  | .pageEnd _ => { draft with openPage := none, openBoxes := [] }
  | .record record => draft.addRecord record
  | .malformed kind =>
    if draft.openPage.isSome && kind.isContainer then
      { draft with openBoxes := none :: draft.openBoxes }
    else draft
  | .boxEnd => { draft with openBoxes := draft.openBoxes.tail }
  | .skipped _ => { draft with skipped := draft.skipped + 1 }

/-- The draft after a sequence of events. -/
def ofEvents (root : Option String) (events : List Event) : Draft :=
  events.foldl add { root := root }

end Draft

/-- The index of a document, whose inputs are named from a directory. -/
def Index.ofDocument (root : Option String) (text : List UInt8) : Index :=
  (Draft.ofEvents root (Document.events text)).index

end PageSync

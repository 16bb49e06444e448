import PageSync.Forward.NearestLine
import PageSync.Forward.Region
import PageSync.Forward.Selection

/-! # From a source line to a region of a page

The search looks up the file, finds the nearest line with records and keeps the
nodes on the page of the first of them. Its result tells how it went.
-/

namespace PageSync

/-- What a search found for a line: the line with records that was used, all
its nodes, and those whose region is the result. -/
structure LineMatch where
  line : UInt32
  matched : List NodeRef
  selected : List Nat
  region : Option Region

/-- How a search from a source line ends. -/
inductive ForwardResult
  | unknownFile
  | noRecords
  | found (result : LineMatch)

/-- The region that was found, if one was. -/
def ForwardResult.region? : ForwardResult → Option Region
  | found result => result.region
  | unknownFile | noRecords => none

namespace Index

/-- The numbers of the nodes that are on a page. -/
def onPage (page : UInt32) (refs : List NodeRef) : List Nat :=
  (refs.filter fun ref => ref.page == page).map NodeRef.id

/-- What the nodes recorded for a line lead to. Only the page of the first of
them counts. -/
def matchLine (index : Index) (settings : Settings) (line : UInt32) (refs : List NodeRef) :
    LineMatch :=
  match refs.head?.bind fun first =>
      (index.page? first.page).map fun page => (first.page, page) with
  | none => ⟨line, refs, [], none⟩
  | some (number, page) =>
    let selected := page.select (onPage number refs)
    ⟨line, refs, selected, Region.ofNodes? settings number (selected.filterMap page.get?)⟩

/-- Searches from a line of a file. -/
def forward (index : Index) (settings : Settings) (file : String) (line : UInt32) :
    ForwardResult :=
  match index.inputs.resolve? file with
  | none => .unknownFile
  | some input =>
    match index.nearestLine? input line settings.maxLineOffset with
    | none => .noRecords
    | some (matchedLine, refs) => .found (index.matchLine settings matchedLine refs)

/-- The region of a page that comes from a line of a file. -/
def forward? (index : Index) (settings : Settings) (file : String) (line : UInt32) :
    Option Region :=
  (index.forward settings file line).region?

/-- The regions of many lines. -/
def forwardAll (index : Index) (settings : Settings) (queries : List (String × UInt32)) :
    List (Option Region) :=
  queries.map fun (file, line) => index.forward? settings file line

end Index

end PageSync

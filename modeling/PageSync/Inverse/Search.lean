import PageSync.Index.Basic
import PageSync.Inverse.Descent
import PageSync.Inverse.Siblings
import PageSync.Inverse.Start
import PageSync.Settings

/-! # From a point on a page to the source

The search picks a start, goes down from it and looks for the source among the
children of the box where it ends. A start without children has its own source.
-/

namespace PageSync

/-- The source at a point of the page. -/
def Page.locate? (page : Page) (point : Point) (kernBias : Float) : Option Location :=
  match page.start? point with
  | none => none
  | some start =>
    if (page.children start).isEmpty then page.source? start
    else (page.descend? point start).bind (page.sourceIn? point kernBias)

/-- A line of a source file. -/
structure SourceLine where
  file : String
  line : UInt32
  deriving DecidableEq, Repr

namespace Index

/-- The source line at a point of a page. An input that was never declared has
the empty name. -/
def inverse? (index : Index) (settings : Settings) (page : UInt32) (point : Point) :
    Option SourceLine := do
  let nodes ← index.page? page
  let location ← nodes.locate? point settings.kernBias
  some ⟨(index.inputs.name? location.input).getD "", location.line⟩

/-- The source lines at many points. -/
def inverseAll (index : Index) (settings : Settings) (points : List (UInt32 × Point)) :
    List (Option SourceLine) :=
  points.map fun (page, point) => index.inverse? settings page point

end Index

end PageSync

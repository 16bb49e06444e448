import PageSync.Page.Closest

/-! # Where a search from a point starts

The search starts at the smallest horizontal box around the point, or at the
nearest horizontal box. A page without any starts it at the nearest node, where
of equally near ones a kern comes last and a deeper node comes first.
-/

namespace PageSync.Page

/-- Whether the first box is tighter: smaller in area, or as large but less high. -/
def tighter (a b : Node) : Bool :=
  a.area < b.area || (a.area == b.area && a.totalHeight < b.totalHeight)

/-- The tightest horizontal box around the point. -/
def smallestAround? (page : Page) (point : Point) : Option Nat :=
  (firstBest? (fun a b => tighter a.2 b.2)
    (page.hboxes.filter fun (_, node) => node.contains point)).map Prod.fst

/-- The horizontal box nearest to the point. -/
def nearestHbox? (page : Page) (point : Point) : Option Nat :=
  nearest? point page.hboxes

/-- A node with its depth in the forest of its page. -/
structure Placed where
  id : Nat
  node : Node
  depth : Nat

/-- Whether the first node is preferred as a start: it is nearer, or as near
and no kern while the other is one, or else deeper. -/
def Placed.preferred (point : Point) (a b : Placed) : Bool :=
  let da := a.node.l1Distance point
  let db := b.node.l1Distance point
  let aIsKern := a.node.kind == .kern
  let bIsKern := b.node.kind == .kern
  if da != db then da < db
  else if aIsKern != bIsKern then bIsKern
  else a.depth > b.depth

/-- All nodes with their depths, parents before their children. -/
def placed? (page : Page) : Option (List Placed) :=
  page.preorder?.map fun visited =>
    visited.filterMap fun (id, depth) => (page.get? id).map fun node => ⟨id, node, depth⟩

/-- The preferred node of the page. -/
def deepestNearest? (page : Page) (point : Point) : Option Nat :=
  page.placed?.bind fun placed =>
    (firstBest? (Placed.preferred point) placed).map Placed.id

/-- The node that a search from the point starts at. -/
def start? (page : Page) (point : Point) : Option Nat :=
  page.smallestAround? point <|> page.nearestHbox? point <|> page.deepestNearest? point
    <|> nearest? point page.entries

end PageSync.Page

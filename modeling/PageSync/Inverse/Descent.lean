import PageSync.Page.Closest

/-! # Descent

From its start a search goes down into boxes that hold the point. A vertical
box without such a child is left for its nearest child that has children. The
search stays where neither is possible.
-/

namespace PageSync.Page

/-- The first child that is a container around the point. -/
def childAround? (page : Page) (point : Point) (id : Nat) : Option Nat :=
  ((page.childEntries id).find? fun (_, child) =>
    child.kind.isContainer && child.contains point).map Prod.fst

/-- The child of a vertical box that has children and is nearest to the point. -/
def nearestFilledChild? (page : Page) (point : Point) (id : Nat) : Option Nat :=
  match page.get? id with
  | none => none
  | some node =>
    if node.kind == .vbox then
      nearest? point ((page.childEntries id).filter fun (_, child) => child.hasChildren)
    else none

/-- The child that the search goes on with. -/
def descendStep? (page : Page) (point : Point) (id : Nat) : Option Nat :=
  match page.childAround? point id with
  | some child => some child
  | none => page.nearestFilledChild? point id

/-- The node where the descent from a node ends. Children come after their
parents; the descent has no end where a step would not go forward. -/
def descend? (page : Page) (point : Point) (id : Nat) : Option Nat :=
  match page.descendStep? point id with
  | none => some id
  | some child =>
    if _h : id < child ∧ child < page.size then page.descend? point child else none
termination_by page.size - id

end PageSync.Page

import PageSync.Page.Closest

/-! # The source at a point inside a box

Inside a box the point is compared with the children along their line. A child
that the point hits decides, and is searched itself if it has children. If none
is hit, the nearest children with a source on the left and on the right compete.
A box without any such child has the source of the nearest box around it.
-/

namespace PageSync.Page

/-- The source of a node, or of its nearest ancestor that has one. -/
def source? (page : Page) (id : Nat) : Option Location :=
  (page.get? id).map fun node =>
    if node.hasLine then node.location
    else
      match (page.ancestorWhere? Node.hasLine id).bind page.get? with
      | some ancestor => ancestor.location
      | none => node.location

/-- The first child that the point hits and that leads to a source. -/
def hit? (x kernBias : Float) (children : List (Nat × Node)) : Option (Nat × Node) :=
  children.find? fun (_, child) =>
    child.lineDistance x kernBias == 0 && (child.hasChildren || child.hasLine)

/-- The nearest child to the left that has a source. -/
def left? (x kernBias : Float) (children : List (Nat × Node)) : Option Node :=
  firstBest? (fun a b => a.lineDistance x kernBias > b.lineDistance x kernBias)
    ((children.map Prod.snd).filter fun child =>
      child.hasLine && child.lineDistance x kernBias < 0)

/-- The nearest child to the right that has a source. -/
def right? (x kernBias : Float) (children : List (Nat × Node)) : Option Node :=
  firstBest? (fun a b => a.lineDistance x kernBias < b.lineDistance x kernBias)
    ((children.map Prod.snd).filter fun child =>
      child.hasLine && !(child.lineDistance x kernBias == 0)
        && !(child.lineDistance x kernBias < 0))

/-- Decides between a node on the left and one on the right: the smaller line
wins, and for the same line of different inputs the nearer node. -/
def arbitrate (point : Point) (left right : Node) : Location :=
  if left.location = right.location then left.location
  else if left.line ≠ right.line then
    if left.line < right.line then left.location else right.location
  else if right.l1Distance point < left.l1Distance point then right.location
  else left.location

/-- The source at the point among the children of a box. Children come after
their parents; there is no answer where a step would not go forward. -/
def sourceIn? (page : Page) (point : Point) (kernBias : Float) (box : Nat) : Option Location :=
  let children := page.childEntries box
  match hit? point.x kernBias children with
  | some (id, child) =>
    if child.hasChildren then
      if _h : box < id ∧ id < page.size then page.sourceIn? point kernBias id else none
    else some child.location
  | none =>
    match left? point.x kernBias children, right? point.x kernBias children with
    | some left, some right => some (arbitrate point left right)
    | some left, none => some left.location
    | none, some right => some right.location
    | none, none => page.source? box
termination_by page.size - box

end PageSync.Page

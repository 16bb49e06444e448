import PageSync.Page.Node

/-! # Distances

How far a point is from a node. A point on the border of a node is inside it.
Along a line, nodes to the left of a point have negative distances.
-/

namespace PageSync

/-- How far a coordinate lies outside an interval. -/
def gap (p least greatest : Float) : Float :=
  if p < least then least - p
  else if p > greatest then p - greatest
  else 0

namespace Node

/-- Whether the rectangle of the node holds the point. -/
def contains (node : Node) (point : Point) : Bool :=
  point.x >= node.h && point.x <= node.right && point.y >= node.top && point.y <= node.bottom

/-- The sum of the horizontal and the vertical gap. -/
def l1Distance (node : Node) (point : Point) : Float :=
  gap point.x node.h node.right + gap point.y node.top node.bottom

/-- The way a kern moves over. It is recorded where the move ends. -/
def kernSpan (node : Node) : Float × Float :=
  if node.reversed then (node.h, node.h + node.width) else (node.h - node.width, node.h)

/-- The signed distance from `x` to the node along its line, 0 where `x` hits
it. Kerns are pushed away by `kernBias`, so that boxes win ties against them;
glue and math nodes are hit at their position alone. -/
def lineDistance (node : Node) (x kernBias : Float) : Float :=
  match node.kind with
  | .hbox | .vbox | .voidHbox | .voidVbox =>
    if x < node.h then node.h - x
    else if x > node.right then node.right - x
    else 0
  | .kern =>
    let (least, greatest) := node.kernSpan
    if x < least then least - x + kernBias
    else if x > greatest then greatest - x - kernBias
    else 0
  | .glue | .math => node.h - x

end Node

end PageSync

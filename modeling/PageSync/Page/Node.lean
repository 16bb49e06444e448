import PageSync.Scale
import PageSync.Stream.Record

/-! # Nodes

A node is a record in page points, with its place among the other nodes of its
page. A node covers the rectangle from its left edge `h` over its width, and
from its height above the baseline `v` to its depth below it. Coordinates grow
to the right and downwards.
-/

namespace PageSync

/-- A place on a page. -/
structure Point where
  x : Float
  y : Float
  deriving Repr, BEq

/-- A node of a page. Nodes are numbered from 0 in the order of their records;
`parent` and `children` are such numbers. -/
structure Node where
  kind : Kind
  input : UInt32 := 1
  line : UInt32 := 1
  column : Option UInt32 := none
  page : UInt32 := 1
  h : Float := 0
  v : Float := 0
  width : Float := 0
  height : Float := 0
  depth : Float := 0
  reversed : Bool := false
  parent : Option Nat := none
  children : Array Nat := #[]
  deriving Repr, BEq

/-- A line of an input, by the tag of the input. Line 0 stands for no line. -/
structure Location where
  input : UInt32
  line : UInt32
  deriving DecidableEq, Repr

namespace Node

/-- The node of a record on a page, not yet placed among the others. An extent
that is not given is 0, and a negative raw width marks a reversed node. -/
def ofRecord (scale : Scale) (page : UInt32) (record : Record) : Node where
  kind := record.kind
  input := record.input
  line := record.line
  column := record.column
  page := page
  h := scale.h record.h
  v := scale.v record.v
  width := (record.extent.map fun e => scale.extent e.width).getD 0
  height := ((record.extent.bind Extent.height).map scale.extent).getD 0
  depth := ((record.extent.bind Extent.depth).map scale.extent).getD 0
  reversed := (record.extent.map fun e => decide (e.width < 0)).getD false

/-- The node with one more child, behind the others. -/
def addChild (id : Nat) (node : Node) : Node :=
  { node with children := node.children.push id }

def location (node : Node) : Location := ⟨node.input, node.line⟩

def top (node : Node) : Float := node.v - node.height

def bottom (node : Node) : Float := node.v + node.depth

def right (node : Node) : Float := node.h + node.width

def totalHeight (node : Node) : Float := node.height + node.depth

def area (node : Node) : Float := node.width * node.totalHeight

def hasChildren (node : Node) : Bool := !node.children.isEmpty

/-- Whether the source of the node is known. -/
def hasLine (node : Node) : Bool := node.line > 0

end Node

end PageSync

import PageSync.Page.Node
import PageSync.Settings

/-! # Regions

The region of some nodes is the least rectangle around them, made at least as
large as the settings ask for. A region that is almost flat gets the height of
a line of text around the baseline of its first node.
-/

namespace PageSync

/-- A rectangle on a page, from its top left corner. -/
structure Region where
  page : UInt32
  x : Float
  y : Float
  width : Float
  height : Float
  deriving Repr, BEq

/-- The smaller of two numbers. One that is not a number is ignored. -/
def lesser (a b : Float) : Float := if b < a || a.isNaN then b else a

/-- The larger of two numbers. One that is not a number is ignored. -/
def greater (a b : Float) : Float := if a < b || a.isNaN then b else a

/-- The edges of a rectangle. -/
structure Bounds where
  left : Float
  right : Float
  top : Float
  bottom : Float
  deriving Repr, BEq

namespace Bounds

def ofNode (node : Node) : Bounds := ⟨node.h, node.right, node.top, node.bottom⟩

/-- Moves the edges outwards as far as a node asks for. -/
def add (bounds : Bounds) (node : Node) : Bounds where
  left := lesser bounds.left node.h
  right := greater bounds.right node.right
  top := lesser bounds.top node.top
  bottom := greater bounds.bottom node.bottom

/-- The bounds with the height of a line around a baseline. -/
def aroundBaseline (bounds : Bounds) (settings : Settings) (v : Float) : Bounds :=
  { bounds with top := v - settings.ascent, bottom := v + settings.descent }

/-- The region within the bounds, not smaller than the settings allow. -/
def region (bounds : Bounds) (settings : Settings) (page : UInt32) : Region where
  page := page
  x := bounds.left
  y := bounds.top
  width := greater (bounds.right - bounds.left) settings.minExtent
  height := greater (bounds.bottom - bounds.top) settings.minExtent

end Bounds

/-- The region of a list of nodes. No nodes have no region. -/
def Region.ofNodes? (settings : Settings) (page : UInt32) (nodes : List Node) : Option Region :=
  match nodes with
  | [] => none
  | first :: rest =>
    let bounds := rest.foldl Bounds.add (Bounds.ofNode first)
    let bounds :=
      if bounds.bottom - bounds.top < settings.degenerateHeight then
        bounds.aroundBaseline settings first.v
      else bounds
    some (bounds.region settings page)

end PageSync

import PageSync.Page.Distance
import PageSync.Proofs.Binary64.Sign
import PageSync.Proofs.Binary64.Size

/-! # Distances that are numbers

An L1 distance is always a number, from any point to any node, as it is a sum of
two gaps that are not below zero. A distance along a line is a number if the
node has finite coordinates. So is the area of a node, unless its extents are
too large to be multiplied.
-/

namespace PageSync

open Binary64

theorem unpack_zero : (0 : Float).toModel.unpack = .zero .positive := by
  rfl

theorem isNonnegative_gap (p least greatest : Float) :
    IsNonnegative (gap p least greatest).toModel.unpack := by
  rw [gap]
  split
  next hlt => exact isNonnegative_sub_of_lt hlt
  next =>
    split
    next hlt => exact isNonnegative_sub_of_lt hlt
    next =>
      rw [unpack_zero]
      trivial

namespace Node

/-- Coordinates far from the ends of the format. They are finite, and so is all that is computed
from them. -/
structure IsBounded (node : Node) : Prop where
  h : Bounded 232 node.h
  v : Bounded 232 node.v
  width : Bounded 232 node.width
  height : Bounded 232 node.height
  depth : Bounded 232 node.depth

variable {node : Node}

theorem isNaN_l1Distance (node : Node) (point : Point) :
    (node.l1Distance point).isNaN = false :=
  ((isNonnegative_gap point.x node.h node.right).add
    (isNonnegative_gap point.y node.top node.bottom)).isNaN

namespace IsBounded

theorem bounded_totalHeight (hnode : node.IsBounded) : Bounded 234 node.totalHeight :=
  hnode.height.add hnode.depth (by decide) (by decide)

theorem isNaN_totalHeight (hnode : node.IsBounded) : node.totalHeight.isNaN = false :=
  isNaN_of_isFinite hnode.bounded_totalHeight.isFinite

theorem isNaN_area (hnode : node.IsBounded) : node.area.isNaN = false :=
  isNaN_of_isFinite
    (hnode.width.mul hnode.bounded_totalHeight (by decide) (by decide)).isFinite

theorem isNaN_right (hnode : node.IsBounded) : node.right.isNaN = false :=
  isNaN_add_of_isFinite (isNaN_of_isFinite hnode.h.isFinite) hnode.width.isFinite

theorem isNaN_kernSpan (hnode : node.IsBounded) :
    node.kernSpan.1.isNaN = false ∧ node.kernSpan.2.isNaN = false := by
  have hh := isNaN_of_isFinite hnode.h.isFinite
  rw [kernSpan]
  split
  next => exact ⟨hh, isNaN_add_of_isFinite hh hnode.width.isFinite⟩
  next => exact ⟨isNaN_sub_of_isFinite hh hnode.width.isFinite, hh⟩

/-- The distance along a line is a number, also if it is infinite. -/
theorem isNaN_lineDistance (hnode : node.IsBounded) {x kernBias : Float}
    (hx : x.isFinite = true) (hbias : kernBias.isFinite = true) :
    (node.lineDistance x kernBias).isNaN = false := by
  have hposition : (node.h - x).isNaN = false :=
    isNaN_sub_of_isFinite (isNaN_of_isFinite hnode.h.isFinite) hx
  have hbox : (if x < node.h then node.h - x
      else if x > node.right then node.right - x else 0).isNaN = false := by
    split
    next => exact hposition
    next =>
      split
      next => exact isNaN_sub_of_isFinite hnode.isNaN_right hx
      next => decide
  rw [lineDistance]
  cases node.kind with
  | glue => exact hposition
  | math => exact hposition
  | kern =>
      obtain ⟨hleast, hgreatest⟩ := hnode.isNaN_kernSpan
      simp only
      split
      next => exact isNaN_add_of_isFinite (isNaN_sub_of_isFinite hleast hx) hbias
      next =>
        split
        next => exact isNaN_sub_of_isFinite (isNaN_sub_of_isFinite hgreatest hx) hbias
        next => decide
  | _ => exact hbox

end IsBounded

end Node

end PageSync

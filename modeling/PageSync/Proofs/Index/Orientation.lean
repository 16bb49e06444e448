import PageSync.Proofs.Binary64.Products
import PageSync.Proofs.Index.Bounds

/-! # Which way up nodes are

An extent is converted from its absolute value, but the unit and the
magnification of the header keep their signs. So it is the sign of their product
that says which way up the nodes of a document are. Unless it is negative, no
extent is below zero, no node ends left of where it starts, and none ends above
its top. If it is negative, all of them are turned around.
-/

namespace PageSync

open Binary64 Text
open Float.Model.UnpackedFloat (Sign)

namespace Scale

variable {scale : Scale} {raw : ℤ} {s t : Sign}

/-- The signs of the factors, for a raw value that has none. -/
theorem hasSign_points (hraw : 0 ≤ raw)
    (hunit : HasSign s (Float.ofInt scale.unit).toModel.unpack)
    (hmagnification : HasSign t (Float.ofInt scale.magnification).toModel.unpack) :
    HasSign (s * t) (scale.points raw).toModel.unpack := by
  have hmagnified := hasSign_mul (hasSign_mul (hasSign_ofInt_of_nonneg hraw) hunit) hmagnification
  have hdivided := hasSign_div hmagnified IsBounded.unpack_unitsPerPoint
  have hfactor : HasSign .positive pagePointsPerPoint.toModel.unpack := by
    rw [IsBounded.unpack_pagePointsPerPoint]
    rfl
  have hpoints := hasSign_mul hdivided hfactor
  have hsign : Sign.positive * s * t / Sign.positive * Sign.positive = s * t := by
    cases s <;> cases t <;> rfl
  exact hsign ▸ hpoints

theorem hasSign_points_of_nonneg (hraw : 0 ≤ raw) (h : 0 ≤ scale.unit * scale.magnification) :
    HasSign .positive (scale.points raw).toModel.unpack := by
  rcases mul_nonneg_iff.mp h with ⟨hunit, hmagnification⟩ | ⟨hunit, hmagnification⟩
  · exact hasSign_points hraw (hasSign_ofInt_of_nonneg hunit)
      (hasSign_ofInt_of_nonneg hmagnification)
  · exact hasSign_points hraw (hasSign_ofInt_of_nonpos hunit)
      (hasSign_ofInt_of_nonpos hmagnification)

theorem hasSign_points_of_nonpos (hraw : 0 ≤ raw) (h : scale.unit * scale.magnification ≤ 0) :
    HasSign .negative (scale.points raw).toModel.unpack := by
  rcases mul_nonpos_iff.mp h with ⟨hunit, hmagnification⟩ | ⟨hunit, hmagnification⟩
  · exact hasSign_points hraw (hasSign_ofInt_of_nonneg hunit)
      (hasSign_ofInt_of_nonpos hmagnification)
  · exact hasSign_points hraw (hasSign_ofInt_of_nonpos hunit)
      (hasSign_ofInt_of_nonneg hmagnification)

end Scale

namespace Node

variable {node : Node} {scale : Scale} {record : Record}

/-- No extent is below zero, and the edges are in their order. -/
structure IsUpright (node : Node) : Prop where
  width : 0 ≤ node.width
  height : 0 ≤ node.height
  depth : 0 ≤ node.depth
  left_le_right : node.h ≤ node.right
  top_le_bottom : node.top ≤ node.bottom

/-- No extent is above zero, and the edges are in the opposite order. -/
structure IsInverted (node : Node) : Prop where
  width : node.width ≤ 0
  height : node.height ≤ 0
  depth : node.depth ≤ 0
  right_le_left : node.right ≤ node.h
  bottom_le_top : node.bottom ≤ node.top

/-- What holds of zero and of every converted value that has no sign holds of all extents. -/
theorem Converts.forall_extent (h : node.Converts scale record) {p : Float → Prop} (hzero : p 0)
    (hpoints : ∀ raw : ℤ, 0 ≤ raw → raw.natAbs < 2 ^ 64 → p (scale.points raw)) :
    p node.width ∧ p node.height ∧ p node.depth := by
  have hextent (raw : Option ℤ) : p (raw.elim 0 fun n => scale.points (clamp64 n.natAbs)) := by
    cases raw with
    | none => exact hzero
    | some n =>
        refine hpoints _ ?_ (natAbs_clamp64_lt _)
        unfold clamp64 least64 greatest64
        omega
  rw [h.width, h.height, h.depth]
  exact ⟨hextent _, hextent _, hextent _⟩

namespace IsBounded

theorem summable (hnode : node.IsBounded) : Summable 232 node.h node.width ∧
    Summable 232 node.v node.height ∧ Summable 232 node.v node.depth :=
  ⟨⟨hnode.h, hnode.width, by decide, by decide⟩, ⟨hnode.v, hnode.height, by decide, by decide⟩,
    ⟨hnode.v, hnode.depth, by decide, by decide⟩⟩

theorem isUpright (hnode : node.IsBounded) (hwidth : 0 ≤ node.width) (hheight : 0 ≤ node.height)
    (hdepth : 0 ≤ node.depth) : node.IsUpright := by
  obtain ⟨hright, htop, hbottom⟩ := hnode.summable
  exact ⟨hwidth, hheight, hdepth, hright.le_add hwidth,
    le_trans_of_le (htop.sub_le hheight) (hbottom.le_add hdepth)⟩

theorem isInverted (hnode : node.IsBounded) (hwidth : node.width ≤ 0) (hheight : node.height ≤ 0)
    (hdepth : node.depth ≤ 0) : node.IsInverted := by
  obtain ⟨hright, htop, hbottom⟩ := hnode.summable
  exact ⟨hwidth, hheight, hdepth, hright.add_le hwidth,
    le_trans_of_le (hbottom.add_le hdepth) (htop.le_sub hheight)⟩

end IsBounded

theorem Converts.isUpright (h : node.Converts scale record) (hscale : scale.IsBounded)
    (hsign : 0 ≤ scale.unit * scale.magnification) : node.IsUpright := by
  obtain ⟨hwidth, hheight, hdepth⟩ := h.forall_extent (p := fun a => 0 ≤ a)
    (le_iff.mpr ⟨rfl, rfl, le_refl _⟩) fun raw hraw hbits =>
      zero_le_of_hasSign (hscale.bounded_points hbits) (Scale.hasSign_points_of_nonneg hraw hsign)
  exact (h.isBounded hscale).isUpright hwidth hheight hdepth

theorem Converts.isInverted (h : node.Converts scale record) (hscale : scale.IsBounded)
    (hsign : scale.unit * scale.magnification ≤ 0) : node.IsInverted := by
  obtain ⟨hwidth, hheight, hdepth⟩ := h.forall_extent (p := fun a => a ≤ 0)
    (le_iff.mpr ⟨rfl, rfl, le_refl _⟩) fun raw hraw hbits =>
      le_zero_of_hasSign (hscale.bounded_points hbits) (Scale.hasSign_points_of_nonpos hraw hsign)
  exact (h.isBounded hscale).isInverted hwidth hheight hdepth

end Node

namespace Index

/-- The sign of unit and magnification together says which way up all nodes of a document are. -/
theorem isUpright_ofDocument {root : Option String} {text : List UInt8} {ref : NodeRef}
    {node : Node} (hnode : (ofDocument root text).node? ref = some node) :
    let scale := (ofDocument root text).header.scale
    (0 ≤ scale.unit * scale.magnification → node.IsUpright) ∧
      (scale.unit * scale.magnification ≤ 0 → node.IsInverted) := by
  intro scale
  obtain ⟨-, record, -, -, hconverts⟩ := exists_converts_of_node? hnode
  have hscale := isBounded_scale_ofDocument root text
  exact ⟨hconverts.isUpright hscale, hconverts.isInverted hscale⟩

/-- Two negative factors leave a node upright, and one of them turns it around. -/
theorem isUpright_ofDocument_negative_factors :
    let upright := Utf8.encode
      "Unit:-2\nMagnification:-1000\nContent:\n\x7b1\n(1,1:-7,5:-9,4,3\n"
    let inverted := Utf8.encode "Unit:-2\nContent:\n\x7b1\n(1,1:-7,5:-9,4,3\n"
    (∃ node, (ofDocument none upright).node? ⟨1, 0⟩ = some node ∧ node.IsUpright) ∧
      ∃ node, (ofDocument none inverted).node? ⟨1, 0⟩ = some node ∧ node.IsInverted := by
  intro upright inverted
  have hsome : ((ofDocument none upright).node? ⟨1, 0⟩).isSome = true := by decide +kernel
  have hsome' : ((ofDocument none inverted).node? ⟨1, 0⟩).isSome = true := by decide +kernel
  obtain ⟨node, hnode⟩ := Option.isSome_iff_exists.mp hsome
  obtain ⟨node', hnode'⟩ := Option.isSome_iff_exists.mp hsome'
  exact ⟨⟨node, hnode, (isUpright_ofDocument hnode).1 (by decide +kernel)⟩,
    ⟨node', hnode', (isUpright_ofDocument hnode').2 (by decide +kernel)⟩⟩

/-- Extents can be below zero: the absolute value is taken before the unit is applied. -/
theorem not_forall_zero_le_extents :
    ¬ ∀ (root : Option String) (text : List UInt8) (ref : NodeRef) (node : Node),
      (ofDocument root text).node? ref = some node →
        0 ≤ node.width ∧ 0 ≤ node.height ∧ 0 ≤ node.depth := by
  intro h
  let text := Utf8.encode "Unit:-65536\nContent:\n\x7b1\nh1,1:0,0:1,1,1\n"
  have hnegative : ((ofDocument none text).node? ⟨1, 0⟩).map
      (fun node => decide (0 ≤ node.width)) = some false := by
    decide +kernel
  obtain ⟨node, hnode, hwidth⟩ := Option.map_eq_some_iff.mp hnegative
  exact of_decide_eq_false hwidth (h none text ⟨1, 0⟩ node hnode).1

end Index

end PageSync

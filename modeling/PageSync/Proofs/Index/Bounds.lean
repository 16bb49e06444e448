import PageSync.Proofs.Index.Header
import PageSync.Proofs.Page.Distance
import PageSync.Proofs.Text.Decimal

/-! # Bounds of coordinates

The numbers that a document writes have 63 bits and a sign, and moving the
origin does not lead out of 64. So the factors of a conversion are bounded, and
no node of a document has a coordinate that is infinite or not a number.
-/

namespace PageSync

open Binary64 Text

theorem natAbs_clamp64_lt (n : ℤ) : (clamp64 n).natAbs < 2 ^ 64 := by
  unfold clamp64 least64 greatest64
  omega

/-! ## Scales -/

/-- A scale whose factors have 64 bits. -/
structure Scale.IsBounded (scale : Scale) : Prop where
  unit : scale.unit.natAbs < 2 ^ 64
  magnification : scale.magnification.natAbs < 2 ^ 64

namespace Scale.IsBounded

variable {scale : Scale}

theorem unpack_unitsPerPoint : unitsPerPoint.toModel.unpack =
    .finite .positive 8796093022208000 (-27) (by decide) := by
  rfl

theorem unpack_pagePointsPerPoint : pagePointsPerPoint.toModel.unpack =
    .finite .positive 8973548448060765 (-53) (by decide) := by
  rfl

/-- A power of two for each factor, and one more for each rounding. -/
theorem bounded_points (h : scale.IsBounded) {raw : ℤ} (hraw : raw.natAbs < 2 ^ 64) :
    Bounded 232 (scale.points raw) := by
  have hunits := (bounded_ofInt hraw).mul (bounded_ofInt h.unit) (by decide) (by decide)
  have hmagnified := hunits.mul (bounded_ofInt h.magnification) (by decide) (by decide)
  have hdivided := hmagnified.div (l := 27) unpack_unitsPerPoint (by decide) (by decide) (by decide)
  have hfactor : Bounded 0 pagePointsPerPoint :=
    .of_unpack unpack_pagePointsPerPoint (by decide) (by decide)
  exact hdivided.mul hfactor (by decide) (by decide)

end Scale.IsBounded

theorem Node.Converts.isBounded {node : Node} {scale : Scale} {record : Record}
    (h : node.Converts scale record) (hscale : scale.IsBounded) : node.IsBounded := by
  have hzero : Bounded 232 0 := by
    rw [Bounded, unpack_zero]
    exact isWithin_zero _ _
  have hpoints (n : ℤ) : Bounded 232 (scale.points (clamp64 n)) :=
    hscale.bounded_points (natAbs_clamp64_lt n)
  have hextent (raw : Option ℤ) :
      Bounded 232 (raw.elim 0 fun n => scale.points (clamp64 n.natAbs)) := by
    cases raw with
    | none => exact hzero
    | some n => exact hpoints n.natAbs
  exact
    { h := h.h ▸ hpoints _
      v := h.v ▸ hpoints _
      width := h.width ▸ hextent _
      height := h.height ▸ hextent _
      depth := h.depth ▸ hextent _ }

namespace Index

open Document

theorem natAbs_le_limit_of_mem_declared {label : String} {text : List UInt8} {n : ℤ}
    (hn : n ∈ declared label text) : n.natAbs ≤ Decimal.limit := by
  obtain ⟨line, -, hline⟩ := List.mem_filterMap.mp hn
  obtain ⟨body, -, hparse⟩ := Option.bind_eq_some_iff.mp hline
  exact Decimal.natAbs_le_limit_of_parse? hparse

theorem natAbs_getD_declared_lt (label : String) (text : List UInt8) {default : ℤ}
    (hdefault : default.natAbs ≤ Decimal.limit) :
    ((declared label text).getLast?.getD default).natAbs < 2 ^ 64 := by
  have hlimit : Decimal.limit < 2 ^ 64 := by decide
  cases hlast : (declared label text).getLast? with
  | none => exact Nat.lt_of_le_of_lt hdefault hlimit
  | some n =>
      exact Nat.lt_of_le_of_lt (natAbs_le_limit_of_mem_declared (List.mem_of_getLast? hlast)) hlimit

theorem isBounded_scale_ofDocument (root : Option String) (text : List UInt8) :
    (ofDocument root text).header.scale.IsBounded := by
  rw [header_ofDocument]
  exact ⟨natAbs_getD_declared_lt _ text (by decide), natAbs_getD_declared_lt _ text (by decide)⟩

/-- Every node of a document has bounded coordinates. -/
theorem isBounded_of_get? {root : Option String} {text : List UInt8} {number : UInt32}
    {page : Page} (hpage : (ofDocument root text).page? number = some page) {i : ℕ} {node : Node}
    (hget : page.get? i = some node) : node.IsBounded := by
  have hnode : (ofDocument root text).node? ⟨number, i⟩ = some node := by
    rw [node?, hpage, Option.bind_some, hget]
  obtain ⟨-, record, -, -, hconverts⟩ := exists_converts_of_node? hnode
  exact hconverts.isBounded (isBounded_scale_ofDocument root text)

end Index

end PageSync

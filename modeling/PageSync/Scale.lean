/-! # From raw units to points

Raw coordinates are whole numbers. The header of a document says how large
their unit is, how much the document is magnified and where its origin lies.
Positions and extents are handed out in page points, of which 72 make an inch;
the typesetter's own points are smaller, 72.27 to the inch.

Raw values are 64-bit words. Moving the origin and dropping a sign stop at the
ends of that range.
-/

namespace PageSync

/-- The least signed 64-bit word. -/
def least64 : Int := -0x8000000000000000

/-- The greatest signed 64-bit word. -/
def greatest64 : Int := 0x7FFFFFFFFFFFFFFF

/-- The nearest value in the range of signed 64-bit words. -/
def clamp64 (n : Int) : Int := max least64 (min n greatest64)

theorem clamp64_eq_self {n : Int} (hleast : least64 ≤ n) (hgreatest : n ≤ greatest64) :
    clamp64 n = n := by
  unfold clamp64
  omega

theorem least64_le_clamp64 (n : Int) : least64 ≤ clamp64 n := by
  unfold clamp64
  omega

theorem clamp64_le_greatest64 (n : Int) : clamp64 n ≤ greatest64 := by
  unfold clamp64 least64 greatest64
  omega

/-- What the header says about coordinates. -/
structure Scale where
  unit : Int := 1
  magnification : Int := 1000
  xOffset : Int := 0
  yOffset : Int := 0
  deriving DecidableEq, Repr

namespace Scale

/-- Page points for each point of the typesetter. -/
def pagePointsPerPoint : Float := 72.0 / 72.27

/-- Raw units for each point of a document that is not magnified. -/
def unitsPerPoint : Float := 1000.0 * 65536.0

/-- A raw length in page points. The factors are applied from left to right. -/
def points (scale : Scale) (raw : Int) : Float :=
  Float.ofInt raw * Float.ofInt scale.unit * Float.ofInt scale.magnification / unitsPerPoint
    * pagePointsPerPoint

/-- A horizontal position. -/
def h (scale : Scale) (raw : Int) : Float := scale.points (clamp64 (raw + scale.xOffset))

/-- A vertical position, growing downwards. -/
def v (scale : Scale) (raw : Int) : Float := scale.points (clamp64 (raw + scale.yOffset))

/-- A width, height or depth. The sign of the raw value does not count. -/
def extent (scale : Scale) (raw : Int) : Float := scale.points (clamp64 raw.natAbs)

end Scale

end PageSync

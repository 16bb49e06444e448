/-! # Settings

The numbers that steer a search, with the values they have unless told
otherwise. Lengths are in page points.
-/

namespace PageSync

/-- How far a search looks for a source line, how large a region is at least,
and how kerns and flat regions are treated. -/
structure Settings where
  /-- How many lines away a line with records may be. -/
  maxLineOffset : UInt32 := 3
  /-- The least width and height of a region. -/
  minExtent : Float := 10
  /-- Regions less high than this are taken to be flat. -/
  degenerateHeight : Float := 2
  /-- How far a flat region reaches above the baseline. -/
  ascent : Float := 12
  /-- How far a flat region reaches below the baseline. -/
  descent : Float := 3
  /-- The distance that is added between a point and a kern. -/
  kernBias : Float := 0.001
  deriving Repr, BEq

/-- The directory that inputs are named from, unless told otherwise. -/
def defaultRoot : String := "/work"

end PageSync

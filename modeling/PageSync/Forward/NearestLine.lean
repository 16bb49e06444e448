import PageSync.Index.Basic

/-! # The nearest line with records

A source line without records is replaced by the nearest line that has some.
Lines further down are tried before those further up.
-/

namespace PageSync.Index

/-- The nodes recorded for a line, if there are any. Line 0 has none. -/
def recordedAt? (index : Index) (input : UInt32) (line : Nat) :
    Option (UInt32 × List NodeRef) :=
  if 0 < line ∧ line < UInt32.size then
    let refs := index.friends input (UInt32.ofNat line)
    if refs.isEmpty then none else some (UInt32.ofNat line, refs)
  else none

/-- Tries the lines at a distance of `offset` and, going away from the line, at
so many further distances. -/
def probe? (index : Index) (input : UInt32) (line offset : Nat) :
    Nat → Option (UInt32 × List NodeRef)
  | 0 => none
  | remaining + 1 =>
    match index.recordedAt? input (line + offset) with
    | some found => some found
    | none =>
      match if offset < line then index.recordedAt? input (line - offset) else none with
      | some found => some found
      | none => index.probe? input line (offset + 1) remaining

/-- The line with records that is nearest to a line, and its nodes. -/
def nearestLine? (index : Index) (input line maxOffset : UInt32) :
    Option (UInt32 × List NodeRef) :=
  match index.recordedAt? input line.toNat with
  | some found => some found
  | none => index.probe? input line.toNat 1 maxOffset.toNat

end PageSync.Index

import PageSync.Source.FileName
import Std.Data.TreeMap.Basic

/-! # Inputs

A document declares its inputs under numeric tags. A tag may be declared again
and then has its last name. Names are looked up in both directions.
-/

namespace PageSync

/-- The names of the inputs by their tags, in normal form. -/
structure Inputs where
  names : Std.TreeMap UInt32 String := ∅

namespace Inputs

/-- Declares a tag. An earlier name of the tag is lost. -/
def insert (inputs : Inputs) (root : Option String) (tag : UInt32) (path : String) : Inputs :=
  ⟨inputs.names.insert tag (FileName.normalize root path)⟩

def name? (inputs : Inputs) (tag : UInt32) : Option String := inputs.names[tag]?

/-- The tags and their names, by tag. -/
def toList (inputs : Inputs) : List (UInt32 × String) := inputs.names.toList

def size (inputs : Inputs) : Nat := inputs.names.size

def isEmpty (inputs : Inputs) : Bool := inputs.names.isEmpty

/-- The tag of a file: the least one with exactly this name, or else the least
one whose name ends with it behind a slash. The empty name has no tag. -/
def resolve? (inputs : Inputs) (file : String) : Option UInt32 :=
  let file := FileName.normalizeChars none file.toList
  if file.isEmpty then none
  else
    let found :=
      match inputs.toList.find? fun (_, name) => name.toList == file with
      | some entry => some entry
      | none => inputs.toList.find? fun (_, name) => FileName.isBelow name.toList file
    found.map Prod.fst

end Inputs

end PageSync

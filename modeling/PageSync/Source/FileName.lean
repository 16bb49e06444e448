import PageSync.Text.Whitespace

/-! # File names

Documents name their inputs by the paths that the typesetter saw. Names are
compared in a normal form: without white space around them, without the
directory the typesetter worked in, and without leading `./`.
-/

namespace PageSync.FileName

open Text

/-- A directory without the slashes at its end. -/
def dropTrailingSlashes (root : List Char) : List Char :=
  (root.reverse.dropWhile (· == '/')).reverse

/-- The part of a name below a directory, or the whole name if it is not below
it. The empty directory holds no name. -/
def relativeTo (root name : List Char) : List Char :=
  let root := dropTrailingSlashes root
  if !root.isEmpty && (root ++ ['/']).isPrefixOf name then name.drop (root.length + 1) else name

/-- Removes all leading `./`. -/
def dropCurrent : List Char → List Char
  | '.' :: '/' :: rest => dropCurrent rest
  | name => name

/-- The normal form of a path, seen from the given directory. -/
def normalizeChars (root : Option (List Char)) (raw : List Char) : List Char :=
  let name := trimWhitespace raw
  dropCurrent <|
    match root with
    | none => name
    | some root => relativeTo root name

/-- The normal form of a path, seen from the given directory. -/
def normalize (root : Option String) (raw : String) : String :=
  String.ofList (normalizeChars (root.map String.toList) raw.toList)

/-- Whether a name ends with the given one, behind a slash. -/
def isBelow (name suffix : List Char) : Bool := ('/' :: suffix).isSuffixOf name

end PageSync.FileName

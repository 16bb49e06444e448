import PageSync.Text.Utf8

/-! # Terms

The host calls the library with terms of its own: numbers, binaries, atoms,
tuples, lists, maps, and handles of indexes that it was given before. A list is
made of cells, and its last cell need not end in the empty list.
-/

namespace PageSync.Host

/-- A term of the host. A handle may stand for no index. -/
inductive Term
  | int (n : Int)
  | float (x : Float)
  | binary (bytes : List UInt8)
  | atom (name : String)
  | tuple (elements : List Term)
  | nil
  | cons (head tail : Term)
  | map (entries : List (Term × Term))
  | handle (number : Option Nat)
  deriving Inhabited

namespace Term

/-- The atom that stands for an absent value. -/
def absent : Term := atom "nil"

/-- A binary that holds a text. -/
def text (s : String) : Term := binary (Text.Utf8.encode s)

/-- A 32-bit word. -/
def word (n : UInt32) : Term := int n.toNat

/-- A list that ends in the empty list. -/
def list (elements : List Term) : Term := elements.foldr cons nil

/-- A value, or the atom for an absent one. -/
def ofOption {α : Type} (ofValue : α → Term) : Option α → Term
  | some value => ofValue value
  | none => absent

/-- A map with atoms for its keys. -/
def record (fields : List (String × Term)) : Term :=
  map (fields.map fun (name, value) => (atom name, value))

/-- The value of an atom in a map. Terms that are no maps have no values. -/
def field? (name : String) : Term → Option Term
  | map entries =>
    (entries.find? fun (key, _) =>
      match key with
      | atom other => other == name
      | _ => false).map Prod.snd
  | _ => none

end Term

end PageSync.Host

import PageSync.Host.Term
import PageSync.Page.Node
import PageSync.Settings
import PageSync.Text.Decimal

/-! # Arguments

Terms are decoded strictly: one that is not of the expected form is a bad
argument. A list is read cell by cell, so a bad element is found before the
list turns out to have no proper end.
-/

namespace PageSync.Host

/-- Why a call has no result. -/
inductive Failure
  | badArgument
  | improperList
  | undefinedFunction
  deriving DecidableEq, Repr

namespace Term

/-- A whole number in the range of 32-bit words. -/
def toWord : Term → Except Failure UInt32
  | int n =>
    match Text.Decimal.word? n with
    | some word => .ok word
    | none => .error .badArgument
  | _ => .error .badArgument

/-- A floating-point number, or a whole number in the range of signed 64-bit
words. -/
def toCoordinate : Term → Except Failure Float
  | float x => .ok x
  | int n => if clamp64 n = n then .ok (Float.ofInt n) else .error .badArgument
  | _ => .error .badArgument

/-- The bytes of a binary. -/
def toBytes : Term → Except Failure (List UInt8)
  | binary bytes => .ok bytes
  | _ => .error .badArgument

/-- The text in a binary that is well-formed UTF-8. -/
def toText : Term → Except Failure String
  | binary bytes =>
    match Text.Utf8.decode? bytes with
    | some s => .ok s
    | none => .error .badArgument
  | _ => .error .badArgument

/-- Reads a list, behind the elements already found. -/
def elementsAfter {α : Type} (decode : Term → Except Failure α) (found : Array α) :
    Term → Except Failure (List α)
  | nil => .ok found.toList
  | cons head tail =>
    match decode head with
    | .ok value => elementsAfter decode (found.push value) tail
    | .error failure => .error failure
  | _ => .error .improperList

/-- The elements of a list. -/
def toList {α : Type} (decode : Term → Except Failure α) (term : Term) :
    Except Failure (List α) :=
  match term with
  | nil | cons _ _ => elementsAfter decode #[] term
  | _ => .error .badArgument

/-- The two elements of a pair. -/
def toPair : Term → Except Failure (Term × Term)
  | tuple [first, second] => .ok (first, second)
  | _ => .error .badArgument

/-- The three elements of a triple. -/
def toTriple : Term → Except Failure (Term × Term × Term)
  | tuple [first, second, third] => .ok (first, second, third)
  | _ => .error .badArgument

/-- A page and two coordinates, which are not decoded yet. -/
def toPlace (term : Term) : Except Failure (UInt32 × Term × Term) := do
  let (page, x, y) ← term.toTriple
  let page ← page.toWord
  .ok (page, x, y)

/-- A file and a line. -/
def toQuery (term : Term) : Except Failure (String × UInt32) := do
  let (file, line) ← term.toPair
  let file ← file.toText
  let line ← line.toWord
  .ok (file, line)

/-- The directory in the options of a parse: a text, or no directory for the
atom of absent values. Without the option the default holds. -/
def toRoot (options : Term) : Except Failure (Option String) :=
  match options.field? "sandbox_root" with
  | none => .ok (some defaultRoot)
  | some (atom "nil") => .ok none
  | some root => (toText root).map some

end Term

/-- A point from the terms of its coordinates. -/
def toPoint (x y : Term) : Except Failure Point := do
  let x ← x.toCoordinate
  let y ← y.toCoordinate
  .ok ⟨x, y⟩

end PageSync.Host

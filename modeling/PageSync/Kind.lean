/-! # Kinds of nodes

A record line starts with a byte that tells what it records: a box, which may
hold other nodes or be void, or a kern, glue or math node.
-/

namespace PageSync

/-- What a record describes. -/
inductive Kind
  | hbox
  | vbox
  | voidHbox
  | voidVbox
  | kern
  | glue
  | math
  deriving DecidableEq, Repr

namespace Kind

/-- The kind of the records that start with a byte. Kerns have two such bytes. -/
def ofByte? (b : UInt8) : Option Kind :=
  match b with
  | 0x5B => some vbox
  | 0x28 => some hbox
  | 0x76 => some voidVbox
  | 0x68 => some voidHbox
  | 0x78 => some kern
  | 0x6B => some kern
  | 0x67 => some glue
  | 0x24 => some math
  | _ => none

/-- The byte that records of a kind are written with. -/
def byte : Kind → UInt8
  | vbox => 0x5B
  | hbox => 0x28
  | voidVbox => 0x76
  | voidHbox => 0x68
  | kern => 0x6B
  | glue => 0x67
  | math => 0x24

@[simp]
theorem ofByte?_byte (kind : Kind) : ofByte? kind.byte = some kind := by
  cases kind <;> rfl

/-- Boxes that may hold other nodes. -/
def isContainer : Kind → Bool
  | hbox | vbox => true
  | _ => false

/-- Boxes of all sorts, void or not. -/
def isBox : Kind → Bool
  | hbox | vbox | voidHbox | voidVbox => true
  | _ => false

/-- Horizontal boxes, void or not. -/
def isHorizontalBox : Kind → Bool
  | hbox | voidHbox => true
  | _ => false

theorem isBox_of_isContainer {kind : Kind} (h : kind.isContainer = true) : kind.isBox = true := by
  cases kind <;> simp_all [isContainer, isBox]

/-- The word that names a kind. -/
def name : Kind → String
  | hbox => "hbox"
  | vbox => "vbox"
  | voidHbox => "void_hbox"
  | voidVbox => "void_vbox"
  | kern => "kern"
  | glue => "glue"
  | math => "math"

end Kind

end PageSync

import PageSync.Kind
import PageSync.Text.Field

/-! # Records

Behind its kind byte a record line gives the source of a node, its place on
the page and, if it has one, its extent:

    tag,line:h,v
    tag,line,column:h,v
    tag,line:h,v:width
    tag,line:h,v:width,height
    tag,line:h,v:width,height,depth

The source and the place are strict. Text behind the last part of an extent is
not looked at.
-/

namespace PageSync

open Text

/-- The size of a node in raw units, as far as it is given. -/
structure Extent where
  width : Int
  height : Option Int
  depth : Option Int
  deriving DecidableEq, Repr

/-- What a record line says, in raw units. Line 0 stands for no source line. -/
structure Record where
  kind : Kind
  input : UInt32
  line : UInt32
  column : Option UInt32
  h : Int
  v : Int
  extent : Option Extent
  deriving DecidableEq, Repr

/-- The extent at the start of a text. A comma asks for one more part. -/
def Extent.parse? (text : List UInt8) : Option Extent := do
  let first := readField text
  let width ← first.int?
  if first.delimiter = some .comma then
    let second := readField first.rest
    let height ← second.int?
    if second.delimiter = some .comma then
      let depth ← (readField second.rest).int?
      some ⟨width, some height, some depth⟩
    else some ⟨width, some height, none⟩
  else some ⟨width, none, none⟩

namespace Record

/-- The source line and the column, if there is one, up to the colon. -/
def readLine? (text : List UInt8) : Option (UInt32 × Option UInt32 × List UInt8) := do
  let field := readField text
  let line ← field.int?.bind Decimal.word?
  match field.delimiter with
  | some .colon => some (line, none, field.rest)
  | some .comma =>
    let (column, rest) ← readWordBefore? .colon field.rest
    some (line, some column, rest)
  | none => none

/-- The vertical position with the extent behind it. -/
def readVertical? (text : List UInt8) : Option (Int × Option Extent) := do
  let field := readField text
  let v ← field.int?
  match field.delimiter with
  | none => some (v, none)
  | some .colon =>
    let extent ← Extent.parse? field.rest
    some (v, some extent)
  | some .comma => none

/-- The record of a given kind with this body. -/
def parse? (kind : Kind) (body : List UInt8) : Option Record := do
  let (input, text) ← readWordBefore? .comma body
  let (line, column, text) ← readLine? text
  let (h, text) ← readIntBefore? .comma text
  let (v, extent) ← readVertical? text
  some ⟨kind, input, line, column, h, v, extent⟩

end Record

end PageSync

import PageSync.Text.Decimal

/-! # Fields

The fields of a line end at the first comma or colon. A field keeps track of
which of the two ended it, since records give them different meanings.
-/

namespace PageSync.Text

/-- What may end a field. -/
inductive Delimiter
  | comma
  | colon
  deriving DecidableEq, Repr

namespace Delimiter

def byte : Delimiter → UInt8
  | comma => 44
  | colon => 58

def ofByte? (b : UInt8) : Option Delimiter :=
  if b = 44 then some comma else if b = 58 then some colon else none

@[simp]
theorem ofByte?_byte (d : Delimiter) : ofByte? d.byte = some d := by
  cases d <;> decide

theorem eq_byte_of_ofByte? {b : UInt8} {d : Delimiter} (h : ofByte? b = some d) : b = d.byte := by
  unfold ofByte? at h
  split at h
  · next hb => cases h; exact hb
  · split at h
    · next hb => cases h; exact hb
    · cases h

end Delimiter

/-- A field, the delimiter that ended it (none at the end of the text) and the
text behind that delimiter. -/
structure Field where
  content : List UInt8
  delimiter : Option Delimiter
  rest : List UInt8
  deriving DecidableEq, Repr

/-- Takes the first field off the text. -/
def readField (text : List UInt8) : Field where
  content := text.takeWhile fun b => (Delimiter.ofByte? b).isNone
  delimiter := (text.dropWhile fun b => (Delimiter.ofByte? b).isNone).head?.bind Delimiter.ofByte?
  rest := (text.dropWhile fun b => (Delimiter.ofByte? b).isNone).drop 1

/-- The integer the field writes. -/
def Field.int? (field : Field) : Option Int := Decimal.parse? field.content

/-- Takes off a field that must be an integer and end in the given delimiter. -/
def readIntBefore? (delimiter : Delimiter) (text : List UInt8) : Option (Int × List UInt8) :=
  let field := readField text
  if field.delimiter = some delimiter then field.int?.map fun n => (n, field.rest) else none

/-- Takes off a field that must be a 32-bit word and end in the given delimiter. -/
def readWordBefore? (delimiter : Delimiter) (text : List UInt8) :
    Option (UInt32 × List UInt8) := do
  let (n, rest) ← readIntBefore? delimiter text
  let word ← Decimal.word? n
  some (word, rest)

@[simp]
theorem readField_nil : readField [] = ⟨[], none, []⟩ := rfl

theorem readField_cons (b : UInt8) (text : List UInt8) :
    readField (b :: text) =
      match Delimiter.ofByte? b with
      | some d => ⟨[], some d, text⟩
      | none => { readField text with content := b :: (readField text).content } := by
  cases h : Delimiter.ofByte? b <;> simp [readField, h]

/-- The field, its delimiter and the rest together are the text. -/
theorem content_append_rest_readField (text : List UInt8) :
    (readField text).content ++ ((readField text).delimiter.map Delimiter.byte).toList ++
      (readField text).rest = text := by
  induction text with
  | nil => rfl
  | cons b text ih =>
      rw [readField_cons]
      cases h : Delimiter.ofByte? b with
      | some d => simp [Delimiter.eq_byte_of_ofByte? h]
      | none => simpa using ih

end PageSync.Text

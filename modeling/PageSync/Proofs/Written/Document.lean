import Mathlib.Data.List.Forall2
import PageSync.Proofs.Written.Lines
import PageSync.Proofs.Written.Record
import PageSync.Stream.Document

/-! # Written documents

A document is written line by line: the events of the header, the line that
ends the header, the events of the content, and the postamble. An event may
have more than one written form, since either bracket ends a box and kerns
have two prefix bytes. Whichever is taken, reading the document gives the
events back, and none besides them.
-/

namespace PageSync

open Text Text.Decimal

/-- The numbers are within the limit, and paths stay whole at the end of a line. -/
def HeaderField.Writable : HeaderField → Prop
  | .output path => EndsLine path
  | .version n | .magnification n | .unit n | .xOffset n | .yOffset n => n.natAbs ≤ limit

/-- The line that declares a field of the header. -/
def HeaderField.written : HeaderField → List UInt8
  | .version n => Utf8.encode "SyncTeX Version:" ++ render n
  | .output path => Utf8.encode "Output:" ++ path
  | .magnification n => Utf8.encode "Magnification:" ++ render n
  | .unit n => Utf8.encode "Unit:" ++ render n
  | .xOffset n => Utf8.encode "X Offset:" ++ render n
  | .yOffset n => Utf8.encode "Y Offset:" ++ render n

namespace Document

/-- The line that declares an input. -/
def inputLine (tag : UInt32) (path : List UInt8) : List UInt8 :=
  Utf8.encode "Input:" ++ (render tag.toNat ++ Delimiter.colon.byte :: path)

/-- The events that a header may hold. -/
def InHeader : Event → Prop
  | .header field => field.Writable
  | .input _ path => EndsLine path
  | _ => False

/-- The events that a content may hold. -/
def InContent : Event → Prop
  | .input _ path => EndsLine path
  | .pageStart _ | .pageEnd _ | .boxEnd => True
  | .record record => record.Writable
  | _ => False

/-- The line of an event in the header. -/
inductive HeaderLine : Event → List UInt8 → Prop
  | field (field : HeaderField) : HeaderLine (.header field) field.written
  | input (tag : UInt32) (path : List UInt8) : HeaderLine (.input tag path) (inputLine tag path)

/-- The lines of an event in the content. -/
inductive ContentLine : Event → List UInt8 → Prop
  | input (tag : UInt32) (path : List UInt8) : ContentLine (.input tag path) (inputLine tag path)
  | pageStart (page : UInt32) : ContentLine (.pageStart page) (0x7B :: render page.toNat)
  | pageEnd (page : UInt32) : ContentLine (.pageEnd page) (0x7D :: render page.toNat)
  | record (record : Record) :
      ContentLine (.record record) (record.kind.byte :: record.written)
  | otherKern (record : Record) (hkern : record.kind = .kern) :
      ContentLine (.record record) (0x78 :: record.written)
  | squareBracket : ContentLine .boxEnd [0x5D]
  | roundBracket : ContentLine .boxEnd [0x29]

/-- The text of a document with these lines. -/
def compose (header content : List (List UInt8)) (tail : List UInt8) : List UInt8 :=
  joinLines (header ++ Utf8.encode "Content:" :: content) ++ (Utf8.encode "Postamble:" ++ tail)

/-- The text writes a document with these events and with any bytes behind the label of the
postamble. -/
def Writes (header content : List Event) (tail text : List UInt8) : Prop :=
  ∃ headerLines contentLines, List.Forall₂ HeaderLine header headerLines ∧
    List.Forall₂ ContentLine content contentLines ∧ text = compose headerLines contentLines tail

end Document

end PageSync

import PageSync.Proofs.Written.Field
import PageSync.Stream.Record
import PageSync.Text.Utf8

/-! # The form of a record

The text behind the kind byte of a record has a fixed form: a tag, a line and
perhaps a column, the two positions, and perhaps an extent, each in a field that
holds no delimiter. Reading accepts exactly the texts of this form, and the
record is what their fields write. Every delimiter counts up to the end of the
vertical position. Behind the last part of an extent any text may follow.
-/

namespace PageSync

open Text Text.Decimal

namespace Text

/-! ## Fields -/

/-- No delimiter is among the bytes. -/
def IsPlain (content : List UInt8) : Prop := ∀ delimiter : Delimiter, delimiter.byte ∉ content

/-- The content of a field that writes an integer. -/
structure WritesInteger (content : List UInt8) (n : Int) : Prop where
  plain : IsPlain content
  value : parse? content = some n

/-- The content of a field that writes a 32-bit word. -/
def WritesWord (content : List UInt8) (word : UInt32) : Prop := WritesInteger content word.toNat

variable {text content rest : List UInt8} {delimiter : Delimiter} {n : Int} {word : UInt32}

theorem isPlain_iff : IsPlain content ↔ ∀ b ∈ content, Delimiter.ofByte? b = none := by
  constructor
  · intro hplain b hb
    cases hread : Delimiter.ofByte? b with
    | none => rfl
    | some delimiter => exact absurd (Delimiter.eq_byte_of_ofByte? hread ▸ hb) (hplain delimiter)
  · intro hnone delimiter hmem
    simpa using hnone delimiter.byte hmem

theorem isPlain_readField (text : List UInt8) : IsPlain (readField text).content := by
  rw [isPlain_iff]
  induction text with
  | nil => simp
  | cons b text ih =>
      rw [readField_cons]
      cases hread : Delimiter.ofByte? b with
      | some delimiter => simp
      | none => exact List.forall_mem_cons.mpr ⟨hread, ih⟩

theorem writesInteger_of_int? (h : (readField text).int? = some n) :
    WritesInteger (readField text).content n :=
  ⟨isPlain_readField text, h⟩

theorem eq_append_of_delimiter (h : (readField text).delimiter = some delimiter) :
    text = (readField text).content ++ delimiter.byte :: (readField text).rest := by
  have hsplit := content_append_rest_readField text
  simpa [h] using hsplit.symm

theorem eq_content_of_delimiter (h : (readField text).delimiter = none) :
    text = (readField text).content := by
  induction text with
  | nil => rfl
  | cons b text ih =>
      rw [readField_cons] at h ⊢
      cases hread : Delimiter.ofByte? b with
      | some delimiter => simp [hread] at h
      | none => exact congrArg (b :: ·) (ih (by simpa [hread] using h))

namespace WritesInteger

theorem readField_append (h : WritesInteger content n) (delimiter : Delimiter)
    (rest : List UInt8) :
    readField (content ++ delimiter.byte :: rest) = ⟨content, some delimiter, rest⟩ :=
  Text.readField_append (isPlain_iff.mp h.plain) delimiter rest

theorem readField_eq (h : WritesInteger content n) : readField content = ⟨content, none, []⟩ :=
  readField_of_plain (isPlain_iff.mp h.plain)

end WritesInteger

theorem word?_eq_some_iff : word? n = some word ↔ n = word.toNat := by
  constructor
  · intro h
    simp only [word?, Option.ite_none_right_eq_some, Option.some.injEq] at h
    obtain ⟨⟨hnonneg, hlt⟩, rfl⟩ := h
    rw [UInt32.toNat_ofNat_of_lt' (by omega), Int.toNat_of_nonneg hnonneg]
  · rintro rfl
    exact word?_toNat word

theorem int?_bind_word?_eq_some_iff {field : Field} :
    field.int?.bind word? = some word ↔ field.int? = some (word.toNat : Int) := by
  simp only [Option.bind_eq_some_iff, word?_eq_some_iff, exists_eq_right]

theorem WritesWord.int?_bind_word? {delimiter? : Option Delimiter} (h : WritesWord content word) :
    (Field.mk content delimiter? rest).int?.bind word? = some word :=
  int?_bind_word?_eq_some_iff.mpr h.value

theorem readIntBefore?_eq_some_iff : readIntBefore? delimiter text = some (n, rest) ↔
    ∃ content, WritesInteger content n ∧ text = content ++ delimiter.byte :: rest := by
  constructor
  · intro h
    simp only [readIntBefore?, Option.ite_none_right_eq_some, Option.map_eq_some_iff,
      Prod.mk.injEq] at h
    obtain ⟨hdelimiter, n, hint, rfl, rfl⟩ := h
    exact ⟨_, writesInteger_of_int? hint, eq_append_of_delimiter hdelimiter⟩
  · rintro ⟨content, hwrites, rfl⟩
    simp [readIntBefore?, hwrites.readField_append, Field.int?, hwrites.value]

theorem readWordBefore?_eq_some_iff : readWordBefore? delimiter text = some (word, rest) ↔
    ∃ content, WritesWord content word ∧ text = content ++ delimiter.byte :: rest := by
  simp only [readWordBefore?, Option.bind_eq_bind, Option.bind_eq_some_iff, Prod.exists,
    Option.some.injEq, Prod.mk.injEq, word?_eq_some_iff]
  constructor
  · rintro ⟨n, behind, hread, other, rfl, rfl, rfl⟩
    exact readIntBefore?_eq_some_iff.mp hread
  · intro hwrites
    exact ⟨_, rest, readIntBefore?_eq_some_iff.mpr hwrites, word, rfl, rfl, rfl⟩

/-- Nothing, or text that one of the delimiters keeps apart from the field before it. -/
def IsTail (delimiters : List Delimiter) (tail : List UInt8) : Prop :=
  tail = [] ∨ ∃ delimiter ∈ delimiters, ∃ rest, tail = delimiter.byte :: rest

variable {delimiters : List Delimiter} {tail : List UInt8}

theorem exists_isTail (text : List UInt8)
    (h : ∀ delimiter ∈ (readField text).delimiter, delimiter ∈ delimiters) :
    ∃ tail, IsTail delimiters tail ∧ text = (readField text).content ++ tail := by
  cases hdelimiter : (readField text).delimiter with
  | none => exact ⟨[], Or.inl rfl, by simpa using eq_content_of_delimiter hdelimiter⟩
  | some delimiter =>
      exact ⟨_, Or.inr ⟨delimiter, h delimiter hdelimiter, _, rfl⟩,
        eq_append_of_delimiter hdelimiter⟩

/-- A field is read in front of a tail, and only a delimiter of the tail can end it. -/
theorem WritesInteger.readField_tail (h : WritesInteger content n)
    (htail : IsTail delimiters tail) : ∃ delimiter? rest,
      readField (content ++ tail) = ⟨content, delimiter?, rest⟩ ∧
        ∀ delimiter ∈ delimiter?, delimiter ∈ delimiters := by
  rcases htail with rfl | ⟨delimiter, hmem, rest, rfl⟩
  · exact ⟨none, [], by rw [List.append_nil, h.readField_eq], by simp⟩
  · exact ⟨some delimiter, rest, h.readField_append delimiter rest, by simpa using hmem⟩

end Text

/-! ## Extents -/

namespace Extent

/-- The forms of an extent. A comma behind the width or the height asks for the next part. -/
inductive Form : List UInt8 → Extent → Prop
  | width {width tail : List UInt8} {w : Int} (hwidth : WritesInteger width w)
      (htail : IsTail [.colon] tail) : Form (width ++ tail) ⟨w, none, none⟩
  | height {width height tail : List UInt8} {w a : Int} (hwidth : WritesInteger width w)
      (hheight : WritesInteger height a) (htail : IsTail [.colon] tail) :
      Form (width ++ Delimiter.comma.byte :: (height ++ tail)) ⟨w, some a, none⟩
  | depth {width height depth tail : List UInt8} {w a d : Int} (hwidth : WritesInteger width w)
      (hheight : WritesInteger height a) (hdepth : WritesInteger depth d)
      (htail : IsTail [.comma, .colon] tail) :
      Form (width ++ Delimiter.comma.byte :: (height ++ Delimiter.comma.byte :: (depth ++ tail)))
        ⟨w, some a, some d⟩

variable {text : List UInt8} {extent : Extent}

theorem mem_colon_of_ne_comma {delimiter? : Option Delimiter} (h : delimiter? ≠ some .comma) :
    ∀ delimiter ∈ delimiter?, delimiter ∈ [Delimiter.colon] := by
  rintro delimiter rfl
  cases delimiter with
  | comma => exact absurd rfl h
  | colon => exact List.mem_singleton_self _

theorem ne_comma_of_mem_colon {delimiter? : Option Delimiter}
    (h : ∀ delimiter ∈ delimiter?, delimiter ∈ [Delimiter.colon]) : delimiter? ≠ some .comma := by
  rintro rfl
  simpa using h .comma rfl

theorem mem_delimiters (delimiter : Delimiter) : delimiter ∈ [Delimiter.comma, .colon] := by
  cases delimiter <;> decide

theorem form_of_parse? (h : parse? text = some extent) : Form text extent := by
  simp only [parse?, Option.bind_eq_bind, Option.bind_eq_some_iff] at h
  obtain ⟨w, hwidth, h⟩ := h
  replace hwidth := writesInteger_of_int? hwidth
  split at h
  next hcomma =>
    rw [eq_append_of_delimiter hcomma]
    simp only [Option.bind_eq_some_iff] at h
    obtain ⟨a, hheight, h⟩ := h
    replace hheight := writesInteger_of_int? hheight
    split at h
    next hcomma =>
      rw [eq_append_of_delimiter hcomma]
      simp only [Option.bind_eq_some_iff, Option.some.injEq] at h
      obtain ⟨d, hdepth, rfl⟩ := h
      obtain ⟨tail, htail, hrest⟩ := exists_isTail
        (readField (readField text).rest).rest fun delimiter _ => mem_delimiters delimiter
      rw [hrest]
      exact Form.depth hwidth hheight (writesInteger_of_int? hdepth) htail
    next hcolon =>
      obtain ⟨tail, htail, hrest⟩ := exists_isTail _ (mem_colon_of_ne_comma hcolon)
      obtain rfl : _ = extent := by simpa using h
      rw [hrest]
      exact Form.height hwidth hheight htail
  next hcolon =>
    obtain ⟨tail, htail, htext⟩ := exists_isTail _ (mem_colon_of_ne_comma hcolon)
    obtain rfl : _ = extent := by simpa using h
    rw [htext]
    exact Form.width hwidth htail

theorem parse?_of_form (h : Form text extent) : parse? text = some extent := by
  cases h with
  | width hwidth htail =>
      obtain ⟨delimiter?, rest, hfield, hmem⟩ := hwidth.readField_tail htail
      simp [parse?, hfield, Field.int?, hwidth.value, ne_comma_of_mem_colon hmem]
  | height hwidth hheight htail =>
      obtain ⟨delimiter?, rest, hfield, hmem⟩ := hheight.readField_tail htail
      simp [parse?, hwidth.readField_append, hfield, Field.int?, hwidth.value, hheight.value,
        ne_comma_of_mem_colon hmem]
  | depth hwidth hheight hdepth htail =>
      obtain ⟨delimiter?, rest, hfield, hmem⟩ := hdepth.readField_tail htail
      simp [parse?, hwidth.readField_append, hheight.readField_append, hfield, Field.int?,
        hwidth.value, hheight.value, hdepth.value]

end Extent

/-! ## Records -/

namespace Record

/-- The forms of the source line: with a column behind it or without one. -/
inductive LineForm : List UInt8 → UInt32 → Option UInt32 → Prop
  | line {text : List UInt8} {line : UInt32} (hline : WritesWord text line) :
      LineForm text line none
  | column {text behind : List UInt8} {line column : UInt32} (hline : WritesWord text line)
      (hcolumn : WritesWord behind column) :
      LineForm (text ++ Delimiter.comma.byte :: behind) line (some column)

/-- The forms of the vertical position: with an extent behind it or without one. -/
inductive VerticalForm : List UInt8 → Int → Option Extent → Prop
  | point {text : List UInt8} {v : Int} (hv : WritesInteger text v) : VerticalForm text v none
  | extent {text behind : List UInt8} {v : Int} {extent : Extent} (hv : WritesInteger text v)
      (hextent : extent.Form behind) :
      VerticalForm (text ++ Delimiter.colon.byte :: behind) v (some extent)

/-- The form of a record of a kind, with what its parts stand for. -/
inductive Form (kind : Kind) : List UInt8 → Record → Prop
  | parts {tag place x vertical : List UInt8} {input line : UInt32} {column : Option UInt32}
      {h v : Int} {extent : Option Extent} (htag : WritesWord tag input)
      (hplace : LineForm place line column) (hh : WritesInteger x h)
      (hvertical : VerticalForm vertical v extent) :
      Form kind (tag ++ Delimiter.comma.byte :: (place ++ Delimiter.colon.byte ::
        (x ++ Delimiter.comma.byte :: vertical))) ⟨kind, input, line, column, h, v, extent⟩

variable {text rest : List UInt8} {line : UInt32} {column : Option UInt32} {v : Int}
  {extent : Option Extent}

theorem readLine?_eq_some_iff : readLine? text = some (line, column, rest) ↔
    ∃ place, LineForm place line column ∧ text = place ++ Delimiter.colon.byte :: rest := by
  constructor
  · intro h
    rw [readLine?, Option.bind_eq_bind, Option.bind_eq_some_iff] at h
    obtain ⟨n, hline, h⟩ := h
    replace hline := writesInteger_of_int? (int?_bind_word?_eq_some_iff.mp hline)
    split at h
    next hcolon =>
      obtain ⟨rfl, rfl, rfl⟩ : n = line ∧ none = column ∧ (readField text).rest = rest := by
        simpa using h
      exact ⟨_, LineForm.line hline, eq_append_of_delimiter hcolon⟩
    next hcomma =>
      simp only [Option.bind_eq_bind, Option.bind_eq_some_iff, Prod.exists, Option.some.injEq,
        Prod.mk.injEq] at h
      obtain ⟨c, behind, hread, rfl, rfl, rfl⟩ := h
      obtain ⟨content, hcolumn, hrest⟩ := readWordBefore?_eq_some_iff.mp hread
      refine ⟨_, LineForm.column hline hcolumn, ?_⟩
      rw [List.append_assoc, List.cons_append, ← hrest]
      exact eq_append_of_delimiter hcomma
    next => contradiction
  · rintro ⟨_, hline | ⟨hline, hcolumn⟩, rfl⟩
    · simp [readLine?, hline.readField_append, hline.int?_bind_word?]
    · simp [readLine?, hline.readField_append, hline.int?_bind_word?,
        readWordBefore?_eq_some_iff.mpr ⟨_, hcolumn, rfl⟩]

theorem readVertical?_eq_some_iff :
    readVertical? text = some (v, extent) ↔ VerticalForm text v extent := by
  constructor
  · intro h
    rw [readVertical?, Option.bind_eq_bind, Option.bind_eq_some_iff] at h
    obtain ⟨n, hv, h⟩ := h
    replace hv := writesInteger_of_int? hv
    split at h
    next hend =>
      obtain ⟨rfl, rfl⟩ : n = v ∧ none = extent := by simpa using h
      rw [eq_content_of_delimiter hend]
      exact VerticalForm.point hv
    next hcolon =>
      simp only [Option.bind_eq_bind, Option.bind_eq_some_iff, Option.some.injEq,
        Prod.mk.injEq] at h
      obtain ⟨e, hextent, rfl, rfl⟩ := h
      rw [eq_append_of_delimiter hcolon]
      exact VerticalForm.extent hv (Extent.form_of_parse? hextent)
    next => contradiction
  · rintro (hv | ⟨hv, hextent⟩)
    · simp [readVertical?, hv.readField_eq, Field.int?, hv.value]
    · simp [readVertical?, hv.readField_append, Field.int?, hv.value,
        Extent.parse?_of_form hextent]

end Record

/-- A text is read as a record of a kind exactly if it has the form of one. The record is then
what its parts stand for. -/
theorem Record.parse?_eq_some_iff_form (kind : Kind) (body : List UInt8) (record : Record) :
    parse? kind body = some record ↔ Form kind body record := by
  constructor
  · intro h
    simp only [parse?, Option.bind_eq_bind, Option.bind_eq_some_iff, Prod.exists,
      Option.some.injEq] at h
    obtain ⟨input, text₁, hinput, line, column, text₂, hline, x, text₃, hx, v, extent, hv, rfl⟩ := h
    obtain ⟨tag, htag, rfl⟩ := readWordBefore?_eq_some_iff.mp hinput
    obtain ⟨place, hplace, rfl⟩ := readLine?_eq_some_iff.mp hline
    obtain ⟨across, hacross, rfl⟩ := readIntBefore?_eq_some_iff.mp hx
    exact Form.parts htag hplace hacross (readVertical?_eq_some_iff.mp hv)
  · rintro ⟨htag, hplace, hx, hv⟩
    simp only [parse?, readWordBefore?_eq_some_iff.mpr ⟨_, htag, rfl⟩,
      readLine?_eq_some_iff.mpr ⟨_, hplace, rfl⟩, readIntBefore?_eq_some_iff.mpr ⟨_, hx, rfl⟩,
      readVertical?_eq_some_iff.mpr hv, Option.bind_eq_bind, Option.bind_some]

example : Record.parse? .math (Utf8.encode "1,2:3,4:5,6,7,8") =
    some ⟨.math, 1, 2, none, 3, 4, some ⟨5, some 6, some 7⟩⟩ ∧
      Record.parse? .math (Utf8.encode "1,2:3,4,") = none := by
  decide +kernel

end PageSync

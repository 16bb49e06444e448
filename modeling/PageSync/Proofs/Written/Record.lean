import PageSync.Proofs.Written.Field
import PageSync.Stream.Record

/-! # Written records

The written form of a record is the text behind its kind byte: the fields in
order, the column and the extent only if there are any. It reads back as the
same record for every record whose numbers are within the limit and whose
depth, if any, stands behind a height.
-/

namespace PageSync

open Text Text.Decimal

namespace Extent

/-- The numbers can be written, and there is no depth without a height. -/
structure Writable (extent : Extent) : Prop where
  width : extent.width.natAbs ≤ limit
  height : ∀ height ∈ extent.height, height.natAbs ≤ limit
  depth : ∀ depth ∈ extent.depth, depth.natAbs ≤ limit
  height_of_depth : extent.depth.isSome → extent.height.isSome

/-- The parts of an extent, up to the first that is not given. -/
def written (extent : Extent) : List UInt8 :=
  render extent.width ++
    match extent.height, extent.depth with
    | none, _ => []
    | some height, none => Delimiter.comma.byte :: render height
    | some height, some depth =>
      Delimiter.comma.byte :: (render height ++ Delimiter.comma.byte :: render depth)

theorem parse?_written {extent : Extent} (h : extent.Writable) :
    parse? extent.written = some extent := by
  obtain ⟨width, height, depth⟩ := extent
  have hwidth : width.natAbs ≤ limit := h.width
  cases height with
  | none =>
      have hnone : depth = none := by simpa using h.height_of_depth
      subst hnone
      simp [parse?, written, int?_render hwidth]
  | some height =>
      have hheight : height.natAbs ≤ limit := h.height height rfl
      cases depth with
      | none => simp [parse?, written, int?_render hwidth, int?_render hheight]
      | some depth =>
          have hdepth : depth.natAbs ≤ limit := h.depth depth rfl
          simp [parse?, written, int?_render hwidth, int?_render hheight, int?_render hdepth]

end Extent

namespace Record

/-- The numbers that are not words can be written. -/
structure Writable (record : Record) : Prop where
  h : record.h.natAbs ≤ limit
  v : record.v.natAbs ≤ limit
  extent : ∀ extent ∈ record.extent, extent.Writable

/-- The line with the column behind it, if there is one. -/
def writtenLine (line : UInt32) (column : Option UInt32) : List UInt8 :=
  render line.toNat ++
    match column with
    | none => []
    | some column => Delimiter.comma.byte :: render column.toNat

/-- The vertical position with the extent behind it, if there is one. -/
def writtenVertical (v : Int) (extent : Option Extent) : List UInt8 :=
  render v ++
    match extent with
    | none => []
    | some extent => Delimiter.colon.byte :: extent.written

/-- The text of a record behind its kind byte. -/
def written (record : Record) : List UInt8 :=
  render record.input.toNat ++ Delimiter.comma.byte ::
    (writtenLine record.line record.column ++ Delimiter.colon.byte ::
      (render record.h ++ Delimiter.comma.byte :: writtenVertical record.v record.extent))

theorem int?_bind_word? (word : UInt32) (delimiter : Option Delimiter) (rest : List UInt8) :
    (Text.Field.mk (render word.toNat) delimiter rest).int?.bind word? = some word := by
  rw [int?_render_word, Option.bind_some, word?_toNat]

theorem readLine?_writtenLine (line : UInt32) (column : Option UInt32) (rest : List UInt8) :
    readLine? (writtenLine line column ++ Delimiter.colon.byte :: rest) =
      some (line, column, rest) := by
  cases column with
  | none => simp [readLine?, writtenLine, int?_bind_word?]
  | some column =>
      have hcolumn := readWordBefore?_render column .colon rest
      simp [readLine?, writtenLine, int?_bind_word?, hcolumn]

theorem readVertical?_writtenVertical {v : Int} {extent : Option Extent}
    (hv : v.natAbs ≤ limit) (hextent : ∀ e ∈ extent, e.Writable) :
    readVertical? (writtenVertical v extent) = some (v, extent) := by
  cases extent with
  | none => simp [readVertical?, writtenVertical, int?_render hv]
  | some extent =>
      have hparse := Extent.parse?_written (hextent extent rfl)
      simp [readVertical?, writtenVertical, int?_render hv, hparse]

/-- A written record is read back. -/
theorem parse?_written {record : Record} (h : record.Writable) :
    parse? record.kind record.written = some record := by
  have hinput := readWordBefore?_render record.input .comma
    (writtenLine record.line record.column ++ Delimiter.colon.byte ::
      (render record.h ++ Delimiter.comma.byte :: writtenVertical record.v record.extent))
  have hline := readLine?_writtenLine record.line record.column
    (render record.h ++ Delimiter.comma.byte :: writtenVertical record.v record.extent)
  have hh := readIntBefore?_render h.h .comma (writtenVertical record.v record.extent)
  have hv := readVertical?_writtenVertical h.v h.extent
  rw [parse?, written, hinput, Option.bind_eq_bind, Option.bind_some]
  simp only [hline, hh, hv, Option.bind_eq_bind, Option.bind_some]

end Record

end PageSync

import PageSync.Index.Read
import PageSync.Proofs.Text.Utf8

/-! # Texts as files

The second of the two bytes that mark gzip stands only inside a character, and
the first one is a character by itself. So no text is taken for a compressed
file: as a file it is read like the document that it is, and nothing is lost.
-/

namespace PageSync

open Text

namespace Gzip

theorem isGzip_encode (text : String) : isGzip (Utf8.encode text) = false := by
  rw [← Bool.not_eq_true, isGzip, List.isPrefixOf_iff_prefix]
  intro hgzip
  obtain ⟨rest, hrest⟩ := hgzip
  have hbytes : Utf8.encode text = [] ++ 0x1F :: 0x8B :: rest := hrest.symm
  exact absurd (Utf8.lt_or_le_of_encode_eq_append (by decide) hbytes) (by decide)

theorem decompress_of_isGzip_eq_false [Decoder] {bytes : List UInt8} (h : isGzip bytes = false) :
    decompress bytes = .ok ⟨bytes, false⟩ := by
  rw [decompress, h]
  rfl

end Gzip

namespace Index

/-- A file that holds a text is never an error, whatever the decoder makes of it. It is taken as it
is, and its index is that of the document. -/
theorem ofFile_encode [Gzip.Decoder] (root : Option String) (text : String) :
    Gzip.decompress (Utf8.encode text) = .ok ⟨Utf8.encode text, false⟩ ∧
      Reading.ofFile root (Utf8.encode text) =
        .ok (Reading.ofDocument root (Utf8.encode text)) ∧
      ofFile root (Utf8.encode text) = .ok (ofDocument root (Utf8.encode text)) := by
  have hplain := Gzip.decompress_of_isGzip_eq_false (Gzip.isGzip_encode text)
  have hreading : Reading.ofFile root (Utf8.encode text) =
      .ok (Reading.ofDocument root (Utf8.encode text)) := by
    rw [Reading.ofFile, hplain]
    rfl
  refine ⟨hplain, hreading, ?_⟩
  rw [ofFile, hreading]
  rfl

/-- The characters of both bytes do not make the mark. -/
example : Utf8.encode "\x1f\u008b" = [0x1F, 0xC2, 0x8B] := by
  decide +kernel

end Index

end PageSync

import Mathlib.Data.List.Infix
import PageSync.Index.Draft
import PageSync.Proofs.Stream.Part

/-! # Line ends

A line ends at a line feed, and one carriage return in front of it belongs to
the line end. If a text has no such carriage returns, they can be added to any
of its line feeds: the text keeps its lines, the document says the same, and
its index is the same.
-/

namespace PageSync

namespace Text

/-- The second text is the first one with a carriage return in front of some of its line feeds. -/
inductive AddsReturns : List UInt8 → List UInt8 → Prop
  | nil : AddsReturns [] []
  | keep (b : UInt8) {text other : List UInt8} (h : AddsReturns text other) :
      AddsReturns (b :: text) (b :: other)
  | add {text other : List UInt8} (h : AddsReturns text other) :
      AddsReturns (lineFeed :: text) (13 :: lineFeed :: other)

variable {line rest text other : List UInt8}

theorem AddsReturns.refl (text : List UInt8) : AddsReturns text text := by
  induction text with
  | nil => exact .nil
  | cons b text ih => exact .keep b ih

theorem AddsReturns.append_left (line : List UInt8) (h : AddsReturns text other) :
    AddsReturns (line ++ text) (line ++ other) := by
  induction line with
  | nil => exact h
  | cons b line ih => exact .keep b ih

/-- Nothing is added inside a line. -/
theorem AddsReturns.eq_of_notMem (h : AddsReturns line other) (hline : lineFeed ∉ line) :
    other = line := by
  induction h with
  | nil => rfl
  | keep b _ ih => rw [ih fun hmem => hline (List.mem_cons_of_mem b hmem)]
  | add => exact absurd List.mem_cons_self hline

/-- The first line end is kept as it is or gets a carriage return, whatever is done to the rest. -/
theorem AddsReturns.of_append (h : AddsReturns (line ++ lineFeed :: rest) other)
    (hline : lineFeed ∉ line) :
    ∃ rest', AddsReturns rest rest' ∧
      (other = line ++ lineFeed :: rest' ∨ other = line ++ [13] ++ lineFeed :: rest') := by
  induction line generalizing other with
  | nil =>
      cases h with
      | keep _ h => exact ⟨_, h, .inl rfl⟩
      | add h => exact ⟨_, h, .inr rfl⟩
  | cons b line ih =>
      rw [List.mem_cons, not_or] at hline
      cases h with
      | keep _ h =>
          obtain ⟨rest', hrest, rfl | rfl⟩ := ih h hline.2
          · exact ⟨rest', hrest, .inl rfl⟩
          · exact ⟨rest', hrest, .inr rfl⟩
      | add => exact absurd rfl hline.1

/-- A carriage return in front of a line feed, if there is none yet, is no part of the line. -/
theorem lines_of_addsReturns (h : AddsReturns text other) (hplain : ¬ [13, lineFeed] <:+: text) :
    lines other = lines text := by
  induction text using line_induction generalizing other with
  | nil =>
      cases h
      rfl
  | last line _ hline => rw [h.eq_of_notMem hline]
  | line line rest hline ih =>
      -- a carriage return at the end of the line would stand in front of its line feed
      have hlast : line.getLast? ≠ some 13 := by
        intro hlast
        obtain ⟨front, rfl⟩ := List.getLast?_eq_some_iff.mp hlast
        exact hplain ⟨front, rest, by simp⟩
      have hrest : ¬ [13, lineFeed] <:+: rest := by
        refine fun hpair => hplain (hpair.trans ?_)
        exact ((List.suffix_cons lineFeed rest).trans (List.suffix_append line _)).isInfix
      obtain ⟨rest', hadds, rfl | rfl⟩ := h.of_append hline
      · rw [lines_append_lineFeed hline, lines_append_lineFeed hline, ih hadds hrest]
      · have hreturn : lineFeed ∉ line ++ [13] := by
          rw [List.mem_append, not_or]
          exact ⟨hline, by decide⟩
        rw [lines_append_lineFeed hreturn, lines_append_lineFeed hline, ih hadds hrest,
          chomp_append_return, chomp_eq_self hlast]

/-- Of two carriage returns the first one belongs to the line. -/
example : lines (Utf8.encode "a\r\n") = [Utf8.encode "a"] ∧
    lines (Utf8.encode "a\r\r\n") = [Utf8.encode "a\r"] := by
  decide +kernel

end Text

namespace Index

open Text

/-- Which of the line feeds of a document have a carriage return in front of them makes no
difference to what the document says, nor to its index, if there were none at first. -/
theorem ofDocument_of_addsReturns {text other : List UInt8} (h : AddsReturns text other)
    (hplain : ¬ [13, lineFeed] <:+: text) (root : Option String) :
    Document.events other = Document.events text ∧
      ofDocument root other = ofDocument root text := by
  have hevents : Document.events other = Document.events text := by
    rw [Document.events, Document.events, lines_of_addsReturns h hplain]
  refine ⟨hevents, ?_⟩
  rw [ofDocument, ofDocument, hevents]

/-- The lines of a path and of a record get a carriage return, the others do not. -/
theorem ofDocument_of_addsReturns_mixed :
    let path := Utf8.encode "Output:a.pdf"
    let opened := Utf8.encode "Content:\n\x7b1\nh1,3:0,0:9,9,0"
    let closed := Utf8.encode "\x7d1\nPostamble:\n"
    let text := path ++ lineFeed :: (opened ++ lineFeed :: closed)
    let other := path ++ 13 :: lineFeed :: (opened ++ 13 :: lineFeed :: closed)
    ¬ [13, lineFeed] <:+: text ∧ Document.events other = Document.events text ∧
      ofDocument none other = ofDocument none text ∧
      (ofDocument none other).header.output = some "a.pdf" ∧
      (ofDocument none other).friends 1 3 = [⟨1, 0⟩] := by
  intro path opened closed text other
  have hadds : AddsReturns text other :=
    ((AddsReturns.refl closed).add.append_left opened).add.append_left path
  have hplain : ¬ [13, lineFeed] <:+: text := by decide +kernel
  obtain ⟨hevents, hindex⟩ := ofDocument_of_addsReturns hadds hplain none
  exact ⟨hplain, hevents, hindex, by decide +kernel, by decide +kernel⟩

end Index

end PageSync

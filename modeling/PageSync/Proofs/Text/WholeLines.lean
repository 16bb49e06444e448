import Mathlib.Data.List.TakeWhile
import PageSync.Proofs.Written.Lines

/-! # Whole lines

A text is a row of lines with a line feed behind each, and at most one more
line without one. Where a line ends with its line feed the text can be cut in
two: the lines of the parts follow each other.
-/

namespace PageSync.Text

/-- A text that is empty or ends with a line feed, so that what is added begins a line. -/
def WholeLines (text : List UInt8) : Prop := text = [] ∨ text.getLast? = some lineFeed

instance (text : List UInt8) : Decidable (WholeLines text) :=
  inferInstanceAs (Decidable (_ ∨ _))

/-- A line of the text `before ++ line ++ after`, without the line feed that ends it. -/
structure IsLine (before line after : List UInt8) : Prop where
  before : WholeLines before
  line : lineFeed ∉ line
  after : after = [] ∨ after.head? = some lineFeed

/-- Texts are built from lines, from the last one up. -/
@[elab_as_elim]
theorem line_induction {motive : List UInt8 → Prop} (nil : motive [])
    (last : ∀ line, line ≠ [] → lineFeed ∉ line → motive line)
    (line : ∀ line rest, lineFeed ∉ line → motive rest → motive (line ++ lineFeed :: rest))
    (text : List UInt8) : motive text := by
  induction hlength : text.length using Nat.strongRecOn generalizing text with
  | ind length ih =>
      by_cases hfeed : lineFeed ∈ text
      · obtain ⟨front, rest, rfl, hfront⟩ := List.eq_append_cons_of_mem hfeed
        refine line front rest hfront (ih rest.length ?_ rest rfl)
        rw [← hlength, List.length_append, List.length_cons]
        omega
      · by_cases hnil : text = []
        · exact hnil ▸ nil
        · exact last text hnil hfeed

theorem WholeLines.of_append {line rest : List UInt8}
    (h : WholeLines (line ++ lineFeed :: rest)) : WholeLines rest := by
  cases rest with
  | nil => exact Or.inl rfl
  | cons b rest =>
      rcases h with hnil | hlast
      · simp at hnil
      · exact Or.inr (by simpa using hlast)

@[simp]
theorem lines_nil : lines [] = [] := by
  rw [lines_of_nextLine?, nextLine?_nil]

/-- A text without line feeds is one line. -/
theorem lines_of_notMem {line : List UInt8} (hne : line ≠ []) (hline : lineFeed ∉ line) :
    lines line = [chomp line] := by
  have hplain := bne_lineFeed_of_notMem hline
  have hnext : nextLine? line = some (chomp line, []) := by
    have hempty : line.isEmpty = false := by simpa using hne
    rw [nextLine?, hempty, List.takeWhile_eq_self_iff.mpr hplain,
      List.dropWhile_eq_nil_iff.mpr hplain]
    rfl
  rw [lines_of_nextLine?, hnext]
  simp

/-- The lines of two texts follow each other if the first one ends with its last line. -/
theorem lines_append {text : List UInt8} (h : WholeLines text) (more : List UInt8) :
    lines (text ++ more) = lines text ++ lines more := by
  induction text using line_induction with
  | nil => rw [lines_nil, List.nil_append, List.nil_append]
  | last line hne hline =>
      rcases h with rfl | hlast
      · exact absurd rfl hne
      · exact absurd (List.mem_of_getLast? hlast) hline
  | line line rest hline ih =>
      rw [List.append_assoc, List.cons_append, lines_append_lineFeed hline,
        lines_append_lineFeed hline, ih h.of_append, List.cons_append]

/-- A line of a text comes behind the lines before it and in front of those after it. -/
theorem IsLine.lines_append {before line after : List UInt8} (h : IsLine before line after)
    (hne : line ≠ []) :
    lines (before ++ line ++ after) = lines before ++ chomp line :: lines after.tail := by
  rw [List.append_assoc, Text.lines_append h.before]
  congr 1
  cases after with
  | nil => rw [List.append_nil, lines_of_notMem hne h.line, List.tail_nil, lines_nil]
  | cons b rest =>
      have hb : b = lineFeed := by simpa using h.after
      rw [hb, lines_append_lineFeed h.line, List.tail_cons]

/-! ## Pieces -/

/-- The lines of a text with the bytes that end them. -/
def pieces : List UInt8 → List (List UInt8)
  | [] => []
  | b :: rest =>
    if b = lineFeed then [b] :: pieces rest
    else (b :: (pieces rest).headD []) :: (pieces rest).tail

/-- What is read of a line with the bytes that end it. -/
def lineOf (piece : List UInt8) : List UInt8 := chomp (piece.takeWhile (· != lineFeed))

theorem pieces_of_notMem {line : List UInt8} (hne : line ≠ []) (hline : lineFeed ∉ line) :
    pieces line = [line] := by
  induction line with
  | nil => contradiction
  | cons b rest ih =>
      rw [List.mem_cons, not_or] at hline
      rw [pieces, if_neg (Ne.symm hline.1)]
      cases rest with
      | nil => rfl
      | cons c rest =>
          rw [ih (List.cons_ne_nil c rest) hline.2]
          rfl

theorem pieces_append_lineFeed {line : List UInt8} (hline : lineFeed ∉ line) (rest : List UInt8) :
    pieces (line ++ lineFeed :: rest) = (line ++ [lineFeed]) :: pieces rest := by
  induction line with
  | nil => rw [List.nil_append, pieces, if_pos rfl, List.nil_append]
  | cons b line ih =>
      rw [List.mem_cons, not_or] at hline
      rw [List.cons_append, pieces, if_neg (Ne.symm hline.1), ih hline.2]
      rfl

theorem takeWhile_append_lineFeed {line : List UInt8} (hline : lineFeed ∉ line)
    (rest : List UInt8) : (line ++ lineFeed :: rest).takeWhile (· != lineFeed) = line := by
  rw [List.takeWhile_append_of_pos (bne_lineFeed_of_notMem hline)]
  simp

theorem lineOf_of_notMem {line : List UInt8} (hline : lineFeed ∉ line) :
    lineOf line = chomp line := by
  rw [lineOf, List.takeWhile_eq_self_iff.mpr (bne_lineFeed_of_notMem hline)]

/-- Where pieces are taken out of a text, the lines of the others stay as they are. -/
theorem lines_flatten {text : List UInt8} {kept : List (List UInt8)}
    (h : kept.Sublist (pieces text)) : lines kept.flatten = kept.map lineOf := by
  induction text using line_induction generalizing kept with
  | nil =>
      rw [pieces, List.sublist_nil] at h
      rw [h, List.flatten_nil, lines_nil, List.map_nil]
  | last line hne hline =>
      rw [pieces_of_notMem hne hline, List.sublist_singleton] at h
      rcases h with rfl | rfl
      · rw [List.flatten_nil, lines_nil, List.map_nil]
      · rw [List.flatten_singleton, lines_of_notMem hne hline, List.map_singleton,
          lineOf_of_notMem hline]
  | line line rest hline ih =>
      rw [pieces_append_lineFeed hline, List.sublist_cons_iff] at h
      rcases h with h | ⟨kept, rfl, h⟩
      · exact ih h
      · rw [List.flatten_cons, List.append_assoc, List.singleton_append,
          lines_append_lineFeed hline, ih h, List.map_cons, lineOf,
          takeWhile_append_lineFeed hline]

theorem flatten_pieces (text : List UInt8) : (pieces text).flatten = text := by
  induction text using line_induction with
  | nil => rfl
  | last line hne hline => rw [pieces_of_notMem hne hline, List.flatten_singleton]
  | line line rest hline ih =>
      rw [pieces_append_lineFeed hline, List.flatten_cons, ih, List.append_assoc,
        List.singleton_append]

theorem lines_eq_map_pieces (text : List UInt8) : lines text = (pieces text).map lineOf := by
  have h := lines_flatten (List.Sublist.refl (pieces text))
  rwa [flatten_pieces] at h

end PageSync.Text

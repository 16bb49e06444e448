import PageSync.Proofs.Written.Decimal
import PageSync.Text.Lines

/-! # Written lines

A line is written with a line feed behind it. It is read back as it is if it
holds no line feed and does not end in a carriage return.
-/

namespace PageSync.Text

open Decimal

/-- A text that stays whole when it is written as the end of a line. -/
def EndsLine (text : List UInt8) : Prop := lineFeed ∉ text ∧ text.getLast? ≠ some 13

instance (text : List UInt8) : Decidable (EndsLine text) :=
  inferInstanceAs (Decidable (_ ∧ _))

/-- The lines, each with its line feed. -/
def joinLines (lines : List (List UInt8)) : List UInt8 :=
  lines.flatMap fun line => line ++ [lineFeed]

theorem chomp_eq_self {text : List UInt8} (h : text.getLast? ≠ some 13) : chomp text = text :=
  if_neg h

theorem chomp_append_return (line : List UInt8) : chomp (line ++ [13]) = line := by
  simp [chomp]

theorem chomp_cons {b : UInt8} (hb : b ≠ 13) (rest : List UInt8) :
    chomp (b :: rest) = b :: chomp rest := by
  cases rest with
  | nil => simp [chomp, hb]
  | cons c rest =>
      rw [chomp, chomp, List.getLast?_cons_cons]
      split
      · exact List.dropLast_cons_cons
      · rfl

theorem bne_lineFeed_of_notMem {line : List UInt8} (hline : lineFeed ∉ line) :
    ∀ b ∈ line, (b != lineFeed) = true := by
  intro b hb
  rw [bne_iff_ne]
  rintro rfl
  exact hline hb

theorem lines_append_lineFeed {line : List UInt8} (hline : lineFeed ∉ line)
    (rest : List UInt8) : lines (line ++ lineFeed :: rest) = chomp line :: lines rest := by
  have hplain := bne_lineFeed_of_notMem hline
  have hnext : nextLine? (line ++ lineFeed :: rest) = some (chomp line, rest) := by
    have hempty : (line ++ lineFeed :: rest).isEmpty = false := by simp
    rw [nextLine?, hempty, List.takeWhile_append_of_pos hplain,
      List.dropWhile_append_of_pos hplain]
    simp
  rw [lines_of_nextLine?, hnext]

theorem lines_joinLines_append {written : List (List UInt8)} (h : ∀ line ∈ written, EndsLine line)
    (rest : List UInt8) : lines (joinLines written ++ rest) = written ++ lines rest := by
  induction written with
  | nil => rfl
  | cons line written ih =>
      have hline := h line List.mem_cons_self
      have htail := ih fun other hother => h other (List.mem_cons_of_mem line hother)
      rw [joinLines, List.flatMap_cons, ← joinLines, List.append_assoc, List.append_assoc,
        List.singleton_append, lines_append_lineFeed hline.1, chomp_eq_self hline.2, htail,
        List.cons_append]

theorem endsLine_nil : EndsLine [] := ⟨List.not_mem_nil, by simp⟩

theorem EndsLine.append {label text : List UInt8} (hlabel : EndsLine label)
    (htext : EndsLine text) : EndsLine (label ++ text) := by
  refine ⟨?_, ?_⟩
  · rw [List.mem_append, not_or]
    exact ⟨hlabel.1, htext.1⟩
  · rw [List.getLast?_append]
    cases hlast : text.getLast? with
    | none => exact hlabel.2
    | some b =>
        have hb := htext.2
        rwa [hlast] at hb

theorem EndsLine.cons {b : UInt8} {text : List UInt8} (hfeed : b ≠ lineFeed) (hreturn : b ≠ 13)
    (htext : EndsLine text) : EndsLine (b :: text) := by
  have hlabel : EndsLine [b] := by
    refine ⟨?_, ?_⟩
    · rw [List.mem_singleton]
      exact hfeed.symm
    · simpa using hreturn
  exact hlabel.append htext

theorem endsLine_of_plain {text : List UInt8} (h : ∀ b ∈ text, b ≠ lineFeed ∧ b ≠ 13) :
    EndsLine text :=
  ⟨fun hfeed => (h _ hfeed).1 rfl, fun hreturn => (h 13 (List.mem_of_mem_getLast? hreturn)).2 rfl⟩

theorem endsLine_render (n : Int) : EndsLine (render n) := by
  apply endsLine_of_plain
  intro b hb
  rcases mem_render hb with rfl | hdigit
  · decide
  · simp only [isDigit, Bool.and_eq_true, decide_eq_true_eq] at hdigit
    simp only [lineFeed]
    grind

/-- A label that may stand in a line is not touched when the line is read. -/
theorem chomp_append {label : List UInt8} (hlabel : EndsLine label) (text : List UInt8) :
    ∃ rest, chomp (label ++ text) = label ++ rest := by
  by_cases hreturn : (label ++ text).getLast? = some 13
  · have htext : text ≠ [] := by
      rintro rfl
      rw [List.append_nil] at hreturn
      exact hlabel.2 hreturn
    -- the carriage return that is taken off is the end of the text, not of the label
    refine ⟨text.dropLast, ?_⟩
    rw [chomp, if_pos hreturn, List.dropLast_append_of_ne_nil htext]
  · exact ⟨text, chomp_eq_self hreturn⟩

theorem exists_lines_append (label : List UInt8) (hlabel : EndsLine label) (hne : label ≠ [])
    (text : List UInt8) : ∃ rest others, lines (label ++ text) = (label ++ rest) :: others := by
  have hplain := bne_lineFeed_of_notMem hlabel.1
  obtain ⟨rest, hrest⟩ := chomp_append hlabel (text.takeWhile (· != lineFeed))
  have hempty : (label ++ text).isEmpty = false := by simp [hne]
  have hnext : nextLine? (label ++ text) =
      some (label ++ rest, (text.dropWhile (· != lineFeed)).drop 1) := by
    rw [nextLine?, hempty, List.takeWhile_append_of_pos hplain,
      List.dropWhile_append_of_pos hplain, hrest]
    rfl
  rw [lines_of_nextLine?, hnext]
  exact ⟨rest, _, rfl⟩

end PageSync.Text

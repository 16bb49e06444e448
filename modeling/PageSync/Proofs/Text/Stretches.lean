import PageSync.Proofs.Text.WholeLines
import PageSync.Text.Utf8

/-! # Lines and line feeds

The lines of a text are what stands between its line feeds, each without one
carriage return at its end. Behind the last line feed there is a line only if
that is not the end of the text. Reading one line after the other gives these
lines and then no more, and the lines with the bytes that end them are the text.
-/

namespace PageSync.Text

/-- What stands between the line feeds of a text. Nothing at all behind the last one is left out. -/
def stretches (text : List UInt8) : List (List UInt8) :=
  let parts := text.splitOn lineFeed
  if parts.getLast? = some [] then parts.dropLast else parts

/-- The text that is left after so many calls for a line. -/
def afterLines : Nat → List UInt8 → List UInt8
  | 0, text => text
  | calls + 1, text =>
    match nextLine? text with
    | none => text
    | some (_, rest) => afterLines calls rest

/-- The text is made of the lines with a line feed behind each, which the last one need not have. A
line may have one carriage return in front of its line feed or in place of it. -/
inductive MadeOf : List (List UInt8) → List UInt8 → Prop
  | nil : MadeOf [] []
  | last (line : List UInt8) {mark : List UInt8} (hmark : mark = [] ∨ mark = [13])
      (hne : line ++ mark ≠ []) : MadeOf [line] (line ++ mark)
  | line (line : List UInt8) {mark rest : List UInt8} {others : List (List UInt8)}
      (hmark : mark = [] ∨ mark = [13]) (hrest : MadeOf others rest) :
      MadeOf (line :: others) (line ++ mark ++ lineFeed :: rest)

variable {line rest : List UInt8}

theorem stretches_of_notMem (hne : line ≠ []) (hline : lineFeed ∉ line) :
    stretches line = [line] := by
  have hlast : [line].getLast? ≠ some [] := by simpa using hne
  rw [stretches, List.splitOn_eq_singleton hline, if_neg hlast]

theorem stretches_append_lineFeed (hline : lineFeed ∉ line) (rest : List UInt8) :
    stretches (line ++ lineFeed :: rest) = line :: stretches rest := by
  obtain ⟨part, parts, hparts⟩ := List.exists_cons_of_ne_nil (List.splitOn_ne_nil lineFeed rest)
  rw [stretches, stretches, List.splitOn_append_cons_self_of_not_mem hline, hparts]
  -- the last part is that of the rest, as the rest has one in any case
  rw [List.getLast?_cons_cons, List.dropLast_cons_cons]
  by_cases hlast : (part :: parts).getLast? = some []
  · rw [if_pos hlast, if_pos hlast]
  · rw [if_neg hlast, if_neg hlast]

theorem map_chomp_stretches (text : List UInt8) : (stretches text).map chomp = lines text := by
  induction text using line_induction with
  | nil =>
      rw [lines_nil]
      rfl
  | last line hne hline =>
      rw [stretches_of_notMem hne hline, lines_of_notMem hne hline, List.map_singleton]
  | line line rest hline ih =>
      rw [stretches_append_lineFeed hline, List.map_cons, ih, lines_append_lineFeed hline]

/-- Each call reads the next line, and behind the last line no call reads any. -/
theorem nextLine?_afterLines (calls : Nat) (text : List UInt8) :
    (nextLine? (afterLines calls text)).map Prod.fst = (lines text)[calls]? := by
  induction calls generalizing text with
  | zero =>
      rw [afterLines, lines_of_nextLine?]
      cases nextLine? text with
      | none => rfl
      | some read => rfl
  | succ calls ih =>
      rw [afterLines, lines_of_nextLine?]
      cases hnext : nextLine? text with
      | none => simp [hnext]
      | some read => exact ih read.2

theorem lineFeed_notMem_chomp (hline : lineFeed ∉ line) : lineFeed ∉ chomp line := by
  rw [chomp]
  split
  · exact fun hmem => hline ((List.dropLast_sublist line).mem hmem)
  · exact hline

theorem lineFeed_notMem_of_mem_lines {text : List UInt8} (hline : line ∈ lines text) :
    lineFeed ∉ line := by
  induction text using line_induction with
  | nil =>
      rw [lines_nil] at hline
      exact absurd hline List.not_mem_nil
  | last whole hne hwhole =>
      rw [lines_of_notMem hne hwhole, List.mem_singleton] at hline
      exact hline ▸ lineFeed_notMem_chomp hwhole
  | line whole rest hwhole ih =>
      rw [lines_append_lineFeed hwhole, List.mem_cons] at hline
      rcases hline with rfl | hline
      · exact lineFeed_notMem_chomp hwhole
      · exact ih hline

/-- What is taken off a line is one carriage return, if anything. -/
theorem exists_chomp_append (line : List UInt8) :
    ∃ mark, (mark = [] ∨ mark = [13]) ∧ chomp line ++ mark = line := by
  by_cases hreturn : line.getLast? = some 13
  · obtain ⟨front, rfl⟩ := List.getLast?_eq_some_iff.mp hreturn
    exact ⟨[13], Or.inr rfl, by rw [chomp_append_return]⟩
  · exact ⟨[], Or.inl rfl, by rw [chomp_eq_self hreturn, List.append_nil]⟩

theorem madeOf_lines (text : List UInt8) : MadeOf (lines text) text := by
  induction text using line_induction with
  | nil => exact lines_nil ▸ .nil
  | last line hne hline =>
      obtain ⟨mark, hmark, hchomp⟩ := exists_chomp_append line
      have hmade := MadeOf.last (chomp line) hmark (hchomp.symm ▸ hne)
      rwa [hchomp, ← lines_of_notMem hne hline] at hmade
  | line line rest hline ih =>
      obtain ⟨mark, hmark, hchomp⟩ := exists_chomp_append line
      have hmade := ih.line (chomp line) hmark
      rwa [hchomp, ← lines_append_lineFeed hline] at hmade

/-- The lines of a text are what stands between its line feeds, without a carriage return at the
end but with all others. They can be read one by one up to the last. Texts that are whole lines can
be put in front of others, and no byte is lost but those that end a line. -/
theorem lines_eq_map_stretches (text : List UInt8) :
    lines text = (stretches text).map chomp ∧
    (∀ stretch, chomp (stretch ++ [13]) = stretch ∧
      (stretch.getLast? ≠ some 13 → chomp stretch = stretch)) ∧
    (∀ calls, (nextLine? (afterLines calls text)).map Prod.fst = (lines text)[calls]?) ∧
    (WholeLines text → ∀ more, lines (text ++ more) = lines text ++ lines more) ∧
    (∀ line ∈ lines text, lineFeed ∉ line) ∧ MadeOf (lines text) text := by
  refine ⟨(map_chomp_stretches text).symm, fun stretch => ?_,
    fun calls => nextLine?_afterLines calls text, fun hwhole => lines_append hwhole,
    fun line => lineFeed_notMem_of_mem_lines, madeOf_lines text⟩
  exact ⟨chomp_append_return stretch, chomp_eq_self⟩

/-- A line with two carriage returns, one with nothing else and an empty one, in front of a line
that the text breaks off in. -/
theorem lines_eq_map_stretches_returns :
    let text := Utf8.encode "a\r\r\n\r\n\n"
    let more := Utf8.encode "b\r"
    WholeLines text ∧ lines text = [Utf8.encode "a\r", [], []] ∧
      lines (text ++ more) = lines text ++ lines more ∧
      (nextLine? (afterLines 3 text)).map Prod.fst = none ∧ MadeOf (lines text) text := by
  intro text more
  have hwhole : WholeLines text := by decide +kernel
  have hlines : lines text = [Utf8.encode "a\r", [], []] := by decide +kernel
  obtain ⟨-, -, hcalls, happend, -, hmade⟩ := lines_eq_map_stretches text
  refine ⟨hwhole, hlines, happend hwhole more, ?_, hmade⟩
  rw [hcalls, hlines]
  rfl

end PageSync.Text

import PageSync.Proofs.Text.WholeLines
import PageSync.Proofs.Written.RoundTrip

/-! # Documents line by line

What a line says and where the next one stands depend on the line and on its
part of the document alone. The events of a document are therefore those of
its lines, one line after the other, and a document can be read in two steps
wherever a line ends.
-/

namespace PageSync.Document

open Text

/-- The part that the next line stands in, behind a line in this part. -/
def Part.behind (part : Part) (line : List UInt8) : Part :=
  (Progress.read ⟨part, #[]⟩ line).part

/-- The events of a line that stands in a part of the document. -/
def lineEvents (part : Part) (line : List UInt8) : List Event :=
  (Progress.read ⟨part, #[]⟩ line).events.toList

/-- The events of lines, of which the first one stands in the given part. -/
def eventsFrom : Part → List (List UInt8) → List Event
  | _, [] => []
  | part, line :: rest => lineEvents part line ++ eventsFrom (part.behind line) rest

/-- The part that is reached at the end of a text. -/
def partBehind (text : List UInt8) : Part := (lines text).foldl Part.behind .header

theorem read_eq (progress : Progress) (line : List UInt8) :
    progress.read line = ⟨progress.part.behind line,
      progress.events.appendList (lineEvents progress.part line)⟩ := by
  obtain ⟨part, events⟩ := progress
  cases part with
  | header =>
      simp only [Part.behind, lineEvents, Progress.read]
      split
      · simp
      · split <;> simp
  | content =>
      simp only [Part.behind, lineEvents, Progress.read]
      split
      · simp
      · split <;> simp
  | postamble =>
      simp only [Part.behind, lineEvents, Progress.read]
      split <;> simp

theorem foldl_read (lines : List (List UInt8)) (progress : Progress) :
    lines.foldl Progress.read progress = ⟨lines.foldl Part.behind progress.part,
      progress.events.appendList (eventsFrom progress.part lines)⟩ := by
  induction lines generalizing progress with
  | nil => simp [eventsFrom]
  | cons line lines ih =>
      rw [List.foldl_cons, ih, read_eq, List.foldl_cons, eventsFrom]
      congr 1
      apply Array.ext'
      simp

theorem events_eq_eventsFrom (text : List UInt8) :
    events text = eventsFrom .header (lines text) := by
  rw [events, foldl_read]
  simp

theorem eventsFrom_append (part : Part) (front back : List (List UInt8)) :
    eventsFrom part (front ++ back) =
      eventsFrom part front ++ eventsFrom (front.foldl Part.behind part) back := by
  induction front generalizing part with
  | nil => rfl
  | cons line front ih =>
      rw [List.cons_append, eventsFrom, eventsFrom, ih, List.append_assoc, List.foldl_cons]

/-- A document whose first lines are whole says first what these say. -/
theorem events_append {text : List UInt8} (h : WholeLines text) (more : List UInt8) :
    events (text ++ more) = events text ++ eventsFrom (partBehind text) (lines more) := by
  rw [events_eq_eventsFrom, lines_append h, eventsFrom_append, ← events_eq_eventsFrom]
  rfl

/-- The events of a line stand behind those of the lines before it. -/
theorem events_of_isLine {before line after : List UInt8} (h : IsLine before line after)
    (hne : line ≠ []) :
    events (before ++ line ++ after) =
      events before ++ lineEvents (partBehind before) (chomp line) ++
        eventsFrom ((partBehind before).behind (chomp line)) (lines after.tail) := by
  rw [events_eq_eventsFrom, h.lines_append hne, eventsFrom_append, ← events_eq_eventsFrom,
    eventsFrom, List.append_assoc]
  rfl

/-! ## Lines of the content -/

/-- In the content, a line that does not start with the first byte of `Postamble:` says what lines
of the content say. -/
theorem lineEvents_content {b : UInt8} (hb : b ≠ 80) (rest : List UInt8) :
    lineEvents .content (b :: rest) = contentEvents (b :: rest) := by
  have hafter : after? "Postamble:" (b :: rest) = none := after?_cons_eq_none rfl hb rest
  simp [lineEvents, Progress.read, hafter]

theorem behind_content {b : UInt8} (hb : b ≠ 80) (rest : List UInt8) :
    Part.behind .content (b :: rest) = .content := by
  have hafter : after? "Postamble:" (b :: rest) = none := after?_cons_eq_none rfl hb rest
  simp [Part.behind, Progress.read, hafter]

theorem ne_of_ofByte? {b c : UInt8} {kind : Kind} (hb : Kind.ofByte? b = some kind)
    (hc : Kind.ofByte? c = none) : b ≠ c := by
  rintro rfl
  rw [hc] at hb
  contradiction

theorem lineEvents_of_kind {b : UInt8} {kind : Kind} (hb : Kind.ofByte? b = some kind)
    (body : List UInt8) : lineEvents .content (b :: body) = recordEvents kind (b :: body) body := by
  rw [lineEvents_content (ne_of_ofByte? hb rfl), contentEvents_kind hb]

/-- What a record line of the content says stands between what is said before and after it. -/
theorem events_of_record {before body after : List UInt8} {b : UInt8} {kind : Kind}
    (h : IsLine before (b :: body) after) (hpart : partBehind before = .content)
    (hb : Kind.ofByte? b = some kind) :
    events (before ++ (b :: body) ++ after) =
      events before ++ recordEvents kind (b :: chomp body) (chomp body) ++
        eventsFrom .content (lines after.tail) := by
  rw [events_of_isLine h (List.cons_ne_nil b body), hpart, chomp_cons (ne_of_ofByte? hb rfl),
    lineEvents_of_kind hb, behind_content (ne_of_ofByte? hb rfl)]

end PageSync.Document

import PageSync.Proofs.Stream.Says

/-! # Headers in front of contents

A document is in its header up to the first line `Content:`, and never comes
back to it. No declaration of the header therefore stands behind a line that
says something about a page, also if lines of the content look like
declarations and if the line `Content:` comes again.
-/

namespace PageSync

namespace HeaderField

/-- The label that lines which declare the field start with. -/
def label : HeaderField → String
  | .version _ => "SyncTeX Version:"
  | .output _ => "Output:"
  | .magnification _ => "Magnification:"
  | .unit _ => "Unit:"
  | .xOffset _ => "X Offset:"
  | .yOffset _ => "Y Offset:"

/-- The integer that the field declares under a label. -/
def int? (name : String) (field : HeaderField) : Option Int :=
  if field.label = name then
    match field with
    | .version n | .magnification n | .unit n | .xOffset n | .yOffset n => some n
    | .output _ => none
  else none

/-- The name of the output that the field declares. -/
def output? : HeaderField → Option (List UInt8)
  | .output path => some path
  | _ => none

end HeaderField

namespace Event

/-- What the event declares in the header, if it is a declaration. -/
def field? : Event → Option HeaderField
  | .header field => some field
  | _ => none

/-- The event tells something about a page, or would if its line could be read. -/
def isContent : Event → Bool
  | .pageStart _ | .pageEnd _ | .record _ | .malformed _ | .boxEnd => true
  | _ => false

end Event

namespace Document

open Text

/-- The lines in front of the first line `Content:`. -/
def headerLines (text : List UInt8) : List (List UInt8) :=
  (lines text).takeWhile (· ≠ Utf8.encode "Content:")

/-- The lines behind the first line `Content:`. -/
def linesBehindHeader (text : List UInt8) : List (List UInt8) :=
  ((lines text).dropWhile (· ≠ Utf8.encode "Content:")).tail

/-! ## The two parts of a document -/

theorem behind_header {line : List UInt8} (hcontent : line ≠ Utf8.encode "Content:") :
    Part.behind .header line = .header := by
  simp only [Part.behind, Progress.read]
  split
  · rfl
  · rfl

theorem behind_ne_header {part : Part} (hpart : part ≠ .header) (line : List UInt8) :
    part.behind line ≠ .header := by
  cases part with
  | header => contradiction
  | content =>
      simp only [Part.behind, Progress.read]
      split
      · simp
      · split
        · simp
        · simp
  | postamble =>
      simp only [Part.behind, Progress.read]
      split
      · simp
      · simp

theorem eventsFrom_header (lines : List (List UInt8)) :
    eventsFrom .header lines =
      (lines.takeWhile (· ≠ Utf8.encode "Content:")).flatMap (lineEvents .header) ++
        eventsFrom .content (lines.dropWhile (· ≠ Utf8.encode "Content:")).tail := by
  induction lines with
  | nil => rfl
  | cons line lines ih =>
      rw [eventsFrom]
      by_cases hcontent : line = Utf8.encode "Content:"
      · subst hcontent
        simp
        rfl
      · rw [behind_header hcontent, ih, List.takeWhile_cons_of_pos (by simpa using hcontent),
          List.dropWhile_cons_of_pos (by simpa using hcontent), List.flatMap_cons,
          List.append_assoc]

/-- A document says what the lines of its header say, and then what the others say. -/
theorem events_eq_append (text : List UInt8) :
    events text = (headerLines text).flatMap (lineEvents .header) ++
      eventsFrom .content (linesBehindHeader text) := by
  rw [events_eq_eventsFrom, eventsFrom_header]
  rfl

theorem isContent_inputEvent (line body : List UInt8) :
    (inputEvent line body).isContent = false := by
  unfold inputEvent
  split
  · rfl
  · rfl

theorem isContent_headerEvent (line : List UInt8) : (headerEvent line).isContent = false := by
  unfold headerEvent
  split
  · exact isContent_inputEvent line _
  · split
    · rfl
    · split
      · rfl
      · rfl

theorem isContent_of_mem_lineEvents {line : List UInt8} {event : Event}
    (hmem : event ∈ lineEvents .header line) : event.isContent = false := by
  rcases eq_or_ne line [] with rfl | hne
  · exact absurd hmem List.not_mem_nil
  · by_cases hcontent : line = Utf8.encode "Content:"
    · subst hcontent
      exact absurd hmem List.not_mem_nil
    · rw [lineEvents_header hne hcontent, List.mem_singleton] at hmem
      rw [hmem, isContent_headerEvent]

theorem isContent_of_mem_headerLines {text : List UInt8} {event : Event}
    (hmem : event ∈ (headerLines text).flatMap (lineEvents .header)) :
    event.isContent = false := by
  obtain ⟨line, -, hevent⟩ := List.mem_flatMap.mp hmem
  exact isContent_of_mem_lineEvents hevent

/-- Behind the header nothing is declared, whatever a line looks like. -/
theorem field?_of_mem_eventsFrom {part : Part} (hpart : part ≠ .header)
    {lines : List (List UInt8)} {event : Event} (hmem : event ∈ eventsFrom part lines) :
    event.field? = none := by
  induction lines generalizing part with
  | nil => exact absurd hmem List.not_mem_nil
  | cons line lines ih =>
      rcases List.mem_append.mp hmem with hline | hrest
      · cases event with
        | header field =>
            cases says_iff.mpr ⟨hline, rfl⟩ with
            | output path => contradiction
            | integer hlabel hbody => contradiction
        | _ => rfl
      · exact ih (behind_ne_header hpart line) hrest

/-- Every declaration of the header stands before every event that tells something about a page. -/
theorem lt_of_field?_of_isContent {text : List UInt8} {i j : Nat} {field : HeaderField}
    {event : Event} (hfield : (events text)[i]? = some (.header field))
    (hevent : (events text)[j]? = some event) (hcontent : event.isContent = true) : i < j := by
  rw [events_eq_append] at hfield hevent
  set front := (headerLines text).flatMap (lineEvents .header)
  have hi : i < front.length := by
    by_contra hi
    rw [List.getElem?_append_right (Nat.le_of_not_lt hi)] at hfield
    have hnone := field?_of_mem_eventsFrom (by decide) (List.mem_of_getElem? hfield)
    contradiction
  have hj : front.length ≤ j := by
    by_contra hj
    rw [List.getElem?_append_left (Nat.lt_of_not_le hj)] at hevent
    rw [isContent_of_mem_headerLines (List.mem_of_getElem? hevent)] at hcontent
    contradiction
  omega

/-! ## What a header declares -/

/-- The integers that lines of the header declare under a label, in order. -/
def declared (label : String) (text : List UInt8) : List Int :=
  (headerLines text).filterMap fun line => (after? label line).bind Decimal.parse?

/-- The names of the output that lines of the header declare, in order. -/
def declaredOutputs (text : List UInt8) : List (List UInt8) :=
  (headerLines text).filterMap (after? "Output:")

theorem filterMap_field?_events (text : List UInt8) :
    (events text).filterMap Event.field? =
      (headerLines text).filterMap fun line => (headerEvent line).field? := by
  have hbehind : (eventsFrom .content (linesBehindHeader text)).filterMap Event.field? = [] :=
    List.filterMap_eq_nil_iff.mpr fun event hmem => field?_of_mem_eventsFrom (by decide) hmem
  rw [events_eq_append, List.filterMap_append, hbehind, List.append_nil, List.filterMap_flatMap,
    List.filterMap_eq_flatMap_toList]
  apply List.flatMap_congr
  intro line hline
  have hcontent : line ≠ Utf8.encode "Content:" := by
    simpa using List.mem_takeWhile_imp hline
  rcases eq_or_ne line [] with rfl | hne
  · rfl
  · rw [lineEvents_header hne hcontent, List.filterMap_cons, List.filterMap_nil]
    cases (headerEvent line).field? with
    | none => rfl
    | some field => rfl

theorem says_of_field? {line : List UInt8} {field : HeaderField}
    (hfield : (headerEvent line).field? = some field) : Says .header line (.header field) := by
  have hevent : headerEvent line = .header field := by
    cases hevent : headerEvent line with
    | header other =>
        rw [hevent] at hfield
        rw [Option.some.inj hfield]
    | _ =>
        rw [hevent] at hfield
        contradiction
  rw [← hevent]
  exact .of_headerEvent (by rw [hevent]; rfl)

theorem int?_of_mem_integerLabels {name label : String} {field : Int → HeaderField}
    (hlabel : (label, field) ∈ integerLabels) (n : Int) :
    (field n).int? name = if label = name then some n else none := by
  simp only [integerLabels, List.mem_cons, Prod.mk.injEq, List.not_mem_nil, or_false] at hlabel
  rcases hlabel with ⟨rfl, rfl⟩ | ⟨rfl, rfl⟩ | ⟨rfl, rfl⟩ | ⟨rfl, rfl⟩ | ⟨rfl, rfl⟩ <;> rfl

/-- The line of a header that starts with a label is the one that declares its field. -/
theorem field?_bind_int? {label : String} (hlabel : label ∈ integerLabels.map Prod.fst)
    (line : List UInt8) :
    (headerEvent line).field?.bind (HeaderField.int? label) =
      (after? label line).bind Decimal.parse? := by
  obtain ⟨⟨label, field⟩, hmem, rfl⟩ := List.mem_map.mp hlabel
  cases hafter : after? label line with
  | some body =>
      obtain rfl := after?_eq_some_iff.mp hafter
      have hline := lineEvents_integer hmem body
      rw [lineEvents_label (apart_of_mem_integerLabels hmem).1, List.singleton_inj] at hline
      rw [hline, Option.bind_some]
      cases Decimal.parse? body with
      | none => rfl
      | some n =>
          rw [Option.map_some, Option.getD_some, Event.field?, Option.bind_some,
            int?_of_mem_integerLabels hmem, if_pos rfl]
  | none =>
      rw [Option.bind_none, Option.bind_eq_none_iff]
      intro other hother
      cases says_of_field? hother with
      | output path =>
          refine if_neg ?_
          rintro rfl
          have hapart : apart "Output:" "Output:" = true := (apart_of_mem_integerLabels hmem).2.2
          exact absurd hapart (by decide)
      | @integer other field body n hbody hparse =>
          rw [int?_of_mem_integerLabels hbody]
          refine if_neg ?_
          rintro rfl
          rw [after?_append] at hafter
          contradiction

theorem field?_bind_output? (line : List UInt8) :
    (headerEvent line).field?.bind HeaderField.output? = after? "Output:" line := by
  cases hafter : after? "Output:" line with
  | some path =>
      obtain rfl := after?_eq_some_iff.mp hafter
      rw [headerEvent_output]
      rfl
  | none =>
      rw [Option.bind_eq_none_iff]
      intro other hother
      cases says_of_field? hother with
      | output path =>
          rw [after?_append] at hafter
          contradiction
      | @integer label field body n hlabel hparse =>
          simp only [integerLabels, List.mem_cons, Prod.mk.injEq, List.not_mem_nil,
            or_false] at hlabel
          rcases hlabel with ⟨-, rfl⟩ | ⟨-, rfl⟩ | ⟨-, rfl⟩ | ⟨-, rfl⟩ | ⟨-, rfl⟩ <;> rfl

theorem declared_eq {label : String} (hlabel : label ∈ integerLabels.map Prod.fst)
    (text : List UInt8) : declared label text =
      ((events text).filterMap Event.field?).filterMap (HeaderField.int? label) := by
  rw [filterMap_field?_events, List.filterMap_filterMap]
  exact List.filterMap_congr fun line _ => (field?_bind_int? hlabel line).symm

theorem declaredOutputs_eq (text : List UInt8) : declaredOutputs text =
    ((events text).filterMap Event.field?).filterMap HeaderField.output? := by
  rw [filterMap_field?_events, List.filterMap_filterMap]
  exact List.filterMap_congr fun line _ => (field?_bind_output? line).symm

end Document

end PageSync

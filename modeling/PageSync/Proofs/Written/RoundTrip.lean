import PageSync.Proofs.Written.Document

/-! # Reading written documents

Each written line is understood as the event it was written for. The parts of
a document follow each other as they were written, because no line of the
header ends the header, no line of the content starts the postamble, and the
postamble is not read.
-/

namespace PageSync

open Text Text.Decimal

namespace Document

/-! ## Labels -/

/-- The labels differ in their first bytes. -/
def apart (label other : String) : Bool :=
  match Utf8.encode label, Utf8.encode other with
  | b :: _, c :: _ => b != c
  | _, _ => false

theorem after?_append (label : String) (rest : List UInt8) :
    after? label (Utf8.encode label ++ rest) = some rest := by
  have hprefix : (Utf8.encode label).isPrefixOf (Utf8.encode label ++ rest) = true := by simp
  rw [after?, if_pos hprefix, List.drop_left]

theorem after?_append_of_apart {label other : String} (h : apart label other = true)
    (rest : List UInt8) : after? label (Utf8.encode other ++ rest) = none := by
  unfold apart at h
  split at h
  next b bytes c others hlabel hother =>
    have hne : (b == c) = false := by simpa using h
    simp [after?, hlabel, hother, List.isPrefixOf, hne]
  next => contradiction

theorem after?_cons_eq_none {label : String} {first b : UInt8} {bytes : List UInt8}
    (hlabel : Utf8.encode label = first :: bytes) (hb : b ≠ first) (rest : List UInt8) :
    after? label (b :: rest) = none := by
  have hbyte : (first == b) = false := by simpa using hb.symm
  simp [after?, hlabel, List.isPrefixOf, hbyte]

/-- A line with one label is not another label alone, and not empty. -/
theorem append_ne_of_apart {label other : String} (h : apart label other = true)
    (rest : List UInt8) :
    Utf8.encode other ++ rest ≠ [] ∧ Utf8.encode other ++ rest ≠ Utf8.encode label := by
  constructor
  · intro hnil
    have hempty : Utf8.encode other = [] := (List.append_eq_nil_iff.mp hnil).1
    simp [apart, hempty] at h
  · intro heq
    have hself := after?_append label []
    rw [List.append_nil, ← heq, after?_append_of_apart h] at hself
    contradiction

/-! ## Lines of the header -/

theorem inputEvent_written (line path : List UInt8) (tag : UInt32) :
    inputEvent line (render tag.toNat ++ Delimiter.colon.byte :: path) = .input tag path := by
  rw [inputEvent, readWordBefore?_render]

/-- A line is asked for its own label only. -/
theorem integerField?_append {label : String} {field : Int → HeaderField}
    (hlabel : (label, field) ∈ integerLabels) (rest : List UInt8) :
    integerField? (Utf8.encode label ++ rest) = (Decimal.parse? rest).map field := by
  simp only [integerLabels, List.mem_cons, Prod.mk.injEq, List.not_mem_nil, or_false] at hlabel
  rcases hlabel with ⟨rfl, rfl⟩ | ⟨rfl, rfl⟩ | ⟨rfl, rfl⟩ | ⟨rfl, rfl⟩ | ⟨rfl, rfl⟩ <;>
    cases hparse : Decimal.parse? rest <;>
      simp (disch := decide) [integerField?, integerLabels, List.findSome?_cons, after?_append,
        after?_append_of_apart, hparse]

theorem integerField?_written {label : String} {field : Int → HeaderField}
    (hlabel : (label, field) ∈ integerLabels) {n : Int} (hn : n.natAbs ≤ limit) :
    integerField? (Utf8.encode label ++ render n) = some (field n) := by
  rw [integerField?_append hlabel, parse?_render hn, Option.map_some]

theorem headerEvent_integer {label : String} {field : Int → HeaderField}
    (hlabel : (label, field) ∈ integerLabels) (hinput : apart "Input:" label = true)
    (houtput : apart "Output:" label = true) {n : Int} (hn : n.natAbs ≤ limit) :
    headerEvent (Utf8.encode label ++ render n) = .header (field n) := by
  rw [headerEvent, after?_append_of_apart hinput, after?_append_of_apart houtput,
    integerField?_written hlabel hn]

theorem headerEvent_written {field : HeaderField} (h : field.Writable) :
    headerEvent field.written = .header field := by
  cases field with
  | output path =>
      rw [HeaderField.written, headerEvent, after?_append_of_apart (by decide), after?_append]
  | version n => exact headerEvent_integer (by simp [integerLabels]) (by decide) (by decide) h
  | magnification n =>
      exact headerEvent_integer (by simp [integerLabels]) (by decide) (by decide) h
  | unit n => exact headerEvent_integer (by simp [integerLabels]) (by decide) (by decide) h
  | xOffset n => exact headerEvent_integer (by simp [integerLabels]) (by decide) (by decide) h
  | yOffset n => exact headerEvent_integer (by simp [integerLabels]) (by decide) (by decide) h

theorem headerEvent_of_headerLine {event : Event} {line : List UInt8}
    (hline : HeaderLine event line) (hevent : InHeader event) : headerEvent line = event := by
  cases hline with
  | field field => exact headerEvent_written hevent
  | input tag path =>
      rw [headerEvent, inputLine, after?_append]
      exact inputEvent_written _ path tag

/-! ## Lines of the content -/

theorem contentEvents_kind {b : UInt8} {kind : Kind} (hb : Kind.ofByte? b = some kind)
    (body : List UInt8) : contentEvents (b :: body) = recordEvents kind (b :: body) body := by
  unfold Kind.ofByte? at hb
  split at hb <;> cases hb <;> rfl

theorem contentEvents_record {b : UInt8} {record : Record}
    (hb : Kind.ofByte? b = some record.kind) (h : record.Writable) :
    contentEvents (b :: record.written) = [.record record] := by
  rw [contentEvents_kind hb, recordEvents, Record.parse?_written h]

theorem pageNumber?_render (page : UInt32) : pageNumber? (render page.toNat) = some page := by
  rw [pageNumber?, parse?_render_word, Option.bind_some, word?_toNat]

theorem contentEvents_of_contentLine {event : Event} {line : List UInt8}
    (hline : ContentLine event line) (hevent : InContent event) : contentEvents line = [event] := by
  cases hline with
  | input tag path =>
      have hafter := after?_append "Input:" (render tag.toNat ++ Delimiter.colon.byte :: path)
      have hevents : contentEvents (inputLine tag path) =
          (after? "Input:" (inputLine tag path)).elim [.skipped (inputLine tag path)]
            fun declaration => [inputEvent (inputLine tag path) declaration] := rfl
      rw [hevents, inputLine, hafter]
      exact congrArg (fun event => [event]) (inputEvent_written _ path tag)
  | pageStart page =>
      simp only [contentEvents, pageNumber?_render]
  | pageEnd page =>
      simp only [contentEvents, pageNumber?_render, Option.getD_some]
  | record record => exact contentEvents_record (Kind.ofByte?_byte record.kind) hevent
  | otherKern record hkern =>
      refine contentEvents_record ?_ hevent
      rw [hkern]
      rfl
  | squareBracket => rfl
  | roundBracket => rfl

/-! ## Places of lines -/

theorem endsLine_extent (extent : Extent) : EndsLine extent.written := by
  obtain ⟨width, height, depth⟩ := extent
  refine (endsLine_render width).append ?_
  cases height with
  | none => exact endsLine_nil
  | some height =>
      cases depth with
      | none => exact (endsLine_render height).cons (by decide) (by decide)
      | some depth =>
          have hdepth := (endsLine_render depth).cons (b := 44) (by decide) (by decide)
          exact ((endsLine_render height).append hdepth).cons (by decide) (by decide)

theorem endsLine_record (record : Record) : EndsLine record.written := by
  have hvertical : EndsLine (Record.writtenVertical record.v record.extent) := by
    refine (endsLine_render record.v).append ?_
    cases record.extent with
    | none => exact endsLine_nil
    | some extent => exact (endsLine_extent extent).cons (by decide) (by decide)
  have hline : EndsLine (Record.writtenLine record.line record.column) := by
    refine (endsLine_render _).append ?_
    cases record.column with
    | none => exact endsLine_nil
    | some column => exact (endsLine_render _).cons (by decide) (by decide)
  have hplace :=
    (endsLine_render record.h).append (hvertical.cons (b := 44) (by decide) (by decide))
  have hsource := hline.append (hplace.cons (b := 58) (by decide) (by decide))
  exact (endsLine_render _).append (hsource.cons (by decide) (by decide))

theorem endsLine_inputLine (tag : UInt32) {path : List UInt8} (hpath : EndsLine path) :
    EndsLine (inputLine tag path) := by
  have hbody := (endsLine_render tag.toNat).append (hpath.cons (b := 58) (by decide) (by decide))
  exact EndsLine.append (by decide) hbody

/-- A line of the header starts with a label, and not with that of the content. -/
theorem HeaderLine.exists_label {event : Event} {line : List UInt8} (hline : HeaderLine event line)
    (hevent : InHeader event) :
    EndsLine line ∧ ∃ label rest, line = Utf8.encode label ++ rest ∧
      apart "Content:" label = true := by
  cases hline with
  | field field =>
      cases field with
      | output path => exact ⟨EndsLine.append (by decide) hevent, "Output:", path, rfl, by decide⟩
      | version n =>
          exact ⟨EndsLine.append (by decide) (endsLine_render n), _, _, rfl, by decide⟩
      | magnification n =>
          exact ⟨EndsLine.append (by decide) (endsLine_render n), _, _, rfl, by decide⟩
      | unit n => exact ⟨EndsLine.append (by decide) (endsLine_render n), _, _, rfl, by decide⟩
      | xOffset n => exact ⟨EndsLine.append (by decide) (endsLine_render n), _, _, rfl, by decide⟩
      | yOffset n => exact ⟨EndsLine.append (by decide) (endsLine_render n), _, _, rfl, by decide⟩
  | input tag path => exact ⟨endsLine_inputLine tag hevent, "Input:", _, rfl, by decide⟩

theorem ContentLine.exists_byte {event : Event} {line : List UInt8}
    (hline : ContentLine event line) (hevent : InContent event) :
    EndsLine line ∧ ∃ b rest, line = b :: rest ∧ b ≠ 80 := by
  cases hline with
  | input tag path => exact ⟨endsLine_inputLine tag hevent, 73, _, rfl, by decide⟩
  | pageStart page =>
      exact ⟨(endsLine_render _).cons (by decide) (by decide), _, _, rfl, by decide⟩
  | pageEnd page => exact ⟨(endsLine_render _).cons (by decide) (by decide), _, _, rfl, by decide⟩
  | record record =>
      refine ⟨(endsLine_record record).cons ?_ ?_, _, _, rfl, ?_⟩ <;>
        cases record.kind <;> decide
  | otherKern record hkern =>
      exact ⟨(endsLine_record record).cons (by decide) (by decide), _, _, rfl, by decide⟩
  | squareBracket => exact ⟨by decide, _, _, rfl, by decide⟩
  | roundBracket => exact ⟨by decide, _, _, rfl, by decide⟩

/-! ## Whole documents -/

theorem read_headerLine {event : Event} {line : List UInt8} (hline : HeaderLine event line)
    (hevent : InHeader event) (events : Array Event) :
    Progress.read ⟨.header, events⟩ line = ⟨.header, events.push event⟩ := by
  obtain ⟨-, label, rest, hlabel, hapart⟩ := hline.exists_label hevent
  obtain ⟨hne, hcontent⟩ := append_ne_of_apart hapart rest
  rw [← hlabel] at hne hcontent
  have hempty : line.isEmpty = false := List.isEmpty_eq_false_iff.mpr hne
  simp [Progress.read, hempty, hcontent, headerEvent_of_headerLine hline hevent]

theorem read_contentLine {event : Event} {line : List UInt8} (hline : ContentLine event line)
    (hevent : InContent event) (events : Array Event) :
    Progress.read ⟨.content, events⟩ line = ⟨.content, events.push event⟩ := by
  have hevents := contentEvents_of_contentLine hline hevent
  obtain ⟨-, b, rest, rfl, hb⟩ := hline.exists_byte hevent
  have hafter : after? "Postamble:" (b :: rest) = none := after?_cons_eq_none rfl hb rest
  simp [Progress.read, hafter, hevents]

/-- Lines that each leave the part as it is and give one event give their events in order. -/
theorem foldl_read_of_forall₂ {Line : Event → List UInt8 → Prop} {part : Part}
    (hread : ∀ event line, Line event line → ∀ events,
      Progress.read ⟨part, events⟩ line = ⟨part, events.push event⟩)
    {written : List Event} {lines : List (List UInt8)} (hlines : List.Forall₂ Line written lines)
    (events : Array Event) :
    lines.foldl Progress.read ⟨part, events⟩ = ⟨part, events.appendList written⟩ := by
  induction hlines generalizing events with
  | nil => simp
  | @cons event line written lines hline hlines ih =>
      rw [List.foldl_cons, hread event line hline events, ih]
      simp

theorem endsLine_of_forall₂ {Line : Event → List UInt8 → Prop}
    (hends : ∀ event line, Line event line → EndsLine line) {written : List Event}
    {lines : List (List UInt8)} (hlines : List.Forall₂ Line written lines) :
    ∀ line ∈ lines, EndsLine line := by
  induction hlines with
  | nil => simp
  | cons hline hlines ih => exact List.forall_mem_cons.mpr ⟨hends _ _ hline, ih⟩

theorem foldl_read_postamble (lines : List (List UInt8)) (events : Array Event) :
    lines.foldl Progress.read ⟨.postamble, events⟩ = ⟨.postamble, events⟩ := by
  induction lines with
  | nil => rfl
  | cons line lines ih =>
      have hread : Progress.read ⟨.postamble, events⟩ line = ⟨.postamble, events⟩ := by
        unfold Progress.read
        split <;> rfl
      rw [List.foldl_cons, hread, ih]

theorem read_postambleLine (rest : List UInt8) (events : Array Event) :
    Progress.read ⟨.content, events⟩ (Utf8.encode "Postamble:" ++ rest) =
      ⟨.postamble, events⟩ := by
  have hempty : (Utf8.encode "Postamble:" ++ rest).isEmpty = false := rfl
  have hafter : (after? "Postamble:" (Utf8.encode "Postamble:" ++ rest)).isSome = true := by
    rw [after?_append, Option.isSome_some]
  simp [Progress.read, hempty, hafter]

theorem events_compose {header content : List Event} {headerLines contentLines : List (List UInt8)}
    (hheader : List.Forall₂ (fun event line => InHeader event ∧ HeaderLine event line)
      header headerLines)
    (hcontent : List.Forall₂ (fun event line => InContent event ∧ ContentLine event line)
      content contentLines)
    (tail : List UInt8) :
    events (compose headerLines contentLines tail) = header ++ content := by
  have hheaderEnds := endsLine_of_forall₂ (fun _ _ h => (h.2.exists_label h.1).1) hheader
  have hcontentEnds := endsLine_of_forall₂ (fun _ _ h => (h.2.exists_byte h.1).1) hcontent
  have hends : ∀ line ∈ headerLines ++ Utf8.encode "Content:" :: contentLines, EndsLine line := by
    rw [List.forall_mem_append, List.forall_mem_cons]
    exact ⟨hheaderEnds, by decide, hcontentEnds⟩
  -- the bytes behind the postamble may hold anything, also lines of events, so all that is used of
  -- them is that their first line begins with the label
  obtain ⟨rest, others, hpostamble⟩ :=
    exists_lines_append (Utf8.encode "Postamble:") (by decide) (by decide) tail
  have hread : (lines (compose headerLines contentLines tail)).foldl Progress.read {} =
      ⟨.postamble, (#[].appendList header).appendList content⟩ := by
    have hcontentLine (events : Array Event) :
        Progress.read ⟨.header, events⟩ (Utf8.encode "Content:") = ⟨.content, events⟩ := rfl
    rw [compose, lines_joinLines_append hends, hpostamble, List.append_assoc, List.foldl_append,
      foldl_read_of_forall₂ (fun _ _ h => read_headerLine h.2 h.1) hheader, List.cons_append,
      List.foldl_cons, hcontentLine, List.foldl_append,
      foldl_read_of_forall₂ (fun _ _ h => read_contentLine h.2 h.1) hcontent, List.foldl_cons,
      read_postambleLine, foldl_read_postamble]
  rw [events, hread]
  simp

theorem exists_headerLine {event : Event} (hevent : InHeader event) :
    ∃ line, HeaderLine event line := by
  cases event with
  | header field => exact ⟨_, .field field⟩
  | input tag path => exact ⟨_, .input tag path⟩
  | _ => contradiction

theorem exists_contentLine {event : Event} (hevent : InContent event) :
    ∃ line, ContentLine event line := by
  cases event with
  | input tag path => exact ⟨_, .input tag path⟩
  | pageStart page => exact ⟨_, .pageStart page⟩
  | pageEnd page => exact ⟨_, .pageEnd page⟩
  | record record => exact ⟨_, .record record⟩
  | boxEnd => exact ⟨_, .squareBracket⟩
  | _ => contradiction

theorem exists_forall₂_of_forall {Line : Event → List UInt8 → Prop} {written : List Event}
    (hlines : ∀ event ∈ written, ∃ line, Line event line) :
    ∃ lines, List.Forall₂ Line written lines := by
  induction written with
  | nil => exact ⟨[], .nil⟩
  | cons event written ih =>
      obtain ⟨⟨line, hline⟩, hrest⟩ := List.forall_mem_cons.mp hlines
      obtain ⟨lines, hwritten⟩ := ih hrest
      exact ⟨line :: lines, .cons hline hwritten⟩

/-- Every list of writable events can be written as a document, and reading any document that
writes them gives exactly them. -/
theorem events_of_writes {header content : List Event} (hheader : ∀ event ∈ header, InHeader event)
    (hcontent : ∀ event ∈ content, InContent event) (tail : List UInt8) :
    (∃ text, Writes header content tail text) ∧
      ∀ text, Writes header content tail text → events text = header ++ content := by
  constructor
  · obtain ⟨headerLines, hheaderLines⟩ :=
      exists_forall₂_of_forall fun event hevent => exists_headerLine (hheader event hevent)
    obtain ⟨contentLines, hcontentLines⟩ :=
      exists_forall₂_of_forall fun event hevent => exists_contentLine (hcontent event hevent)
    exact ⟨_, headerLines, contentLines, hheaderLines, hcontentLines, rfl⟩
  · rintro text ⟨headerLines, contentLines, hheaderLines, hcontentLines, rfl⟩
    exact events_compose (List.forall₂_and_left _ _ |>.mpr ⟨hheader, hheaderLines⟩)
      (List.forall₂_and_left _ _ |>.mpr ⟨hcontent, hcontentLines⟩) tail

theorem events_of_writes_greatest_numbers :
    let header : List Event :=
      [.header (.unit (-0x7FFFFFFFFFFFFFFF)), .input 3 [97, 58, 44, 13, 98]]
    let content : List Event := [.pageStart 0xFFFFFFFF, .record
      ⟨.kern, 3, 7, some 2, -5, 0x7FFFFFFFFFFFFFFF, some ⟨-4, some 6, some 0⟩⟩, .boxEnd, .boxEnd]
    (∀ event ∈ header, InHeader event) ∧ (∀ event ∈ content, InContent event) ∧
      (∃ text, Writes header content [10, 123] text) ∧
        ∀ text, Writes header content [10, 123] text → events text = header ++ content := by
  intro header content
  have hpath : EndsLine [97, 58, 44, 13, 98] := by decide
  have hheader : ∀ event ∈ header, InHeader event := by
    simp only [header, List.forall_mem_cons]
    exact ⟨by simp [InHeader, HeaderField.Writable, limit], hpath, List.forall_mem_nil _⟩
  have hextent : Extent.Writable ⟨-4, some 6, some 0⟩ :=
    ⟨by decide, by simp [limit], by simp, fun _ => rfl⟩
  have hcontent : ∀ event ∈ content, InContent event := by
    simp only [content, List.forall_mem_cons]
    exact ⟨trivial, ⟨by decide, by decide, by simpa using hextent⟩, trivial, trivial,
      List.forall_mem_nil _⟩
  exact ⟨hheader, hcontent, events_of_writes hheader hcontent [10, 123]⟩

end Document

end PageSync

import PageSync.Proofs.Stream.Says

/-! # Documents that break off

A document may break off inside a line, as when the end of its file is lost.
The lines before the cut say what they say in the whole document. The line that
is cut is read like any other: it is not left out because it is not complete,
but only if it cannot be read. What it says can differ from what the whole line
says, in a number or at the end of a name.
-/

namespace PageSync

namespace Text

/-- The field with more text behind what is left. -/
def Field.extend (field : Field) (more : List UInt8) : Field :=
  { field with rest := field.rest ++ more }

@[simp]
theorem Field.int?_extend (field : Field) (more : List UInt8) :
    (field.extend more).int? = field.int? := rfl

@[simp]
theorem Field.delimiter_extend (field : Field) (more : List UInt8) :
    (field.extend more).delimiter = field.delimiter := rfl

@[simp]
theorem Field.rest_extend (field : Field) (more : List UInt8) :
    (field.extend more).rest = field.rest ++ more := rfl

variable {text rest : List UInt8} {delimiter : Delimiter}

/-- A field that ends with a delimiter is the same in front of more text. -/
theorem readField_append_more (h : (readField text).delimiter = some delimiter)
    (more : List UInt8) : readField (text ++ more) = (readField text).extend more := by
  induction text with
  | nil => contradiction
  | cons b text ih =>
      rw [readField_cons] at h
      rw [List.cons_append, readField_cons, readField_cons]
      cases hb : Delimiter.ofByte? b with
      | some d => rfl
      | none =>
          rw [hb] at h
          simp only [ih h]
          rfl

theorem readIntBefore?_append_more {n : Int} (h : readIntBefore? delimiter text = some (n, rest))
    (more : List UInt8) :
    readIntBefore? delimiter (text ++ more) = some (n, rest ++ more) := by
  simp only [readIntBefore?, Option.ite_none_right_eq_some, Option.map_eq_some_iff,
    Prod.mk.injEq] at h
  obtain ⟨hdelimiter, n, hint, rfl, rfl⟩ := h
  simp only [readIntBefore?, readField_append_more hdelimiter, Field.delimiter_extend, hdelimiter,
    if_true, Field.int?_extend, hint, Option.map_some, Field.rest_extend]

theorem readWordBefore?_append_more {word : UInt32}
    (h : readWordBefore? delimiter text = some (word, rest)) (more : List UInt8) :
    readWordBefore? delimiter (text ++ more) = some (word, rest ++ more) := by
  simp only [readWordBefore?, Option.bind_eq_bind, Option.bind_eq_some_iff, Prod.exists,
    Option.some.injEq, Prod.mk.injEq] at h
  obtain ⟨n, behind, hread, other, hword, rfl, rfl⟩ := h
  rw [readWordBefore?_eq_map (readIntBefore?_append_more hread more), hword, Option.map_some]

/-- The start of a line is the start of what is read of it, also where a carriage return ends it. -/
theorem chomp_take_prefix (line : List UInt8) (kept : Nat) :
    chomp (line.take kept) <+: chomp line := by
  have hself (piece : List UInt8) : chomp piece <+: piece := by
    unfold chomp
    split
    · exact List.dropLast_prefix piece
    · exact List.prefix_rfl
  by_cases hkept : line.length ≤ kept
  · have hwhole : line.take kept = line := List.take_of_length_le hkept
    exact hwhole.symm ▸ List.prefix_rfl
  · have hinit : line.take kept <+: line.dropLast := by
      rw [List.dropLast_eq_take]
      exact List.take_prefix_take_left (by omega)
    have hdrop : line.dropLast <+: chomp line := by
      unfold chomp
      split
      · exact List.prefix_rfl
      · exact List.dropLast_prefix line
    exact (hself _).trans (hinit.trans hdrop)

end Text

open Text

namespace Record

theorem readLine?_append_more {text rest : List UInt8} {line : UInt32} {column : Option UInt32}
    (h : readLine? text = some (line, column, rest)) (more : List UInt8) :
    readLine? (text ++ more) = some (line, column, rest ++ more) := by
  rw [readLine?, Option.bind_eq_bind, Option.bind_eq_some_iff] at h
  obtain ⟨n, hn, h⟩ := h
  cases hdelimiter : (readField text).delimiter with
  | none =>
      rw [hdelimiter] at h
      contradiction
  | some delimiter =>
      rw [hdelimiter] at h
      simp only [readLine?, readField_append_more hdelimiter, Field.int?_extend, hn,
        Option.bind_eq_bind, Option.bind_some, Field.delimiter_extend, hdelimiter,
        Field.rest_extend]
      cases delimiter with
      | colon =>
          obtain ⟨rfl, rfl, rfl⟩ : n = line ∧ none = column ∧ (readField text).rest = rest := by
            simpa using h
          rfl
      | comma =>
          simp only [Option.bind_eq_bind, Option.bind_eq_some_iff, Prod.exists, Option.some.injEq,
            Prod.mk.injEq] at h
          obtain ⟨other, behind, hread, rfl, rfl, rfl⟩ := h
          rw [readWordBefore?_append_more hread more, Option.bind_some]

/-- If a record can be read already where its text is cut, it differs from that of the whole text
in its vertical place and its extent only. -/
theorem parse?_append_more {kind : Kind} {text : List UInt8} {record : Record}
    (h : parse? kind text = some record) (more : List UInt8) :
    ∃ rest, parse? kind (text ++ more) = (readVertical? (rest ++ more)).map fun read =>
      { record with v := read.1, extent := read.2 } := by
  simp only [parse?, Option.bind_eq_bind, Option.bind_eq_some_iff, Prod.exists,
    Option.some.injEq] at h
  obtain ⟨input, text₁, hinput, line, column, text₂, hline, x, text₃, hx, v, extent, -, rfl⟩ := h
  refine ⟨text₃, ?_⟩
  simp only [parse?, readWordBefore?_append_more hinput more, readLine?_append_more hline more,
    readIntBefore?_append_more hx more, Option.bind_eq_bind, Option.bind_some,
    Option.map_eq_bind, Function.comp_def]

end Record

/-- What the start of a line says may be the first event where the whole line says the second. -/
inductive Event.CutOf : Event → Event → Prop
  | input (tag : UInt32) (path rest : List UInt8) :
      CutOf (.input tag path) (.input tag (path ++ rest))
  | output (path rest : List UInt8) :
      CutOf (.header (.output path)) (.header (.output (path ++ rest)))
  | integer {label : String} {field : Int → HeaderField}
      (hlabel : (label, field) ∈ Document.integerLabels) (n m : Int) :
      CutOf (.header (field n)) (.header (field m))
  | pageStart (page other : UInt32) : CutOf (.pageStart page) (.pageStart other)
  | pageEnd (page other : UInt32) : CutOf (.pageEnd page) (.pageEnd other)
  | boxEnd : CutOf .boxEnd .boxEnd
  | record (record : Record) (v : Int) (extent : Option Extent) :
      CutOf (.record record) (.record { record with v := v, extent := extent })

namespace Document

variable {part : Part} {event : Event}

/-- The whole line says an event of the same sort and with the same source as its start, or it
cannot be read. -/
theorem Says.append {cut : List UInt8} (h : Says part cut event) (more : List UInt8) :
    (∃ whole, Says part (cut ++ more) whole ∧ event.CutOf whole) ∨
      ∀ whole, ¬Says part (cut ++ more) whole := by
  -- a label, a kind byte or a bracket stays in front, so what is left to see is the text behind it
  cases h with
  | @input _ body path tag hpart hbody =>
      rw [List.append_assoc]
      exact Or.inl ⟨_, .input hpart (readWordBefore?_append_more hbody more), .input tag path more⟩
  | output path =>
      rw [List.append_assoc]
      exact Or.inl ⟨_, .output (path ++ more), .output path more⟩
  | @integer label field body n hlabel hbody =>
      rw [List.append_assoc]
      cases hwhole : Decimal.parse? (body ++ more) with
      | some m => exact Or.inl ⟨_, .integer hlabel hwhole, .integer hlabel n m⟩
      | none =>
          right
          intro whole hsays
          obtain ⟨hmem, hread⟩ := says_iff.mp hsays
          rw [lineEvents_integer hlabel, hwhole] at hmem
          rw [List.mem_singleton.mp hmem] at hread
          contradiction
  | @pageStart body page hbody =>
      rw [List.cons_append]
      cases hwhole : pageNumber? (body ++ more) with
      | some other => exact Or.inl ⟨_, .pageStart hwhole, .pageStart page other⟩
      | none =>
          right
          intro whole hsays
          obtain ⟨hmem, hread⟩ := says_iff.mp hsays
          rw [lineEvents_pageStart, hwhole] at hmem
          rw [List.mem_singleton.mp hmem] at hread
          contradiction
  | pageEnd body => exact Or.inl ⟨_, .pageEnd (body ++ more), .pageEnd _ _⟩
  | boxEnd hb body => exact Or.inl ⟨_, .boxEnd hb (body ++ more), .boxEnd⟩
  | @record b kind body record hkind hbody =>
      rw [List.cons_append]
      obtain ⟨rest, hwhole⟩ := Record.parse?_append_more hbody more
      cases hvertical : Record.readVertical? (rest ++ more) with
      | some read =>
          rw [hvertical, Option.map_some] at hwhole
          exact Or.inl ⟨_, .record hkind hwhole, .record record read.1 read.2⟩
      | none =>
          rw [hvertical, Option.map_none] at hwhole
          right
          intro whole hsays
          obtain ⟨hmem, hread⟩ := says_iff.mp hsays
          rw [lineEvents_of_kind hkind, recordEvents, hwhole] at hmem
          simp only [List.mem_cons, List.not_mem_nil, or_false] at hmem
          rcases hmem with rfl | rfl <;> contradiction

/-- A document that is cut inside a line says what the lines before say, which the whole document
says first, and then what the start of the line says, if it can be read. -/
theorem events_cut {before line after : List UInt8} (h : IsLine before line after) {kept : Nat}
    (hkept : kept ≤ line.length) :
    let part := partBehind before
    let cut := chomp (line.take kept)
    events ((before ++ line ++ after).take (before.length + kept)) =
        events before ++ lineEvents part cut ∧
      events before <+: events (before ++ line ++ after) ∧
      ((∀ event ∈ lineEvents part cut, event.isUnread = true) ↔ ∀ event, ¬Says part cut event) ∧
      ∀ event, Says part cut event →
        (∃ whole, Says part (chomp line) whole ∧ event.CutOf whole) ∨
          ∀ whole, ¬Says part (chomp line) whole := by
  intro part cut
  refine ⟨?_, ?_, ?_, ?_⟩
  · have htake : (before ++ line ++ after).take (before.length + kept) =
        before ++ line.take kept := by
      rw [List.append_assoc, List.take_length_add_append, List.take_append_of_le_length hkept]
    have hevents : eventsFrom part (lines (line.take kept)) = lineEvents part cut := by
      by_cases hnil : line.take kept = []
      · cases hpart : part <;> simp only [cut, hnil, lines_nil] <;> rfl
      · have hfeed : lineFeed ∉ line.take kept := fun hmem => h.line (List.mem_of_mem_take hmem)
        rw [lines_of_notMem hnil hfeed, eventsFrom, eventsFrom, List.append_nil]
    rw [htake, events_append h.before, hevents]
  · rw [List.append_assoc, events_append h.before]
    exact List.prefix_append _ _
  · simp only [says_iff, not_and, Bool.not_eq_false]
  · intro event hsays
    obtain ⟨more, hmore⟩ := chomp_take_prefix line kept
    rw [← hmore]
    exact hsays.append more

/-- A record that is cut inside its vertical place is a record without extent somewhere else. -/
theorem events_cut_within_place :
    let before := Utf8.encode "Content:\n\x7b1\n"
    let line := Utf8.encode "(1,7:0,55:9"
    let after := Utf8.encode "\n)\n"
    let moved : Event := .record ⟨.hbox, 1, 7, none, 0, 5, none⟩
    IsLine before line after ∧ 8 ≤ line.length ∧
      events ((before ++ line ++ after).take (before.length + 8)) = events before ++ [moved] ∧
      events before <+: events (before ++ line ++ after) ∧
      ∃ whole, Says .content line whole ∧ moved.CutOf whole := by
  intro before line after moved
  have hline : IsLine before line after :=
    ⟨by decide +kernel, by decide +kernel, Or.inr (by decide +kernel)⟩
  have hkept : 8 ≤ line.length := by decide +kernel
  obtain ⟨hevents, hbefore, -, hcut⟩ := events_cut hline hkept
  have hpart : partBehind before = .content := by decide +kernel
  have hchomp : chomp line = line := by decide +kernel
  have hmoved : lineEvents .content (chomp (line.take 8)) = [moved] := by decide +kernel
  rw [hpart, hmoved] at hevents
  rw [hpart, hchomp] at hcut
  refine ⟨hline, hkept, hevents, hbefore, ?_⟩
  have hsays : Says .content (chomp (line.take 8)) moved :=
    says_iff.mpr ⟨hmoved ▸ List.mem_singleton_self moved, rfl⟩
  refine (hcut moved hsays).resolve_right fun hnone => ?_
  exact hnone (.record ⟨.hbox, 1, 7, none, 0, 55, some ⟨9, none, none⟩⟩)
    (says_iff.mpr (by decide +kernel))

/-- A line that is cut can say more than that it was not read: the first digit of the number of a
page is the number of another page. -/
theorem not_forall_cut_isUnread :
    ¬∀ before line after : List UInt8, IsLine before line after →
      ∀ kept, 0 < kept → kept < line.length →
        ∃ notes : List Event, (∀ event ∈ notes, event.isUnread = true) ∧
          events ((before ++ line ++ after).take (before.length + kept)) =
            events before ++ notes := by
  intro h
  let before := Utf8.encode "Content:\n"
  let line := Utf8.encode "\x7b12"
  let after := Utf8.encode "\n\x7d12\n"
  have hline : IsLine before line after :=
    ⟨by decide +kernel, by decide +kernel, Or.inr (by decide +kernel)⟩
  obtain ⟨notes, hnotes, hevents⟩ := h before line after hline 2 (by decide) (by decide +kernel)
  have hbefore : events before = [] := by decide +kernel
  have hcut : events ((before ++ line ++ after).take (before.length + 2)) = [.pageStart 1] := by
    decide +kernel
  rw [hcut, hbefore, List.nil_append] at hevents
  have hread := hnotes (.pageStart 1) (hevents ▸ List.mem_singleton_self _)
  contradiction

end Document

end PageSync

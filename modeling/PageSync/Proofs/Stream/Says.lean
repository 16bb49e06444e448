import PageSync.Proofs.Stream.Part

/-! # What lines say

A line says something if it can be read: it declares a field of the header or
an input, it opens or closes a page, it ends a box, or it is a record. The
relation lists these lines by the part of the document they stand in. All
other lines are left out, or leave no more than a note that they were there.
-/

namespace PageSync

/-- The event is no more than a note that a line could not be read. -/
def Event.isUnread : Event → Bool
  | .malformed _ | .skipped _ => true
  | _ => false

namespace Document

open Text

/-- A line of a part of the document says an event. -/
inductive Says : Part → List UInt8 → Event → Prop
  | input {part : Part} {body path : List UInt8} {tag : UInt32} (hpart : part ≠ .postamble)
      (hbody : readWordBefore? .colon body = some (tag, path)) :
      Says part (Utf8.encode "Input:" ++ body) (.input tag path)
  | output (path : List UInt8) :
      Says .header (Utf8.encode "Output:" ++ path) (.header (.output path))
  | integer {label : String} {field : Int → HeaderField} {body : List UInt8} {n : Int}
      (hlabel : (label, field) ∈ integerLabels) (hbody : Decimal.parse? body = some n) :
      Says .header (Utf8.encode label ++ body) (.header (field n))
  | pageStart {body : List UInt8} {page : UInt32} (hbody : pageNumber? body = some page) :
      Says .content (0x7B :: body) (.pageStart page)
  | pageEnd (body : List UInt8) :
      Says .content (0x7D :: body) (.pageEnd ((pageNumber? body).getD 0))
  | boxEnd {b : UInt8} (hb : b = 0x5D ∨ b = 0x29) (body : List UInt8) :
      Says .content (b :: body) .boxEnd
  | record {b : UInt8} {kind : Kind} {body : List UInt8} {record : Record}
      (hkind : Kind.ofByte? b = some kind) (hbody : Record.parse? kind body = some record) :
      Says .content (b :: body) (.record record)

theorem after?_eq_some_iff {label : String} {line rest : List UInt8} :
    after? label line = some rest ↔ line = Utf8.encode label ++ rest := by
  constructor
  · intro hafter
    simp only [after?, Option.ite_none_right_eq_some, Option.some.injEq,
      List.isPrefixOf_iff_prefix] at hafter
    obtain ⟨⟨more, rfl⟩, rfl⟩ := hafter
    rw [List.drop_left]
  · rintro rfl
    exact after?_append label rest

/-! ## Lines of the header -/

theorem lineEvents_header {line : List UInt8} (hne : line ≠ [])
    (hcontent : line ≠ Utf8.encode "Content:") : lineEvents .header line = [headerEvent line] := by
  have hempty : line.isEmpty = false := List.isEmpty_eq_false_iff.mpr hne
  simp [lineEvents, Progress.read, hempty, hcontent]

theorem lineEvents_label {label : String} (hlabel : apart "Content:" label = true)
    (rest : List UInt8) : lineEvents .header (Utf8.encode label ++ rest) =
      [headerEvent (Utf8.encode label ++ rest)] :=
  lineEvents_header (append_ne_of_apart hlabel rest).1 (append_ne_of_apart hlabel rest).2

theorem headerEvent_input (body : List UInt8) :
    headerEvent (Utf8.encode "Input:" ++ body) =
      inputEvent (Utf8.encode "Input:" ++ body) body := by
  rw [headerEvent, after?_append]

theorem headerEvent_output (path : List UInt8) :
    headerEvent (Utf8.encode "Output:" ++ path) = .header (.output path) := by
  rw [headerEvent, after?_append_of_apart (by decide), after?_append]

theorem apart_of_mem_integerLabels {label : String} {field : Int → HeaderField}
    (hlabel : (label, field) ∈ integerLabels) : apart "Content:" label = true ∧
      apart "Input:" label = true ∧ apart "Output:" label = true := by
  have hall : ∀ entry ∈ integerLabels, apart "Content:" entry.1 = true ∧
      apart "Input:" entry.1 = true ∧ apart "Output:" entry.1 = true := by
    decide
  exact hall _ hlabel

theorem lineEvents_integer {label : String} {field : Int → HeaderField}
    (hlabel : (label, field) ∈ integerLabels) (body : List UInt8) :
    lineEvents .header (Utf8.encode label ++ body) =
      [((Decimal.parse? body).map fun n => .header (field n)).getD
        (.skipped (Utf8.encode label ++ body))] := by
  obtain ⟨hcontent, hinput, houtput⟩ := apart_of_mem_integerLabels hlabel
  rw [lineEvents_label hcontent, headerEvent, after?_append_of_apart hinput,
    after?_append_of_apart houtput, integerField?_append hlabel]
  cases Decimal.parse? body with
  | none => rfl
  | some n => rfl

/-! ## Lines of the content -/

theorem contentEvents_input (body : List UInt8) :
    contentEvents (Utf8.encode "Input:" ++ body) =
      [inputEvent (Utf8.encode "Input:" ++ body) body] := by
  have hevents : contentEvents (Utf8.encode "Input:" ++ body) =
      (after? "Input:" (Utf8.encode "Input:" ++ body)).elim
        [.skipped (Utf8.encode "Input:" ++ body)]
        fun declaration => [inputEvent (Utf8.encode "Input:" ++ body) declaration] := rfl
  rw [hevents, after?_append]
  rfl

theorem lineEvents_input {part : Part} (hpart : part ≠ .postamble) (body : List UInt8) :
    lineEvents part (Utf8.encode "Input:" ++ body) =
      [inputEvent (Utf8.encode "Input:" ++ body) body] := by
  cases part with
  | header => rw [lineEvents_label (by decide), headerEvent_input]
  | content =>
      rw [← contentEvents_input]
      exact lineEvents_content (b := 73) (by decide) _
  | postamble => contradiction

theorem lineEvents_boxEnd {b : UInt8} (hb : b = 0x5D ∨ b = 0x29) (body : List UInt8) :
    lineEvents .content (b :: body) = [.boxEnd] := by
  rcases hb with rfl | rfl <;> rw [lineEvents_content (by decide)] <;> rfl

theorem lineEvents_pageStart (body : List UInt8) :
    lineEvents .content (0x7B :: body) =
      [((pageNumber? body).map Event.pageStart).getD (.skipped (0x7B :: body))] := by
  rw [lineEvents_content (by decide)]
  cases hnumber : pageNumber? body with
  | none => simp only [contentEvents, hnumber, Option.map_none, Option.getD_none]
  | some page => simp only [contentEvents, hnumber, Option.map_some, Option.getD_some]

theorem lineEvents_pageEnd (body : List UInt8) :
    lineEvents .content (0x7D :: body) = [.pageEnd ((pageNumber? body).getD 0)] := by
  rw [lineEvents_content (by decide)]
  rfl

/-! ## All lines -/

theorem Says.lineEvents_eq {part : Part} {line : List UInt8} {event : Event}
    (h : Says part line event) : lineEvents part line = [event] := by
  cases h with
  | input hpart hbody => rw [lineEvents_input hpart, inputEvent, hbody]
  | output path => rw [lineEvents_label (by decide), headerEvent_output]
  | integer hlabel hbody => rw [lineEvents_integer hlabel, hbody, Option.map_some, Option.getD_some]
  | pageStart hbody => rw [lineEvents_pageStart, hbody, Option.map_some, Option.getD_some]
  | pageEnd body => exact lineEvents_pageEnd body
  | boxEnd hb body => exact lineEvents_boxEnd hb body
  | record hkind hbody => rw [lineEvents_of_kind hkind, recordEvents, hbody]

theorem Says.isUnread_eq_false {part : Part} {line : List UInt8} {event : Event}
    (h : Says part line event) : event.isUnread = false := by
  cases h <;> rfl

theorem Says.of_inputEvent {part : Part} {body : List UInt8} (hpart : part ≠ .postamble)
    (hread : (inputEvent (Utf8.encode "Input:" ++ body) body).isUnread = false) :
    Says part (Utf8.encode "Input:" ++ body)
      (inputEvent (Utf8.encode "Input:" ++ body) body) := by
  unfold inputEvent at hread ⊢
  split at hread
  next tag path hbody => exact .input hpart hbody
  next => contradiction

theorem Says.of_headerEvent {line : List UInt8} (hread : (headerEvent line).isUnread = false) :
    Says .header line (headerEvent line) := by
  cases hinput : after? "Input:" line with
  | some body =>
      obtain rfl := after?_eq_some_iff.mp hinput
      rw [headerEvent_input] at hread ⊢
      exact .of_inputEvent (by decide) hread
  | none =>
      cases houtput : after? "Output:" line with
      | some path =>
          obtain rfl := after?_eq_some_iff.mp houtput
          rw [headerEvent_output]
          exact .output path
      | none =>
          rw [headerEvent, hinput, houtput] at hread ⊢
          cases hfield : integerField? line with
          | none =>
              rw [hfield] at hread
              contradiction
          | some declared =>
              obtain ⟨⟨label, field⟩, hlabel, hdeclared⟩ := List.exists_of_findSome?_eq_some hfield
              obtain ⟨n, hn, rfl⟩ := Option.map_eq_some_iff.mp hdeclared
              obtain ⟨body, hbody, hparse⟩ := Option.bind_eq_some_iff.mp hn
              obtain rfl := after?_eq_some_iff.mp hbody
              exact .integer hlabel hparse

theorem Says.of_mem_contentEvents {line : List UInt8} {event : Event}
    (hmem : event ∈ contentEvents line) (hread : event.isUnread = false) :
    Says .content line event := by
  unfold contentEvents at hmem
  split at hmem
  next => exact absurd hmem List.not_mem_nil
  next body =>
    split at hmem
    next page hbody =>
      obtain rfl := List.mem_singleton.mp hmem
      exact .pageStart hbody
    next =>
      obtain rfl := List.mem_singleton.mp hmem
      contradiction
  next body =>
    obtain rfl := List.mem_singleton.mp hmem
    exact .pageEnd body
  next body =>
    obtain rfl := List.mem_singleton.mp hmem
    exact .boxEnd (Or.inl rfl) body
  next body =>
    obtain rfl := List.mem_singleton.mp hmem
    exact .boxEnd (Or.inr rfl) body
  next => exact absurd hmem List.not_mem_nil
  next first body _ _ _ _ _ =>
    split at hmem
    next declaration hinput =>
      rw [after?_eq_some_iff.mp hinput] at hmem ⊢
      obtain rfl := List.mem_singleton.mp hmem
      exact .of_inputEvent (by decide) hread
    next =>
      split at hmem
      next kind hkind =>
        unfold recordEvents at hmem
        split at hmem
        next record hbody =>
          obtain rfl := List.mem_singleton.mp hmem
          exact .record hkind hbody
        next =>
          -- both events of a record that cannot be read are notes
          simp only [List.mem_cons, List.not_mem_nil, or_false] at hmem
          rcases hmem with rfl | rfl <;> contradiction
      next =>
        obtain rfl := List.mem_singleton.mp hmem
        contradiction

theorem mem_contentEvents_of_mem {line : List UInt8} {event : Event}
    (hmem : event ∈ lineEvents .content line) : event ∈ contentEvents line := by
  simp only [lineEvents, Progress.read] at hmem
  split at hmem
  · exact absurd hmem List.not_mem_nil
  · split at hmem
    · exact absurd hmem List.not_mem_nil
    · simpa using hmem

/-- Apart from notes about what could not be read, lines give the events that they say. -/
theorem says_iff {part : Part} {line : List UInt8} {event : Event} :
    Says part line event ↔ event ∈ lineEvents part line ∧ event.isUnread = false := by
  refine ⟨fun h => ⟨h.lineEvents_eq ▸ List.mem_singleton_self event, h.isUnread_eq_false⟩, ?_⟩
  rintro ⟨hmem, hread⟩
  cases line with
  | nil => exact absurd hmem (by cases part <;> exact List.not_mem_nil)
  | cons b rest =>
      cases part with
      | header =>
          by_cases hcontent : b :: rest = Utf8.encode "Content:"
          · rw [hcontent] at hmem
            exact absurd hmem List.not_mem_nil
          · rw [lineEvents_header (List.cons_ne_nil b rest) hcontent, List.mem_singleton] at hmem
            subst hmem
            exact .of_headerEvent hread
      | content =>
          exact .of_mem_contentEvents (mem_contentEvents_of_mem hmem) hread
      | postamble => exact absurd hmem List.not_mem_nil

end Document

end PageSync

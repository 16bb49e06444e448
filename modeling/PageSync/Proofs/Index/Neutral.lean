import Mathlib.Logic.Relation
import PageSync.Proofs.Index.Arrival
import PageSync.Proofs.Index.Deletion
import PageSync.Proofs.Stream.Says

/-! # Lines that change nothing

A line that says nothing can be added to a document, or left out of it, and the
index stays the same. Whether a line says something depends on the part of the
document it stands in, and for the line of a box also on whether a page is
open: a box that cannot be read is open all the same, so that such a line on an
open page does matter. What is left of any other line that cannot be read is a
count.
-/

namespace PageSync

open Text

namespace Document

/-- The line starts like that of a box, with a round or a square bracket. -/
def StartsBox (line : List UInt8) : Prop := line.head? = some 0x28 ∨ line.head? = some 0x5B

instance (line : List UInt8) : Decidable (StartsBox line) :=
  inferInstanceAs (Decidable (_ ∨ _))

/-- A line of a part of the document that is no more than counted while the given page is open: it
is empty, or it is an anchor, or it is not read any more, or it cannot be read and is not the line
of a box on an open page. The lines that end the header and the content are not idle: they leave no
event, but what follows is read in another way. -/
inductive IsIdle (page : Option UInt32) : Part → List UInt8 → Prop
  | empty (part : Part) : IsIdle page part []
  | anchor (rest : List UInt8) : IsIdle page .content (0x21 :: rest)
  | postamble (line : List UInt8) : IsIdle page .postamble line
  | unread {part : Part} {line : List UInt8} (hevents : lineEvents part line ≠ [])
      (hunread : ∀ event ∈ lineEvents part line, event.isUnread = true)
      (hbox : page.isSome = true → ¬ StartsBox line) : IsIdle page part line

/-- The second text is the first one with an idle line added. -/
inductive AddsIdle : List UInt8 → List UInt8 → Prop
  | line {before line after : List UInt8} (hbefore : WholeLines before) (hline : lineFeed ∉ line)
      (hidle : IsIdle (openPage (events before)) (partBehind before) (chomp line)) :
      AddsIdle (before ++ after) (before ++ line ++ lineFeed :: after)

variable {part : Part} {line : List UInt8} {page : Option UInt32} {event : Event} {kind : Kind}

theorem behind_postamble (line : List UInt8) : Part.behind .postamble line = .postamble := by
  cases line with
  | nil => rfl
  | cons b rest => rfl

/-- A line that leaves an event is not one at which a part of the document ends. -/
theorem behind_of_lineEvents_ne_nil (h : lineEvents part line ≠ []) : part.behind line = part := by
  cases part with
  | header =>
      refine behind_header ?_
      rintro rfl
      exact h rfl
  | content =>
      cases line with
      | nil => rfl
      | cons b rest =>
          cases hafter : after? "Postamble:" (b :: rest) with
          | none => simp [Part.behind, Progress.read, hafter]
          | some tail => simp [lineEvents, Progress.read, hafter] at h
  | postamble => exact behind_postamble line

theorem IsIdle.behind_eq (h : IsIdle page part line) : part.behind line = part := by
  cases h with
  | empty part => cases part <;> rfl
  | anchor rest => exact behind_content (by decide) rest
  | postamble line => exact behind_postamble line
  | unread hevents _ _ => exact behind_of_lineEvents_ne_nil hevents

theorem eq_of_isContainer {b : UInt8} (hb : Kind.ofByte? b = some kind)
    (hkind : kind.isContainer = true) : b = 0x28 ∨ b = 0x5B := by
  unfold Kind.ofByte? at hb
  split at hb
  next => exact Or.inr rfl
  next => exact Or.inl rfl
  -- the other records hold no nodes
  all_goals cases hb <;> contradiction

theorem mem_recordEvents {found : Kind} {body : List UInt8}
    (hmem : .malformed kind ∈ recordEvents found line body) : found = kind := by
  unfold recordEvents at hmem
  split at hmem
  · simp at hmem
  · simpa [eq_comm] using hmem

/-- Only the line of a record leaves a note that a record could not be read. -/
theorem ofByte?_of_malformed_mem {b : UInt8} {rest : List UInt8}
    (hmem : .malformed kind ∈ contentEvents (b :: rest)) : Kind.ofByte? b = some kind := by
  cases hb : Kind.ofByte? b with
  | some found =>
      rw [contentEvents_kind hb] at hmem
      rw [mem_recordEvents hmem]
  | none =>
      -- an input that cannot be read leaves a note too, but not one about a record
      have hread (line body : List UInt8) : .malformed kind ≠ inputEvent line body := by
        intro hevent
        have hcontent := isContent_inputEvent line body
        rw [← hevent] at hcontent
        contradiction
      unfold contentEvents at hmem
      split at hmem
      next => contradiction
      next =>
        split at hmem
        · simp at hmem
        · simp at hmem
      next => simp at hmem
      next => simp at hmem
      next => simp at hmem
      next => simp at hmem
      next first body _ _ _ _ _ heq =>
        rw [List.cons.injEq] at heq
        rw [← heq.1, hb] at hmem
        split at hmem
        next => exact absurd (List.mem_singleton.mp hmem) (hread _ _)
        next => simp at hmem

/-- Only the line of a box leaves a note that a box could not be read. -/
theorem startsBox_of_malformed_mem (hmem : .malformed kind ∈ lineEvents part line)
    (hkind : kind.isContainer = true) : StartsBox line := by
  cases line with
  | nil => exact absurd hmem (by cases part <;> exact List.not_mem_nil)
  | cons b rest =>
      cases part with
      | header =>
          have hcontent := isContent_of_mem_lineEvents hmem
          contradiction
      | content =>
          have hb := ofByte?_of_malformed_mem (mem_contentEvents_of_mem hmem)
          rcases eq_of_isContainer hb hkind with rfl | rfl
          · exact Or.inl rfl
          · exact Or.inr rfl
      | postamble => exact absurd hmem List.not_mem_nil

end Document

namespace Draft

variable {draft : Draft} {event : Event} {events : List Event}

theorem uncounted_add_of_isUnread (hunread : event.isUnread = true)
    (hopener : draft.openPage.isSome = true → event.isOpener = false) :
    (draft.add event).uncounted = draft.uncounted := by
  cases event with
  | malformed kind =>
      cases hopen : draft.openPage.isSome with
      | false => simp [add, hopen]
      | true =>
          have hkind : kind.isContainer = false := hopener hopen
          simp [add, hkind]
  | skipped line => rfl
  | _ => contradiction

/-- Notes are only counted, but for those of boxes on an open page. -/
theorem uncounted_foldl_add_of_isUnread (hunread : ∀ event ∈ events, event.isUnread = true)
    (hopener : draft.openPage.isSome = true → ∀ event ∈ events, event.isOpener = false) :
    (events.foldl add draft).uncounted = draft.uncounted := by
  induction events with
  | nil => rfl
  | cons event events ih =>
      rw [List.forall_mem_cons] at hunread
      have hfirst : (draft.add event).uncounted = draft.uncounted :=
        uncounted_add_of_isUnread hunread.1 fun hopen => hopener hopen event List.mem_cons_self
      rw [List.foldl_cons, uncounted_foldl_add hfirst]
      exact ih hunread.2 fun hopen other hother =>
        hopener hopen other (List.mem_cons_of_mem event hother)

/-- An idle line changes nothing in a draft but its counts. -/
theorem uncounted_foldl_add_of_isIdle {part : Document.Part} {line : List UInt8}
    (h : Document.IsIdle draft.openPage part line) :
    ((Document.lineEvents part line).foldl add draft).uncounted = draft.uncounted := by
  cases h with
  | empty part => cases part <;> rfl
  | anchor rest =>
      rw [Document.lineEvents_content (by decide)]
      rfl
  | postamble line => cases line <;> rfl
  | unread _ hunread hbox =>
      refine uncounted_foldl_add_of_isUnread hunread fun hopen event hevent => ?_
      have hnote := hunread event hevent
      cases event with
      | malformed kind =>
          rw [← Bool.not_eq_true]
          exact fun hkind => hbox hopen (Document.startsBox_of_malformed_mem hevent hkind)
      | skipped line => rfl
      | _ => contradiction

end Draft

namespace Document

/-- What a document says with a line added between others. -/
theorem events_append_line {before line : List UInt8} (hbefore : WholeLines before)
    (hline : lineFeed ∉ line) (after : List UInt8) :
    events (before ++ line ++ lineFeed :: after) =
      events before ++ lineEvents (partBehind before) (chomp line) ++
        eventsFrom ((partBehind before).behind (chomp line)) (lines after) := by
  rw [List.append_assoc, events_append hbefore, lines_append_lineFeed hline, eventsFrom,
    List.append_assoc]

end Document

namespace Index

open Document

theorem ofDocument_of_addsIdle (root : Option String) {text other : List UInt8}
    (h : AddsIdle text other) : ofDocument root other = ofDocument root text := by
  obtain ⟨hbefore, hline, hidle⟩ := h
  rw [← openPage_ofEvents root] at hidle
  rw [ofDocument, ofDocument, events_append_line hbefore hline, hidle.behind_eq,
    events_append hbefore]
  exact Draft.index_ofEvents_of_uncounted (Draft.uncounted_foldl_add_of_isIdle hidle) _

/-- Any number of idle lines can be added to a document, or left out of it, anywhere: the index has
the same header, inputs, pages and friends. -/
theorem ofDocument_of_addsIdle_lines (root : Option String) {text other : List UInt8}
    (h : Relation.ReflTransGen AddsIdle text other) :
    ofDocument root other = ofDocument root text := by
  induction h with
  | refl => rfl
  | tail _ hline ih => rw [ofDocument_of_addsIdle root hline, ih]

/-- The line of a box that cannot be read in front of a page, and that of a kern on it. -/
theorem ofDocument_of_addsIdle_lines_unread :
    let front := Utf8.encode "Content:\n"
    let box := Utf8.encode "(1,2"
    let opened := Utf8.encode "\x7b1\n"
    let kern := Utf8.encode "k1,3:0"
    let back := Utf8.encode "h1,3:0,0:9,9,0\n"
    let text := front ++ opened ++ back
    let other := front ++ box ++ lineFeed :: opened ++ kern ++ lineFeed :: back
    Relation.ReflTransGen AddsIdle text other ∧ ofDocument none other = ofDocument none text ∧
      (ofDocument none other).friends 1 3 = [⟨1, 0⟩] := by
  intro front box opened kern back text other
  have hbox : AddsIdle (front ++ (opened ++ back)) (front ++ box ++ lineFeed :: (opened ++ back)) :=
    .line (by decide +kernel) (by decide +kernel)
      (.unread (by decide +kernel) (by decide +kernel) (by decide +kernel))
  have hkern : AddsIdle (front ++ box ++ lineFeed :: opened ++ back) other :=
    .line (by decide +kernel) (by decide +kernel)
      (.unread (by decide +kernel) (by decide +kernel) (by decide +kernel))
  have hlines : Relation.ReflTransGen AddsIdle text other := .tail (.single hbox) hkern
  exact ⟨hlines, ofDocument_of_addsIdle_lines none hlines, by decide +kernel⟩

/-- On an open page the line of a box is not idle if it cannot be read: the box is open all the
same. -/
example :
    let front := Utf8.encode "Content:\n\x7b1\n[1,2:0,0:9,9,0\n"
    let back := Utf8.encode "]\nh1,3:0,0:9,9,0\n"
    let parent? := fun text => ((ofDocument none text).node? ⟨1, 1⟩).bind Node.parent
    parent? (front ++ back) = none ∧
      parent? (front ++ Utf8.encode "(1,2" ++ lineFeed :: back) = some 0 := by
  decide +kernel

end Index

end PageSync

import PageSync.Inverse.Search
import PageSync.Proofs.Index.Arrival
import PageSync.Proofs.Stream.Says

/-! # Pages apart from each other

All pages of a document share one stack of open boxes. Still a page depends
only on the lines that are read while it is open, on the declarations and on
the page brackets: records and ends of boxes elsewhere can be left out, in any
number and any order, and the page and all that is found on it stay the same.
-/

namespace PageSync

open Text

namespace Index

/-- The nodes of a page that are recorded for a source line. -/
def friendsOn (index : Index) (number : UInt32) (input line : UInt32) : List NodeRef :=
  (index.friends input line).filter fun ref => ref.page == number

end Index

namespace Document

/-- The line is a record, whether it can be read or not, or it ends a box. -/
def isNodeLine : List UInt8 → Bool
  | [] => false
  | b :: _ => b == 0x5D || b == 0x29 || (Kind.ofByte? b).isSome

/-- The next line stands in the content, and another page is open there or none. -/
def Progress.isElsewhere (progress : Progress) (number : UInt32) : Bool :=
  progress.part == .content && openPage progress.events.toList != some number

/-- The lines that are left if records and ends of boxes are taken out while the page is not
open. -/
def keptOf (number : UInt32) : Progress → List (List UInt8) → List (List UInt8)
  | _, [] => []
  | progress, piece :: rest =>
    let kept := keptOf number (progress.read (lineOf piece)) rest
    if progress.isElsewhere number && isNodeLine (lineOf piece) then kept else piece :: kept

/-- The document without the records and ends of boxes that are read while the page is not open. -/
def isolate (number : UInt32) (text : List UInt8) : List UInt8 :=
  (keptOf number {} (pieces text)).flatten

theorem keptOf_sublist (number : UInt32) (pieces : List (List UInt8)) (progress : Progress) :
    (keptOf number progress pieces).Sublist pieces := by
  induction pieces generalizing progress with
  | nil => exact List.Sublist.refl []
  | cons piece rest ih =>
      rw [keptOf]
      split
      · exact (ih _).cons piece
      · exact (ih _).cons_cons piece

/-- A record or the end of a box goes to no page but the open one, and the content goes on. -/
theorem isLocal_of_isNodeLine {line : List UInt8} (hline : isNodeLine line = true) :
    Part.behind .content line = .content ∧
      ∀ event ∈ lineEvents .content line, event.isLocal = true := by
  cases line with
  | nil => contradiction
  | cons b body =>
      simp only [isNodeLine, Bool.or_eq_true, beq_iff_eq, Option.isSome_iff_exists] at hline
      rcases hline with hbracket | ⟨kind, hkind⟩
      · have hne : b ≠ 80 := by
          rcases hbracket with rfl | rfl <;> decide
        refine ⟨behind_content hne body, ?_⟩
        rw [lineEvents_boxEnd hbracket]
        simp [Event.isLocal]
      · refine ⟨behind_content (ne_of_ofByte? hkind rfl) body, ?_⟩
        rw [lineEvents_of_kind hkind, recordEvents]
        split
        · simp [Event.isLocal]
        · simp [Event.isLocal]

end Document

namespace Draft

section Elsewhere

variable {number : UInt32} {draft : Draft} {event : Event}

theorem ne_of_recorded? {page : UInt32} {record : Record} (hopen : draft.openPage ≠ some number)
    (hrecorded : draft.recorded? event = some (page, record)) : page ≠ number := by
  rintro rfl
  exact hopen (recorded?_eq_some.mp hrecorded).2

theorem page?_add_elsewhere (hlocal : event.isLocal = true)
    (hopen : draft.openPage ≠ some number) :
    (draft.add event).index.page? number = draft.index.page? number := by
  cases hrecorded : draft.recorded? event with
  | none =>
      have hstart : event ≠ .pageStart number := by
        rintro rfl
        contradiction
      rw [page?_add_of_none hrecorded, if_neg hstart]
  | some placed =>
      obtain ⟨page, record⟩ := placed
      rw [page?_add_of_some hrecorded, if_neg (ne_of_recorded? hopen hrecorded)]

theorem friendsOn_add_of_none (hrecorded : draft.recorded? event = none) (input line : UInt32) :
    (draft.add event).index.friendsOn number input line =
      draft.index.friendsOn number input line := by
  rw [Index.friendsOn, friends_add_of_none hrecorded, Index.friendsOn]

theorem friendsOn_add_elsewhere (hopen : draft.openPage ≠ some number) (input line : UInt32) :
    (draft.add event).index.friendsOn number input line =
      draft.index.friendsOn number input line := by
  cases hrecorded : draft.recorded? event with
  | none => exact friendsOn_add_of_none hrecorded input line
  | some placed =>
      obtain ⟨page, record⟩ := placed
      have hpage := ne_of_recorded? hopen hrecorded
      rw [Index.friendsOn, friends_add_of_some hrecorded, List.filter_append, Index.friendsOn]
      split
      · simp [hpage]
      · simp

end Elsewhere

/-- The drafts agree on a page: on all that is not on a page, on its nodes and, while it is open,
on its open boxes. -/
structure Agree (number : UInt32) (draft other : Draft) : Prop where
  frame : draft.SameFrame other
  page : other.index.page? number = draft.index.page? number
  friends : ∀ input line,
    other.index.friendsOn number input line = draft.index.friendsOn number input line
  openBoxes : draft.openPage = some number → other.openBoxes = draft.openBoxes

namespace Agree

variable {number : UInt32} {draft other : Draft}

theorem refl (number : UInt32) (draft : Draft) : draft.Agree number draft :=
  ⟨.refl draft, rfl, fun _ _ => rfl, fun _ => rfl⟩

theorem symm (h : draft.Agree number other) : other.Agree number draft where
  frame := h.frame.symm
  page := h.page.symm
  friends input line := (h.friends input line).symm
  openBoxes hopen := (h.openBoxes (h.frame.openPage ▸ hopen)).symm

theorem pageAt_eq (h : draft.Agree number other) :
    other.index.pageAt number = draft.index.pageAt number := by
  rw [Index.pageAt, h.page, Index.pageAt]

theorem parent?_eq (h : draft.Agree number other) (hopen : draft.openPage = some number) :
    other.parent? = draft.parent? := by
  rw [parent?, h.openBoxes hopen, parent?]

/-- A local event that comes while the page is not open does not concern the page. -/
theorem add_local (h : draft.Agree number other) (event : Event) (hlocal : event.isLocal = true)
    (hopen : draft.openPage ≠ some number) : (draft.add event).Agree number other := by
  have hframe := draft.sameFrame_add event hlocal
  refine ⟨hframe.symm.trans h.frame, ?_, fun input line => ?_, fun hnumber => ?_⟩
  · rw [h.page, page?_add_elsewhere hlocal hopen]
  · rw [h.friends, friendsOn_add_elsewhere hopen]
  · rw [hframe.openPage] at hnumber
    exact absurd hnumber hopen

/-- An event that both drafts get changes the page in both alike. -/
theorem add (h : draft.Agree number other) (event : Event) :
    (draft.add event).Agree number (other.add event) := by
  have hframe := h.frame.add event
  cases hrecorded : draft.recorded? event with
  | none =>
      have hother : other.recorded? event = none := (h.frame.recorded?_eq event).trans hrecorded
      refine ⟨hframe, ?_, fun input line => ?_, fun hnumber => ?_⟩
      · rw [page?_add_of_none hother, page?_add_of_none hrecorded, h.page, h.pageAt_eq]
      · rw [friendsOn_add_of_none hother, friendsOn_add_of_none hrecorded, h.friends]
      · cases hmark : event.pageMark? with
        | some mark => rw [openBoxes_add_of_mark hmark, openBoxes_add_of_mark hmark]
        | none =>
            rw [openPage_add, hmark, Option.getD_none] at hnumber
            rw [openBoxes_add (h.frame.openPage.trans hnumber) hmark, openBoxes_add hnumber hmark,
              hother, hrecorded, h.openBoxes hnumber]
            rfl
  | some placed =>
      obtain ⟨page, record⟩ := placed
      have hother : other.recorded? event = some (page, record) :=
        (h.frame.recorded?_eq event).trans hrecorded
      obtain ⟨rfl, hopen⟩ := recorded?_eq_some.mp hrecorded
      by_cases hpage : page = number
      · subst hpage
        refine ⟨hframe, ?_, fun input line => ?_, fun _ => ?_⟩
        · rw [page?_add_of_some hother, page?_add_of_some hrecorded, h.pageAt_eq,
            h.frame.nodeOf_eq, h.parent?_eq hopen, if_pos rfl, if_pos rfl]
        · rw [Index.friendsOn, friends_add_of_some hother, List.filter_append, h.pageAt_eq,
            Index.friendsOn, friends_add_of_some hrecorded, List.filter_append]
          congr 1
          exact h.friends input line
        · rw [openBoxes_add (h.frame.openPage.trans hopen) rfl, openBoxes_add hopen rfl, hother,
            hrecorded, h.openBoxes hopen]
          simp only [Option.map_some, h.pageAt_eq]
      · -- the record goes to another page, in the one draft and in the other
        have helsewhere : draft.openPage ≠ some number := by
          rw [hopen]
          exact fun heq => hpage (Option.some.inj heq)
        have hleft := h.add_local (.record record) rfl helsewhere
        refine (hleft.symm.add_local (.record record) rfl ?_).symm
        rwa [h.frame.openPage]

theorem foldl_local {events : List Event} (h : draft.Agree number other)
    (hlocal : ∀ event ∈ events, event.isLocal = true) (hopen : draft.openPage ≠ some number) :
    (events.foldl Draft.add draft).Agree number other := by
  induction events generalizing draft with
  | nil => exact h
  | cons event events ih =>
      have hevent := hlocal event List.mem_cons_self
      have hsame := (draft.sameFrame_add event hevent).openPage
      rw [List.foldl_cons]
      apply ih (h.add_local event hevent hopen)
      · exact fun other hother => hlocal other (List.mem_cons_of_mem event hother)
      · rwa [hsame]

theorem foldl (h : draft.Agree number other) (events : List Event) :
    (events.foldl Draft.add draft).Agree number (events.foldl Draft.add other) := by
  induction events generalizing draft other with
  | nil => exact h
  | cons event events ih =>
      rw [List.foldl_cons, List.foldl_cons]
      exact ih (h.add event)

end Agree

/-- The draft of the lines that are read so far. -/
def ofProgress (root : Option String) (progress : Document.Progress) : Draft :=
  ofEvents root progress.events.toList

theorem ofProgress_read (root : Option String) (progress : Document.Progress)
    (line : List UInt8) : ofProgress root (progress.read line) =
      (Document.lineEvents progress.part line).foldl add (ofProgress root progress) := by
  rw [ofProgress, Document.read_eq, ofProgress, ← ofEvents_append]
  simp

/-- Reading all lines and reading those that are kept gives drafts that agree on the page. -/
theorem Agree.read_keptOf {root : Option String} {number : UInt32}
    (pieces : List (List UInt8)) {progress other : Document.Progress}
    (hpart : other.part = progress.part)
    (h : (ofProgress root progress).Agree number (ofProgress root other)) :
    (ofProgress root ((pieces.map lineOf).foldl Document.Progress.read progress)).Agree number
      (ofProgress root (((Document.keptOf number progress pieces).map lineOf).foldl
        Document.Progress.read other)) := by
  induction pieces generalizing progress other with
  | nil => exact h
  | cons piece rest ih =>
      rw [List.map_cons, List.foldl_cons, Document.keptOf]
      split
      next hdropped =>
        simp only [Document.Progress.isElsewhere, Bool.and_eq_true, beq_iff_eq,
          bne_iff_ne] at hdropped
        obtain ⟨⟨hcontent, hopen⟩, hline⟩ := hdropped
        obtain ⟨hbehind, hlocal⟩ := Document.isLocal_of_isNodeLine hline
        apply ih
        · rw [Document.read_eq, hcontent, hbehind, hpart, hcontent]
        · rw [ofProgress_read, hcontent]
          apply h.foldl_local hlocal
          rwa [ofProgress, openPage_ofEvents]
      next =>
        rw [List.map_cons, List.foldl_cons]
        apply ih
        · rw [Document.read_eq, Document.read_eq, hpart]
        · rw [ofProgress_read, ofProgress_read, hpart]
          exact h.foldl _

end Draft

namespace Index

/-- A page, the references to it and every search from a point on it stay the same if records and
ends of boxes that are read while it is not open are taken out of the document. -/
theorem page?_isolate (root : Option String) (text : List UInt8) (number : UInt32) :
    let index := ofDocument root text
    let alone := ofDocument root (Document.isolate number text)
    alone.page? number = index.page? number ∧
      (∀ input line, alone.friendsOn number input line = index.friendsOn number input line) ∧
      ∀ settings point, alone.inverse? settings number point =
        index.inverse? settings number point := by
  intro index alone
  have hagree : (Draft.ofEvents root (Document.events text)).Agree number
      (Draft.ofEvents root (Document.events (Document.isolate number text))) := by
    rw [Document.events, Document.events, lines_eq_map_pieces text, Document.isolate,
      lines_flatten (Document.keptOf_sublist number (pieces text) {})]
    exact Draft.Agree.read_keptOf (pieces text) rfl (.refl number _)
  refine ⟨hagree.page, hagree.friends, fun settings point => ?_⟩
  have hpage : alone.page? number = index.page? number := hagree.page
  have hinputs : alone.inputs = index.inputs := hagree.frame.inputs
  rw [inverse?, hpage, hinputs, inverse?]

example :
    let text := Utf8.encode "Content:\n\x7b1\n[1,7:0,0\nk1,\n\x7b2\n]\n(1,7:0,0\n\x7d1\n)\n"
    Document.isolate 2 text = Utf8.encode "Content:\n\x7b1\n\x7b2\n]\n(1,7:0,0\n\x7d1\n" := by
  decide +kernel

end Index

end PageSync

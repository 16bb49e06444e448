import Mathlib.Algebra.Order.Ring.Nat
import PageSync.Index.Draft
import PageSync.Proofs.Page.Push
import Std.Data.TreeMap.Lemmas

/-! # Steps of a draft

The nodes of a page and the references of a source line are the two views of
an index. A record on the open page adds a node to the one and, if it has a
line, a reference to the other; no other event changes either of them.
-/

namespace PageSync

namespace Event

/-- What a page bracket says about the page that is open behind it. -/
def pageMark? : Event → Option (Option UInt32)
  | .pageStart page => some (some page)
  | .pageEnd _ => some none
  | _ => none

/-- Boxes that may hold other nodes are open from their line on, also if it could not be read. -/
def isOpener : Event → Bool
  | .record r => r.kind.isContainer
  | .malformed kind => kind.isContainer
  | _ => false

/-- The end of a box, whatever its bracket. -/
def isCloser : Event → Bool
  | .boxEnd => true
  | _ => false

/-- The event tells nothing to any page but the open one: no declaration and no page bracket. -/
def isLocal : Event → Bool
  | .record _ | .malformed _ | .boxEnd | .skipped _ => true
  | _ => false

theorem pageMark?_of_isOpener {event : Event} (hopener : event.isOpener = true) :
    event.pageMark? = none := by
  cases event with
  | pageStart page => contradiction
  | pageEnd page => contradiction
  | _ => rfl

theorem isCloser_of_isOpener {event : Event} (hopener : event.isOpener = true) :
    event.isCloser = false := by
  cases event with
  | boxEnd => contradiction
  | _ => rfl

theorem eq_boxEnd_of_isCloser {event : Event} (hcloser : event.isCloser = true) :
    event = .boxEnd := by
  cases event with
  | boxEnd => rfl
  | _ => contradiction

end Event

namespace Index

/-- The nodes of a page. A page that does not exist has none. -/
def pageAt (index : Index) (number : UInt32) : Page := (index.page? number).getD {}

theorem pageAt_of_page? {index : Index} {number : UInt32} {page : Page}
    (hpage : index.page? number = some page) : index.pageAt number = page := by
  rw [pageAt, hpage, Option.getD_some]

theorem node?_eq_get? (index : Index) (ref : NodeRef) :
    index.node? ref = (index.pageAt ref.page).get? ref.id := by
  rw [node?, pageAt]
  cases index.page? ref.page with
  | none => rfl
  | some page => rfl

theorem page?_of_size_pos {index : Index} {number : UInt32}
    (hsize : 0 < (index.pageAt number).size) :
    index.page? number = some (index.pageAt number) := by
  cases hpage : index.page? number with
  | none =>
      rw [pageAt, hpage] at hsize
      exact absurd hsize (Nat.lt_irrefl 0)
  | some page => rw [pageAt_of_page? hpage]

theorem size_eq_size_pageAt (index : Index) (number : UInt32) :
    (index.page? number).elim 0 Page.size = (index.pageAt number).size := by
  rw [pageAt]
  cases index.page? number with
  | none => rfl
  | some page => rfl

theorem mem_pageNumbers_iff {index : Index} {number : UInt32} :
    number ∈ index.pageNumbers ↔ (index.page? number).isSome = true := by
  rw [pageNumbers, Std.TreeMap.mem_keys, Std.TreeMap.mem_iff_isSome_getElem?, page?]

theorem nodeCount_eq_sum (index : Index) :
    index.nodeCount =
      (index.pageNumbers.map fun number => (index.pageAt number).size).sum := by
  have hvalues : index.pages.values = index.pages.toList.map Prod.snd := by
    have hfoldr : index.pages.values =
        index.pages.foldr (fun _ page pages => page :: pages) [] := rfl
    rw [hfoldr, Std.TreeMap.foldr_eq_foldr_toList, List.foldr_cons_eq_append, List.append_nil]
  rw [nodeCount, hvalues, pageNumbers, ← Std.TreeMap.map_fst_toList_eq_keys, List.map_map,
    ← List.foldl_map, ← List.sum_eq_foldl_nat, List.map_map]
  congr 1
  apply List.map_congr_left
  rintro ⟨number, page⟩ hmem
  have hpage : index.page? number = some page :=
    Std.TreeMap.mem_toList_iff_getElem?_eq_some.mp hmem
  simp only [Function.comp_apply, pageAt_of_page? hpage]

theorem page?_ensurePage (index : Index) (page number : UInt32) :
    (index.ensurePage page).page? number =
      if page = number then some (index.pageAt number) else index.page? number := by
  simp only [pageAt, page?, ensurePage, Std.TreeMap.getElem?_insertIfNew,
    Std.LawfulEqCmp.compare_eq_iff_eq]
  by_cases hnumber : page = number
  · subst hnumber
    by_cases hmem : page ∈ index.pages
    · rw [if_neg fun h => h.2 hmem, if_pos rfl, Std.TreeMap.getElem?_eq_some_getElem hmem,
        Option.getD_some]
    · -- a new page has no nodes, and neither has one that does not exist
      rw [if_pos ⟨rfl, hmem⟩, if_pos rfl, Std.TreeMap.getElem?_eq_none hmem, Option.getD_none]
  · rw [if_neg fun h => hnumber h.1, if_neg hnumber]

theorem page?_addNode (index : Index) (node : Node) (parent : Option Nat) (number : UInt32) :
    (index.addNode node parent).page? number =
      if node.page = number then some ((index.pageAt number).push node parent)
      else index.page? number := by
  simp only [pageAt, page?, addNode, Std.TreeMap.getElem?_alter, Std.LawfulEqCmp.compare_eq_iff_eq]
  by_cases hnumber : node.page = number
  · rw [if_pos hnumber, if_pos hnumber, hnumber]
  · rw [if_neg hnumber, if_neg hnumber]

theorem pageAt_addNode (index : Index) (node : Node) (parent : Option Nat) (number : UInt32) :
    (index.addNode node parent).pageAt number =
      if node.page = number then (index.pageAt number).push node parent
      else index.pageAt number := by
  rw [pageAt, page?_addNode]
  split
  · rw [Option.getD_some]
  · rfl

theorem getElem?_recorded_addNode (index : Index) (node : Node) (parent : Option Nat)
    (location : Location) :
    (index.addNode node parent).recorded[location]? =
      if node.hasLine = true ∧ node.location = location then
        some ((index.recorded.getD location #[]).push
          ⟨node.page, (index.pageAt node.page).size⟩)
      else index.recorded[location]? := by
  rw [← size_eq_size_pageAt]
  by_cases hline : node.hasLine = true
  · simp only [addNode, hline, if_true, Std.TreeMap.getElem?_alter,
      Std.LawfulEqCmp.compare_eq_iff_eq, true_and]
    by_cases hlocation : node.location = location
    · rw [if_pos hlocation, if_pos hlocation, hlocation, Std.TreeMap.getD_eq_getD_getElem?]
    · rw [if_neg hlocation, if_neg hlocation]
  · simp only [addNode, hline, Bool.false_eq_true, false_and, if_false]

end Index

namespace Draft

theorem ofEvents_append_singleton (root : Option String) (events : List Event) (event : Event) :
    ofEvents root (events ++ [event]) = (ofEvents root events).add event := by
  rw [ofEvents, List.foldl_append]
  rfl

theorem ofEvents_append (root : Option String) (events more : List Event) :
    ofEvents root (events ++ more) = more.foldl add (ofEvents root events) := by
  rw [ofEvents, List.foldl_append, ofEvents]

variable {draft : Draft} {event : Event} {page : UInt32} {record : Record}

/-- The record that an event adds to a page, and the page. -/
def recorded? (draft : Draft) : Event → Option (UInt32 × Record)
  | .record record => draft.openPage.map fun page => (page, record)
  | _ => none

theorem recorded?_eq_some :
    draft.recorded? event = some (page, record) ↔
      event = .record record ∧ draft.openPage = some page := by
  cases event with
  | record other =>
      rw [recorded?, Option.map_eq_some_iff]
      constructor
      · rintro ⟨number, hopen, heq⟩
        obtain ⟨rfl, rfl⟩ := Prod.mk.inj heq
        exact ⟨rfl, hopen⟩
      · rintro ⟨heq, hopen⟩
        cases heq
        exact ⟨page, hopen, rfl⟩
  | _ => simp [recorded?]

theorem recorded?_of_mark {mark : Option UInt32} (draft : Draft)
    (hmark : event.pageMark? = some mark) : draft.recorded? event = none := by
  cases event with
  | record record => contradiction
  | _ => rfl

/-- The node that a record adds to a page, before it is placed among the others. -/
def nodeOf (draft : Draft) (page : UInt32) (record : Record) : Node :=
  Node.ofRecord draft.index.header.scale page record

theorem page?_add_of_none (hevent : draft.recorded? event = none) (number : UInt32) :
    (draft.add event).index.page? number =
      if event = .pageStart number then some (draft.index.pageAt number)
      else draft.index.page? number := by
  cases event with
  | pageStart page =>
      simp only [Event.pageStart.injEq]
      exact draft.index.page?_ensurePage page number
  | record record =>
      have hopen : draft.openPage = none := by simpa [recorded?] using hevent
      simp only [add, addRecord, hopen, reduceCtorEq, if_false]
  | malformed kind =>
      rw [add]
      split <;> rfl
  | _ => rfl

theorem pageAt_add_of_none (hevent : draft.recorded? event = none) (number : UInt32) :
    (draft.add event).index.pageAt number = draft.index.pageAt number := by
  rw [Index.pageAt, page?_add_of_none hevent]
  split
  · rw [Option.getD_some]
  · rfl

theorem recorded_add_of_none (hevent : draft.recorded? event = none) :
    (draft.add event).index.recorded = draft.index.recorded := by
  cases event with
  | record record =>
      have hopen : draft.openPage = none := by simpa [recorded?] using hevent
      simp only [add, addRecord, hopen]
  | malformed kind =>
      rw [add]
      split <;> rfl
  | _ => rfl

theorem index_add_of_some (hevent : draft.recorded? event = some (page, record)) :
    (draft.add event).index = draft.index.addNode (draft.nodeOf page record) draft.parent? := by
  obtain ⟨rfl, hopen⟩ := recorded?_eq_some.mp hevent
  simp only [add, addRecord, hopen, nodeOf]

theorem page?_add_of_some (hevent : draft.recorded? event = some (page, record))
    (number : UInt32) :
    (draft.add event).index.page? number =
      if page = number then
        some ((draft.index.pageAt number).push (draft.nodeOf page record) draft.parent?)
      else draft.index.page? number := by
  rw [index_add_of_some hevent, Index.page?_addNode]
  rfl

theorem pageAt_add_of_some (hevent : draft.recorded? event = some (page, record))
    (number : UInt32) :
    (draft.add event).index.pageAt number =
      if page = number then
        (draft.index.pageAt number).push (draft.nodeOf page record) draft.parent?
      else draft.index.pageAt number := by
  rw [index_add_of_some hevent, Index.pageAt_addNode]
  rfl

theorem getElem?_recorded_add_of_some (hevent : draft.recorded? event = some (page, record))
    (location : Location) :
    (draft.add event).index.recorded[location]? =
      if 0 < record.line ∧ Location.mk record.input record.line = location then
        some ((draft.index.recorded.getD location #[]).push
          ⟨page, (draft.index.pageAt page).size⟩)
      else draft.index.recorded[location]? := by
  rw [index_add_of_some hevent, Index.getElem?_recorded_addNode]
  simp only [Node.hasLine, Node.location, nodeOf, Node.ofRecord, gt_iff_lt, decide_eq_true_eq]

theorem friends_add_of_none (hevent : draft.recorded? event = none) (input line : UInt32) :
    (draft.add event).index.friends input line = draft.index.friends input line := by
  rw [Index.friends, recorded_add_of_none hevent, Index.friends]

/-- A record with a line comes behind those that the line has already. -/
theorem friends_add_of_some (hevent : draft.recorded? event = some (page, record))
    (input line : UInt32) :
    (draft.add event).index.friends input line = draft.index.friends input line ++
      if 0 < record.line ∧ record.input = input ∧ record.line = line then
        [⟨page, (draft.index.pageAt page).size⟩]
      else [] := by
  rw [Index.friends, Std.TreeMap.getD_eq_getD_getElem?, getElem?_recorded_add_of_some hevent,
    Index.friends, Std.TreeMap.getD_eq_getD_getElem?]
  simp only [Location.mk.injEq]
  split
  · rw [Option.getD_some, Array.toList_push]
  · rw [List.append_nil]

theorem openPage_add (draft : Draft) (event : Event) :
    (draft.add event).openPage = event.pageMark?.getD draft.openPage := by
  cases event with
  | record record =>
      simp only [add, addRecord]
      split <;> rfl
  | malformed kind =>
      rw [add]
      split <;> rfl
  | _ => rfl

theorem openBoxes_add_of_mark {mark : Option UInt32} (hmark : event.pageMark? = some mark) :
    (draft.add event).openBoxes = [] := by
  cases event with
  | pageStart page => rfl
  | pageEnd page => rfl
  | _ => contradiction

/-- While a page is open, openers go on the stack of open boxes, and ends take one off. -/
theorem openBoxes_add (hopen : draft.openPage = some page) (hmark : event.pageMark? = none) :
    (draft.add event).openBoxes =
      if event.isOpener = true then
        ((draft.recorded? event).map fun placed => (draft.index.pageAt placed.1).size) ::
          draft.openBoxes
      else if event.isCloser = true then draft.openBoxes.tail
      else draft.openBoxes := by
  cases event with
  | pageStart page => contradiction
  | pageEnd page => contradiction
  | record record =>
      simp only [add, addRecord, hopen, Index.size_eq_size_pageAt, Event.isOpener, recorded?,
        Event.isCloser, Bool.false_eq_true, if_false, Option.map_some]
  | malformed kind =>
      simp only [add, hopen, Option.isSome_some, Bool.true_and, Event.isOpener, recorded?,
        Event.isCloser, Bool.false_eq_true, if_false, Option.map_none]
      split <;> rfl
  | _ => rfl

/-! ## What is not on a page -/

/-- The drafts agree on the header, on the inputs and on which page is open. -/
structure SameFrame (draft other : Draft) : Prop where
  root : other.root = draft.root
  header : other.index.header = draft.index.header
  inputs : other.index.inputs = draft.index.inputs
  openPage : other.openPage = draft.openPage

/-- A local event leaves the frame of a draft as it is. -/
theorem sameFrame_add (draft : Draft) (event : Event) (hlocal : event.isLocal = true) :
    draft.SameFrame (draft.add event) := by
  cases event with
  | record record =>
      simp only [add, addRecord]
      split
      · exact ⟨rfl, rfl, rfl, rfl⟩
      · exact ⟨rfl, rfl, rfl, rfl⟩
  | malformed kind =>
      rw [add]
      split
      · exact ⟨rfl, rfl, rfl, rfl⟩
      · exact ⟨rfl, rfl, rfl, rfl⟩
  | boxEnd => exact ⟨rfl, rfl, rfl, rfl⟩
  | skipped line => exact ⟨rfl, rfl, rfl, rfl⟩
  | _ => contradiction

namespace SameFrame

variable {other third : Draft}

theorem refl (draft : Draft) : draft.SameFrame draft := ⟨rfl, rfl, rfl, rfl⟩

theorem symm (h : draft.SameFrame other) : other.SameFrame draft :=
  ⟨h.root.symm, h.header.symm, h.inputs.symm, h.openPage.symm⟩

theorem trans (h : draft.SameFrame other) (hother : other.SameFrame third) :
    draft.SameFrame third :=
  ⟨hother.root.trans h.root, hother.header.trans h.header, hother.inputs.trans h.inputs,
    hother.openPage.trans h.openPage⟩

/-- What an event does to the frame depends on the frame alone. -/
theorem add (h : draft.SameFrame other) (event : Event) :
    (draft.add event).SameFrame (other.add event) := by
  cases hlocal : event.isLocal with
  | true =>
      have hother := other.sameFrame_add event hlocal
      exact (draft.sameFrame_add event hlocal).symm.trans (h.trans hother)
  | false =>
      cases event with
      | header field => exact ⟨h.root, congrArg (declare · field) h.header, h.inputs, h.openPage⟩
      | input tag path =>
          refine ⟨h.root, h.header, ?_, h.openPage⟩
          simp only [Draft.add, h.inputs, h.root]
      | pageStart page => exact ⟨h.root, h.header, h.inputs, rfl⟩
      | pageEnd page => exact ⟨h.root, h.header, h.inputs, rfl⟩
      | _ => contradiction

theorem recorded?_eq (h : draft.SameFrame other) (event : Event) :
    other.recorded? event = draft.recorded? event := by
  cases event with
  | record record => rw [recorded?, h.openPage, recorded?]
  | _ => rfl

theorem nodeOf_eq (h : draft.SameFrame other) (page : UInt32) (record : Record) :
    other.nodeOf page record = draft.nodeOf page record := by
  rw [nodeOf, h.header, nodeOf]

end SameFrame

end Draft

end PageSync

import PageSync.Proofs.Index.Friends
import PageSync.Proofs.Index.Growth
import PageSync.Proofs.Page.Erase

/-! # Damaged boxes

A box whose line cannot be read is open all the same, so that its end is not
taken for that of another box. The index of a document in which the line of
one box is damaged is therefore that of the whole document with the node of
that box deleted, and nothing else of it is lost. What carries this is that
the open boxes stay slot for slot the same, but for the box that is not known.
-/

namespace PageSync

open Text

theorem Record.kind_of_parse? {kind : Kind} {body : List UInt8} {record : Record}
    (h : parse? kind body = some record) : record.kind = kind := by
  simp only [parse?, Option.bind_eq_bind, Option.bind_eq_some_iff, Prod.exists,
    Option.some.injEq] at h
  obtain ⟨input, text, -, line, column, text, -, x, text, -, v, extent, -, rfl⟩ := h
  rfl

namespace NodeRef

/-- The reference by the numbers that nodes have when a node is deleted. -/
def renumber (deleted ref : NodeRef) : NodeRef :=
  if ref.page = deleted.page then ⟨ref.page, Page.renumber deleted.id ref.id⟩ else ref

/-- The references that are left when a node is deleted. -/
def without (deleted : NodeRef) (refs : List NodeRef) : List NodeRef :=
  (refs.filter (· != deleted)).map (renumber deleted)

/-- A page, by its number, without the deleted node if it had it. -/
def eraseFrom (deleted : NodeRef) (number : UInt32) (page : Page) : Page :=
  if number = deleted.page then page.erase deleted.id else page

@[simp]
theorem without_append (deleted : NodeRef) (refs more : List NodeRef) :
    without deleted (refs ++ more) = without deleted refs ++ without deleted more := by
  rw [without, List.filter_append, List.map_append, without, without]

end NodeRef

/-- The other index is this one with a node deleted: its page is without the node, no line has it,
and all else is the same. -/
structure Index.Erases (index : Index) (deleted : NodeRef) (other : Index) : Prop where
  header : other.header = index.header
  inputs : other.inputs = index.inputs
  page : ∀ number, other.page? number = (index.page? number).map (deleted.eraseFrom number)
  friends : ∀ input line, other.friends input line = deleted.without (index.friends input line)

namespace Draft

/-- The slot of an open box when a node is deleted. The box itself stays open. -/
def closeSlot (x : Nat) (slot : Option Nat) : Option Nat :=
  (slot.filter (· != x)).map (Page.renumber x)

/-- The open boxes of a page, by its number, when a node is deleted. -/
def slotsWithout (deleted : NodeRef) (number : UInt32) (slots : List (Option Nat)) :
    List (Option Nat) :=
  if number = deleted.page then slots.map (closeSlot deleted.id) else slots

/-- The other draft is this one with a node deleted, but a deleted box is as open as before. -/
structure Lacks (deleted : NodeRef) (draft other : Draft) : Prop where
  frame : draft.SameFrame other
  lt_size : deleted.id < (draft.index.pageAt deleted.page).size
  page : ∀ number,
    other.index.page? number = (draft.index.page? number).map (deleted.eraseFrom number)
  friends : ∀ input line,
    other.index.friends input line = deleted.without (draft.index.friends input line)
  openBoxes : ∀ {number}, draft.openPage = some number →
    other.openBoxes = slotsWithout deleted number draft.openBoxes

/-! ## Open boxes -/

/-- The innermost open box is the last of its siblings, and the open box around it is its parent. -/
theorem Sound.parent?_of_boxes {draft : Draft} (h : draft.Sound) {number : UInt32}
    (hopen : draft.openPage = some number) {outer : List Nat} {box : Nat}
    (hboxes : draft.boxes = outer ++ [box]) :
    (draft.index.pageAt number).parent? box = outer.getLast? ∧
      ((draft.index.pageAt number).childrenOf outer.getLast?).getLast? = some box := by
  have hedge := h.edge hopen
  rw [hboxes] at hedge
  have hlast : ((draft.index.pageAt number).childrenOf outer.getLast?).getLast? = some box :=
    hedge.getLast?_around
  exact ⟨(h.page number).parent?_of_mem_childrenOf (List.mem_of_getLast? hlast), hlast⟩

@[simp]
theorem slotsWithout_nil (deleted : NodeRef) (number : UInt32) :
    slotsWithout deleted number [] = [] := by
  simp [slotsWithout]

@[simp]
theorem closeSlot_none (x : Nat) : closeSlot x none = none := rfl

@[simp]
theorem closeSlot_self (x : Nat) : closeSlot x (some x) = none := by
  simp [closeSlot]

theorem closeSlot_of_ne {x box : Nat} (hbox : box ≠ x) :
    closeSlot x (some box) = some (Page.renumber x box) := by
  simp [closeSlot, hbox]

theorem slotsWithout_cons_none (deleted : NodeRef) (number : UInt32) (slots : List (Option Nat)) :
    slotsWithout deleted number (none :: slots) = none :: slotsWithout deleted number slots := by
  unfold slotsWithout
  split
  · rw [List.map_cons, closeSlot_none]
  · rfl

theorem slotsWithout_tail (deleted : NodeRef) (number : UInt32) (slots : List (Option Nat)) :
    slotsWithout deleted number slots.tail = (slotsWithout deleted number slots).tail := by
  unfold slotsWithout
  split
  · exact List.map_tail
  · rfl

theorem reduceOption_map_closeSlot (x : Nat) (slots : List (Option Nat)) :
    (slots.map (closeSlot x)).reduceOption =
      (slots.reduceOption.filter (· != x)).map (Page.renumber x) := by
  induction slots with
  | nil => rfl
  | cons slot slots ih =>
      cases slot with
      | none =>
          rw [List.map_cons, closeSlot_none, List.reduceOption_cons_of_none, ih,
            List.reduceOption_cons_of_none]
      | some box =>
          rw [List.map_cons, List.reduceOption_cons_of_some, List.filter_cons]
          by_cases hbox : box = x
          · rw [hbox, closeSlot_self, List.reduceOption_cons_of_none, ih, if_neg (by simp)]
          · rw [closeSlot_of_ne hbox, List.reduceOption_cons_of_some, ih,
              if_pos (by simpa using hbox), List.map_cons]

namespace Lacks

variable {deleted : NodeRef} {draft other : Draft} {event : Event}

theorem pageAt_eq (h : draft.Lacks deleted other) (number : UInt32) :
    other.index.pageAt number = deleted.eraseFrom number (draft.index.pageAt number) := by
  rw [Index.pageAt, h.page]
  cases hpage : draft.index.page? number with
  | some page => rw [Option.map_some, Option.getD_some, Index.pageAt_of_page? hpage]
  | none =>
      -- a page that does not exist has no nodes, so none was deleted from it
      have hne : number ≠ deleted.page := by
        rintro rfl
        have hsize := Index.page?_of_size_pos (Nat.zero_lt_of_lt h.lt_size)
        rw [hpage] at hsize
        contradiction
      rw [Option.map_none, Option.getD_none, NodeRef.eraseFrom, if_neg hne, Index.pageAt, hpage,
        Option.getD_none]

theorem boxes_eq (h : draft.Lacks deleted other) (hopen : draft.openPage = some deleted.page) :
    other.boxes = (draft.boxes.filter (· != deleted.id)).map (Page.renumber deleted.id) := by
  rw [boxes, h.openBoxes hopen, slotsWithout, if_pos rfl, reduceOption_map_closeSlot, boxes,
    List.filter_reverse, List.map_reverse]

/-- Without the deleted box new nodes go to the open box around it, which is its parent. -/
theorem parent?_eq (h : draft.Lacks deleted other) (hsound : draft.Sound)
    (hopen : draft.openPage = some deleted.page) :
    other.parent? = ((draft.index.pageAt deleted.page).heir deleted.id draft.parent?).map
      (Page.renumber deleted.id) := by
  rw [parent?_eq_getLast?, h.boxes_eq hopen, parent?_eq_getLast?]
  rcases List.eq_nil_or_concat draft.boxes with hboxes | ⟨outer, box, hboxes⟩
  · rw [hboxes]
    rfl
  · rw [List.concat_eq_append] at hboxes
    have hparent := (hsound.parent?_of_boxes hopen hboxes).1
    have hsorted := (hsound.edge hopen).pairwise_lt
    rw [hboxes] at hsorted
    rw [hboxes, List.filter_append, List.getLast?_concat]
    by_cases hbox : box = deleted.id
    · have hall : ∀ i ∈ outer, (i != deleted.id) = true := by
        intro i hi
        have hlt := (List.pairwise_append.mp hsorted).2.2 i hi box (List.mem_singleton_self box)
        rw [bne_iff_ne]
        omega
      rw [List.filter_eq_self.mpr hall, hbox, Page.heir_self, ← hbox, hparent]
      simp
    · have hne : some box ≠ some deleted.id := fun heq => hbox (Option.some.inj heq)
      rw [Page.heir_of_ne hne]
      simp [hbox]

/-! ## Nodes that are added -/

section Added

variable {number : UInt32}

/-- What is added to a page goes to the page without the node in the same way. -/
theorem push_eq (h : draft.Lacks deleted other) (hsound : draft.Sound)
    (hopen : draft.openPage = some number) (node : Node) :
    (other.index.pageAt number).push node other.parent? =
      deleted.eraseFrom number ((draft.index.pageAt number).push node draft.parent?) := by
  rw [h.pageAt_eq, NodeRef.eraseFrom, NodeRef.eraseFrom]
  split
  next hnumber =>
    subst hnumber
    rw [h.parent?_eq hsound hopen]
    refine ((hsound.page _).erase_push h.lt_size (hsound.lt_size_of_parent? hopen) ?_ node).symm
    intro hparent
    rw [parent?_eq_getLast?] at hparent
    obtain ⟨outer, hboxes⟩ := List.getLast?_eq_some_iff.mp hparent
    obtain ⟨haround, hlast⟩ := hsound.parent?_of_boxes hopen hboxes
    rwa [haround]
  next hnumber =>
    rw [parent?, h.openBoxes hopen, slotsWithout, if_neg hnumber, parent?]

theorem renumber_size (h : draft.Lacks deleted other) :
    Page.renumber deleted.id (draft.index.pageAt deleted.page).size =
      (other.index.pageAt deleted.page).size := by
  rw [h.pageAt_eq, NodeRef.eraseFrom, if_pos rfl, Page.size_erase h.lt_size, Page.renumber,
    if_pos h.lt_size]

/-- A reference to a node that is added is not deleted, and has the next number on both sides. -/
theorem without_size (h : draft.Lacks deleted other) (number : UInt32) :
    deleted.without [⟨number, (draft.index.pageAt number).size⟩] =
      [⟨number, (other.index.pageAt number).size⟩] := by
  by_cases hnumber : number = deleted.page
  · subst hnumber
    have hne : (⟨deleted.page, (draft.index.pageAt deleted.page).size⟩ : NodeRef) ≠ deleted := by
      intro heq
      exact Nat.ne_of_gt h.lt_size (congrArg NodeRef.id heq)
    simp [NodeRef.without, hne, NodeRef.renumber, h.renumber_size]
  · have hne : (⟨number, (draft.index.pageAt number).size⟩ : NodeRef) ≠ deleted := by
      intro heq
      exact hnumber (congrArg NodeRef.page heq)
    simp [NodeRef.without, hne, NodeRef.renumber, hnumber, h.pageAt_eq, NodeRef.eraseFrom]

theorem slotsWithout_cons_size (h : draft.Lacks deleted other) (number : UInt32)
    (slots : List (Option Nat)) :
    slotsWithout deleted number (some (draft.index.pageAt number).size :: slots) =
      some (other.index.pageAt number).size :: slotsWithout deleted number slots := by
  unfold slotsWithout
  split
  next hnumber =>
    subst hnumber
    rw [List.map_cons, closeSlot_of_ne (Nat.ne_of_gt h.lt_size), h.renumber_size]
  next hnumber => rw [h.pageAt_eq, NodeRef.eraseFrom, if_neg hnumber]

end Added

/-- An event without a record opens or closes the same boxes in both drafts. -/
theorem add_of_none (h : draft.Lacks deleted other) {event : Event}
    (hrecorded : draft.recorded? event = none) :
    (draft.add event).Lacks deleted (other.add event) := by
  have hother : other.recorded? event = none := (h.frame.recorded?_eq event).trans hrecorded
  refine ⟨h.frame.add event, ?_, fun number => ?_, fun input line => ?_, fun {number} hopen => ?_⟩
  · rw [pageAt_add_of_none hrecorded]
    exact h.lt_size
  · rw [page?_add_of_none hother, page?_add_of_none hrecorded]
    split
    · rw [h.pageAt_eq, Option.map_some]
    · exact h.page number
  · rw [friends_add_of_none hother, friends_add_of_none hrecorded, h.friends]
  · cases hmark : event.pageMark? with
    | some mark =>
        rw [openBoxes_add_of_mark hmark, openBoxes_add_of_mark hmark, slotsWithout_nil]
    | none =>
        rw [openPage_add, hmark, Option.getD_none] at hopen
        rw [openBoxes_add (h.frame.openPage.trans hopen) hmark, openBoxes_add hopen hmark,
          hother, hrecorded, h.openBoxes hopen, Option.map_none]
        split
        · rw [Option.map_none, slotsWithout_cons_none]
        · split
          · rw [slotsWithout_tail]
          · rfl

/-- A record comes behind the node or on another page. -/
theorem add_of_some (h : draft.Lacks deleted other) (hsound : draft.Sound) {event : Event}
    {page : UInt32} {record : Record} (hrecorded : draft.recorded? event = some (page, record)) :
    (draft.add event).Lacks deleted (other.add event) := by
  have hother : other.recorded? event = some (page, record) :=
    (h.frame.recorded?_eq event).trans hrecorded
  obtain ⟨rfl, hopenPage⟩ := recorded?_eq_some.mp hrecorded
  refine ⟨h.frame.add _, ?_, fun number => ?_, fun input line => ?_, fun {number} hopen => ?_⟩
  · rw [pageAt_add_of_some hrecorded]
    split
    · rw [Page.size_push]
      exact Nat.lt_succ_of_lt h.lt_size
    · exact h.lt_size
  · rw [page?_add_of_some hother, page?_add_of_some hrecorded]
    split
    next hnumber =>
      subst hnumber
      rw [Option.map_some, h.frame.nodeOf_eq, h.push_eq hsound hopenPage]
    next => exact h.page number
  · rw [friends_add_of_some hother, friends_add_of_some hrecorded, NodeRef.without_append,
      h.friends]
    congr 1
    split
    · rw [h.without_size]
    · rfl
  · rw [openPage_add, hopenPage] at hopen
    obtain rfl : page = number := Option.some.inj hopen
    rw [openBoxes_add (h.frame.openPage.trans hopenPage) rfl, openBoxes_add hopenPage rfl,
      hother, hrecorded, h.openBoxes hopenPage, Option.map_some, Option.map_some]
    split
    · rw [h.slotsWithout_cons_size]
    · split
      · rw [slotsWithout_tail]
      · rfl

/-- Whatever comes, the node is all that is missing. -/
theorem add (h : draft.Lacks deleted other) (hsound : draft.Sound) (event : Event) :
    (draft.add event).Lacks deleted (other.add event) := by
  cases hrecorded : draft.recorded? event with
  | none => exact h.add_of_none hrecorded
  | some placed => exact h.add_of_some hsound hrecorded

theorem foldl (h : draft.Lacks deleted other) (hsound : draft.Sound) (events : List Event) :
    (events.foldl Draft.add draft).Lacks deleted (events.foldl Draft.add other) := by
  induction events generalizing draft other with
  | nil => exact h
  | cons event events ih =>
      rw [List.foldl_cons, List.foldl_cons]
      exact ih (h.add hsound event) (hsound.add event)

theorem erases (h : draft.Lacks deleted other) : draft.index.Erases deleted other.index :=
  ⟨h.frame.header, h.frame.inputs, h.page, h.friends⟩

end Lacks

/-! ## The damaged line -/

section Damaged

variable {root : Option String} {events : List Event} {number : UInt32}

/-- An open page exists, also if nothing was added to it. -/
theorem page?_of_openPage (hopen : (ofEvents root events).openPage = some number) :
    (ofEvents root events).index.page? number =
      some ((ofEvents root events).index.pageAt number) := by
  induction events using List.reverseRecOn with
  | nil => contradiction
  | append_singleton events event ih =>
      rw [ofEvents_append_singleton] at hopen ⊢
      rw [openPage_add] at hopen
      have hgrown : ∃ page, ((ofEvents root events).add event).index.page? number = some page := by
        cases hmark : event.pageMark? with
        | none =>
            rw [hmark, Option.getD_none] at hopen
            have hgrows := (sound_ofEvents root events).growsTo_add event
            obtain ⟨page, hpage, -⟩ := hgrows.page (ih hopen)
            exact ⟨page, hpage⟩
        | some mark =>
            rw [hmark, Option.getD_some] at hopen
            subst hopen
            have hstart : event = .pageStart number := by
              cases event <;> simp_all [Event.pageMark?]
            rw [page?_add_of_none (recorded?_of_mark _ hmark), if_pos hstart]
            exact ⟨_, rfl⟩
      obtain ⟨page, hpage⟩ := hgrown
      rw [hpage, Index.pageAt_of_page? hpage]

/-- Lines list no reference that is not there yet. -/
theorem without_friends (root : Option String) (events : List Event) (number : UInt32)
    (input line : UInt32) :
    NodeRef.without ⟨number, ((ofEvents root events).index.pageAt number).size⟩
        ((ofEvents root events).index.friends input line) =
      (ofEvents root events).index.friends input line := by
  have hlt : ∀ ref ∈ (ofEvents root events).index.friends input line, ref.page = number →
      ref.id < ((ofEvents root events).index.pageAt number).size := by
    rintro ref href rfl
    rw [size_pageAt]
    exact (mem_arrivals_iff_lt events ref).mp ((friends_sublist root events input line).subset href)
  rw [NodeRef.without, List.filter_eq_self.mpr, List.map_congr_left (g := id), List.map_id]
  · intro ref href
    rw [NodeRef.renumber]
    split
    next hnumber => rw [Page.renumber_of_le (Nat.le_of_lt (hlt ref href hnumber)), id]
    next => rfl
  · intro ref href
    rw [bne_iff_ne]
    rintro rfl
    exact Nat.lt_irrefl _ (hlt _ href rfl)

/-- No box is open that is not there yet. -/
theorem Sound.map_closeSlot_openBoxes {draft : Draft} (h : draft.Sound)
    (hopen : draft.openPage = some number) :
    draft.openBoxes.map (closeSlot (draft.index.pageAt number).size) = draft.openBoxes := by
  rw [List.map_congr_left (g := id), List.map_id]
  intro slot hslot
  cases slot with
  | none => rfl
  | some box =>
      have hmem : box ∈ draft.boxes := by
        rw [boxes, List.mem_reverse, List.reduceOption_mem_iff]
        exact hslot
      have hlt := ((h.edge hopen).bounds hmem).2
      rw [closeSlot_of_ne (Nat.ne_of_lt hlt), Page.renumber_of_le (Nat.le_of_lt hlt), id]

/-- A draft that has not taken in the record, but otherwise is as far as if it had, lacks the node
of the record. The box of the record, if it may hold others, is open all the same. -/
theorem lacks_of_recorded {record : Record} {other : Draft}
    (hopen : (ofEvents root events).openPage = some number)
    (hframe : (ofEvents root events).SameFrame other)
    (hpage : ∀ page, other.index.page? page = (ofEvents root events).index.page? page)
    (hfriends : ∀ input line,
      other.index.friends input line = (ofEvents root events).index.friends input line)
    (hslots : other.openBoxes = if record.kind.isContainer = true then
      none :: (ofEvents root events).openBoxes else (ofEvents root events).openBoxes) :
    ((ofEvents root events).add (.record record)).Lacks
      ⟨number, ((ofEvents root events).index.pageAt number).size⟩ other := by
  have hsound := sound_ofEvents root events
  set draft := ofEvents root events with hdraft
  have hrecorded : draft.recorded? (.record record) = some (number, record) :=
    recorded?_eq_some.mpr ⟨rfl, hopen⟩
  have hparent := hsound.lt_size_of_parent? hopen
  refine ⟨?_, ?_, fun page => ?_, fun input line => ?_, fun {page} hpageOpen => ?_⟩
  · exact (draft.sameFrame_add (.record record) rfl).symm.trans hframe
  · rw [pageAt_add_of_some hrecorded, if_pos rfl, Page.size_push]
    exact Nat.lt_succ_self _
  · rw [hpage, page?_add_of_some hrecorded]
    split
    next hnumber =>
      subst hnumber
      rw [Option.map_some, NodeRef.eraseFrom, if_pos rfl,
        (hsound.page number).erase_push_size hparent, page?_of_openPage hopen]
    next hnumber =>
      have hid : NodeRef.eraseFrom ⟨number, (draft.index.pageAt number).size⟩ page = id := by
        funext page
        exact if_neg (Ne.symm hnumber)
      rw [hid, Option.map_id, id]
  · have hkept := without_friends root events number input line
    rw [← hdraft] at hkept
    rw [hfriends, friends_add_of_some hrecorded, NodeRef.without_append, hkept]
    split
    · simp [NodeRef.without]
    · simp [NodeRef.without]
  · rw [openPage_add, hopen] at hpageOpen
    obtain rfl : number = page := Option.some.inj hpageOpen
    have hboxes := hsound.map_closeSlot_openBoxes hopen
    rw [hslots, openBoxes_add hopen rfl, hrecorded]
    cases hkind : record.kind.isContainer with
    | true => simp [Event.isOpener, hkind, slotsWithout, hboxes]
    | false => simp [Event.isOpener, Event.isCloser, hkind, slotsWithout, hboxes]

/-- A record that cannot be read leaves a draft that lacks its node. -/
theorem lacks_of_damaged {record : Record} {kind : Kind}
    (hopen : (ofEvents root events).openPage = some number)
    (hrecord : record.kind.isContainer = true) (hkind : kind.isContainer = true)
    (line : List UInt8) :
    ((ofEvents root events).add (.record record)).Lacks
      ⟨number, ((ofEvents root events).index.pageAt number).size⟩
      (((ofEvents root events).add (.malformed kind)).add (.skipped line)) := by
  have hmalformed : (ofEvents root events).recorded? (.malformed kind) = none := rfl
  have hskipped :
      ((ofEvents root events).add (.malformed kind)).recorded? (.skipped line) = none := rfl
  refine lacks_of_recorded hopen ?_ (fun page => ?_) (fun input line => ?_) ?_
  · exact (sameFrame_add _ (.malformed kind) rfl).trans (sameFrame_add _ (.skipped line) rfl)
  · rw [page?_add_of_none hskipped, page?_add_of_none hmalformed, if_neg (by simp),
      if_neg (by simp)]
  · rw [friends_add_of_none hskipped, friends_add_of_none hmalformed]
  · have hopenPage : ((ofEvents root events).add (.malformed kind)).openPage = some number := by
      rw [(sameFrame_add _ (.malformed kind) rfl).openPage, hopen]
    rw [openBoxes_add hopenPage rfl, openBoxes_add hopen rfl, hmalformed]
    simp [Event.isOpener, Event.isCloser, hrecord, hkind]

/-- Without the record of a node that holds no others, a draft lacks its node. -/
theorem lacks_of_leaf {record : Record} (hopen : (ofEvents root events).openPage = some number)
    (hrecord : record.kind.isContainer = false) :
    ((ofEvents root events).add (.record record)).Lacks
      ⟨number, ((ofEvents root events).index.pageAt number).size⟩ (ofEvents root events) :=
  lacks_of_recorded hopen (.refl _) (fun _ => rfl) (fun _ _ => rfl) (by simp [hrecord])

/-- Whatever comes behind a box that cannot be read, its node is all that the index lacks. -/
theorem erases_ofEvents {record : Record} {kind : Kind}
    (hopen : (ofEvents root events).openPage = some number)
    (hrecord : record.kind.isContainer = true) (hkind : kind.isContainer = true)
    (line : List UInt8) (more : List Event) :
    (ofEvents root (events ++ [.record record] ++ more)).index.Erases
      ⟨number, ((ofEvents root events).index.pageAt number).size⟩
      (ofEvents root (events ++ [.malformed kind, .skipped line] ++ more)).index := by
  have hlacks := lacks_of_damaged hopen hrecord hkind line
  have hsound := (sound_ofEvents root events).add (.record record)
  rw [ofEvents_append, ofEvents_append root events, ofEvents_append root (events ++ _),
    ofEvents_append root events]
  exact (hlacks.foldl hsound more).erases

/-- What is deleted is the node of the record. -/
theorem exists_node?_of_openPage {record : Record}
    (hopen : (ofEvents root events).openPage = some number) (more : List Event) :
    ∃ node, (ofEvents root (events ++ [.record record] ++ more)).index.node?
        ⟨number, ((ofEvents root events).index.pageAt number).size⟩ = some node ∧
      node.bare = (ofEvents root events).nodeOf number record := by
  have hrecorded : (ofEvents root events).recorded? (.record record) = some (number, record) :=
    recorded?_eq_some.mpr ⟨rfl, hopen⟩
  have hnode := node?_add_of_some hrecorded
  rw [← ofEvents_append_singleton, ← size_pageAt root] at hnode
  exact exists_node?_append (f := Node.bare) (fun _ _ => rfl) hnode more

end Damaged

end Draft

namespace Index

/-- Damaging the line of a box that is read on a page deletes the node of the box from the index
of the document, and changes nothing else. -/
theorem erases_ofDocument (root : Option String) {before body damaged after : List UInt8}
    {first : UInt8} {kind : Kind} {record : Record} {number : UInt32}
    (hline : IsLine before (first :: body) after) (hfeed : lineFeed ∉ damaged)
    (hpart : Document.partBehind before = .content)
    (hopen : openPage (Document.events before) = some number)
    (hkind : Kind.ofByte? first = some kind) (hcontainer : kind.isContainer = true)
    (hbody : Record.parse? kind (chomp body) = some record)
    (hdamaged : Record.parse? kind (chomp damaged) = none) :
    let index := ofDocument root (before ++ (first :: body) ++ after)
    let other := ofDocument root (before ++ (first :: damaged) ++ after)
    let box : NodeRef := ⟨number, ((ofDocument root before).pageAt number).size⟩
    index.Erases box other ∧ ∃ node, index.node? box = some node ∧
      node.bare = Node.ofRecord (ofDocument root before).header.scale number record := by
  intro index other box
  have hother : IsLine before (first :: damaged) after := by
    refine ⟨hline.before, ?_, hline.after⟩
    rw [List.mem_cons, not_or]
    exact ⟨Ne.symm (Document.ne_of_ofByte? hkind rfl), hfeed⟩
  have hopenPage : (Draft.ofEvents root (Document.events before)).openPage = some number := by
    rw [openPage_ofEvents, hopen]
  have hcontainer' : record.kind.isContainer = true := by
    rw [Record.kind_of_parse? hbody, hcontainer]
  have hindex : Document.events (before ++ (first :: body) ++ after) =
      Document.events before ++ [.record record] ++
        Document.eventsFrom .content (lines after.tail) := by
    rw [Document.events_of_record hline hpart hkind, Document.recordEvents, hbody]
  have hotherIndex : Document.events (before ++ (first :: damaged) ++ after) =
      Document.events before ++ [.malformed kind, .skipped (first :: chomp damaged)] ++
        Document.eventsFrom .content (lines after.tail) := by
    rw [Document.events_of_record hother hpart hkind, Document.recordEvents, hdamaged]
  refine ⟨?_, ?_⟩
  · have herases := Draft.erases_ofEvents hopenPage hcontainer' hcontainer
      (first :: chomp damaged) (Document.eventsFrom .content (lines after.tail))
    rwa [← hindex, ← hotherIndex] at herases
  · obtain ⟨node, hget, hbare⟩ := Draft.exists_node?_of_openPage hopenPage
      (Document.eventsFrom .content (lines after.tail))
    rw [← hindex] at hget
    exact ⟨node, hget, hbare⟩

/-- A box on a page that is not closed loses its line number. Its kern goes to the box around it,
in front of the glue that is a child of that box already. -/
theorem erases_ofDocument_unclosed :
    let before := Utf8.encode "Content:\n\x7b1\n[1,3:0,0:9,9,0\n"
    let body := Utf8.encode "1,7:0,0:9,9,0"
    let damaged := Utf8.encode "1,?:0,0:9,9,0"
    let after := Utf8.encode "\nk1,7:1,1\n)\ng1,3:2,2\n"
    let index := ofDocument none (before ++ (40 :: body) ++ after)
    let other := ofDocument none (before ++ (40 :: damaged) ++ after)
    (IsLine before (40 :: body) after ∧ lineFeed ∉ damaged ∧
      Document.partBehind before = .content ∧ openPage (Document.events before) = some 1 ∧
      Kind.ofByte? 40 = some .hbox ∧ Kind.hbox.isContainer = true ∧
      Record.parse? .hbox (chomp body) = some ⟨.hbox, 1, 7, none, 0, 0, some ⟨9, some 9, some 0⟩⟩ ∧
      Record.parse? .hbox (chomp damaged) = none) ∧
      index.Erases ⟨1, 1⟩ other ∧
      (index.pageAt 1).children 0 = [1, 3] ∧ (index.pageAt 1).children 1 = [2] ∧
      (other.pageAt 1).children 0 = [1, 2] ∧ (other.pageAt 1).children 1 = [] ∧
      index.friends 1 7 = [⟨1, 1⟩, ⟨1, 2⟩] ∧ other.friends 1 7 = [⟨1, 1⟩] := by
  intro before body damaged after index other
  have hline : IsLine before (40 :: body) after :=
    ⟨by decide +kernel, by decide +kernel, Or.inr (by decide +kernel)⟩
  have hfeed : lineFeed ∉ damaged := by decide +kernel
  have hpart : Document.partBehind before = .content := by decide +kernel
  have hopen : openPage (Document.events before) = some 1 := by decide +kernel
  have hbody : Record.parse? .hbox (chomp body) =
      some ⟨.hbox, 1, 7, none, 0, 0, some ⟨9, some 9, some 0⟩⟩ := by decide +kernel
  have hdamaged : Record.parse? .hbox (chomp damaged) = none := by decide +kernel
  have hsize : ((ofDocument none before).pageAt 1).size = 1 := by decide +kernel
  have herases := (erases_ofDocument none hline hfeed hpart hopen rfl rfl hbody hdamaged).1
  rw [hsize] at herases
  exact ⟨⟨hline, hfeed, hpart, hopen, rfl, rfl, hbody, hdamaged⟩, herases, by decide +kernel,
    by decide +kernel, by decide +kernel, by decide +kernel, by decide +kernel, by decide +kernel⟩

end Index

end PageSync

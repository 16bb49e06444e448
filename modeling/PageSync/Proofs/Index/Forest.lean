import Mathlib.Data.List.ReduceOption
import PageSync.Proofs.Index.Arrival
import PageSync.Proofs.Page.Forest

/-! # Pages of an index

Whatever events come, in whatever order, every page of the index is a forest
in preorder. What carries this is that the open boxes always lead down the
edge of the open page: ends take boxes off the inner end only, and a page that
is opened again starts with no box open.
-/

namespace PageSync

namespace Draft

/-- The open boxes that could be read, outermost first. -/
def boxes (draft : Draft) : List Nat := draft.openBoxes.reduceOption.reverse

theorem parent?_eq_getLast? (draft : Draft) : draft.parent? = draft.boxes.getLast? := by
  rw [parent?, boxes, List.getLast?_reverse, List.reduceOption, List.head?_filterMap]

/-- All pages are sound, and the open boxes are boxes on the edge of the open page. -/
structure Sound (draft : Draft) : Prop where
  page : ∀ number, (draft.index.pageAt number).Sound
  numbered : ∀ {number i node}, (draft.index.pageAt number).get? i = some node →
    node.page = number
  edge : ∀ {number}, draft.openPage = some number →
    (draft.index.pageAt number).Edge (draft.index.pageAt number).roots.toList 0 draft.boxes
  container : ∀ {number}, draft.openPage = some number → ∀ box ∈ draft.boxes,
    (draft.index.pageAt number).IsContainer box

namespace Sound

variable {draft : Draft} {event : Event} {number page : UInt32} {record : Record}

theorem empty (root : Option String) : Sound { root := root } where
  page number := Page.Sound.empty
  numbered {number i node} hget := by
    have hi := Page.lt_size_of_get? hget
    exact absurd hi (Nat.not_lt_zero i)
  edge hopen := by contradiction
  container hopen := by contradiction

/-- Where no page changes, only the boxes that are open then need a look. -/
theorem of_pageAt (h : draft.Sound) {next : Draft}
    (hpage : ∀ number, next.index.pageAt number = draft.index.pageAt number)
    (hedge : ∀ {number}, next.openPage = some number →
      (draft.index.pageAt number).Edge (draft.index.pageAt number).roots.toList 0 next.boxes)
    (hcontainer : ∀ {number}, next.openPage = some number → ∀ box ∈ next.boxes,
      (draft.index.pageAt number).IsContainer box) : next.Sound where
  page number := hpage number ▸ h.page number
  numbered {number i node} hget := by
    rw [hpage] at hget
    exact h.numbered hget
  edge {number} hopen := by
    rw [hpage]
    exact hedge hopen
  container {number} hopen := by
    rw [hpage]
    exact hcontainer hopen

/-- A page mark opens no box, and every sound page has an edge without boxes. -/
theorem add_of_mark (h : draft.Sound) {mark : Option UInt32} (hmark : event.pageMark? = some mark) :
    (draft.add event).Sound := by
  have hboxes : (draft.add event).boxes = [] := by
    rw [boxes, openBoxes_add_of_mark hmark]
    rfl
  apply h.of_pageAt (Draft.pageAt_add_of_none (draft.recorded?_of_mark hmark))
  · intro number _
    rw [hboxes]
    exact .closed (h.page number).covers
  · intro number _ box hbox
    rw [hboxes] at hbox
    exact absurd hbox List.not_mem_nil

/-- An event that adds no node leaves the boxes as they are or closes the innermost one. -/
theorem boxes_add_of_none (hopen : draft.openPage = some page) (hmark : event.pageMark? = none)
    (hrecorded : draft.recorded? event = none) :
    (draft.add event).boxes = draft.boxes ∨ (draft.add event).boxes = draft.boxes.dropLast := by
  rw [boxes, boxes, openBoxes_add hopen hmark, hrecorded, Option.map_none]
  split
  next => exact Or.inl (by rw [List.reduceOption_cons_of_none])
  next =>
    split
    next =>
      cases draft.openBoxes with
      | nil => exact Or.inl rfl
      | cons slot rest =>
          cases slot with
          | none => exact Or.inl (by rw [List.tail_cons, List.reduceOption_cons_of_none])
          | some box =>
              refine Or.inr ?_
              rw [List.tail_cons, List.reduceOption_cons_of_some, List.reverse_cons,
                List.dropLast_concat]
    next => exact Or.inl rfl

theorem add_of_none (h : draft.Sound) (hmark : event.pageMark? = none)
    (hrecorded : draft.recorded? event = none) : (draft.add event).Sound := by
  have hopenPage : (draft.add event).openPage = draft.openPage := by
    rw [openPage_add, hmark, Option.getD_none]
  apply h.of_pageAt (Draft.pageAt_add_of_none hrecorded)
  · intro number hopen
    rw [hopenPage] at hopen
    rcases boxes_add_of_none hopen hmark hrecorded with hboxes | hboxes
    · exact hboxes ▸ h.edge hopen
    · exact hboxes ▸ (h.edge hopen).dropLast
  · intro number hopen box hbox
    rw [hopenPage] at hopen
    apply h.container hopen
    rcases boxes_add_of_none hopen hmark hrecorded with hboxes | hboxes
    · exact hboxes ▸ hbox
    · rw [hboxes] at hbox
      exact List.dropLast_subset _ hbox

theorem lt_size_of_parent? (h : draft.Sound) (hopen : draft.openPage = some page) :
    ∀ p ∈ draft.parent?, p < (draft.index.pageAt page).size := by
  intro p hp
  rw [parent?_eq_getLast?] at hp
  exact ((h.edge hopen).bounds (List.mem_of_mem_getLast? hp)).2

/-- A record goes below the innermost open box, and is itself open if it may hold others. -/
theorem boxes_add_of_some (hrecorded : draft.recorded? event = some (page, record)) :
    (draft.add event).boxes =
      if record.kind.isContainer = true then draft.boxes ++ [(draft.index.pageAt page).size]
      else draft.boxes := by
  obtain ⟨rfl, hopen⟩ := recorded?_eq_some.mp hrecorded
  rw [boxes, boxes, openBoxes_add hopen rfl, hrecorded, Option.map_some]
  simp only [Event.isOpener, Event.isCloser, Bool.false_eq_true, if_false]
  split
  · rw [List.reduceOption_cons_of_some, List.reverse_cons]
  · rfl

/-- Nodes keep their page, and the new one is on the page to which it is added. -/
theorem page_eq_of_add (h : draft.Sound) (hrecorded : draft.recorded? event = some (page, record))
    {i : Nat} {node : Node} (hget : ((draft.add event).index.pageAt number).get? i = some node) :
    node.page = number := by
  have hopen : draft.openPage = some page := (recorded?_eq_some.mp hrecorded).2
  rw [pageAt_add_of_some hrecorded] at hget
  split at hget
  next heq =>
    subst heq
    have hmap := Page.map_get?_push (f := Node.page) (fun _ _ => rfl) (h.lt_size_of_parent? hopen)
      (draft.nodeOf page record) i
    rw [hget, Option.map_some] at hmap
    split at hmap
    · exact Option.some.inj hmap
    · obtain ⟨old, hold, heq⟩ := Option.map_eq_some_iff.mp hmap.symm
      exact heq ▸ h.numbered hold
  next => exact h.numbered hget

theorem add_of_some (h : draft.Sound) (hrecorded : draft.recorded? event = some (page, record)) :
    (draft.add event).Sound := by
  have hopen : draft.openPage = some page := (recorded?_eq_some.mp hrecorded).2
  have hopenPage : (draft.add event).openPage = some page := by
    rw [openPage_add, (recorded?_eq_some.mp hrecorded).1]
    exact hopen
  have hedge := h.edge hopen
  have hparent := h.lt_size_of_parent? hopen
  have hpage := pageAt_add_of_some hrecorded
  rw [parent?_eq_getLast?] at hpage hparent
  refine ⟨?_, fun hget => h.page_eq_of_add hrecorded hget, ?_, ?_⟩
  · intro number
    rw [hpage]
    split
    next heq => exact heq ▸ (h.page page).push hedge (h.container hopen) _
    next => exact h.page number
  · intro number hnumber
    obtain rfl : page = number := Option.some.inj (hopenPage ▸ hnumber)
    rw [hpage, if_pos rfl, boxes_add_of_some hrecorded]
    have hpush := Page.Sound.edge_push hedge (draft.nodeOf page record)
    split
    · exact hpush
    · -- the new node ends the edge, and as it cannot hold others it is closed at once
      have hclosed := hpush.dropLast
      rwa [List.dropLast_concat] at hclosed
  · intro number hnumber box hbox
    obtain rfl : page = number := Option.some.inj (hopenPage ▸ hnumber)
    rw [boxes_add_of_some hrecorded] at hbox
    rw [hpage, if_pos rfl]
    split at hbox
    next hkind =>
      rcases List.mem_append.mp hbox with hbox | hbox
      · exact (h.container hopen box hbox).push hparent _
      · rw [List.mem_singleton.mp hbox]
        exact ⟨_, Page.get?_push_size hparent _, hkind⟩
    next => exact (h.container hopen box hbox).push hparent _

theorem add (h : draft.Sound) (event : Event) : (draft.add event).Sound := by
  cases hmark : event.pageMark? with
  | some mark => exact h.add_of_mark hmark
  | none =>
      cases hrecorded : draft.recorded? event with
      | none => exact h.add_of_none hmark hrecorded
      | some placed =>
          obtain ⟨page, record⟩ := placed
          exact h.add_of_some hrecorded

end Sound

theorem sound_ofEvents (root : Option String) (events : List Event) :
    (ofEvents root events).Sound := by
  induction events using List.reverseRecOn with
  | nil => exact Sound.empty root
  | append_singleton events event ih =>
      rw [ofEvents_append_singleton]
      exact ih.add event

theorem page_sound_ofEvents {root : Option String} {events : List Event} {number : UInt32}
    {page : Page} (hpage : (ofEvents root events).index.page? number = some page) : page.Sound :=
  Index.pageAt_of_page? hpage ▸ (sound_ofEvents root events).page number

/-! ## Nodes over a run -/

section Kept

variable {root : Option String} {events : List Event} {event : Event} {page : UInt32}
  {record : Record}

/-- The node that a record becomes is the next one of its page. -/
theorem node?_add_of_some
    (hrecorded : (ofEvents root events).recorded? event = some (page, record)) :
    ((ofEvents root events).add event).index.node? ⟨page, arrivalsOn events page⟩ =
      some { (ofEvents root events).nodeOf page record with
        parent := (ofEvents root events).parent?, children := #[] } := by
  have hopen := (recorded?_eq_some.mp hrecorded).2
  rw [Index.node?_eq_get?, pageAt_add_of_some hrecorded, if_pos rfl, ← size_pageAt root]
  exact Page.get?_push_size ((sound_ofEvents root events).lt_size_of_parent? hopen) _

variable {α : Type} {f : Node → α} {ref : NodeRef} {old : Node}

theorem exists_node?_add (hf : ∀ id node, f (Node.addChild id node) = f node)
    (hold : (ofEvents root events).index.node? ref = some old) (event : Event) :
    ∃ new, ((ofEvents root events).add event).index.node? ref = some new ∧ f new = f old := by
  rw [Index.node?_eq_get?] at hold ⊢
  cases hrecorded : (ofEvents root events).recorded? event with
  | none =>
      rw [pageAt_add_of_none hrecorded]
      exact ⟨old, hold, rfl⟩
  | some placed =>
      obtain ⟨page, record⟩ := placed
      have hopen := (recorded?_eq_some.mp hrecorded).2
      have hparent := (sound_ofEvents root events).lt_size_of_parent? hopen
      rw [pageAt_add_of_some hrecorded]
      split
      next heq =>
        subst heq
        exact Page.exists_get?_push hf hparent _ hold
      next => exact ⟨old, hold, rfl⟩

/-- A node stays what it is, except that it may get further children. -/
theorem exists_node?_append (hf : ∀ id node, f (Node.addChild id node) = f node)
    (hold : (ofEvents root events).index.node? ref = some old) (more : List Event) :
    ∃ new, (ofEvents root (events ++ more)).index.node? ref = some new ∧ f new = f old := by
  induction more using List.reverseRecOn with
  | nil => exact ⟨old, by rwa [List.append_nil], rfl⟩
  | append_singleton more event ih =>
      obtain ⟨middle, hmiddle, hkept⟩ := ih
      obtain ⟨new, hnew, hsame⟩ := exists_node?_add hf hmiddle event
      rw [← List.append_assoc, ofEvents_append_singleton]
      exact ⟨new, hnew, hsame.trans hkept⟩

/-- The node of a record is that record, below the innermost box that is open where it comes. -/
theorem exists_node?_of_recorded
    (hrecorded : (ofEvents root events).recorded? event = some (page, record))
    (more : List Event) :
    ∃ id node, place? (events ++ [event] ++ more) events.length = some ⟨page, id⟩ ∧
      (ofEvents root (events ++ [event] ++ more)).index.node? ⟨page, id⟩ = some node ∧
      node = { (ofEvents root events).nodeOf page record with
        parent := (ofEvents root events).parent?, children := node.children } := by
  have hnode := node?_add_of_some hrecorded
  rw [← ofEvents_append_singleton] at hnode
  obtain ⟨node, hget, hsame⟩ := exists_node?_append
    (f := fun node => { node with children := #[] }) (fun _ _ => rfl) hnode more
  refine ⟨arrivalsOn events page, node, ?_, hget, ?_⟩
  · rw [place?_append (by simp), place?_length root, hrecorded, Option.map_some]
  · calc
      node = { { node with children := #[] } with children := node.children } := rfl
      _ = _ := by rw [hsame]

theorem exists_node?_of_record (root : Option String) {i : Nat}
    (hrecord : events[i]? = some (.record record))
    (hopen : PageSync.openPage (events.take i) = some page) :
    ∃ id node, place? events i = some ⟨page, id⟩ ∧
      (ofEvents root events).index.node? ⟨page, id⟩ = some node ∧
      node = { (ofEvents root (events.take i)).nodeOf page record with
        parent := (ofEvents root (events.take i)).parent?, children := node.children } := by
  have hi : i < events.length := (List.getElem?_eq_some_iff.mp hrecord).1
  have hsplit : events = events.take i ++ [.record record] ++ events.drop (i + 1) := by
    rw [List.append_assoc, List.singleton_append, ← (List.getElem?_eq_some_iff.mp hrecord).2,
      ← List.drop_eq_getElem_cons hi, List.take_append_drop]
  have hlength : (events.take i).length = i := List.length_take_of_le (Nat.le_of_lt hi)
  have hrecorded : (ofEvents root (events.take i)).recorded? (.record record) =
      some (page, record) :=
    recorded?_eq_some.mpr ⟨rfl, by rw [openPage_ofEvents, hopen]⟩
  have hnode := exists_node?_of_recorded hrecorded (events.drop (i + 1))
  rwa [← hsplit, hlength] at hnode

end Kept

/-- Every record on an open page is a node, and every page is a forest of nodes that know their
page. -/
theorem isForest_ofEvents (root : Option String) (events : List Event) :
    ((ofEvents root events).index.nodeCount =
      (List.range events.length).countP fun i => (recordPage? events i).isSome) ∧
    ∀ number page, (ofEvents root events).index.page? number = some page →
      page.IsForest ∧ ∀ node ∈ page.nodes, node.page = number := by
  refine ⟨by rw [nodeCount_ofEvents, length_arrivals], ?_⟩
  intro number page hpage
  have hsound := sound_ofEvents root events
  obtain rfl := Index.pageAt_of_page? hpage
  refine ⟨(hsound.page number).isForest, ?_⟩
  intro node hnode
  obtain ⟨i, hi⟩ := Array.mem_iff_getElem?.mp hnode
  exact hsound.numbered hi

/-- The end of a box that is not open, a box that could not be read and a page that is opened
twice. -/
theorem isForest_ofEvents_twice_opened :
    let record (kind : Kind) : Event := .record ⟨kind, 1, 1, none, 0, 0, none⟩
    let events : List Event := [.pageStart 1, .boxEnd, record .vbox, .malformed .hbox,
      record .kern, .pageEnd 2, record .glue, .pageStart 1, record .hbox, record .math]
    let index := (ofEvents none events).index
    (index.nodeCount = (List.range events.length).countP fun i => (recordPage? events i).isSome) ∧
      index.page? 1 = some (index.pageAt 1) ∧ (index.pageAt 1).size = 4 ∧
      (index.pageAt 1).IsForest ∧ ∀ node ∈ (index.pageAt 1).nodes, node.page = 1 := by
  intro record events index
  have hsize : (index.pageAt 1).size = 4 := by
    rw [size_pageAt]
    decide
  have hpage : index.page? 1 = some (index.pageAt 1) :=
    Index.page?_of_size_pos (by rw [hsize]; decide)
  obtain ⟨hcount, hforest⟩ := isForest_ofEvents none events
  exact ⟨hcount, hpage, hsize, hforest 1 _ hpage⟩

end Draft

end PageSync

import Mathlib.Data.Finset.Card
import PageSync.Proofs.Index.Forest

/-! # Nodes of a source line

An index notes every node for its source line, beside its pages. The two
always agree: the nodes of a line are the nodes on the pages that name it, in
the order in which their records came, whichever pages these went to.
-/

namespace PageSync

namespace Index

/-- The nodes of all pages. -/
def nodes (index : Index) : List Node :=
  index.pageEntries.flatMap fun (_, page) => page.nodes.toList

/-- Those of the given nodes that name a line of an input. -/
def located (index : Index) (location : Location) (refs : List NodeRef) : List NodeRef :=
  refs.filter fun ref => (index.node? ref).map Node.location = some location

/-- What is noted for the lines of the inputs agrees with the nodes on the pages. -/
structure ListsLines (index : Index) (events : List Event) : Prop where
  /-- Nothing is listed for a line that is not known. -/
  line_zero : ∀ input, index.friends input 0 = []
  /-- The nodes of a line are all nodes that name it, and only these. -/
  mem_friends : ∀ {input line}, 0 < line → ∀ ref, ref ∈ index.friends input line ↔
    ∃ node, index.node? ref = some node ∧ node.input = input ∧ node.line = line
  /-- No node is listed twice. -/
  nodup : ∀ input line, (index.friends input line).Nodup
  /-- The nodes are listed in the order of their records over all pages. -/
  in_order : ∀ input line, (index.friends input line).Sublist (arrivals events)
  /-- On a page, the numbers of the nodes increase. -/
  ascending : ∀ input line,
    (index.friends input line).Pairwise fun a b => a.page = b.page → a.id < b.id
  /-- No record of a line is lost if it comes on an open page. -/
  listed : ∀ {i record page}, events[i]? = some (.record record) →
    openPage (events.take i) = some page → 0 < record.line →
    ∃ id, place? events i = some ⟨page, id⟩ ∧ ⟨page, id⟩ ∈ index.friends record.input record.line
  /-- Whatever is listed is a node. -/
  resolves : ∀ {location : Location} {refs : Array NodeRef},
    index.recorded[location]? = some refs → ∀ ref ∈ refs, ∃ node, index.node? ref = some node
  /-- As many lines are counted as the nodes name. -/
  lineCount : index.lineCount =
    ((index.nodes.filter Node.hasLine).map Node.location).toFinset.card

theorem mem_nodes_iff {index : Index} {node : Node} :
    node ∈ index.nodes ↔ ∃ ref, index.node? ref = some node := by
  rw [nodes, List.mem_flatMap]
  constructor
  · rintro ⟨⟨number, page⟩, hpage, hnode⟩
    obtain ⟨id, hid⟩ := List.mem_iff_getElem?.mp hnode
    refine ⟨⟨number, id⟩, ?_⟩
    rw [node?, page?, Std.TreeMap.mem_toList_iff_getElem?_eq_some.mp hpage, Option.bind_some,
      Page.get?, ← Array.getElem?_toList, hid]
  · rintro ⟨ref, href⟩
    obtain ⟨page, hpage, hget⟩ := Option.bind_eq_some_iff.mp href
    exact ⟨(ref.page, page), Std.TreeMap.mem_toList_iff_getElem?_eq_some.mpr hpage,
      Array.mem_toList_iff.mpr (Array.mem_of_getElem? hget)⟩

theorem mem_located_iff {index : Index} {location : Location} {refs : List NodeRef}
    {ref : NodeRef} : ref ∈ index.located location refs ↔
      ref ∈ refs ∧ ∃ node, index.node? ref = some node ∧ node.location = location := by
  rw [located, List.mem_filter, decide_eq_true_eq, Option.map_eq_some_iff]

end Index

/-! ## Lines over a run -/

section Run

variable {root : Option String} {events : List Event} {event : Event} {page : UInt32}
  {record : Record}

theorem located_add_of_none (hrecorded : (Draft.ofEvents root events).recorded? event = none)
    (location : Location) :
    (Draft.ofEvents root (events ++ [event])).index.located location
        (arrivals (events ++ [event])) =
      (Draft.ofEvents root events).index.located location (arrivals events) := by
  rw [arrivals_of_none hrecorded, Draft.ofEvents_append_singleton]
  apply List.filter_congr
  intro ref _
  rw [Index.node?_eq_get?, Index.node?_eq_get?, Draft.pageAt_add_of_none hrecorded]

theorem located_add_of_some
    (hrecorded : (Draft.ofEvents root events).recorded? event = some (page, record))
    (location : Location) :
    (Draft.ofEvents root (events ++ [event])).index.located location
        (arrivals (events ++ [event])) =
      (Draft.ofEvents root events).index.located location (arrivals events) ++
        if ⟨record.input, record.line⟩ = location then [⟨page, arrivalsOn events page⟩]
        else [] := by
  rw [arrivals_of_some hrecorded, Draft.ofEvents_append_singleton, Index.located,
    List.filter_append, List.filter_singleton, Draft.node?_add_of_some hrecorded]
  congr 1
  · -- an earlier node may have got a child, which leaves its line as it is
    apply List.filter_congr
    intro ref href
    obtain ⟨old, hold⟩ := Option.isSome_iff_exists.mp ((mem_arrivals_iff root events ref).mp href)
    obtain ⟨new, hnew, hsame⟩ :=
      Draft.exists_node?_add (f := Node.location) (fun _ _ => rfl) hold event
    rw [hnew, hold, Option.map_some, Option.map_some, hsame]
  · simp only [Option.map_some, Option.some.injEq, Bool.cond_decide]
    rfl

/-- What is noted for a line that these nodes name, if they are all. -/
def noted (location : Location) (refs : List NodeRef) : Option (Array NodeRef) :=
  if 0 < location.line ∧ refs ≠ [] then some refs.toArray else none

section Noted

variable {location : Location} {refs : List NodeRef}

theorem noted_nil : noted location [] = none :=
  if_neg fun hnoted => hnoted.2 rfl

theorem noted_eq_none (hline : ¬ 0 < location.line) : noted location refs = none :=
  if_neg fun hnoted => hline hnoted.1

theorem getD_noted (hline : 0 < location.line) : (noted location refs).getD #[] = refs.toArray := by
  by_cases hnil : refs = []
  · rw [hnil, noted_nil, Option.getD_none]
  · rw [noted, if_pos ⟨hline, hnil⟩, Option.getD_some]

theorem noted_concat (hline : 0 < location.line) (ref : NodeRef) :
    noted location (refs ++ [ref]) = some (((noted location refs).getD #[]).push ref) := by
  rw [getD_noted hline, noted, if_pos ⟨hline, by simp⟩, List.push_toArray]

end Noted

theorem getElem?_recorded_ofEvents (root : Option String) (events : List Event)
    (location : Location) :
    (Draft.ofEvents root events).index.recorded[location]? =
      noted location ((Draft.ofEvents root events).index.located location (arrivals events)) := by
  induction events using List.reverseRecOn with
  | nil => exact Std.TreeMap.getElem?_emptyc.trans noted_nil.symm
  | append_singleton events event ih =>
      cases hrecorded : (Draft.ofEvents root events).recorded? event with
      | none =>
          rw [located_add_of_none hrecorded, Draft.ofEvents_append_singleton,
            Draft.recorded_add_of_none hrecorded, ih]
      | some placed =>
          obtain ⟨page, record⟩ := placed
          rw [located_add_of_some hrecorded, Draft.ofEvents_append_singleton,
            Draft.getElem?_recorded_add_of_some hrecorded, Std.TreeMap.getD_eq_getD_getElem?, ih,
            size_pageAt]
          by_cases hlocation : ⟨record.input, record.line⟩ = location
          · subst hlocation
            -- a record without a line is a node of line 0, for which nothing is ever noted
            by_cases hline : 0 < record.line
            · rw [if_pos ⟨hline, rfl⟩, if_pos rfl, noted_concat hline]
            · rw [if_neg fun hlisted => hline hlisted.1, noted_eq_none hline, noted_eq_none hline]
          · rw [if_neg fun hlisted => hlocation hlisted.2, if_neg hlocation, List.append_nil]

variable (root events)

theorem friends_eq_located {input line : UInt32} (hline : 0 < line) :
    (Draft.ofEvents root events).index.friends input line =
      (Draft.ofEvents root events).index.located ⟨input, line⟩ (arrivals events) := by
  rw [Index.friends, Std.TreeMap.getD_eq_getD_getElem?, getElem?_recorded_ofEvents,
    getD_noted hline]

theorem friends_line_zero (input : UInt32) :
    (Draft.ofEvents root events).index.friends input 0 = [] := by
  rw [Index.friends, Std.TreeMap.getD_eq_getD_getElem?, getElem?_recorded_ofEvents,
    noted_eq_none (show ¬ 0 < (0 : UInt32) by decide)]
  rfl

theorem friends_sublist (input line : UInt32) :
    ((Draft.ofEvents root events).index.friends input line).Sublist (arrivals events) := by
  by_cases hline : 0 < line
  · rw [friends_eq_located root events hline]
    exact List.filter_sublist
  · obtain rfl : line = 0 := by simpa using hline
    rw [friends_line_zero]
    exact List.nil_sublist _

theorem mem_friends_iff {input line : UInt32} (hline : 0 < line) (ref : NodeRef) :
    ref ∈ (Draft.ofEvents root events).index.friends input line ↔
      ∃ node, (Draft.ofEvents root events).index.node? ref = some node ∧
        node.location = ⟨input, line⟩ := by
  rw [friends_eq_located root events hline, Index.mem_located_iff, mem_arrivals_iff root]
  constructor
  · rintro ⟨-, hnode⟩
    exact hnode
  · rintro ⟨node, hget, hlocation⟩
    exact ⟨by rw [hget, Option.isSome_some], node, hget, hlocation⟩

theorem mem_recorded_iff (location : Location) :
    location ∈ (Draft.ofEvents root events).index.recorded ↔
      0 < location.line ∧ ∃ node ∈ (Draft.ofEvents root events).index.nodes,
        node.location = location := by
  rw [Std.TreeMap.mem_iff_isSome_getElem?, getElem?_recorded_ofEvents, noted, Option.isSome_ite]
  apply and_congr_right
  intro hline
  constructor
  · intro hlocated
    obtain ⟨ref, href⟩ := List.exists_mem_of_ne_nil _ hlocated
    obtain ⟨-, node, hget, hlocation⟩ := Index.mem_located_iff.mp href
    exact ⟨node, Index.mem_nodes_iff.mpr ⟨ref, hget⟩, hlocation⟩
  · rintro ⟨node, hnode, hlocation⟩
    obtain ⟨ref, hget⟩ := Index.mem_nodes_iff.mp hnode
    have hmem : ref ∈ arrivals events := (mem_arrivals_iff root events ref).mpr (by rw [hget]; rfl)
    exact List.ne_nil_of_mem (Index.mem_located_iff.mpr ⟨hmem, node, hget, hlocation⟩)

/-- As many lines are noted as the nodes name. -/
theorem lineCount_ofEvents :
    (Draft.ofEvents root events).index.lineCount =
      (((Draft.ofEvents root events).index.nodes.filter Node.hasLine).map
        Node.location).toFinset.card := by
  rw [Index.lineCount, ← Std.TreeMap.length_keys,
    ← List.toFinset_card_of_nodup Std.TreeMap.nodup_keys]
  congr 1
  ext location
  rw [List.mem_toFinset, List.mem_toFinset, Std.TreeMap.mem_keys, mem_recorded_iff, List.mem_map]
  constructor
  · rintro ⟨hline, node, hnode, rfl⟩
    exact ⟨node, List.mem_filter.mpr ⟨hnode, decide_eq_true hline⟩, rfl⟩
  · rintro ⟨node, hnode, rfl⟩
    obtain ⟨hmem, hline⟩ := List.mem_filter.mp hnode
    exact ⟨of_decide_eq_true hline, node, hmem, rfl⟩

/-- Whatever events come, the lines and the pages of the index agree. -/
theorem listsLines_ofEvents : (Draft.ofEvents root events).index.ListsLines events where
  line_zero := friends_line_zero root events
  mem_friends {input line} hline ref := by
    rw [mem_friends_iff root events hline]
    simp only [Node.location, Location.mk.injEq]
  nodup input line := (friends_sublist root events input line).nodup (arrivals_nodup events)
  in_order := friends_sublist root events
  ascending input line :=
    (arrivals_pairwise events).sublist (friends_sublist root events input line)
  listed {i record page} hrecord hopen hline := by
    obtain ⟨id, node, hplace, hget, hnode⟩ := Draft.exists_node?_of_record root hrecord hopen
    refine ⟨id, hplace, (mem_friends_iff root events hline _).mpr ⟨node, hget, ?_⟩⟩
    rw [hnode]
    rfl
  resolves {location refs} hrefs ref href := by
    rw [getElem?_recorded_ofEvents, noted, Option.ite_none_right_eq_some] at hrefs
    obtain ⟨-, hrefs⟩ := hrefs
    rw [← Option.some.inj hrefs, List.mem_toArray] at href
    obtain ⟨-, node, hget, -⟩ := Index.mem_located_iff.mp href
    exact ⟨node, hget⟩
  lineCount := lineCount_ofEvents root events

example : (Draft.ofEvents none [.pageStart 2, .record ⟨.kern, 1, 5, none, 0, 0, none⟩,
    .pageStart 1, .record ⟨.hbox, 1, 5, none, 0, 0, none⟩, .pageEnd 9,
    .record ⟨.glue, 1, 5, none, 0, 0, none⟩, .pageStart 2,
    .record ⟨.math, 1, 5, none, 0, 0, none⟩]).index.friends 1 5 = [⟨2, 0⟩, ⟨1, 0⟩, ⟨2, 1⟩] := by
  decide

end Run

end PageSync

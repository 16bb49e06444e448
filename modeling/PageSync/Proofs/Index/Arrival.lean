import Mathlib.Algebra.BigOperators.Group.Finset.Basic
import Mathlib.Data.List.Induction
import PageSync.Proofs.Index.Step

/-! # Arrivals

Which node a record becomes can be told from the events alone. It belongs to
the page that the last bracket in front of it opened, and its number is how
many records went to that page before it. The arrivals are these places with
their records, in the order of the events over all pages.
-/

namespace PageSync

/-- The page that is open behind the events. -/
def openPage (events : List Event) : Option UInt32 :=
  (events.reverse.findSome? Event.pageMark?).join

/-- The page of the record at a position, if there is a record and it lies on a page. -/
def recordPage? (events : List Event) (i : Nat) : Option UInt32 :=
  match events[i]? with
  | some (.record _) => openPage (events.take i)
  | _ => none

/-- The place of the node that the record at a position becomes. -/
def place? (events : List Event) (i : Nat) : Option NodeRef :=
  (recordPage? events i).map fun page =>
    ⟨page, (List.range i).countP fun j => recordPage? events j == some page⟩

/-- The places of all records that lie on a page, in the order in which they come. -/
def arrivals (events : List Event) : List NodeRef :=
  (List.range events.length).filterMap (place? events)

theorem openPage_append_singleton (events : List Event) (event : Event) :
    openPage (events ++ [event]) = event.pageMark?.getD (openPage events) := by
  rw [openPage, List.reverse_append, List.reverse_singleton, List.singleton_append,
    List.findSome?_cons]
  cases event.pageMark? with
  | none => rfl
  | some mark => rfl

theorem recordPage?_eq_some_iff {events : List Event} {i : Nat} {page : UInt32} :
    recordPage? events i = some page ↔
      (∃ record, events[i]? = some (.record record)) ∧ openPage (events.take i) = some page := by
  rw [recordPage?]
  split
  next record hrecord =>
    rw [hrecord]
    exact ⟨fun hpage => ⟨⟨record, rfl⟩, hpage⟩, And.right⟩
  next hother =>
    constructor
    · intro hpage
      contradiction
    · rintro ⟨⟨record, hrecord⟩, -⟩
      exact absurd hrecord (hother record)

theorem recordPage?_append {events : List Event} {i : Nat} (hi : i < events.length)
    (more : List Event) : recordPage? (events ++ more) i = recordPage? events i := by
  rw [recordPage?, recordPage?, List.getElem?_append_left hi,
    List.take_append_of_le_length (Nat.le_of_lt hi)]

theorem place?_append {events : List Event} {i : Nat} (hi : i < events.length)
    (more : List Event) : place? (events ++ more) i = place? events i := by
  rw [place?, place?, recordPage?_append hi]
  congr 1
  funext page
  congr 1
  apply List.countP_congr
  intro j hj
  rw [recordPage?_append (Nat.lt_trans (List.mem_range.mp hj) hi)]

theorem recordPage?_length (events : List Event) (event : Event) :
    recordPage? (events ++ [event]) events.length =
      match event with
      | .record _ => openPage events
      | _ => none := by
  rw [recordPage?, List.getElem?_concat_length, List.take_left]
  cases event <;> rfl

/-- How many records went to a page. -/
def arrivalsOn (events : List Event) (page : UInt32) : Nat :=
  (arrivals events).countP fun ref => ref.page == page

theorem countP_recordPage? (events : List Event) (page : UInt32) :
    ((List.range events.length).countP fun j => recordPage? events j == some page) =
      arrivalsOn events page := by
  rw [arrivalsOn, arrivals, List.countP_filterMap]
  apply List.countP_congr
  intro j _
  rw [place?]
  cases recordPage? events j <;> simp

theorem arrivals_append_singleton (events : List Event) (event : Event) :
    arrivals (events ++ [event]) =
      arrivals events ++ (place? (events ++ [event]) events.length).toList := by
  rw [arrivals, List.length_append, List.length_singleton, List.range_succ,
    List.filterMap_append]
  congr 1
  apply List.filterMap_congr
  intro j hj
  exact place?_append (List.mem_range.mp hj) [event]

/-! ## Arrivals and drafts -/

variable (root : Option String)

theorem openPage_ofEvents (events : List Event) :
    (Draft.ofEvents root events).openPage = openPage events := by
  induction events using List.reverseRecOn with
  | nil => rfl
  | append_singleton events event ih =>
      rw [Draft.ofEvents_append_singleton, openPage_append_singleton, Draft.openPage_add, ih]

theorem recordPage?_eq_map (events : List Event) (event : Event) :
    recordPage? (events ++ [event]) events.length =
      ((Draft.ofEvents root events).recorded? event).map Prod.fst := by
  rw [recordPage?_length]
  cases event with
  | record record =>
      rw [Draft.recorded?, openPage_ofEvents, Option.map_map]
      exact Option.map_id'.symm
  | _ => rfl

/-- A record takes the next free number of the page that is open where it comes. -/
theorem place?_length (events : List Event) (event : Event) :
    place? (events ++ [event]) events.length =
      ((Draft.ofEvents root events).recorded? event).map fun placed =>
        ⟨placed.1, arrivalsOn events placed.1⟩ := by
  rw [place?, recordPage?_eq_map root, Option.map_map]
  congr 1
  funext placed
  simp only [Function.comp_apply, NodeRef.mk.injEq, true_and]
  rw [← countP_recordPage?]
  apply List.countP_congr
  intro j hj
  rw [recordPage?_append (List.mem_range.mp hj)]

variable {root} {events : List Event} {event : Event} {page : UInt32} {record : Record}

theorem arrivals_of_none (hevent : (Draft.ofEvents root events).recorded? event = none) :
    arrivals (events ++ [event]) = arrivals events := by
  rw [arrivals_append_singleton, place?_length root, hevent, Option.map_none, Option.toList_none,
    List.append_nil]

theorem arrivals_of_some
    (hevent : (Draft.ofEvents root events).recorded? event = some (page, record)) :
    arrivals (events ++ [event]) = arrivals events ++ [⟨page, arrivalsOn events page⟩] := by
  rw [arrivals_append_singleton, place?_length root, hevent, Option.map_some, Option.toList_some]

theorem arrivalsOn_of_none (hevent : (Draft.ofEvents root events).recorded? event = none)
    (number : UInt32) : arrivalsOn (events ++ [event]) number = arrivalsOn events number := by
  rw [arrivalsOn, arrivals_of_none hevent, arrivalsOn]

theorem arrivalsOn_of_some
    (hevent : (Draft.ofEvents root events).recorded? event = some (page, record))
    (number : UInt32) :
    arrivalsOn (events ++ [event]) number =
      arrivalsOn events number + if page = number then 1 else 0 := by
  rw [arrivalsOn, arrivals_of_some hevent, List.countP_append, List.countP_singleton]
  simp only [beq_iff_eq]
  rfl

variable (root events)

/-- A page has as many nodes as records went to it. -/
theorem size_pageAt (number : UInt32) :
    ((Draft.ofEvents root events).index.pageAt number).size = arrivalsOn events number := by
  induction events using List.reverseRecOn with
  | nil => rfl
  | append_singleton events event ih =>
      rw [Draft.ofEvents_append_singleton]
      cases hevent : (Draft.ofEvents root events).recorded? event with
      | none => rw [Draft.pageAt_add_of_none hevent, ih, arrivalsOn_of_none hevent]
      | some placed =>
          obtain ⟨page, record⟩ := placed
          rw [Draft.pageAt_add_of_some hevent, arrivalsOn_of_some hevent, ← ih]
          split
          · rw [Page.size_push]
          · rfl

theorem mem_arrivals_iff_lt (ref : NodeRef) :
    ref ∈ arrivals events ↔ ref.id < arrivalsOn events ref.page := by
  induction events using List.reverseRecOn with
  | nil => simp [arrivals, arrivalsOn]
  | append_singleton events event ih =>
      -- which records arrive does not depend on the directory, so any draft tells
      cases hevent : (Draft.ofEvents none events).recorded? event with
      | none => rw [arrivals_of_none hevent, arrivalsOn_of_none hevent, ih]
      | some placed =>
          obtain ⟨page, record⟩ := placed
          rw [arrivals_of_some hevent, arrivalsOn_of_some hevent, List.mem_append, ih,
            List.mem_singleton]
          obtain ⟨number, id⟩ := ref
          by_cases hpage : page = number
          · subst hpage
            simp only [NodeRef.mk.injEq, true_and, if_true]
            omega
          · simp [hpage, Ne.symm hpage]

/-- Later arrivals on a page have greater numbers. -/
theorem arrivals_pairwise :
    (arrivals events).Pairwise fun a b => a.page = b.page → a.id < b.id := by
  induction events using List.reverseRecOn with
  | nil => exact List.Pairwise.nil
  | append_singleton events event ih =>
      cases hevent : (Draft.ofEvents none events).recorded? event with
      | none => rwa [arrivals_of_none hevent]
      | some placed =>
          obtain ⟨page, record⟩ := placed
          rw [arrivals_of_some hevent]
          refine List.pairwise_append.mpr ⟨ih, List.pairwise_singleton _ _, ?_⟩
          intro a ha b hb hpage
          rw [List.mem_singleton] at hb
          subst hb
          have hlt := (mem_arrivals_iff_lt events a).mp ha
          rwa [hpage] at hlt

theorem arrivals_nodup : (arrivals events).Nodup := by
  refine (arrivals_pairwise events).imp ?_
  rintro a b hlt rfl
  exact Nat.lt_irrefl _ (hlt rfl)

theorem mem_arrivals_iff (ref : NodeRef) :
    ref ∈ arrivals events ↔ ((Draft.ofEvents root events).index.node? ref).isSome = true := by
  rw [mem_arrivals_iff_lt, ← size_pageAt root, Index.node?_eq_get?, Page.get?, Page.size]
  simp

theorem length_arrivals :
    (arrivals events).length =
      (List.range events.length).countP fun i => (recordPage? events i).isSome := by
  rw [arrivals, List.length_filterMap_eq_countP]
  simp only [place?, Option.isSome_map]

/-- Every arrival is a node of one page, and every node has arrived. -/
theorem nodeCount_ofEvents :
    (Draft.ofEvents root events).index.nodeCount = (arrivals events).length := by
  set index := (Draft.ofEvents root events).index
  have hnumber : ∀ number ∈ (arrivals events).map NodeRef.page,
      number ∈ index.pageNumbers.toFinset := by
    intro number hnumber
    obtain ⟨ref, href, rfl⟩ := List.mem_map.mp hnumber
    have hsize := (mem_arrivals_iff_lt events ref).mp href
    rw [← size_pageAt root] at hsize
    rw [List.mem_toFinset, Index.mem_pageNumbers_iff,
      Index.page?_of_size_pos (Nat.zero_lt_of_lt hsize), Option.isSome_some]
  have hcount (number : UInt32) : (index.pageAt number).size =
      Multiset.count number ((arrivals events).map NodeRef.page) := by
    rw [size_pageAt, arrivalsOn, Multiset.coe_count, List.count_eq_countP, List.countP_map]
    rfl
  have hnodup : index.pageNumbers.Nodup := Std.TreeMap.nodup_keys
  simp only [Index.nodeCount_eq_sum, ← List.sum_toFinset _ hnodup, hcount]
  rw [Multiset.sum_count_eq_card hnumber, Multiset.coe_card, List.length_map]

end PageSync

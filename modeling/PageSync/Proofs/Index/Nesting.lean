import Mathlib.Order.Bounds.Basic
import Mathlib.Tactic.IntervalCases
import PageSync.Proofs.Index.Forest

/-! # Nesting

A box is open as long as the ends behind it do not outnumber the boxes that
begin behind it. The stack of a draft holds exactly the boxes that are open in
this sense, innermost first, so a record has as its parent the last box that
could be read and is open where the record stands.
-/

namespace PageSync

/-- The events behind one position, up to another one and with it. -/
def between (events : List Event) (j k : Nat) : List Event :=
  (events.take (k + 1)).drop (j + 1)

/-- The event at the position begins a box of the page, and up to no later position do the ends
behind it outnumber the boxes that begin behind it. -/
structure OpenAfter (events : List Event) (j : Nat) : Prop where
  opener : ∃ event, events[j]? = some event ∧ event.isOpener = true
  page : ∀ k number, j < k → events[k]? ≠ some (.pageStart number)
  covered : ∀ k < events.length, j < k →
    (between events j k).countP Event.isCloser ≤ (between events j k).countP Event.isOpener

/-- The positions of the records that are open boxes. -/
def openRecords (events : List Event) : Set Nat :=
  {j | OpenAfter events j ∧ ∃ record, events[j]? = some (.record record)}

theorem between_append {events : List Event} {k : Nat} (hk : k < events.length) (j : Nat)
    (more : List Event) : between (events ++ more) j k = between events j k := by
  rw [between, List.take_append_of_le_length hk, between]

theorem between_length {events : List Event} {j : Nat} (hj : j < events.length) (event : Event) :
    between (events ++ [event]) j events.length = events.drop (j + 1) ++ [event] := by
  rw [between, List.take_of_length_le (by simp), List.drop_append_of_le_length hj]

namespace OpenAfter

variable {events : List Event} {event : Event} {j : Nat}

theorem lt_length (h : OpenAfter events j) : j < events.length := by
  obtain ⟨event, hevent, -⟩ := h.opener
  exact (List.getElem?_eq_some_iff.mp hevent).1

theorem isOpener_of_length (h : OpenAfter (events ++ [event]) events.length) :
    event.isOpener = true := by
  obtain ⟨other, hother, hopener⟩ := h.opener
  rw [List.getElem?_concat_length] at hother
  exact Option.some.inj hother ▸ hopener

/-- A box that begins with the last event is open behind it. -/
theorem last (hopener : event.isOpener = true) :
    OpenAfter (events ++ [event]) events.length where
  opener := ⟨event, List.getElem?_concat_length, hopener⟩
  page k number hk heq := by
    have hlt := (List.getElem?_eq_some_iff.mp heq).1
    rw [List.length_append, List.length_singleton] at hlt
    omega
  covered k hlt hk := by
    rw [List.length_append, List.length_singleton] at hlt
    omega

theorem of_append_singleton (h : OpenAfter (events ++ [event]) j) (hj : j < events.length) :
    OpenAfter events j where
  opener := by
    obtain ⟨other, hother, hopener⟩ := h.opener
    rw [List.getElem?_append_left hj] at hother
    exact ⟨other, hother, hopener⟩
  page k number hk heq := by
    apply h.page k number hk
    rw [List.getElem?_append_left (List.getElem?_eq_some_iff.mp heq).1, heq]
  covered k hlt hk := by
    have hcovered := h.covered k (by rw [List.length_append]; omega) hk
    rwa [between_append hlt] at hcovered

theorem append_singleton (h : OpenAfter events j) (hpage : ∀ number, event ≠ .pageStart number)
    (hcovered : (events.drop (j + 1) ++ [event]).countP Event.isCloser ≤
      (events.drop (j + 1) ++ [event]).countP Event.isOpener) :
    OpenAfter (events ++ [event]) j where
  opener := by
    obtain ⟨other, hother, hopener⟩ := h.opener
    exact ⟨other, by rw [List.getElem?_append_left h.lt_length, hother], hopener⟩
  page k number hk heq := by
    rcases Nat.lt_trichotomy k events.length with hlt | rfl | hlt
    · rw [List.getElem?_append_left hlt] at heq
      exact h.page k number hk heq
    · rw [List.getElem?_concat_length] at heq
      exact hpage number (Option.some.inj heq)
    · rw [List.getElem?_eq_none (by simp; omega)] at heq
      contradiction
  covered k hlt hk := by
    rw [List.length_append, List.length_singleton] at hlt
    rcases Nat.lt_or_ge k events.length with hlast | hlast
    · rw [between_append hlast]
      exact h.covered k hlast hk
    · obtain rfl : k = events.length := by omega
      rwa [between_length h.lt_length]

end OpenAfter

/-! ## The stack of open boxes -/

/-- The positions on the stack, innermost first: they are the boxes that are open behind the
events, and as many boxes as lie further in are left over behind each. -/
structure Nested (root : Option String) (events : List Event) (page : UInt32)
    (opened : List Nat) : Prop where
  descending : opened.Pairwise (· > ·)
  mem_iff : ∀ j, j ∈ opened ↔ OpenAfter events j
  depth : ∀ {m j}, opened[m]? = some j →
    (events.drop (j + 1)).countP Event.isOpener = (events.drop (j + 1)).countP Event.isCloser + m
  page : ∀ j ∈ opened, openPage (events.take j) = some page
  boxes : (Draft.ofEvents root events).openBoxes =
    opened.map fun j => (place? events j).map NodeRef.id

namespace Nested

variable {root : Option String} {events : List Event} {event : Event} {page : UInt32}
  {opened : List Nat}

theorem start (root : Option String) (events : List Event) (page : UInt32) :
    Nested root (events ++ [.pageStart page]) page [] where
  descending := List.Pairwise.nil
  mem_iff j := by
    refine ⟨fun hj => absurd hj List.not_mem_nil, fun hj => ?_⟩
    have hlt := hj.lt_length
    rw [List.length_append, List.length_singleton] at hlt
    rcases Nat.lt_or_ge j events.length with hbefore | hlast
    · exact absurd List.getElem?_concat_length (hj.page events.length page hbefore)
    · obtain rfl : j = events.length := by omega
      have hopener := hj.isOpener_of_length
      contradiction
  depth hj := by contradiction
  page j hj := absurd hj List.not_mem_nil
  boxes := by
    rw [Draft.ofEvents_append_singleton]
    rfl

section Step

variable (h : Nested root events page opened)

include h

theorem lt_length {j : Nat} (hj : j ∈ opened) : j < events.length :=
  ((h.mem_iff j).mp hj).lt_length

theorem map_place?_append (more : List Event) :
    (opened.map fun j => (place? (events ++ more) j).map NodeRef.id) =
      opened.map fun j => (place? events j).map NodeRef.id := by
  apply List.map_congr_left
  intro j hj
  rw [place?_append (h.lt_length hj)]

theorem openPage_take_append (more : List Event) {j : Nat} (hj : j ∈ opened) :
    openPage ((events ++ more).take j) = some page := by
  rw [List.take_append_of_le_length (Nat.le_of_lt (h.lt_length hj)), h.page j hj]

/-- What is left over behind a box counts the last event in. -/
theorem depth_append {m j : Nat} (hj : opened[m]? = some j) (event : Event) :
    ((events ++ [event]).drop (j + 1)).countP Event.isOpener + event.isCloser.toNat =
      ((events ++ [event]).drop (j + 1)).countP Event.isCloser + m + event.isOpener.toNat := by
  have hlt := h.lt_length (List.mem_of_getElem? hj)
  have hdepth := h.depth hj
  rw [List.drop_append_of_le_length hlt, List.countP_append, List.countP_append,
    List.countP_singleton, List.countP_singleton]
  cases hopener : event.isOpener <;> cases hcloser : event.isCloser <;> simp <;> omega

/-- Only the end of the innermost box closes a box. -/
theorem openAfter_append_iff {m j : Nat} (hj : opened[m]? = some j)
    (hmark : event.pageMark? = none) :
    OpenAfter (events ++ [event]) j ↔ (event.isCloser = true → 0 < m) := by
  have hlt := h.lt_length (List.mem_of_getElem? hj)
  have hdepth := h.depth_append hj event
  rw [List.drop_append_of_le_length (show j + 1 ≤ events.length from hlt)] at hdepth
  -- behind the box, `m` more boxes begin than end, and the last event changes this by one at most
  constructor
  · intro hopen hcloser
    have hcovered := hopen.covered events.length (by simp) hlt
    rw [Event.eq_boxEnd_of_isCloser hcloser] at hdepth hcovered
    rw [between_length hlt] at hcovered
    simp only [Event.isOpener, Event.isCloser, Bool.toNat_true, Bool.toNat_false] at hdepth
    omega
  · intro hcloser
    refine ((h.mem_iff j).mp (List.mem_of_getElem? hj)).append_singleton ?_ ?_
    · rintro number rfl
      contradiction
    · cases hend : event.isCloser with
      | true =>
          have hm := hcloser hend
          rw [hend, Bool.toNat_true] at hdepth
          omega
      | false =>
          rw [hend, Bool.toNat_false] at hdepth
          omega

theorem mem_of_openAfter_append {j : Nat} (hopen : OpenAfter (events ++ [event]) j) :
    j ∈ opened ∨ j = events.length ∧ event.isOpener = true := by
  have hlt := hopen.lt_length
  rw [List.length_append, List.length_singleton] at hlt
  rcases Nat.lt_or_ge j events.length with hbefore | hlast
  · exact Or.inl ((h.mem_iff j).mpr (hopen.of_append_singleton hbefore))
  · obtain rfl : j = events.length := by omega
    exact Or.inr ⟨rfl, hopen.isOpener_of_length⟩

theorem opener (hopen : openPage events = some page) (hopener : event.isOpener = true) :
    Nested root (events ++ [event]) page (events.length :: opened) where
  descending := List.pairwise_cons.mpr ⟨fun j hj => h.lt_length hj, h.descending⟩
  mem_iff j := by
    rw [List.mem_cons]
    constructor
    · rintro (rfl | hj)
      · exact .last hopener
      · obtain ⟨m, hm⟩ := List.mem_iff_getElem?.mp hj
        rw [h.openAfter_append_iff hm (Event.pageMark?_of_isOpener hopener),
          Event.isCloser_of_isOpener hopener]
        exact fun hcloser => absurd hcloser Bool.false_ne_true
    · intro hj
      rcases h.mem_of_openAfter_append hj with hmem | ⟨heq, -⟩
      · exact Or.inr hmem
      · exact Or.inl heq
  depth {m j} hj := by
    cases m with
    | zero =>
        obtain rfl : events.length = j := by simpa using hj
        rw [List.drop_of_length_le (by simp)]
        rfl
    | succ m =>
        have hdepth := h.depth_append hj event
        rw [hopener, Event.isCloser_of_isOpener hopener, Bool.toNat_true,
          Bool.toNat_false] at hdepth
        omega
  page j hj := by
    rcases List.mem_cons.mp hj with rfl | hj
    · rw [List.take_left, hopen]
    · exact h.openPage_take_append [event] hj
  boxes := by
    rw [← openPage_ofEvents root] at hopen
    rw [Draft.ofEvents_append_singleton,
      Draft.openBoxes_add hopen (Event.pageMark?_of_isOpener hopener), if_pos hopener, h.boxes,
      List.map_cons, h.map_place?_append, place?_length root, Option.map_map]
    simp only [size_pageAt]
    rfl

theorem closer (hopen : openPage events = some page) :
    Nested root (events ++ [.boxEnd]) page opened.tail where
  descending := h.descending.tail
  mem_iff j := by
    constructor
    · intro hj
      obtain ⟨m, hm⟩ := List.mem_iff_getElem?.mp hj
      rw [List.getElem?_tail] at hm
      exact (h.openAfter_append_iff hm rfl).mpr fun _ => Nat.succ_pos m
    · intro hj
      rcases h.mem_of_openAfter_append hj with hmem | ⟨-, hopener⟩
      · obtain ⟨m, hm⟩ := List.mem_iff_getElem?.mp hmem
        have hpos := (h.openAfter_append_iff hm rfl).mp hj rfl
        refine List.mem_of_getElem? (i := m - 1) ?_
        rw [List.getElem?_tail, Nat.sub_add_cancel hpos, hm]
      · contradiction
  depth {m j} hj := by
    rw [List.getElem?_tail] at hj
    have hdepth := h.depth_append hj .boxEnd
    simp only [Event.isOpener, Event.isCloser, Bool.toNat_true, Bool.toNat_false] at hdepth
    omega
  page j hj := h.openPage_take_append _ (List.mem_of_mem_tail hj)
  boxes := by
    rw [← openPage_ofEvents root] at hopen
    rw [Draft.ofEvents_append_singleton, Draft.openBoxes_add hopen rfl, h.boxes, List.map_tail,
      h.map_place?_append]
    rfl

/-- Lines that neither begin nor end a box leave the nesting as it is. -/
theorem other (hopen : openPage events = some page) (hmark : event.pageMark? = none)
    (hopener : event.isOpener = false) (hcloser : event.isCloser = false) :
    Nested root (events ++ [event]) page opened where
  descending := h.descending
  mem_iff j := by
    constructor
    · intro hj
      obtain ⟨m, hm⟩ := List.mem_iff_getElem?.mp hj
      rw [h.openAfter_append_iff hm hmark, hcloser]
      exact fun hcloser => absurd hcloser Bool.false_ne_true
    · intro hj
      rcases h.mem_of_openAfter_append hj with hmem | ⟨-, hopen⟩
      · exact hmem
      · rw [hopener] at hopen
        contradiction
  depth {m j} hj := by
    have hdepth := h.depth_append hj event
    rw [hopener, hcloser, Bool.toNat_false] at hdepth
    omega
  page j hj := h.openPage_take_append _ hj
  boxes := by
    rw [← openPage_ofEvents root] at hopen
    rw [Draft.ofEvents_append_singleton, Draft.openBoxes_add hopen hmark, hopener, hcloser,
      if_neg Bool.false_ne_true, if_neg Bool.false_ne_true, h.boxes, h.map_place?_append]

end Step

end Nested

/-- Whatever comes while a page is open, the stack holds the boxes that are open. -/
theorem exists_nested (root : Option String) {events : List Event} {page : UInt32}
    (hopen : openPage events = some page) : ∃ opened, Nested root events page opened := by
  induction events using List.reverseRecOn with
  | nil => contradiction
  | append_singleton events event ih =>
      rw [openPage_append_singleton] at hopen
      cases hmark : event.pageMark? with
      | some mark =>
          -- of the two page marks, only the start of a page leaves one open
          rw [hmark, Option.getD_some] at hopen
          subst hopen
          cases event with
          | pageStart number =>
              obtain rfl : number = page := by simpa [Event.pageMark?] using hmark
              exact ⟨[], Nested.start root events number⟩
          | pageEnd number => simp [Event.pageMark?] at hmark
          | _ => contradiction
      | none =>
          rw [hmark, Option.getD_none] at hopen
          obtain ⟨opened, h⟩ := ih hopen
          cases hopener : event.isOpener with
          | true => exact ⟨_, h.opener hopen hopener⟩
          | false =>
              cases hcloser : event.isCloser with
              | true =>
                  obtain rfl := Event.eq_boxEnd_of_isCloser hcloser
                  exact ⟨_, h.closer hopen⟩
              | false => exact ⟨_, h.other hopen hmark hopener hcloser⟩

namespace Nested

variable {root : Option String} {events : List Event} {page : UInt32} {opened : List Nat}

theorem mem_openRecords_iff (h : Nested root events page opened) {j : Nat} :
    j ∈ openRecords events ↔ j ∈ opened ∧ recordPage? events j = some page := by
  rw [openRecords, Set.mem_ofPred_eq, ← h.mem_iff, recordPage?_eq_some_iff]
  constructor
  · rintro ⟨hj, hrecord⟩
    exact ⟨hj, hrecord, h.page j hj⟩
  · rintro ⟨hj, hrecord, -⟩
    exact ⟨hj, hrecord⟩

/-- A box that could not be read has no place, so it is passed over in search of a parent. -/
theorem notMem_openRecords (h : Nested root events page opened) {j : Nat}
    (hplace : (place? events j).map NodeRef.id = none) : j ∉ openRecords events := by
  intro hj
  rw [place?, (h.mem_openRecords_iff.mp hj).2] at hplace
  contradiction

/-- What lies further out on the stack comes before. -/
theorem isGreatest_openRecords (h : Nested root events page opened) {inner outer : List Nat}
    {j : Nat} (hopened : opened = inner ++ j :: outer) (hj : recordPage? events j = some page)
    (hinner : ∀ k ∈ inner, k ∉ openRecords events) : IsGreatest (openRecords events) j := by
  refine ⟨h.mem_openRecords_iff.mpr ⟨by simp [hopened], hj⟩, ?_⟩
  intro k hk
  have hkopened := (h.mem_openRecords_iff.mp hk).1
  have hdescending := h.descending
  rw [hopened] at hkopened hdescending
  rcases List.mem_append.mp hkopened with hkinner | hkouter
  · exact absurd hk (hinner k hkinner)
  · rcases List.mem_cons.mp hkouter with rfl | hkouter
    · exact Nat.le_refl k
    · have houter := (List.pairwise_append.mp hdescending).2.1
      exact Nat.le_of_lt ((List.pairwise_cons.mp houter).1 k hkouter)

theorem parent?_eq (h : Nested root events page opened) :
    (openRecords events = ∅ ∧ (Draft.ofEvents root events).parent? = none) ∨
      ∃ j id, IsGreatest (openRecords events) j ∧ place? events j = some ⟨page, id⟩ ∧
        (Draft.ofEvents root events).parent? = some id := by
  have hparent : (Draft.ofEvents root events).parent? =
      opened.findSome? fun j => (place? events j).map NodeRef.id := by
    rw [Draft.parent?, h.boxes, List.findSome?_map]
    rfl
  rw [hparent]
  cases hfind : opened.findSome? fun j => (place? events j).map NodeRef.id with
  | none =>
      refine Or.inl ⟨Set.eq_empty_of_forall_notMem fun j hj => ?_, rfl⟩
      have hopened := (h.mem_openRecords_iff.mp hj).1
      exact h.notMem_openRecords (List.findSome?_eq_none_iff.mp hfind j hopened) hj
  | some id =>
      obtain ⟨inner, j, outer, hopened, hid, hinner⟩ := List.findSome?_eq_some_iff.mp hfind
      obtain ⟨ref, href, rfl⟩ := Option.map_eq_some_iff.mp hid
      obtain ⟨number, hnumber, rfl⟩ := Option.map_eq_some_iff.mp href
      have hopen := h.page j (by simp [hopened])
      obtain rfl : number = page := by
        simpa [hopen] using (recordPage?_eq_some_iff.mp hnumber).2.symm
      have hgreatest := h.isGreatest_openRecords hopened hnumber fun k hk =>
        h.notMem_openRecords (hinner k hk)
      exact Or.inr ⟨j, _, hgreatest, href, rfl⟩

end Nested

/-- The parent of a record is the last record of a box that is open where it comes. -/
theorem parent_ofEvents (root : Option String) {events : List Event} {i : Nat} {record : Record}
    {page : UInt32} (hrecord : events[i]? = some (.record record))
    (hopen : openPage (events.take i) = some page) :
    ∃ id node, place? events i = some ⟨page, id⟩ ∧
      (Draft.ofEvents root events).index.node? ⟨page, id⟩ = some node ∧
      node = { (Draft.ofEvents root (events.take i)).nodeOf page record with
        parent := node.parent, children := node.children } ∧
      ((openRecords (events.take i) = ∅ ∧ node.parent = none ∧
          id ∈ ((Draft.ofEvents root events).index.pageAt page).roots) ∨
        ∃ j parent, IsGreatest (openRecords (events.take i)) j ∧
          place? events j = some ⟨page, parent⟩ ∧ node.parent = some parent) := by
  obtain ⟨id, node, hplace, hget, hnode⟩ := Draft.exists_node?_of_record root hrecord hopen
  have hparent : node.parent = (Draft.ofEvents root (events.take i)).parent? := by rw [hnode]
  refine ⟨id, node, hplace, hget, by rw [hparent, ← hnode], ?_⟩
  obtain ⟨opened, hnested⟩ := exists_nested root hopen
  rcases hnested.parent?_eq with ⟨hempty, hnone⟩ | ⟨j, parent, hgreatest, hj, hsome⟩
  · refine Or.inl ⟨hempty, hparent.trans hnone, ?_⟩
    rw [Index.node?_eq_get?] at hget
    have hsound := (Draft.sound_ofEvents root events).page page
    have hroot : ((Draft.ofEvents root events).index.pageAt page).parent? id = none := by
      rw [Page.parent?, hget, Option.bind_some, hparent, hnone]
    exact Array.mem_toList_iff.mp
      (hsound.mem_roots_of_parent? (Page.lt_size_of_get? hget) hroot)
  · refine Or.inr ⟨j, parent, hgreatest, ?_, hparent.trans hsome⟩
    have hlt := hgreatest.1.1.lt_length
    rw [← place?_append hlt (events.drop i), List.take_append_drop] at hj
    exact hj

/-- Behind an end too many, a box that could not be read and a box that is closed again, a record
still goes below the box around them. -/
theorem parent_ofEvents_around_unread_box :
    let record (kind : Kind) : Event := .record ⟨kind, 1, 1, none, 0, 0, none⟩
    let events : List Event := [.pageStart 1, .boxEnd, record .vbox, .malformed .hbox,
      record .hbox, .boxEnd, record .kern, .boxEnd, record .glue, .pageEnd 1]
    ∃ node, (Draft.ofEvents none events).index.node? ⟨1, 3⟩ = some node ∧ node.kind = .glue ∧
      node.parent = some 0 := by
  intro record events
  have hrecord : events[8]? = some (record .glue) := rfl
  have hpage : openPage (events.take 8) = some 1 := rfl
  obtain ⟨id, node, hplace, hget, hnode, hparent⟩ := parent_ofEvents none hrecord hpage
  obtain rfl : id = 3 := by
    have hid : place? events 8 = some ⟨1, 3⟩ := by decide
    rw [hid] at hplace
    cases hplace
    rfl
  refine ⟨node, hget, by rw [hnode]; rfl, ?_⟩
  have hopen : 2 ∈ openRecords (events.take 8) := by
    refine ⟨⟨⟨_, rfl, rfl⟩, ?_, by decide⟩, _, rfl⟩
    intro k number hk heq
    have hlt : k < 8 := (List.getElem?_eq_some_iff.mp heq).1
    interval_cases k <;> cases heq
  rcases hparent with ⟨hempty, -⟩ | ⟨j, parent, hgreatest, hj, hparent⟩
  · rw [hempty] at hopen
    exact absurd hopen (Set.notMem_empty 2)
  · have hle : 2 ≤ j := hgreatest.2 hopen
    have hlt : j < 8 := hgreatest.1.1.lt_length
    obtain ⟨hopened, other, hother⟩ := hgreatest.1
    have hj2 : j = 2 := by
      obtain ⟨event, hevent, hopener⟩ := hopened.opener
      interval_cases j
      · rfl
      · cases hother
      · exact absurd (hopened.covered 5 (by decide) (by decide)) (by decide)
      · cases hother
      · cases hevent
        contradiction
      · cases hother
    subst hj2
    have hplace2 : place? events 2 = some ⟨1, 0⟩ := by decide
    rw [hplace2] at hj
    cases hj
    exact hparent

end PageSync

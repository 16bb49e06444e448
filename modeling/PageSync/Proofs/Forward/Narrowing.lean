import PageSync.Forward.Search
import PageSync.Proofs.Forward.Selection
import PageSync.Proofs.Index.Forest

/-! # Narrowing down the nodes of a line

Where a kern, glue or math node of a line lies inside a horizontal box, the
nearest such boxes stand for the line. Otherwise its horizontal boxes do, then
its boxes, then all its nodes. A vertical box therefore never stands for a line
that a horizontal box could stand for.
-/

namespace PageSync

/-- Every element is listed once, in the order in which they occur first. -/
theorem pairwise_eraseDups {α : Type} [BEq α] [LawfulBEq α] (l : List α) :
    l.eraseDups.Pairwise fun a b => a ≠ b ∧ ∃ front rest, l = front ++ a :: rest ∧ b ∉ front := by
  induction l using List.reverseRecOn with
  | nil => simp
  | append_singleton l last ih =>
      have hbefore : l.eraseDups.Pairwise fun a b =>
          a ≠ b ∧ ∃ front rest, l ++ [last] = front ++ a :: rest ∧ b ∉ front := by
        refine ih.imp ?_
        rintro a b ⟨hne, front, rest, rfl, hb⟩
        exact ⟨hne, front, rest ++ [last], by simp, hb⟩
      rw [List.eraseDups_append]
      by_cases hlast : last ∈ l
      · simpa [List.removeAll, hlast] using hbefore
      · have hnew : ([last].removeAll l).eraseDups = [last] := by
          simp [List.removeAll, hlast, List.eraseDups_cons]
        rw [hnew, List.pairwise_append]
        refine ⟨hbefore, List.pairwise_singleton _ _, ?_⟩
        intro a ha b hb
        obtain rfl := List.mem_singleton.mp hb
        rw [List.mem_eraseDups] at ha
        obtain ⟨front, rest, rfl⟩ := List.append_of_mem ha
        exact ⟨ne_of_mem_of_not_mem ha hlast, front, rest ++ [b], by simp,
          fun hb => hlast (List.mem_append_left _ hb)⟩

namespace Page

/-- Whether the number stands for a node of an accepted kind. -/
def isOfKind (page : Page) (accept : Kind → Bool) (i : Nat) : Bool :=
  (page.get? i).any fun node => accept node.kind

/-- A kern, glue or math node with a horizontal box somewhere above it. -/
structure IsInHbox (page : Page) (leaf : Nat) : Prop where
  notBox : page.isOfKind (fun kind => !kind.isBox) leaf = true
  exists_hbox : ∃ a ∈ page.ancestors leaf, page.isOfKind (· == .hbox) a = true

/-- The first horizontal box on the way up from a node. -/
structure IsNearestHbox (page : Page) (i box : Nat) : Prop where
  mem_ancestors : box ∈ page.ancestors i
  isOfKind : page.isOfKind (· == .hbox) box = true
  /-- Any other horizontal box above the node is above that box as well. -/
  nearest : ∀ other ∈ page.ancestors i, page.isOfKind (· == .hbox) other = true →
    other = box ∨ other ∈ page.ancestors box

/-- The box is the nearest horizontal box above a kern, glue or math node. -/
structure Encloses (page : Page) (box leaf : Nat) : Prop where
  notBox : page.isOfKind (fun kind => !kind.isBox) leaf = true
  nearest : page.IsNearestHbox leaf box

/-- The selected boxes are those around some of the given nodes, each once and in the order of the
first node that it is around. -/
structure SelectsAround (page : Page) (ids selected : List Nat) : Prop where
  mem_iff : ∀ box, box ∈ selected ↔ ∃ leaf ∈ ids, page.Encloses box leaf
  nodup : selected.Nodup
  in_order : selected.Pairwise fun box next => ∃ front leaf rest, ids = front ++ leaf :: rest ∧
    page.Encloses box leaf ∧ ∀ other ∈ front, ¬ page.Encloses next other

/-- What is selected of some nodes of a page: the first of four choices that is not empty. -/
structure Selects (page : Page) (ids selected : List Nat) : Prop where
  around : (∃ leaf ∈ ids, page.IsInHbox leaf) → page.SelectsAround ids selected
  horizontal : (∀ leaf ∈ ids, ¬ page.IsInHbox leaf) →
    (∃ i ∈ ids, page.isOfKind Kind.isHorizontalBox i = true) →
    selected = ids.filter (page.isOfKind Kind.isHorizontalBox)
  boxes : (∀ leaf ∈ ids, ¬ page.IsInHbox leaf) →
    (∀ i ∈ ids, page.isOfKind Kind.isHorizontalBox i = false) →
    (∃ i ∈ ids, page.isOfKind Kind.isBox i = true) →
    selected = ids.filter (page.isOfKind Kind.isBox)
  rest : (∀ leaf ∈ ids, ¬ page.IsInHbox leaf) →
    (∀ i ∈ ids, page.isOfKind Kind.isBox i = false) → selected = ids
  ne_nil : ids ≠ [] → selected ≠ []
  /-- Nothing but horizontal boxes is selected where one is given or is above a given leaf. -/
  narrow : ((∃ i ∈ ids, page.isOfKind Kind.isHorizontalBox i = true) ∨
      ∃ leaf ∈ ids, page.IsInHbox leaf) →
    ∀ i ∈ selected, page.isOfKind Kind.isHorizontalBox i = true

variable {page : Page} {ids front rest : List Nat} {i box other leaf : Nat}

theorem isOfKind_mono {accept weaker : Kind → Bool}
    (hweaker : ∀ kind, accept kind = true → weaker kind = true)
    (h : page.isOfKind accept i = true) : page.isOfKind weaker i = true := by
  rw [isOfKind, Option.any_eq_true] at h ⊢
  obtain ⟨node, hget, haccept⟩ := h
  exact ⟨node, hget, hweaker node.kind haccept⟩

theorem withKind_eq_filter (page : Page) (accept : Kind → Bool) (ids : List Nat) :
    page.withKind accept ids = ids.filter (page.isOfKind accept) := rfl

namespace Sound

theorem nearestHbox_unique (h : page.Sound) (hbox : page.IsNearestHbox i box)
    (hother : page.IsNearestHbox i other) : box = other := by
  rcases hbox.nearest other hother.mem_ancestors hother.isOfKind with heq | habove
  · exact heq.symm
  · rcases hother.nearest box hbox.mem_ancestors hbox.isOfKind with heq | hbelow
    · exact heq
    · exact absurd (h.lt_of_mem_ancestors habove) (Nat.lt_asymm (h.lt_of_mem_ancestors hbelow))

theorem isNearestHbox_of_ancestorWhere? (h : page.Sound)
    (hwhere : page.ancestorWhere? (fun other => other.kind == .hbox) i = some box) :
    page.IsNearestHbox i box := by
  obtain ⟨hmem, node, hget, hkind⟩ := exists_of_ancestorWhere? hwhere
  refine ⟨hmem, ?_, fun other => h.eq_or_mem_ancestors_of_ancestorWhere? hwhere⟩
  rw [isOfKind, hget]
  exact hkind

theorem enclosingHbox?_eq_some_iff (h : page.Sound) :
    page.enclosingHbox? leaf = some box ↔ page.Encloses box leaf := by
  rw [enclosingHbox?]
  cases hget : page.get? leaf with
  | none =>
      refine iff_of_false (by simp) fun hencloses => ?_
      have hleaf := hencloses.notBox
      rw [isOfKind, hget] at hleaf
      contradiction
  | some node =>
      by_cases hbox : node.kind.isBox = true
      · refine iff_of_false (by simp [hbox]) fun hencloses => ?_
        have hleaf := hencloses.notBox
        rw [isOfKind, hget, Option.any_some, hbox] at hleaf
        contradiction
      · simp only [hbox, Bool.false_eq_true, if_false]
        constructor
        · intro hwhere
          exact ⟨by simp [isOfKind, hget, hbox], h.isNearestHbox_of_ancestorWhere? hwhere⟩
        · rintro ⟨-, hnearest⟩
          cases hwhere : page.ancestorWhere? (fun other => other.kind == .hbox) leaf with
          | none =>
              obtain ⟨above, habove, hrefused⟩ :=
                h.exists_of_ancestorWhere?_eq_none hwhere hnearest.mem_ancestors
              have hkind := hnearest.isOfKind
              rw [isOfKind, habove, Option.any_some, hrefused] at hkind
              contradiction
          | some other =>
              rw [h.nearestHbox_unique hnearest (h.isNearestHbox_of_ancestorWhere? hwhere)]

theorem selectsAround (h : page.Sound) (ids : List Nat) :
    page.SelectsAround ids (page.enclosingHboxes ids) where
  mem_iff box := by
    simp only [enclosingHboxes, List.mem_eraseDups, List.mem_filterMap,
      h.enclosingHbox?_eq_some_iff]
  nodup := (pairwise_eraseDups _).imp fun hpair => hpair.1
  in_order := by
    refine (pairwise_eraseDups _).imp ?_
    rintro box next ⟨hne, front, rest, hsplit, hnext⟩
    obtain ⟨before, behind, rfl, rfl, hbehind⟩ := List.filterMap_eq_append_iff.mp hsplit
    obtain ⟨skipped, leaf, later, rfl, hskipped, hleaf, -⟩ := List.filterMap_eq_cons_iff.mp hbehind
    refine ⟨before ++ skipped, leaf, later, by simp, h.enclosingHbox?_eq_some_iff.mp hleaf, ?_⟩
    intro other hother hencloses
    rw [← h.enclosingHbox?_eq_some_iff] at hencloses
    rcases List.mem_append.mp hother with hother | hother
    · exact hnext (List.mem_filterMap.mpr ⟨other, hother, hencloses⟩)
    · rw [hskipped other hother] at hencloses
      contradiction

/-- A leaf inside a horizontal box is enclosed by the nearest one. -/
theorem exists_encloses_iff (h : page.Sound) :
    (∃ box, page.Encloses box leaf) ↔ page.IsInHbox leaf := by
  constructor
  · rintro ⟨box, hnotBox, hnearest⟩
    exact ⟨hnotBox, box, hnearest.mem_ancestors, hnearest.isOfKind⟩
  · rintro ⟨hnotBox, a, ha, hkind⟩
    cases hwhere : page.ancestorWhere? (fun above => above.kind == .hbox) leaf with
    | some box => exact ⟨box, hnotBox, h.isNearestHbox_of_ancestorWhere? hwhere⟩
    | none =>
        obtain ⟨above, habove, hrefused⟩ := h.exists_of_ancestorWhere?_eq_none hwhere ha
        rw [isOfKind, habove, Option.any_some, hrefused] at hkind
        contradiction

theorem enclosingHboxes_eq_nil_iff (h : page.Sound) : page.enclosingHboxes ids = [] ↔
    ∀ leaf ∈ ids, ¬ page.IsInHbox leaf := by
  have hmem := (h.selectsAround ids).mem_iff
  rw [List.eq_nil_iff_forall_not_mem]
  constructor
  · intro hnil leaf hleaf hinside
    obtain ⟨box, hencloses⟩ := h.exists_encloses_iff.mpr hinside
    exact hnil box ((hmem box).mpr ⟨leaf, hleaf, hencloses⟩)
  · intro hnone box hbox
    obtain ⟨leaf, hleaf, hencloses⟩ := (hmem box).mp hbox
    exact hnone leaf hleaf (h.exists_encloses_iff.mp ⟨box, hencloses⟩)

end Sound

/-- Without boxes around them, the nodes are narrowed down by their kinds. -/
theorem select_of_enclosingHboxes_eq_nil (hnil : page.enclosingHboxes ids = []) :
    page.select ids =
      if ∃ i ∈ ids, page.isOfKind Kind.isHorizontalBox i = true then
        ids.filter (page.isOfKind Kind.isHorizontalBox)
      else if ∃ i ∈ ids, page.isOfKind Kind.isBox i = true then
        ids.filter (page.isOfKind Kind.isBox)
      else ids := by
  have hempty (accept : Kind → Bool) :
      (ids.filter (page.isOfKind accept)).isEmpty = false ↔
        ∃ i ∈ ids, page.isOfKind accept i = true := by
    rw [List.isEmpty_eq_false_iff_exists_mem]
    simp only [List.mem_filter]
  simp only [select, hnil, List.isEmpty_nil, Bool.not_true, Bool.false_eq_true, if_false,
    Bool.not_eq_true', withKind_eq_filter, hempty]

theorem Sound.selects (h : page.Sound) (ids : List Nat) : page.Selects ids (page.select ids) := by
  have hnil (hnone : ∀ leaf ∈ ids, ¬ page.IsInHbox leaf) :=
    select_of_enclosingHboxes_eq_nil (h.enclosingHboxes_eq_nil_iff.mpr hnone)
  have haround (hsome : ∃ leaf ∈ ids, page.IsInHbox leaf) :
      page.select ids = page.enclosingHboxes ids := by
    obtain ⟨leaf, hleaf, hinside⟩ := hsome
    have hne : page.enclosingHboxes ids ≠ [] :=
      fun hempty => h.enclosingHboxes_eq_nil_iff.mp hempty leaf hleaf hinside
    simp [select, hne]
  refine ⟨fun hsome => haround hsome ▸ h.selectsAround ids, ?_, ?_, ?_, select_ne_nil, ?_⟩
  · intro hnone hhorizontal
    rw [hnil hnone, if_pos hhorizontal]
  · intro hnone hhorizontal hboxes
    have hnot : ¬ ∃ i ∈ ids, page.isOfKind Kind.isHorizontalBox i = true := by
      simpa using hhorizontal
    rw [hnil hnone, if_neg hnot, if_pos hboxes]
  · intro hnone hboxes
    have hnot : ¬ ∃ i ∈ ids, page.isOfKind Kind.isBox i = true := by simpa using hboxes
    have hhorizontal : ¬ ∃ i ∈ ids, page.isOfKind Kind.isHorizontalBox i = true := by
      rintro ⟨i, hi, hkind⟩
      exact hnot ⟨i, hi, isOfKind_mono (fun kind => by cases kind <;> decide) hkind⟩
    rw [hnil hnone, if_neg hhorizontal, if_neg hnot]
  · intro hnarrow i hi
    by_cases hsome : ∃ leaf ∈ ids, page.IsInHbox leaf
    · rw [haround hsome] at hi
      obtain ⟨leaf, -, hencloses⟩ := ((h.selectsAround ids).mem_iff i).mp hi
      exact isOfKind_mono (fun kind => by cases kind <;> decide) hencloses.nearest.isOfKind
    · have hnone : ∀ leaf ∈ ids, ¬ page.IsInHbox leaf :=
        fun leaf hleaf hinside => hsome ⟨leaf, hleaf, hinside⟩
      rw [hnil hnone, if_pos (hnarrow.resolve_right hsome)] at hi
      exact (List.mem_filter.mp hi).2

end Page

namespace Index

/-- Any nodes of a page that was built from events are narrowed down to the nearest horizontal
boxes around its kerns, glue and math nodes, or else to its horizontal boxes, its boxes or all of
it. -/
theorem selects_ofEvents {root : Option String} {events : List Event} {number : UInt32}
    {page : Page} (hpage : (Draft.ofEvents root events).index.page? number = some page)
    (ids : List Nat) : page.Selects ids (page.select ids) :=
  (Draft.page_sound_ofEvents hpage).selects ids

/-- Both vertical boxes of line 5 are left out. The kern lies in one of them and is represented by
the horizontal box farther out, which the glue before it has brought in already. -/
theorem selects_ofEvents_nested :
    let index := (Draft.ofEvents none [.pageStart 1, .record ⟨.vbox, 1, 5, none, 0, 0, none⟩,
      .record ⟨.hbox, 1, 2, none, 0, 0, none⟩, .record ⟨.glue, 1, 5, none, 0, 0, none⟩,
      .record ⟨.vbox, 1, 5, none, 0, 0, none⟩, .record ⟨.kern, 1, 5, none, 0, 0, none⟩, .boxEnd,
      .boxEnd, .record ⟨.hbox, 1, 3, none, 0, 0, none⟩,
      .record ⟨.glue, 1, 5, none, 0, 0, none⟩]).index
    let page := index.pageAt 1
    index.page? 1 = some page ∧ onPage 1 (index.friends 1 5) = [0, 2, 3, 4, 6] ∧
      page.ancestors 4 = [3, 1, 0] ∧ page.select [0, 2, 3, 4, 6] = [1, 5] ∧
      page.SelectsAround [0, 2, 3, 4, 6] [1, 5] ∧
      ∀ i ∈ [1, 5], page.isOfKind Kind.isHorizontalBox i = true := by
  intro index page
  have hpage : index.page? 1 = some page := page?_of_size_pos (by decide)
  have hselect : page.select [0, 2, 3, 4, 6] = [1, 5] := by decide
  have hinside : ∃ leaf ∈ [0, 2, 3, 4, 6], page.IsInHbox leaf :=
    ⟨4, by decide, by decide, 1, by decide, by decide⟩
  have hselects := selects_ofEvents hpage [0, 2, 3, 4, 6]
  rw [hselect] at hselects
  exact ⟨hpage, by decide, by decide, hselect, hselects.around hinside,
    hselects.narrow (Or.inr hinside)⟩

end Index

end PageSync

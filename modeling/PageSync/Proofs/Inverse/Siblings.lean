import PageSync.Inverse.Siblings
import PageSync.Proofs.Inverse.Descent

/-! # Answers inside a box

The search inside a box goes on in a child as long as the point hits one with
children, which cannot be for ever. In the box where it stops, every child with
a line is hit or stands on one of the two sides, so the answer is without a
line only if nothing around the box has one.
-/

namespace PageSync

theorem Node.hasLine_eq_false_iff {node : Node} : node.hasLine = false ↔ node.line = 0 := by
  simp [hasLine]

theorem Node.line_ne_zero_of_hasLine {node : Node} (hline : node.hasLine = true) :
    node.line ≠ 0 := by
  intro hzero
  rw [hasLine_eq_false_iff.mpr hzero] at hline
  contradiction

namespace Page

/-- A node, the nodes above it and its children. -/
def family (page : Page) (i : Nat) : List Nat := i :: (page.ancestors i ++ page.children i)

/-- The location is that of one of the nodes, and it is without a line only if they all are. -/
structure Answers (page : Page) (ids : List Nat) (location : Location) : Prop where
  mem : ∃ n ∈ ids, ∃ node, page.get? n = some node ∧ node.location = location
  line_zero : location.line = 0 → ∀ n ∈ ids, ∃ node, page.get? n = some node ∧ node.line = 0

/-- The search inside the box goes on inside the child. -/
def Reenters (page : Page) (x kernBias : Float) (box child : Nat) : Prop :=
  ∃ node, hit? x kernBias (page.childEntries box) = some (child, node) ∧ node.hasChildren = true

variable {page : Page} {point : Point} {x kernBias : Float} {i n box child : Nat} {node : Node}
  {ids : List Nat} {location : Location}

theorem Answers.of_hasLine (hn : n ∈ ids) (hget : page.get? n = some node)
    (hline : node.hasLine = true) : page.Answers ids node.location where
  mem := ⟨n, hn, node, hget, rfl⟩
  line_zero hzero := absurd hzero (Node.line_ne_zero_of_hasLine hline)

/-- A node has the source of the nearest of itself and the nodes above it that has one. -/
theorem Sound.exists_source? (h : page.Sound) (hi : i < page.size) :
    ∃ location, page.source? i = some location ∧ page.Answers (i :: page.ancestors i) location := by
  obtain ⟨node, hget⟩ := exists_get? hi
  cases hline : node.hasLine with
  | true =>
      refine ⟨node.location, ?_, .of_hasLine List.mem_cons_self hget hline⟩
      rw [source?, hget, Option.map_some, if_pos hline]
  | false =>
      have hzero : node.line = 0 := Node.hasLine_eq_false_iff.mp hline
      cases hwhere : page.ancestorWhere? Node.hasLine i with
      | some a =>
          obtain ⟨ha, above, habove, hlined⟩ := exists_of_ancestorWhere? hwhere
          refine ⟨above.location, ?_, .of_hasLine (List.mem_cons_of_mem i ha) habove hlined⟩
          simp [source?, hget, hline, hwhere, habove]
      | none =>
          refine ⟨node.location, by simp [source?, hget, hwhere],
            ⟨i, List.mem_cons_self, node, hget, rfl⟩, ?_⟩
          intro _ a ha
          rcases List.mem_cons.mp ha with rfl | ha
          · exact ⟨node, hget, hzero⟩
          · obtain ⟨above, habove, hlineless⟩ := h.exists_of_ancestorWhere?_eq_none hwhere ha
            exact ⟨above, habove, Node.hasLine_eq_false_iff.mp hlineless⟩

/-! ## The box where the search stops -/

section Sides

variable {children : List (Nat × Node)}

theorem exists_mem_of_left? (h : left? x kernBias children = some node) :
    ∃ id, (id, node) ∈ children ∧ node.hasLine = true := by
  have hmem := mem_of_firstBest? h
  rw [List.mem_filter, List.mem_map, Bool.and_eq_true] at hmem
  obtain ⟨⟨⟨id, other⟩, hother, rfl⟩, hline, -⟩ := hmem
  exact ⟨id, hother, hline⟩

theorem exists_mem_of_right? (h : right? x kernBias children = some node) :
    ∃ id, (id, node) ∈ children ∧ node.hasLine = true := by
  have hmem := mem_of_firstBest? h
  rw [List.mem_filter, List.mem_map, Bool.and_eq_true, Bool.and_eq_true] at hmem
  obtain ⟨⟨⟨id, other⟩, hother, rfl⟩, ⟨hline, -⟩, -⟩ := hmem
  exact ⟨id, hother, hline⟩

/-- A child with a line that is not hit stands on one of the sides, also if its distance is not a
number. -/
theorem hasLine_eq_false_of_none (hhit : hit? x kernBias children = none)
    (hleft : left? x kernBias children = none) (hright : right? x kernBias children = none)
    (hmem : (i, node) ∈ children) : node.hasLine = false := by
  by_contra hlined
  have hline : node.hasLine = true := Bool.not_eq_false _ ▸ hlined
  have hdistance : (node.lineDistance x kernBias == 0) = false := by
    have hmiss := List.find?_eq_none.mp hhit (i, node) hmem
    simpa [hline] using hmiss
  have hnode : node ∈ children.map Prod.snd := List.mem_map_of_mem hmem
  cases hside : decide (node.lineDistance x kernBias < 0) with
  | true =>
      have hno := List.filter_eq_nil_iff.mp (eq_nil_of_firstBest?_eq_none hleft) node hnode
      simp [hline, hside] at hno
  | false =>
      have hno := List.filter_eq_nil_iff.mp (eq_nil_of_firstBest?_eq_none hright) node hnode
      simp [hline, hdistance, hside] at hno

theorem arbitrate_eq_or (point : Point) (left right : Node) :
    arbitrate point left right = left.location ∨ arbitrate point left right = right.location := by
  unfold arbitrate
  split_ifs <;> simp

end Sides

theorem Answers.of_child (hchild : (n, node) ∈ page.childEntries box)
    (hline : node.hasLine = true) : page.Answers (page.family box) node.location := by
  obtain ⟨hmem, hget⟩ := mem_childEntries_iff.mp hchild
  exact .of_hasLine (List.mem_cons_of_mem box (List.mem_append_right _ hmem)) hget hline

theorem Answers.append_children (h : page.Answers (box :: page.ancestors box) location)
    (hchildren : ∀ c ∈ page.children box, ∃ node, page.get? c = some node ∧ node.line = 0) :
    page.Answers (page.family box) location where
  mem := by
    obtain ⟨n, hn, hnode⟩ := h.mem
    exact ⟨n, List.mem_append_left (page.children box) hn, hnode⟩
  line_zero hzero n hn := by
    rw [family, ← List.cons_append, List.mem_append] at hn
    rcases hn with hn | hn
    · exact h.line_zero hzero n hn
    · exact hchildren n hn

theorem mem_children_of_reenters (h : page.Reenters x kernBias box child) :
    child ∈ page.children box := by
  obtain ⟨node, hhit, -⟩ := h
  exact (mem_childEntries_iff.mp (List.mem_of_find?_eq_some hhit)).1

theorem below_of_reenters (h : Relation.ReflTransGen (page.Reenters x kernBias) box child) :
    page.Below box child :=
  Relation.ReflTransGen.mono (fun _ _ hchild => mem_children_of_reenters hchild) _ _ h

theorem reenters_rightUnique (page : Page) (x kernBias : Float) :
    Relator.RightUnique (page.Reenters x kernBias) := by
  rintro box child other ⟨node, hhit, -⟩ ⟨_, hother, -⟩
  exact congrArg Prod.fst (Option.some.inj (hhit.symm.trans hother))

/-- The box that the search inside a box does not leave is the only one. -/
theorem eq_of_not_reenters {last other : Nat}
    (hlast : Relation.ReflTransGen (page.Reenters x kernBias) box last)
    (hstop : ∀ child, ¬ page.Reenters x kernBias last child)
    (hother : Relation.ReflTransGen (page.Reenters x kernBias) box other)
    (hstop' : ∀ child, ¬ page.Reenters x kernBias other child) : last = other := by
  rcases hlast.total_of_right_unique (reenters_rightUnique page x kernBias) hother with hon | hon
  · exact hon.cases_head.resolve_right fun ⟨child, hchild, _⟩ => hstop child hchild
  · exact (hon.cases_head.resolve_right fun ⟨child, hchild, _⟩ => hstop' child hchild).symm

namespace Sound

/-- The search inside boxes does not go on for ever. -/
theorem wellFounded_reenters (h : page.Sound) (x kernBias : Float) :
    WellFounded fun child box => page.Reenters x kernBias box child :=
  Subrelation.wf mem_children_of_reenters h.wellFounded_children

theorem sourceIn?_of_reenters (h : page.Sound) (hchild : page.Reenters point.x kernBias box child) :
    page.sourceIn? point kernBias box = page.sourceIn? point kernBias child := by
  have hlt := h.lt_of_mem_children (mem_children_of_reenters hchild)
  obtain ⟨node, hhit, hnode⟩ := hchild
  rw [sourceIn?]
  simp only [hhit, hnode, if_true]
  exact dif_pos hlt

/-- Where the search stops, the answer is that of a child with a line or of the box. -/
theorem exists_sourceIn?_of_not_reenters (h : page.Sound) (hbox : box < page.size)
    (hstop : ∀ child, ¬ page.Reenters point.x kernBias box child) :
    ∃ location, page.sourceIn? point kernBias box = some location ∧
      page.Answers (page.family box) location := by
  rw [sourceIn?]
  cases hhit : hit? point.x kernBias (page.childEntries box) with
  | some entry =>
      obtain ⟨child, node⟩ := entry
      have hleaf : node.hasChildren = false := by
        by_contra hfilled
        exact hstop child ⟨node, hhit, Bool.not_eq_false _ ▸ hfilled⟩
      have hline : node.hasLine = true := by
        have haccept := List.find?_some hhit
        simpa [hleaf] using (Bool.and_eq_true_iff.mp haccept).2
      simp only [hleaf, Bool.false_eq_true, if_false]
      exact ⟨_, rfl, .of_child (List.mem_of_find?_eq_some hhit) hline⟩
  | none =>
      -- a child on one of the sides has a line; without any, the box and all its children count
      cases hleft : left? point.x kernBias (page.childEntries box) with
      | some left =>
          obtain ⟨l, hl, hlined⟩ := exists_mem_of_left? hleft
          cases hright : right? point.x kernBias (page.childEntries box) with
          | some right =>
              obtain ⟨r, hr, hrlined⟩ := exists_mem_of_right? hright
              refine ⟨_, rfl, ?_⟩
              rcases arbitrate_eq_or point left right with heq | heq
              · exact heq ▸ .of_child hl hlined
              · exact heq ▸ .of_child hr hrlined
          | none => exact ⟨_, rfl, .of_child hl hlined⟩
      | none =>
          cases hright : right? point.x kernBias (page.childEntries box) with
          | some right =>
              obtain ⟨r, hr, hrlined⟩ := exists_mem_of_right? hright
              exact ⟨_, rfl, .of_child hr hrlined⟩
          | none =>
              obtain ⟨location, hsource, hanswers⟩ := h.exists_source? hbox
              refine ⟨location, hsource, hanswers.append_children fun c hc => ?_⟩
              obtain ⟨node, hget⟩ := exists_get? (h.lt_of_mem_children hc).2
              have hline := hasLine_eq_false_of_none hhit hleft hright
                (mem_childEntries_iff.mpr ⟨hc, hget⟩)
              exact ⟨node, hget, Node.hasLine_eq_false_iff.mp hline⟩

/-- The search inside a box ends in a box that it does not leave, with the answer for that box. -/
theorem exists_reenters_end (h : page.Sound) (point : Point) (kernBias : Float) (box : Nat) :
    ∃ last, Relation.ReflTransGen (page.Reenters point.x kernBias) box last ∧
      (∀ child, ¬ page.Reenters point.x kernBias last child) ∧
      page.sourceIn? point kernBias box = page.sourceIn? point kernBias last := by
  induction box using (h.wellFounded_reenters point.x kernBias).induction with
  | _ box ih =>
      by_cases hstop : ∀ child, ¬ page.Reenters point.x kernBias box child
      · exact ⟨box, Relation.ReflTransGen.refl, hstop, rfl⟩
      · rw [not_forall_not] at hstop
        obtain ⟨child, hchild⟩ := hstop
        obtain ⟨last, hlast, hend, hsource⟩ := ih child hchild
        exact ⟨last, Relation.ReflTransGen.head hchild hlast, hend,
          (h.sourceIn?_of_reenters hchild).trans hsource⟩

end Sound

end Page

end PageSync

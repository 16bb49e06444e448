import PageSync.Proofs.Index.Bounds
import PageSync.Proofs.Inverse.Search
import PageSync.Proofs.Inverse.Unlined

/-! # The choice among siblings

Inside a box the children are passed once, with one candidate on each side, and
a child that is hit may lead into another box. What comes out is said here of
all children at once: the first one that is hit decides, or else the nearest on
each side, or else the nearest source around the box.
-/

namespace PageSync

open Binary64

namespace Node

/-- The point hits the node, and the node has children or a line. -/
def IsHit (x kernBias : Float) (node : Node) : Prop :=
  (node.lineDistance x kernBias == 0) = true ∧ (node.hasChildren = true ∨ 0 < node.line)

instance (x kernBias : Float) (node : Node) : Decidable (node.IsHit x kernBias) :=
  inferInstanceAs (Decidable (_ ∧ _))

/-- The node has a line and lies to the left of the point. -/
def IsLeftOf (x kernBias : Float) (node : Node) : Prop :=
  0 < node.line ∧ node.lineDistance x kernBias < 0

/-- The node has a line and lies to the right of the point. -/
def IsRightOf (x kernBias : Float) (node : Node) : Prop :=
  0 < node.line ∧ 0 < node.lineDistance x kernBias

/-- The location is that of the smaller line, and for one line of two inputs that of the node with
the smaller L1 distance, which is the left one if they are the same. -/
structure Arbitrates (point : Point) (left right : Node) (location : Location) : Prop where
  left_line : left.line < right.line → location = left.location
  right_line : right.line < left.line → location = right.location
  one_input : left.line = right.line → left.input = right.input → location = left.location
  left_nearer : left.line = right.line → left.input ≠ right.input →
    Precedes (left.l1Distance point) (right.l1Distance point) True → location = left.location
  right_nearer : left.line = right.line → left.input ≠ right.input →
    right.l1Distance point < left.l1Distance point → location = right.location

end Node

namespace Page

/-- The node of the child at a position. -/
def childAt? (page : Page) (box i : ℕ) : Option Node := ((page.childEntries box)[i]?).map Prod.snd

/-- The child at the position is the first one that is hit. -/
structure IsFirstHit (page : Page) (x kernBias : Float) (box i child : ℕ) (node : Node) :
    Prop where
  isChild : (page.childEntries box)[i]? = some (child, node)
  isHit : node.IsHit x kernBias
  first : ∀ {j other}, j < i → page.childAt? box j = some other → ¬ other.IsHit x kernBias

/-- The node is the child of greatest distance to the left, the earliest on ties. Distances to the
left are negative. -/
def IsNearestLeft (page : Page) (x kernBias : Float) (box i : ℕ) (node : Node) : Prop :=
  Leads (page.childAt? box) (Node.IsLeftOf x kernBias) (fun i a j b =>
    Precedes (b.lineDistance x kernBias) (a.lineDistance x kernBias) (i < j)) i node

/-- The node is the child of least distance to the right, the earliest on ties. -/
def IsNearestRight (page : Page) (x kernBias : Float) (box i : ℕ) (node : Node) : Prop :=
  Leads (page.childAt? box) (Node.IsRightOf x kernBias) (fun i a j b =>
    Precedes (a.lineDistance x kernBias) (b.lineDistance x kernBias) (i < j)) i node

/-- The location is that of the nearest of a node and those above it that has a line, or that of
the node if none has. -/
inductive Borrows (page : Page) (i : ℕ) (location : Location) : Prop where
  | lined {a : ℕ} {node : Node} (hmem : a ∈ i :: page.ancestors i)
      (hget : page.get? a = some node) (hline : 0 < node.line)
      (hnearest : ∀ n ∈ i :: page.ancestors i, ∀ other, page.get? n = some other →
        0 < other.line → n = a ∨ n ∈ page.ancestors a)
      (hlocation : location = node.location)
  | lineless {node : Node} (hget : page.get? i = some node)
      (hnone : ∀ n ∈ i :: page.ancestors i, ∀ other, page.get? n = some other → other.line = 0)
      (hlocation : location = node.location)

/-- The source at a point inside a box: that of the first child that is hit, or of the child on one
of the sides, or what the box has or borrows. -/
inductive Chooses (page : Page) (point : Point) (kernBias : Float) : ℕ → Location → Prop
  | inside {box i child : ℕ} {node : Node} {location : Location}
      (hhit : page.IsFirstHit point.x kernBias box i child node)
      (hchildren : node.hasChildren = true) (hchild : page.Chooses point kernBias child location) :
      page.Chooses point kernBias box location
  | leaf {box i child : ℕ} {node : Node}
      (hhit : page.IsFirstHit point.x kernBias box i child node)
      (hchildren : node.hasChildren = false) : page.Chooses point kernBias box node.location
  | between {box i j : ℕ} {left right : Node} {location : Location}
      (hhit : ∀ i node, page.childAt? box i = some node → ¬ node.IsHit point.x kernBias)
      (hleft : page.IsNearestLeft point.x kernBias box i left)
      (hright : page.IsNearestRight point.x kernBias box j right)
      (hlocation : Node.Arbitrates point left right location) :
      page.Chooses point kernBias box location
  | left {box i : ℕ} {left : Node}
      (hhit : ∀ i node, page.childAt? box i = some node → ¬ node.IsHit point.x kernBias)
      (hleft : page.IsNearestLeft point.x kernBias box i left)
      (hright : ∀ i node, page.childAt? box i = some node → ¬ node.IsRightOf point.x kernBias) :
      page.Chooses point kernBias box left.location
  | right {box i : ℕ} {right : Node}
      (hhit : ∀ i node, page.childAt? box i = some node → ¬ node.IsHit point.x kernBias)
      (hleft : ∀ i node, page.childAt? box i = some node → ¬ node.IsLeftOf point.x kernBias)
      (hright : page.IsNearestRight point.x kernBias box i right) :
      page.Chooses point kernBias box right.location
  | around {box : ℕ} {location : Location}
      (hhit : ∀ i node, page.childAt? box i = some node → ¬ node.IsHit point.x kernBias)
      (hleft : ∀ i node, page.childAt? box i = some node → ¬ node.IsLeftOf point.x kernBias)
      (hright : ∀ i node, page.childAt? box i = some node → ¬ node.IsRightOf point.x kernBias)
      (hlocation : page.Borrows box location) : page.Chooses point kernBias box location

variable {page : Page} {point : Point} {x kernBias : Float} {box i c : ℕ} {node : Node}
  {location : Location}

/-! ## The first hit -/

theorem hit?_eq_find? (x kernBias : Float) (children : List (ℕ × Node)) :
    hit? x kernBias children = children.find? fun entry => decide (entry.2.IsHit x kernBias) := by
  rw [hit?]
  congr
  funext entry
  rw [Bool.eq_iff_iff, decide_eq_true_iff, Node.IsHit, Bool.and_eq_true, Bool.or_eq_true,
    Node.hasLine, decide_eq_true_iff]

theorem hit?_eq_some_iff : hit? x kernBias (page.childEntries box) = some (c, node) ↔
    ∃ i, page.IsFirstHit x kernBias box i c node := by
  simp only [hit?_eq_find?, List.find?_eq_some_iff_getElem, decide_eq_true_iff,
    Bool.not_eq_true', decide_eq_false_iff_not]
  constructor
  · rintro ⟨hhit, i, hi, hget, hfirst⟩
    refine ⟨i, List.getElem?_eq_some_iff.mpr ⟨hi, hget⟩, hhit, ?_⟩
    intro j other hj hother
    obtain ⟨entry, hentry, rfl⟩ := Option.map_eq_some_iff.mp hother
    obtain ⟨hlt, rfl⟩ := List.getElem?_eq_some_iff.mp hentry
    exact hfirst j hj
  · rintro ⟨i, hget, hhit, hfirst⟩
    obtain ⟨hi, heq⟩ := List.getElem?_eq_some_iff.mp hget
    refine ⟨hhit, i, hi, heq, fun j hj => ?_⟩
    exact hfirst hj (Option.map_eq_some_iff.mpr
      ⟨_, List.getElem?_eq_getElem (Nat.lt_trans hj hi), rfl⟩)

theorem exists_childAt?_iff : (∃ i, page.childAt? box i = some node) ↔
    ∃ c, (c, node) ∈ page.childEntries box := by
  simp only [childAt?, Option.map_eq_some_iff, List.mem_iff_getElem?, Prod.exists]
  constructor
  · rintro ⟨i, c, other, hget, rfl⟩
    exact ⟨c, i, hget⟩
  · rintro ⟨c, i, hget⟩
    exact ⟨i, c, node, hget, rfl⟩

theorem hit?_eq_none_iff : hit? x kernBias (page.childEntries box) = none ↔
    ∀ i node, page.childAt? box i = some node → ¬ node.IsHit x kernBias := by
  simp only [hit?_eq_find?, List.find?_eq_none, decide_eq_true_iff]
  constructor
  · intro hnone i node hchild
    obtain ⟨c, hmem⟩ := exists_childAt?_iff.mp ⟨i, hchild⟩
    exact hnone (c, node) hmem
  · rintro hnone ⟨c, node⟩ hmem
    obtain ⟨i, hchild⟩ := exists_childAt?_iff.mpr ⟨c, hmem⟩
    exact hnone i node hchild

/-! ## The sides -/

/-- The children of a box with their positions. -/
def numbered (page : Page) (box : ℕ) : List (ℕ × Node) :=
  (page.childEntries box).zipIdx.map fun (entry, i) => (i, entry.2)

theorem map_snd_numbered (page : Page) (box : ℕ) :
    (page.numbered box).map Prod.snd = (page.childEntries box).map Prod.snd := by
  rw [numbered, List.map_map, ← List.zipIdx_map_fst 0 (page.childEntries box), List.map_map,
    List.zipIdx_map_fst]
  rfl

theorem pairwise_numbered (page : Page) (box : ℕ) :
    (page.numbered box).Pairwise fun a b => a.1 < b.1 := by
  have hnumbers : (page.numbered box).map Prod.fst =
      List.range' 0 (page.childEntries box).length := by
    rw [numbered, List.map_map]
    exact List.zipIdx_map_snd 0 (page.childEntries box)
  rw [← List.pairwise_map, hnumbers]
  exact List.pairwise_lt_range'

theorem mem_numbered_iff : (i, node) ∈ page.numbered box ↔ page.childAt? box i = some node := by
  simp only [numbered, childAt?, List.mem_map, Prod.exists, Prod.mk.injEq,
    List.mem_zipIdx_iff_getElem?, Option.map_eq_some_iff]
  constructor
  · rintro ⟨c, other, j, hget, rfl, rfl⟩
    exact ⟨c, other, hget, rfl⟩
  · rintro ⟨c, other, hget, rfl⟩
    exact ⟨c, other, i, hget, rfl, rfl⟩

/-- The best child of some is the best of them with their positions. -/
theorem firstBest?_filter_childEntries (beats : Node → Node → Bool) (accept : Node → Bool)
    (page : Page) (box : ℕ) :
    firstBest? beats (((page.childEntries box).map Prod.snd).filter accept) =
      (firstBest? (fun a b => beats a.2 b.2)
        ((page.numbered box).filter fun entry => accept entry.2)).map Prod.snd := by
  rw [← map_snd_numbered, List.filter_map, firstBest?_map]
  rfl

theorem mem_left_iff : (i, node) ∈ (page.numbered box).filter (fun entry =>
      entry.2.hasLine && entry.2.lineDistance x kernBias < 0) ↔
    page.childAt? box i = some node ∧ node.IsLeftOf x kernBias := by
  rw [List.mem_filter, mem_numbered_iff, Bool.and_eq_true, Node.hasLine, decide_eq_true_iff,
    decide_eq_true_iff, Node.IsLeftOf]

theorem left?_eq_some_iff : left? x kernBias (page.childEntries box) = some node ↔
    ∃ i, page.IsNearestLeft x kernBias box i node := by
  have hnumber : ∀ entry ∈ (page.numbered box).filter (fun entry =>
      entry.2.hasLine && entry.2.lineDistance x kernBias < 0),
      (entry.2.lineDistance x kernBias).isNaN = false :=
    fun entry hentry => isNaN_left_of_lt (mem_left_iff.mp hentry).2.2
  rw [left?, firstBest?_filter_childEntries]
  refine map_firstBest?_eq_some_iff
    (fun a b => a.lineDistance x kernBias > b.lineDistance x kernBias)
    (fun node => OrderDual.toDual (rank (node.lineDistance x kernBias)))
    ((pairwise_numbered page box).filter _) (fun _ _ => mem_left_iff) ?_ ?_ ?_
  · intro a ha b hb
    rw [decide_eq_true_iff, OrderDual.toDual_lt_toDual]
    exact lt_iff_rank (hnumber b hb) (hnumber a ha)
  · intro a ha b hb h
    rw [OrderDual.toDual_lt_toDual, OrderDual.toDual_inj, eq_comm] at h
    exact precedes_of_rank (hnumber b hb) (hnumber a ha) h
  · intro i a j b hab hba
    obtain ⟨hlt, hgt⟩ := hab.and_rest hba
    exact Nat.lt_asymm hlt hgt

theorem left?_eq_none_iff : left? x kernBias (page.childEntries box) = none ↔
    ∀ i node, page.childAt? box i = some node → ¬ node.IsLeftOf x kernBias := by
  rw [left?, firstBest?_filter_childEntries, Option.map_eq_none_iff,
    firstBest?_eq_none_iff fun _ _ => mem_left_iff]
  simp only [not_exists, not_and]

section Right

variable (hnumbers : ∀ i node, page.childAt? box i = some node →
  (node.lineDistance x kernBias).isNaN = false)

include hnumbers

theorem mem_right_iff : (i, node) ∈ (page.numbered box).filter (fun entry =>
      entry.2.hasLine && !(entry.2.lineDistance x kernBias == 0) &&
        !(entry.2.lineDistance x kernBias < 0)) ↔
    page.childAt? box i = some node ∧ node.IsRightOf x kernBias := by
  rw [List.mem_filter, mem_numbered_iff, Bool.and_eq_true, Bool.and_eq_true, Node.hasLine,
    decide_eq_true_iff, Bool.not_eq_true', Bool.not_eq_true', decide_eq_false_iff_not,
    Node.IsRightOf, and_assoc]
  refine and_congr_right fun hchild => and_congr_right fun _ => ?_
  exact (lt_iff_not_beq_and_not_lt (hnumbers i node hchild) (by decide)).symm

theorem right?_eq_some_iff : right? x kernBias (page.childEntries box) = some node ↔
    ∃ i, page.IsNearestRight x kernBias box i node := by
  have hnumber : ∀ entry ∈ (page.numbered box).filter (fun entry =>
      entry.2.hasLine && !(entry.2.lineDistance x kernBias == 0) &&
        !(entry.2.lineDistance x kernBias < 0)),
      (entry.2.lineDistance x kernBias).isNaN = false :=
    fun entry hentry => hnumbers entry.1 entry.2 ((mem_right_iff hnumbers).mp hentry).1
  rw [right?, firstBest?_filter_childEntries]
  refine map_firstBest?_eq_some_iff
    (fun a b => a.lineDistance x kernBias < b.lineDistance x kernBias)
    (fun node => rank (node.lineDistance x kernBias))
    ((pairwise_numbered page box).filter _) (fun _ _ => mem_right_iff hnumbers) ?_ ?_ ?_
  · intro a ha b hb
    rw [decide_eq_true_iff]
    exact lt_iff_rank (hnumber a ha) (hnumber b hb)
  · exact fun a ha b hb => precedes_of_rank (hnumber a ha) (hnumber b hb)
  · intro i a j b hab hba
    obtain ⟨hlt, hgt⟩ := hab.and_rest hba
    exact Nat.lt_asymm hlt hgt

theorem right?_eq_none_iff : right? x kernBias (page.childEntries box) = none ↔
    ∀ i node, page.childAt? box i = some node → ¬ node.IsRightOf x kernBias := by
  rw [right?, firstBest?_filter_childEntries, Option.map_eq_none_iff,
    firstBest?_eq_none_iff fun _ _ => mem_right_iff hnumbers]
  simp only [not_exists, not_and]

end Right

/-! ## Between the sides and around the box -/

theorem arbitrates (point : Point) (left right : Node) :
    Node.Arbitrates point left right (arbitrate point left right) where
  left_line hlt := by
    have hne : left.line ≠ right.line := UInt32.ne_of_lt hlt
    have hlocations : left.location ≠ right.location := fun heq => hne (congrArg Location.line heq)
    rw [arbitrate, if_neg hlocations, if_pos hne, if_pos hlt]
  right_line hlt := by
    have hne : left.line ≠ right.line := (UInt32.ne_of_lt hlt).symm
    have hlocations : left.location ≠ right.location := fun heq => hne (congrArg Location.line heq)
    rw [arbitrate, if_neg hlocations, if_pos hne, if_neg (UInt32.lt_asymm hlt)]
  one_input hline hinput := by
    rw [arbitrate, if_pos]
    rw [Node.location, Node.location, hline, hinput]
  left_nearer hline hinput hnear := by
    have hlocations : left.location ≠ right.location :=
      fun heq => hinput (congrArg Location.input heq)
    have hfar : ¬ right.l1Distance point < left.l1Distance point :=
      fun hlt => (Precedes.and_rest hnear (Or.inl hlt : Precedes _ _ False)).2
    rw [arbitrate, if_neg hlocations, if_neg (not_not.mpr hline), if_neg hfar]
  right_nearer hline hinput hnear := by
    have hlocations : left.location ≠ right.location :=
      fun heq => hinput (congrArg Location.input heq)
    rw [arbitrate, if_neg hlocations, if_neg (not_not.mpr hline), if_pos hnear]

theorem arbitrate_eq_iff (left right : Node) :
    arbitrate point left right = location ↔ Node.Arbitrates point left right location := by
  constructor
  · rintro rfl
    exact arbitrates point left right
  · intro h
    have h' := arbitrates point left right
    by_cases hline : left.line = right.line
    · by_cases hinput : left.input = right.input
      · rw [h.one_input hline hinput, h'.one_input hline hinput]
      · by_cases hfar : right.l1Distance point < left.l1Distance point
        · rw [h.right_nearer hline hinput hfar, h'.right_nearer hline hinput hfar]
        · have hnear := precedes_of_not_lt (left.isNaN_l1Distance point)
            (right.isNaN_l1Distance point) hfar
          rw [h.left_nearer hline hinput hnear, h'.left_nearer hline hinput hnear]
    · rcases UInt32.lt_or_lt_of_ne hline with hlt | hgt
      · rw [h.left_line hlt, h'.left_line hlt]
      · rw [h.right_line hgt, h'.right_line hgt]

theorem Sound.borrows_of_source? (h : page.Sound) (hsource : page.source? i = some location) :
    page.Borrows i location := by
  obtain ⟨node, hget, hlocation⟩ := Option.map_eq_some_iff.mp hsource
  cases hline : node.hasLine with
  | true =>
      rw [if_pos hline] at hlocation
      exact .lined List.mem_cons_self hget (of_decide_eq_true hline)
        (fun n hn _ _ _ => List.mem_cons.mp hn) hlocation.symm
  | false =>
      have hzero := Node.hasLine_eq_false_iff.mp hline
      rw [if_neg (Bool.not_eq_true _ ▸ hline)] at hlocation
      cases hwhere : page.ancestorWhere? Node.hasLine i with
      | some a =>
          obtain ⟨ha, above, habove, hlined⟩ := exists_of_ancestorWhere? hwhere
          rw [hwhere, Option.bind_some, habove] at hlocation
          refine .lined (List.mem_cons_of_mem i ha) habove (of_decide_eq_true hlined) ?_
            hlocation.symm
          intro n hn other hother hotherLine
          rcases List.mem_cons.mp hn with rfl | hn
          · obtain rfl := Option.some.inj (hget.symm.trans hother)
            exact absurd hzero (UInt32.ne_of_lt hotherLine).symm
          · refine h.eq_or_mem_ancestors_of_ancestorWhere? hwhere hn ?_
            rw [hother, Option.any_some]
            exact decide_eq_true hotherLine
      | none =>
          rw [hwhere] at hlocation
          refine .lineless hget ?_ hlocation.symm
          intro n hn other hother
          rcases List.mem_cons.mp hn with rfl | hn
          · exact Option.some.inj (hget.symm.trans hother) ▸ hzero
          · obtain ⟨above, habove, hlineless⟩ := h.exists_of_ancestorWhere?_eq_none hwhere hn
            obtain rfl := Option.some.inj (habove.symm.trans hother)
            exact Node.hasLine_eq_false_iff.mp hlineless

theorem Sound.borrows_unique (h : page.Sound) {other : Location} (hi : page.Borrows i location)
    (hother : page.Borrows i other) : location = other := by
  cases hi with
  | @lined a node hmem hget hline hnearest hlocation =>
      cases hother with
      | @lined b node' hmem' hget' hline' hnearest' hlocation' =>
          have hab : a = b := by
            rcases hnearest b hmem' node' hget' hline' with heq | hb
            · exact heq.symm
            · rcases hnearest' a hmem node hget hline with heq | ha
              · exact heq
              · exact absurd (h.lt_of_mem_ancestors ha) (Nat.lt_asymm (h.lt_of_mem_ancestors hb))
          subst hab
          obtain rfl := Option.some.inj (hget.symm.trans hget')
          rw [hlocation, hlocation']
      | lineless hget' hnone hlocation' =>
          exact absurd (hnone a hmem node hget) (UInt32.ne_of_lt hline).symm
  | @lineless node hget hnone hlocation =>
      cases hother with
      | @lined b node' hmem' hget' hline' hnearest' hlocation' =>
          exact absurd (hnone b hmem' node' hget') (UInt32.ne_of_lt hline').symm
      | lineless hget' hnone' hlocation' =>
          obtain rfl := Option.some.inj (hget.symm.trans hget')
          rw [hlocation, hlocation']

theorem Borrows.lt_size (h : page.Borrows i location) : i < page.size := by
  cases h with
  | lined hmem hget hline hnearest hlocation =>
      rcases List.mem_cons.mp hmem with rfl | hmem
      · exact lt_size_of_get? hget
      · obtain ⟨p, hparent⟩ := exists_parent?_of_mem_ancestors hmem
        exact lt_size_of_parent? hparent
  | lineless hget hnone hlocation => exact lt_size_of_get? hget

theorem Sound.source?_eq_some_iff (h : page.Sound) :
    page.source? i = some location ↔ page.Borrows i location := by
  refine ⟨h.borrows_of_source?, fun hborrows => ?_⟩
  obtain ⟨other, hother, -⟩ := h.exists_source? hborrows.lt_size
  rw [hother, h.borrows_unique hborrows (h.borrows_of_source? hother)]

/-! ## The whole search -/

section Whole

variable (h : page.Sound) (hnumbers : ∀ i node, page.get? i = some node →
  (node.lineDistance point.x kernBias).isNaN = false)

include hnumbers

theorem isNaN_of_childAt? (hchild : page.childAt? box i = some node) :
    (node.lineDistance point.x kernBias).isNaN = false := by
  obtain ⟨c, hmem⟩ := exists_childAt?_iff.mp ⟨i, hchild⟩
  exact hnumbers c node (mem_childEntries_iff.mp hmem).2

include h

theorem Sound.chooses_of_sourceIn?
    (hsource : page.sourceIn? point kernBias box = some location) :
    page.Chooses point kernBias box location := by
  -- only a child that is hit and has children leads on, and it is below the box
  induction box using h.wellFounded_children.induction with
  | _ box ih =>
      have hsides : ∀ i node, page.childAt? box i = some node →
          (node.lineDistance point.x kernBias).isNaN = false :=
        fun i node => isNaN_of_childAt? hnumbers
      cases hhit : hit? point.x kernBias (page.childEntries box) with
      | some entry =>
          obtain ⟨c, node⟩ := entry
          obtain ⟨i, hfirst⟩ := hit?_eq_some_iff.mp hhit
          cases hchildren : node.hasChildren with
          | true =>
              have hchild : page.Reenters point.x kernBias box c := ⟨node, hhit, hchildren⟩
              rw [h.sourceIn?_of_reenters hchild] at hsource
              exact .inside hfirst hchildren (ih c (mem_children_of_reenters hchild) hsource)
          | false =>
              rw [sourceIn?] at hsource
              simp only [hhit, hchildren, Bool.false_eq_true, if_false] at hsource
              exact Option.some.inj hsource ▸ .leaf hfirst hchildren
      | none =>
          have hnone := hit?_eq_none_iff.mp hhit
          rw [sourceIn?] at hsource
          cases hleft : left? point.x kernBias (page.childEntries box) with
          | some left =>
              obtain ⟨i, hnearest⟩ := left?_eq_some_iff.mp hleft
              cases hright : right? point.x kernBias (page.childEntries box) with
              | some right =>
                  obtain ⟨j, hnearest'⟩ := (right?_eq_some_iff hsides).mp hright
                  simp only [hhit, hleft, hright, Option.some.injEq, arbitrate_eq_iff] at hsource
                  exact .between hnone hnearest hnearest' hsource
              | none =>
                  simp only [hhit, hleft, hright, Option.some.injEq] at hsource
                  exact hsource ▸ .left hnone hnearest ((right?_eq_none_iff hsides).mp hright)
          | none =>
              have hnoneLeft := left?_eq_none_iff.mp hleft
              cases hright : right? point.x kernBias (page.childEntries box) with
              | some right =>
                  obtain ⟨j, hnearest⟩ := (right?_eq_some_iff hsides).mp hright
                  simp only [hhit, hleft, hright, Option.some.injEq] at hsource
                  exact hsource ▸ .right hnone hnoneLeft hnearest
              | none =>
                  simp only [hhit, hleft, hright] at hsource
                  exact .around hnone hnoneLeft ((right?_eq_none_iff hsides).mp hright)
                    (h.source?_eq_some_iff.mp hsource)

theorem Sound.sourceIn?_of_chooses (hchooses : page.Chooses point kernBias box location) :
    page.sourceIn? point kernBias box = some location := by
  induction hchooses with
  | inside hhit hchildren hchild ih =>
      rw [h.sourceIn?_of_reenters ⟨_, hit?_eq_some_iff.mpr ⟨_, hhit⟩, hchildren⟩, ih]
  | leaf hhit hchildren =>
      rw [sourceIn?]
      simp [hit?_eq_some_iff.mpr ⟨_, hhit⟩, hchildren]
  | between hhit hleft hright hlocation =>
      rw [sourceIn?]
      simp [hit?_eq_none_iff.mpr hhit, left?_eq_some_iff.mpr ⟨_, hleft⟩,
        (right?_eq_some_iff fun i node => isNaN_of_childAt? hnumbers).mpr ⟨_, hright⟩,
        arbitrate_eq_iff, hlocation]
  | left hhit hleft hright =>
      rw [sourceIn?]
      simp [hit?_eq_none_iff.mpr hhit, left?_eq_some_iff.mpr ⟨_, hleft⟩,
        (right?_eq_none_iff fun i node => isNaN_of_childAt? hnumbers).mpr hright]
  | right hhit hleft hright =>
      rw [sourceIn?]
      simp [hit?_eq_none_iff.mpr hhit, left?_eq_none_iff.mpr hleft,
        (right?_eq_some_iff fun i node => isNaN_of_childAt? hnumbers).mpr ⟨_, hright⟩]
  | around hhit hleft hright hlocation =>
      rw [sourceIn?]
      simp [hit?_eq_none_iff.mpr hhit, left?_eq_none_iff.mpr hleft,
        (right?_eq_none_iff fun i node => isNaN_of_childAt? hnumbers).mpr hright,
        h.source?_eq_some_iff, hlocation]

theorem Sound.sourceIn?_eq_some_iff :
    page.sourceIn? point kernBias box = some location ↔
      page.Chooses point kernBias box location :=
  ⟨h.chooses_of_sourceIn? hnumbers, h.sourceIn?_of_chooses hnumbers⟩

end Whole

end Page

namespace Index

variable {root : Option String} {text : List UInt8} {number : UInt32} {page : Page}

/-- Inside any box of a document there is a source for every point, and it is the one that is chosen
among all children of the box. Children without a line and without children have no part in it: they
may be deleted. -/
theorem sourceIn?_ofDocument (hpage : (ofDocument root text).page? number = some page) {box : ℕ}
    (hbox : box < page.size) {point : Point} {kernBias : Float} (hx : point.x.isFinite = true)
    (hbias : kernBias.isFinite = true) :
    (page.childEntries box).map Prod.fst = page.children box ∧
    (page.sourceIn? point kernBias box).isSome = true ∧
    (∀ location, page.sourceIn? point kernBias box = some location ↔
      page.Chooses point kernBias box location) ∧
    ∀ x, page.TellsNothing box x →
      (page.erase x).sourceIn? point kernBias box = page.sourceIn? point kernBias box := by
  have hsound := Draft.page_sound_ofEvents hpage
  have hnumbers : ∀ i node, page.get? i = some node →
      (node.lineDistance point.x kernBias).isNaN = false :=
    fun i node hget => (isBounded_of_get? hpage hget).isNaN_lineDistance hx hbias
  refine ⟨hsound.map_fst_childEntries box, ?_,
    fun location => hsound.sourceIn?_eq_some_iff hnumbers, fun x htells => ?_⟩
  · obtain ⟨-, -, location, -, -, hsource, -⟩ := hsound.exists_sourceIn? point kernBias hbox
    rw [hsource, Option.isSome_some]
  · have hlt := (hsound.lt_of_tellsNothing htells).1
    have herase : (page.erase x).sourceIn? point kernBias (Page.renumber x box) =
        page.sourceIn? point kernBias box :=
      hsound.sourceIn?_erase htells (Nat.ne_of_lt hlt) (Nat.le_refl box)
    rwa [Page.renumber_of_le (Nat.le_of_lt hlt)] at herase

/-- The point hits the second child, which tells nothing, and lies between the two others. Of these
the right one has the smaller line, though the left one is nearer. -/
theorem sourceIn?_ofDocument_between :
    let text := Text.Utf8.encode ("Unit:65536\nContent:\n\x7b1\n(1,1:0,0:99,9,0\n" ++
      "h1,7:0,0:9,9,0\nh1,0:9,0:50,9,0\nh1,4:70,0:9,9,0\n)\n")
    let page := (ofDocument none text).pageAt 1
    let point : Point := ⟨20, 0⟩
    let kernBias := ({} : Settings).kernBias
    (ofDocument none text).page? 1 = some page ∧ 0 < page.size ∧ point.x.isFinite = true ∧
      kernBias.isFinite = true ∧ page.Chooses point kernBias 0 ⟨1, 4⟩ ∧
      ¬ page.Chooses point kernBias 0 ⟨1, 7⟩ ∧ page.TellsNothing 0 2 ∧
      (page.get? 2).any (fun child => child.lineDistance point.x kernBias == 0) = true ∧
      (page.erase 2).sourceIn? point kernBias 0 = some ⟨1, 4⟩ := by
  intro text page point kernBias
  have hpage : (ofDocument none text).page? 1 = some page := page?_of_size_pos (by decide +kernel)
  have hsize : 0 < page.size := by decide +kernel
  have hx : point.x.isFinite = true := by decide +kernel
  have hbias : kernBias.isFinite = true := by decide +kernel
  have hsource : page.sourceIn? point kernBias 0 = some ⟨1, 4⟩ := by decide +kernel
  have hchild : (page.get? 2).map (fun child => (child.line, child.hasChildren)) =
      some (0, false) := by decide +kernel
  obtain ⟨child, hget, htells⟩ := Option.map_eq_some_iff.mp hchild
  rw [Prod.mk.injEq] at htells
  have hnothing : page.TellsNothing 0 2 := ⟨by decide +kernel, child, hget, htells⟩
  obtain ⟨-, -, hchooses, herase⟩ := sourceIn?_ofDocument hpage hsize hx hbias
  refine ⟨hpage, hsize, hx, hbias, (hchooses _).mp hsource, fun hother => ?_, hnothing,
    by decide +kernel, (herase 2 hnothing).trans hsource⟩
  rw [← hchooses, hsource] at hother
  exact absurd hother (by decide)

end Index

end PageSync

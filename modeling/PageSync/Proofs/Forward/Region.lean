import PageSync.Forward.Region
import PageSync.Proofs.Binary64.Sums
import PageSync.Proofs.Index.Bounds

/-! # What a region covers

The edges that are moved outwards node by node end at the outermost edges of
all nodes, in whatever order the nodes come. So the region of some nodes is
that of their outermost edges. Only the line of text that a flat region is made
to cover is that of the first node.
-/

namespace PageSync

open Binary64

/-! ## The lesser and the greater -/

section Extremes

variable {a b : Float} {values : Set Float}

theorem isLeast_singleton_of_isNaN (ha : a.isNaN = false) : IsLeast {a} a := by
  refine ⟨rfl, ?_⟩
  rintro x rfl
  exact le_self ha

theorem isGreatest_singleton_of_isNaN (ha : a.isNaN = false) : IsGreatest {a} a := by
  refine ⟨rfl, ?_⟩
  rintro x rfl
  exact le_self ha

theorem isLeast_lesser (ha : IsLeast values a) (hb : b.isNaN = false) :
    IsLeast (insert b values) (lesser a b) := by
  have hnan : a.isNaN = false := (le_iff.mp (ha.2 ha.1)).1
  rw [lesser, hnan, Bool.or_false]
  simp only [decide_eq_true_eq]
  split
  next hlt =>
    refine ⟨Set.mem_insert b values, ?_⟩
    rintro x (rfl | hx)
    · exact le_self hb
    · exact le_trans_of_le (Binary64.le_of_lt hlt) (ha.2 hx)
  next hnot =>
    refine ⟨Set.mem_insert_of_mem b ha.1, ?_⟩
    rintro x (rfl | hx)
    · exact Binary64.le_of_not_lt hb hnan hnot
    · exact ha.2 hx

theorem isGreatest_greater (ha : IsGreatest values a) (hb : b.isNaN = false) :
    IsGreatest (insert b values) (greater a b) := by
  have hnan : a.isNaN = false := (le_iff.mp (ha.2 ha.1)).1
  rw [greater, hnan, Bool.or_false]
  simp only [decide_eq_true_eq]
  split
  next hlt =>
    refine ⟨Set.mem_insert b values, ?_⟩
    rintro x (rfl | hx)
    · exact le_self hb
    · exact le_trans_of_le (ha.2 hx) (Binary64.le_of_lt hlt)
  next hnot =>
    refine ⟨Set.mem_insert_of_mem b ha.1, ?_⟩
    rintro x (rfl | hx)
    · exact Binary64.le_of_not_lt hnan hb hnot
    · exact ha.2 hx

/-- Equal numbers stay equal if they are made as large as another one. -/
theorem greater_beq_greater (h : (a == b) = true) (c : Float) :
    (greater a c == greater b c) = true := by
  obtain ⟨ha, hb, hrank⟩ := beq_iff.mp h
  have hlt : a < c ↔ b < c := by
    rw [lt_iff, lt_iff, ha, hb, hrank]
  rw [greater, greater, ha, hb, Bool.or_false, Bool.or_false]
  simp only [decide_eq_true_eq, hlt]
  split
  next hlt =>
    have hc : c.isNaN = false := (lt_iff.mp hlt).2.1
    exact (beq_iff_rank hc hc).mpr rfl
  next => exact h

end Extremes

namespace Node.IsBounded

variable {node : Node}

theorem isFinite_right (h : node.IsBounded) : node.right.isFinite = true :=
  (h.h.add h.width (by decide) (by decide)).isFinite

theorem isFinite_top (h : node.IsBounded) : node.top.isFinite = true :=
  (h.v.sub h.height (by decide) (by decide)).isFinite

theorem isFinite_bottom (h : node.IsBounded) : node.bottom.isFinite = true :=
  (h.v.add h.depth (by decide) (by decide)).isFinite

end Node.IsBounded

/-! ## Outermost edges -/

namespace Bounds

variable {bounds other : Bounds} {node : Node} {nodes others rest : List Node}

/-- Where the edges of some nodes are that lie on one side. -/
def edges (edge : Node → Float) (nodes : List Node) : Set Float :=
  {x | ∃ node ∈ nodes, edge node = x}

/-- The edges of the rectangle are the outermost ones of some nodes. -/
structure IsTight (bounds : Bounds) (nodes : List Node) : Prop where
  left : IsLeast (edges Node.h nodes) bounds.left
  right : IsGreatest (edges Node.right nodes) bounds.right
  top : IsLeast (edges Node.top nodes) bounds.top
  bottom : IsGreatest (edges Node.bottom nodes) bounds.bottom

theorem edges_singleton (edge : Node → Float) (node : Node) : edges edge [node] = {edge node} := by
  ext x
  simp [edges, eq_comm]

theorem edges_concat (edge : Node → Float) (nodes : List Node) (node : Node) :
    edges edge (nodes ++ [node]) = insert (edge node) (edges edge nodes) := by
  ext x
  simp [edges, or_comm, or_and_right, exists_or, eq_comm]

theorem edges_congr (edge : Node → Float) (h : ∀ node, node ∈ others ↔ node ∈ nodes) :
    edges edge others = edges edge nodes := by
  simp only [edges, h]

theorem isTight_ofNode (hnode : node.IsBounded) : (ofNode node).IsTight [node] := by
  constructor <;> rw [edges_singleton]
  · exact isLeast_singleton_of_isNaN (isNaN_of_isFinite hnode.h.isFinite)
  · exact isGreatest_singleton_of_isNaN (isNaN_of_isFinite hnode.isFinite_right)
  · exact isLeast_singleton_of_isNaN (isNaN_of_isFinite hnode.isFinite_top)
  · exact isGreatest_singleton_of_isNaN (isNaN_of_isFinite hnode.isFinite_bottom)

/-- One more node moves the edges no further than it asks for. -/
theorem IsTight.add (h : bounds.IsTight nodes) (hnode : node.IsBounded) :
    (bounds.add node).IsTight (nodes ++ [node]) := by
  constructor <;> rw [edges_concat]
  · exact isLeast_lesser h.left (isNaN_of_isFinite hnode.h.isFinite)
  · exact isGreatest_greater h.right (isNaN_of_isFinite hnode.isFinite_right)
  · exact isLeast_lesser h.top (isNaN_of_isFinite hnode.isFinite_top)
  · exact isGreatest_greater h.bottom (isNaN_of_isFinite hnode.isFinite_bottom)

theorem IsTight.foldl_add (h : bounds.IsTight nodes) (hrest : ∀ node ∈ rest, node.IsBounded) :
    (rest.foldl Bounds.add bounds).IsTight (nodes ++ rest) := by
  induction rest generalizing bounds nodes with
  | nil => rwa [List.foldl_nil, List.append_nil]
  | cons node rest ih =>
      rw [List.forall_mem_cons] at hrest
      have hnext := ih (h.add hrest.1) hrest.2
      rwa [List.append_assoc, List.singleton_append] at hnext

theorem beq_iff : (bounds == other) = true ↔ (bounds.left == other.left) = true ∧
    (bounds.right == other.right) = true ∧ (bounds.top == other.top) = true ∧
      (bounds.bottom == other.bottom) = true := by
  simp only [BEq.beq, instBEqBounds.beq, Bool.and_eq_true]

/-- The outermost edges do not depend on the order of the nodes, nor on how often one comes. -/
theorem IsTight.beq (h : bounds.IsTight nodes) (hother : other.IsTight others)
    (hmem : ∀ node, node ∈ others ↔ node ∈ nodes) : (other == bounds) = true := by
  obtain ⟨hleft, hright, htop, hbottom⟩ := hother
  rw [edges_congr _ hmem] at hleft hright htop hbottom
  refine beq_iff.mpr ⟨?_, ?_, ?_, ?_⟩
  · exact beq_of_le_of_le (hleft.2 h.left.1) (h.left.2 hleft.1)
  · exact beq_of_le_of_le (h.right.2 hright.1) (hright.2 h.right.1)
  · exact beq_of_le_of_le (htop.2 h.top.1) (h.top.2 htop.1)
  · exact beq_of_le_of_le (h.bottom.2 hbottom.1) (hbottom.2 h.bottom.1)

/-- The width and the height of outermost edges are numbers. -/
theorem IsTight.isNaN_sub (h : bounds.IsTight nodes) (hnodes : ∀ node ∈ nodes, node.IsBounded) :
    (bounds.right - bounds.left).isNaN = false ∧ (bounds.bottom - bounds.top).isNaN = false := by
  obtain ⟨leftmost, hleftmost, hleft⟩ := h.left.1
  obtain ⟨rightmost, hrightmost, hright⟩ := h.right.1
  obtain ⟨topmost, htopmost, htop⟩ := h.top.1
  obtain ⟨lowest, hlowest, hbottom⟩ := h.bottom.1
  rw [← hleft, ← hright, ← htop, ← hbottom]
  constructor
  · exact isNaN_sub_of_isFinite (isNaN_of_isFinite (hnodes rightmost hrightmost).isFinite_right)
      (hnodes leftmost hleftmost).h.isFinite
  · exact isNaN_sub_of_isFinite (isNaN_of_isFinite (hnodes lowest hlowest).isFinite_bottom)
      (hnodes topmost htopmost).isFinite_top

/-- The edges are not so near to each other that the region is taken to be flat. -/
def IsRegular (settings : Settings) (bounds : Bounds) : Prop :=
  settings.degenerateHeight ≤ bounds.bottom - bounds.top

end Bounds

/-! ## Regions -/

namespace Region

variable {settings : Settings} {number : UInt32} {bounds bounds' : Bounds} {v v' : Float}
  {region other : Region} {first : Node} {rest : List Node}

/-- The region has the given edges, or if it is flat it covers a line of text on a baseline. In
either case it is at least as large as the settings ask for. -/
structure IsAround (settings : Settings) (number : UInt32) (bounds : Bounds) (v : Float)
    (region : Region) : Prop where
  page : region.page = number
  x : region.x = bounds.left
  width : region.width = greater (bounds.right - bounds.left) settings.minExtent
  regular : bounds.IsRegular settings →
    region.y = bounds.top ∧
      region.height = greater (bounds.bottom - bounds.top) settings.minExtent
  flat : ¬ bounds.IsRegular settings →
    region.y = v - settings.ascent ∧
      region.height =
        greater ((v + settings.descent) - (v - settings.ascent)) settings.minExtent

theorem beq_iff : (region == other) = true ↔
    (region.page == other.page) = true ∧ (region.x == other.x) = true ∧
      (region.y == other.y) = true ∧ (region.width == other.width) = true ∧
        (region.height == other.height) = true := by
  simp only [BEq.beq, instBEqRegion.beq, Bool.and_eq_true]

/-- Nodes have a region, and it lies around their outermost edges and the baseline of the first. -/
theorem exists_isAround (hnodes : ∀ node ∈ first :: rest, node.IsBounded)
    (hsettings : settings.degenerateHeight.isNaN = false) :
    ∃ bounds region, bounds.IsTight (first :: rest) ∧
      ofNodes? settings number (first :: rest) = some region ∧
      IsAround settings number bounds first.v region := by
  -- the edges of the first node are tight for it alone, and every other node keeps them tight
  have htight : (rest.foldl Bounds.add (.ofNode first)).IsTight (first :: rest) := by
    rw [List.forall_mem_cons] at hnodes
    exact (Bounds.isTight_ofNode hnodes.1).foldl_add hnodes.2
  have hnan := (htight.isNaN_sub hnodes).2
  refine ⟨_, _, htight, rfl, ?_⟩
  set bounds := rest.foldl Bounds.add (.ofNode first)
  have hregular : bounds.IsRegular settings ↔
      ¬ bounds.bottom - bounds.top < settings.degenerateHeight := by
    rw [Bounds.IsRegular, lt_iff_rank hnan hsettings, not_lt, le_iff_rank hsettings hnan]
  split
  next hlt =>
    exact ⟨rfl, rfl, rfl, fun h => absurd hlt (hregular.mp h), fun _ => ⟨rfl, rfl⟩⟩
  next hnot =>
    exact ⟨rfl, rfl, rfl, fun _ => ⟨rfl, rfl⟩, fun h => absurd (hregular.mpr hnot) h⟩

/-- Around equal edges there are equal regions, if they are not flat or have the same baseline. -/
theorem IsAround.beq (h : IsAround settings number bounds v region)
    (hother : IsAround settings number bounds' v' other) (hbounds : (bounds' == bounds) = true)
    (hnumbers : (bounds.right - bounds.left).isNaN = false ∧
      (bounds.bottom - bounds.top).isNaN = false)
    (hnumbers' : (bounds'.right - bounds'.left).isNaN = false ∧
      (bounds'.bottom - bounds'.top).isNaN = false) :
    (other.x == region.x) = true ∧ (other.width == region.width) = true ∧
      (bounds.IsRegular settings → (other == region) = true) ∧
      (¬ bounds.IsRegular settings → v' = v →
        other.y = region.y ∧ other.height = region.height) := by
  -- edges that are equal may still be different zeros, so all that follows is about places
  obtain ⟨hleft, hright, htop, hbottom⟩ := Bounds.beq_iff.mp hbounds
  have hheights : (bounds'.bottom - bounds'.top == bounds.bottom - bounds.top) = true :=
    (beq_iff_rank hnumbers'.2 hnumbers.2).mpr (rank_sub_congr hbottom htop)
  have hregular : bounds'.IsRegular settings ↔ bounds.IsRegular settings := by
    rw [Bounds.IsRegular, Bounds.IsRegular, le_iff, le_iff, hnumbers.2, hnumbers'.2,
      rank_sub_congr hbottom htop]
  have hx : (other.x == region.x) = true := by
    rwa [h.x, hother.x]
  have hw : (other.width == region.width) = true := by
    rw [h.width, hother.width]
    exact greater_beq_greater
      ((beq_iff_rank hnumbers'.1 hnumbers.1).mpr (rank_sub_congr hright hleft)) _
  refine ⟨hx, hw, fun hreg => ?_, fun hreg hv => ?_⟩
  · obtain ⟨hy, hh⟩ := h.regular hreg
    obtain ⟨hy', hh'⟩ := hother.regular (hregular.mpr hreg)
    refine beq_iff.mpr ⟨?_, hx, ?_, hw, ?_⟩
    · rw [h.page, hother.page, beq_self_eq_true]
    · rwa [hy, hy']
    · rw [hh, hh']
      exact greater_beq_greater hheights _
  · subst hv
    obtain ⟨hy, hh⟩ := h.flat hreg
    obtain ⟨hy', hh'⟩ := hother.flat (mt hregular.mp hreg)
    exact ⟨hy'.trans hy.symm, hh'.trans hh.symm⟩

end Region

namespace Page

variable {page : Page} {ids : List ℕ}

/-- A selection has a first node. -/
theorem exists_filterMap_get?_eq_cons (hne : ids ≠ []) (hids : ∀ id ∈ ids, id < page.size) :
    ∃ first rest, ids.head?.bind page.get? = some first ∧
      ids.filterMap page.get? = first :: rest := by
  cases ids with
  | nil => contradiction
  | cons id ids =>
      obtain ⟨first, hfirst⟩ := exists_get? (hids id List.mem_cons_self)
      refine ⟨first, ids.filterMap page.get?, hfirst, ?_⟩
      rw [List.filterMap_cons, hfirst]

end Page

namespace Index

open Text

variable {root : Option String} {text : List UInt8} {number : UInt32} {page : Page}
  {settings : Settings} {ids : List ℕ} {node : Node}

theorem isBounded_of_mem_filterMap (hpage : (ofDocument root text).page? number = some page)
    (hnode : node ∈ ids.filterMap page.get?) : node.IsBounded := by
  obtain ⟨id, -, hget⟩ := List.mem_filterMap.mp hnode
  exact isBounded_of_get? hpage hget

/-- A selection has a region, around its outermost edges and the baseline of its first node. -/
theorem exists_isAround_of_forall_lt (hpage : (ofDocument root text).page? number = some page)
    (hsettings : settings.degenerateHeight.isFinite = true) (hne : ids ≠ [])
    (hids : ∀ id ∈ ids, id < page.size) :
    ∃ first bounds region, ids.head?.bind page.get? = some first ∧
      bounds.IsTight (ids.filterMap page.get?) ∧
      Region.ofNodes? settings number (ids.filterMap page.get?) = some region ∧
      region.IsAround settings number bounds first.v := by
  obtain ⟨first, rest, hfirst, hnodes⟩ := Page.exists_filterMap_get?_eq_cons hne hids
  have hbounded : ∀ node ∈ first :: rest, node.IsBounded := by
    rw [← hnodes]
    exact fun node hnode => isBounded_of_mem_filterMap hpage hnode
  obtain ⟨bounds, region, htight, hsome, haround⟩ :=
    Region.exists_isAround hbounded (isNaN_of_isFinite hsettings)
  rw [hnodes]
  exact ⟨first, bounds, region, hfirst, htight, hsome, haround⟩

/-- The region of a selection lies around its outermost edges, so that none of its nodes sticks out
on the left, nor above unless the region is flat. It does not depend on the order of the selection,
but for the line of text that a flat region covers, which is that of the first node. -/
theorem exists_isAround_ofDocument (hpage : (ofDocument root text).page? number = some page)
    (hsettings : settings.degenerateHeight.isFinite = true) (hne : ids ≠ [])
    (hids : ∀ id ∈ ids, id < page.size) :
    ∃ first bounds region, ids.head?.bind page.get? = some first ∧
      bounds.IsTight (ids.filterMap page.get?) ∧
      Region.ofNodes? settings number (ids.filterMap page.get?) = some region ∧
      region.IsAround settings number bounds first.v ∧
      (∀ node ∈ ids.filterMap page.get?, region.x ≤ node.h ∧
        (bounds.IsRegular settings → region.y ≤ node.top)) ∧
      ∀ others : List ℕ, (∀ id, id ∈ others ↔ id ∈ ids) →
        ∃ other, Region.ofNodes? settings number (others.filterMap page.get?) = some other ∧
          (other.x == region.x) = true ∧ (other.width == region.width) = true ∧
          (bounds.IsRegular settings → (other == region) = true) ∧
          (¬ bounds.IsRegular settings → others.head? = ids.head? →
            other.y = region.y ∧ other.height = region.height) := by
  obtain ⟨first, bounds, region, hfirst, htight, hsome, haround⟩ :=
    exists_isAround_of_forall_lt hpage hsettings hne hids
  refine ⟨first, bounds, region, hfirst, htight, hsome, haround, fun node hnode => ⟨?_, ?_⟩, ?_⟩
  · rw [haround.x]
    exact htight.left.2 ⟨node, hnode, rfl⟩
  · intro hregular
    rw [(haround.regular hregular).1]
    exact htight.top.2 ⟨node, hnode, rfl⟩
  · intro others hmem
    obtain ⟨id, hid⟩ := List.exists_mem_of_ne_nil ids hne
    obtain ⟨first', bounds', other, hfirst', htight', hsome', haround'⟩ :=
      exists_isAround_of_forall_lt hpage hsettings (List.ne_nil_of_mem ((hmem id).mpr hid))
        fun id hid => hids id ((hmem id).mp hid)
    have hbounds : (bounds' == bounds) = true := by
      refine htight.beq htight' fun node => ?_
      simp only [List.mem_filterMap, hmem]
    obtain ⟨hx, hwidth, hregular, hflat⟩ := haround.beq haround' hbounds
      (htight.isNaN_sub fun _ => isBounded_of_mem_filterMap hpage)
      (htight'.isNaN_sub fun _ => isBounded_of_mem_filterMap hpage)
    refine ⟨other, hsome', hx, hwidth, hregular, fun hnot hhead => hflat hnot ?_⟩
    rw [hhead, hfirst] at hfirst'
    rw [Option.some.inj hfirst']

/-- Three nodes, of which one lies farthest to the left, one farthest to the right and down, and
one farthest up, in two orders. -/
theorem exists_isAround_ofDocument_three_nodes :
    let text := Utf8.encode
      "Unit:65536\nContent:\n\x7b1\nh1,1:0,20:5,9,1\nh1,1:3,50:50,2,4\nh1,1:7,40:1,39,0\n"
    ∃ page, (ofDocument none text).page? 1 = some page ∧
      ({} : Settings).degenerateHeight.isFinite = true ∧ (∀ id ∈ [1, 0, 2], id < page.size) ∧
      ∃ (bounds : Bounds) (region other : Region), bounds.IsTight ([1, 0, 2].filterMap page.get?) ∧
        Region.ofNodes? {} 1 ([1, 0, 2].filterMap page.get?) = some region ∧
        Region.ofNodes? {} 1 ([2, 0, 1].filterMap page.get?) = some other ∧
        region.x = bounds.left ∧ (other.x == region.x) = true ∧
        (∀ node ∈ [1, 0, 2].filterMap page.get?, region.x ≤ node.h) := by
  intro text
  have hsize : ((ofDocument none text).page? 1).map Page.size = some 3 := by decide +kernel
  obtain ⟨page, hpage, hthree⟩ := Option.map_eq_some_iff.mp hsize
  have hfinite : ({} : Settings).degenerateHeight.isFinite = true := by decide +kernel
  have hids : ∀ id ∈ [1, 0, 2], id < page.size := by
    rw [hthree]
    decide
  obtain ⟨_, bounds, region, -, htight, hsome, haround, hnodes, hothers⟩ :=
    exists_isAround_ofDocument hpage hfinite (List.cons_ne_nil 1 [0, 2]) hids
  obtain ⟨other, hother, hx, -⟩ := hothers [2, 0, 1] (by grind)
  exact ⟨page, hpage, hfinite, hids, bounds, region, other, htight, hsome, hother, haround.x, hx,
    fun node hnode => (hnodes node hnode).1⟩

/-- A flat region depends on which node comes first. -/
example :
    let page := ((ofDocument none (Utf8.encode
      "Unit:65536\nContent:\n\x7b1\nh1,1:0,0:9,0,0\nh1,1:0,1:9,0,0\n")).page? 1).getD {}
    let top? := fun ids : List ℕ => (Region.ofNodes? {} 1 (ids.filterMap page.get?)).map Region.y
    (top? [0, 1] == some (0 - 12)) = true ∧ (top? [1, 0] == top? [0, 1]) = false := by
  decide +kernel

end Index

end PageSync

import PageSync.Proofs.Index.Bounds
import PageSync.Proofs.Inverse.Start
import PageSync.Proofs.Page.Closest

/-! # Optimal starts

The start of a search is found in one pass over the candidates. It is the best
of them all, and the first one in the order of the records among those that are
as good. Boxes around the point are compared by their areas and then by their
heights, other boxes by their distances. On a page without boxes all nodes are
compared, by their distances, then kerns behind others, then by their depths.
-/

namespace PageSync

open Binary64

namespace Page

/-- Smaller in area, or as large and less high, or an earlier record. -/
def PrecedesInSize (i : ℕ) (a : Node) (j : ℕ) (b : Node) : Prop :=
  Precedes a.area b.area (Precedes a.totalHeight b.totalHeight (i < j))

/-- Nearer to the point, or an earlier record. -/
def PrecedesInDistance (point : Point) (i : ℕ) (a : Node) (j : ℕ) (b : Node) : Prop :=
  Precedes (a.l1Distance point) (b.l1Distance point) (i < j)

/-- Nearer to the point, or as near and no kern while the other is one, or below more nodes, or an
earlier record. -/
def PrecedesInDepth (page : Page) (point : Point) (i : ℕ) (a : Node) (j : ℕ) (b : Node) : Prop :=
  Precedes (a.l1Distance point) (b.l1Distance point)
    (a.kind ≠ .kern ∧ b.kind = .kern ∨ (a.kind = .kern ↔ b.kind = .kern) ∧
      ((page.ancestors j).length < (page.ancestors i).length ∨
        (page.ancestors i).length = (page.ancestors j).length ∧ i < j))

/-- A horizontal box that holds the point. -/
def IsAround (point : Point) (node : Node) : Prop :=
  node.kind = .hbox ∧ node.contains point = true

/-- The start of a search: the smallest horizontal box around the point if there is one, else the
nearest horizontal box if there is any, else the nearest of all nodes. -/
structure IsStart (page : Page) (point : Point) (start : ℕ) : Prop where
  around : (∃ i node, page.get? i = some node ∧ IsAround point node) →
    ∃ node, Leads page.get? (IsAround point) PrecedesInSize start node
  nearest : (¬ ∃ i node, page.get? i = some node ∧ IsAround point node) →
    (∃ i node, page.get? i = some node ∧ node.kind = .hbox) →
    ∃ node, Leads page.get? (fun node => node.kind = .hbox) (PrecedesInDistance point) start node
  deepest : (¬ ∃ i node, page.get? i = some node ∧ node.kind = .hbox) →
    ∃ node, Leads page.get? (fun _ => True) (page.PrecedesInDepth point) start node

variable {page : Page} {point : Point} {i : ℕ} {node : Node}

theorem map_fst_entries (page : Page) : page.entries.map Prod.fst = List.range page.size := by
  rw [entries, List.map_map, List.range_eq_range', size, ← Array.length_toList]
  exact List.zipIdx_map_snd 0 page.nodes.toList

theorem pairwise_entries (page : Page) : page.entries.Pairwise fun a b => a.1 < b.1 := by
  rw [← List.pairwise_map, map_fst_entries]
  exact List.pairwise_lt_range

theorem mem_hboxes_iff :
    (i, node) ∈ page.hboxes ↔ page.get? i = some node ∧ node.kind = .hbox := by
  rw [hboxes, List.mem_filter, mem_entries_iff, beq_iff_eq]

theorem mem_around_iff : (i, node) ∈ page.hboxes.filter (fun (_, node) => node.contains point) ↔
    page.get? i = some node ∧ IsAround point node := by
  rw [List.mem_filter, mem_hboxes_iff, and_assoc, IsAround]

theorem pairwise_hboxes (page : Page) : page.hboxes.Pairwise fun a b => a.1 < b.1 :=
  (pairwise_entries page).filter _

/-! ## Boxes -/

theorem tighter_iff {a b : Node} (ha : a.IsBounded) (hb : b.IsBounded) : tighter a b = true ↔
    toLex (rank a.area, rank a.totalHeight) < toLex (rank b.area, rank b.totalHeight) := by
  rw [tighter, Bool.or_eq_true, Bool.and_eq_true, decide_eq_true_iff, decide_eq_true_iff,
    lt_iff_rank ha.isNaN_area hb.isNaN_area, beq_iff_rank ha.isNaN_area hb.isNaN_area,
    lt_iff_rank ha.isNaN_totalHeight hb.isNaN_totalHeight, Prod.Lex.toLex_lt_toLex]

theorem precedesInSize_of_rank {a b : Node} {i j : ℕ} (ha : a.IsBounded) (hb : b.IsBounded)
    (h : toLex (rank a.area, rank a.totalHeight) < toLex (rank b.area, rank b.totalHeight) ∨
      toLex (rank a.area, rank a.totalHeight) = toLex (rank b.area, rank b.totalHeight) ∧ i < j) :
    PrecedesInSize i a j b := by
  refine precedes_of_rank ha.isNaN_area hb.isNaN_area ?_
  rw [Prod.Lex.toLex_lt_toLex, toLex_inj, Prod.mk.injEq] at h
  have hheights (h : rank a.totalHeight < rank b.totalHeight ∨
      rank a.totalHeight = rank b.totalHeight ∧ i < j) :
      Precedes a.totalHeight b.totalHeight (i < j) :=
    precedes_of_rank ha.isNaN_totalHeight hb.isNaN_totalHeight h
  rcases h with (harea | ⟨harea, hheight⟩) | ⟨⟨harea, hheight⟩, hlt⟩
  · exact Or.inl harea
  · exact Or.inr ⟨harea, hheights (Or.inl hheight)⟩
  · exact Or.inr ⟨harea, hheights (Or.inr ⟨hheight, hlt⟩)⟩

theorem leads_of_smallestAround?
    (hbounded : ∀ i node, page.get? i = some node → node.IsBounded)
    (h : page.smallestAround? point = some i) :
    ∃ node, Leads page.get? (IsAround point) PrecedesInSize i node := by
  obtain ⟨best, hbest, rfl⟩ := Option.map_eq_some_iff.mp h
  have hbounds : ∀ a ∈ page.hboxes.filter fun (_, node) => node.contains point,
      a.2.IsBounded := fun a ha =>
    hbounded a.1 a.2 (get?_of_mem_hboxes (List.mem_of_mem_filter ha))
  exact ⟨best.2, leads_of_firstBest? tighter
    (fun node => toLex (rank node.area, rank node.totalHeight))
    ((pairwise_hboxes page).filter _) (fun _ _ => mem_around_iff)
    (fun a ha b hb => tighter_iff (hbounds a ha) (hbounds b hb))
    (fun a ha b hb => precedesInSize_of_rank (hbounds a ha) (hbounds b hb)) hbest⟩

/-- The nearest of some nodes in the order of their numbers leads. -/
theorem leads_of_nearest? {lookup : ℕ → Option Node} {competes : Node → Prop}
    {entries : List (ℕ × Node)} (hsorted : entries.Pairwise fun a b => a.1 < b.1)
    (hentries : ∀ i node, (i, node) ∈ entries ↔ lookup i = some node ∧ competes node)
    (h : nearest? point entries = some i) :
    ∃ node, Leads lookup competes (PrecedesInDistance point) i node := by
  obtain ⟨best, hbest, rfl⟩ := Option.map_eq_some_iff.mp h
  have hnumber (node : Node) := node.isNaN_l1Distance point
  refine ⟨best.2, leads_of_firstBest? (fun a b => a.l1Distance point < b.l1Distance point)
    (fun node => rank (node.l1Distance point)) hsorted hentries ?_
    (fun a _ b _ => precedes_of_rank (hnumber a.2) (hnumber b.2)) hbest⟩
  intro a _ b _
  rw [decide_eq_true_iff]
  exact lt_iff_rank (hnumber a.2) (hnumber b.2)

theorem leads_of_nearestHbox? (h : page.nearestHbox? point = some i) :
    ∃ node, Leads page.get? (fun node => node.kind = .hbox) (PrecedesInDistance point) i node :=
  leads_of_nearest? (pairwise_hboxes page) (fun _ _ => mem_hboxes_iff) h

/-! ## Pages without boxes -/

section Walk

variable {visited result : Array (ℕ × ℕ)} {steps : ℕ} {pending : List (ℕ × ℕ)}

/-- The number is that of a node and the depth says how many nodes are above it. -/
def IsDepth (page : Page) (entry : ℕ × ℕ) : Prop := (page.ancestors entry.1).length = entry.2

/-- A walk that starts with the right depths goes on with them. -/
theorem Sound.isDepth_of_walk? (h : page.Sound) (hvisited : ∀ entry ∈ visited, page.IsDepth entry)
    (hpending : ∀ entry ∈ pending, page.IsDepth entry)
    (hwalk : page.walk? visited steps pending = some result) :
    ∀ entry ∈ result, page.IsDepth entry := by
  induction steps generalizing visited pending with
  | zero =>
      cases pending with
      | nil =>
          rw [walk?, Option.some.injEq] at hwalk
          exact hwalk ▸ hvisited
      | cons entry pending => simp [walk?] at hwalk
  | succ steps ih =>
      cases pending with
      | nil =>
          rw [walk?, Option.some.injEq] at hwalk
          exact hwalk ▸ hvisited
      | cons entry pending =>
          obtain ⟨id, depth⟩ := entry
          obtain ⟨hentry, hrest⟩ := List.forall_mem_cons.mp hpending
          rw [walk?] at hwalk
          split at hwalk
          next => contradiction
          next node hget =>
            refine ih ?_ ?_ hwalk
            · intro entry hmem
              rcases Array.mem_push.mp hmem with hmem | rfl
              · exact hvisited entry hmem
              · exact hentry
            · intro entry hmem
              rcases List.mem_append.mp hmem with hmem | hmem
              -- children go in front of what is pending, each one deeper than the node itself
              · obtain ⟨child, hchild, rfl⟩ := List.mem_map.mp hmem
                have hparent : page.parent? child = some id := by
                  refine h.parent?_of_mem_children ?_
                  rwa [children, hget]
                rw [IsDepth, h.ancestors_eq_cons hparent, List.length_cons]
                exact congrArg Nat.succ hentry
              · exact hrest entry hmem

end Walk

/-- The nodes are visited in order, each once, with the number of nodes above it. -/
theorem Sound.exists_placed?_depth (h : page.Sound) :
    ∃ placed, page.placed? = some placed ∧ placed.map Placed.id = List.range page.size ∧
      ∀ p ∈ placed, page.get? p.id = some p.node ∧ p.depth = (page.ancestors p.id).length := by
  obtain ⟨placed, hplaced, hids⟩ := h.exists_placed?
  refine ⟨placed, hplaced, hids, ?_⟩
  obtain ⟨visited, hvisited, rfl⟩ := Option.map_eq_some_iff.mp hplaced
  obtain ⟨result, hwalk, rfl⟩ := Option.map_eq_some_iff.mp hvisited
  have hroots : ∀ entry ∈ page.roots.toList.map fun root => (root, 0), page.IsDepth entry := by
    rw [List.forall_mem_map]
    intro root hroot
    rw [IsDepth, ancestors_eq_nil (h.parent?_of_mem_roots hroot), List.length_nil]
  have hdepth := h.isDepth_of_walk? (by simp) hroots hwalk
  intro p hp
  obtain ⟨⟨id, depth⟩, hentry, hplace⟩ := List.mem_filterMap.mp hp
  obtain ⟨node, hget, rfl⟩ := Option.map_eq_some_iff.mp hplace
  exact ⟨hget, (hdepth _ (Array.mem_def.mpr hentry)).symm⟩

/-- What nodes are compared by on a page without boxes. -/
def Placed.key (point : Point) (p : Placed) : (ℤ ×ₗ ℤ ×ₗ ℤ) ×ₗ Bool ×ₗ ℕᵒᵈ :=
  toLex (rank (p.node.l1Distance point), toLex (p.node.kind == .kern, OrderDual.toDual p.depth))

theorem Placed.preferred_iff (point : Point) (a b : Placed) :
    preferred point a b = true ↔ a.key point < b.key point := by
  have ha := a.node.isNaN_l1Distance point
  have hb := b.node.isNaN_l1Distance point
  simp only [preferred, key, Prod.Lex.toLex_lt_toLex, OrderDual.toDual_lt_toDual, bne]
  cases hdistance : a.node.l1Distance point == b.node.l1Distance point with
  | true =>
      rw [(beq_iff_rank ha hb).mp hdistance]
      cases a.node.kind == .kern <;> cases b.node.kind == .kern <;> simp
  | false =>
      have hne : ¬ rank (a.node.l1Distance point) = rank (b.node.l1Distance point) := by
        rw [← beq_iff_rank ha hb, hdistance]
        exact Bool.false_ne_true
      simp [hne, lt_iff_rank ha hb]

theorem precedesInDepth_of_key {a b : Placed}
    (ha : a.depth = (page.ancestors a.id).length) (hb : b.depth = (page.ancestors b.id).length)
    (h : a.key point < b.key point ∨ a.key point = b.key point ∧ a.id < b.id) :
    page.PrecedesInDepth point a.id a.node b.id b.node := by
  refine precedes_of_rank (a.node.isNaN_l1Distance point) (b.node.isNaN_l1Distance point) ?_
  simp only [Placed.key, Prod.Lex.toLex_lt_toLex, toLex_inj, Prod.mk.injEq,
    OrderDual.toDual_lt_toDual, OrderDual.toDual_inj] at h
  have hkern (hsame : (a.node.kind == .kern) = (b.node.kind == .kern)) :
      a.node.kind = .kern ↔ b.node.kind = .kern := by
    rw [← beq_iff_eq, hsame, beq_iff_eq]
  rw [← ha, ← hb]
  rcases h with (hless | ⟨hequal, hbool | ⟨hsame, hdeeper⟩⟩) | ⟨⟨hequal, hsame, hdeep⟩, hearlier⟩
  · exact Or.inl hless
  · have hkinds := Bool.lt_iff.mp hbool
    exact Or.inr ⟨hequal, Or.inl ⟨beq_eq_false_iff_ne.mp hkinds.1, beq_iff_eq.mp hkinds.2⟩⟩
  · exact Or.inr ⟨hequal, Or.inr ⟨hkern hsame, Or.inl hdeeper⟩⟩
  · exact Or.inr ⟨hequal, Or.inr ⟨hkern hsame, Or.inr ⟨hdeep, hearlier⟩⟩⟩

theorem leads_of_deepestNearest? (hpage : page.Sound) (h : page.deepestNearest? point = some i) :
    ∃ node, Leads page.get? (fun _ => True) (page.PrecedesInDepth point) i node := by
  obtain ⟨placed, hplaced, hids, hdepth⟩ := hpage.exists_placed?_depth
  rw [deepestNearest?, hplaced, Option.bind_some] at h
  obtain ⟨best, hbest, rfl⟩ := Option.map_eq_some_iff.mp h
  have hsorted : placed.Pairwise fun a b => a.id < b.id := by
    rw [← List.pairwise_map, hids]
    exact List.pairwise_lt_range
  have hmem := mem_of_firstBest? hbest
  refine ⟨best.node, (hdepth best hmem).1, trivial, fun {j other} hother _ hne => ?_⟩
  obtain ⟨p, hp, rfl⟩ : ∃ p ∈ placed, p.id = j := by
    rw [← List.mem_map, hids, List.mem_range]
    exact lt_size_of_get? hother
  obtain rfl : p.node = other := Option.some.inj ((hdepth p hp).1.symm.trans hother)
  have hkeys := lt_or_eq_of_firstBest? Placed.id hsorted
    (fun a _ b _ => Placed.preferred_iff point a b) hbest hp hne
  exact precedesInDepth_of_key (hdepth best hmem).2 (hdepth p hp).2 hkeys

/-! ## Starts -/

theorem Sound.exists_deepestNearest? (h : page.Sound) (point : Point) (hsize : 0 < page.size) :
    ∃ start, page.deepestNearest? point = some start := by
  obtain ⟨placed, hplaced, hids⟩ := h.exists_placed?
  have hne : placed ≠ [] := by
    rintro rfl
    have hlength := congrArg List.length hids
    rw [List.length_map, List.length_nil, List.length_range] at hlength
    omega
  rw [← Option.isSome_iff_exists, deepestNearest?, hplaced, Option.bind_some, Option.isSome_map,
    isSome_firstBest?, Bool.not_eq_true', List.isEmpty_eq_false_iff]
  exact hne

theorem not_exists_isAround (h : page.smallestAround? point = none) :
    ¬ ∃ i node, page.get? i = some node ∧ IsAround point node :=
  (firstBest?_eq_none_iff fun _ _ => mem_around_iff).mp (Option.map_eq_none_iff.mp h)

/-- Where all coordinates are bounded, the start of a search is the optimum. -/
theorem Sound.isStart (h : page.Sound)
    (hbounded : ∀ i node, page.get? i = some node → node.IsBounded)
    (hstart : page.start? point = some i) : page.IsStart point i := by
  simp only [start?, Option.orElse_eq_some] at hstart
  rcases hstart with hsmallest | ⟨hnone, hnearest | ⟨hnone', hdeepest | ⟨hnone'', hlast⟩⟩⟩
  · obtain ⟨node, hleads⟩ := leads_of_smallestAround? hbounded hsmallest
    have haround := hleads.isCandidate
    exact ⟨fun _ => ⟨node, hleads⟩,
      fun hnot => absurd ⟨i, node, hleads.isNode, haround⟩ hnot,
      fun hnot => absurd ⟨i, node, hleads.isNode, haround.1⟩ hnot⟩
  · have hnot := not_exists_isAround hnone
    obtain ⟨node, hleads⟩ := leads_of_nearestHbox? hnearest
    exact ⟨fun haround => absurd haround hnot, fun _ _ => ⟨node, hleads⟩,
      fun hnot => absurd ⟨i, node, hleads.isNode, hleads.isCandidate⟩ hnot⟩
  · have hnot := not_exists_isAround hnone
    have hnot' := (firstBest?_eq_none_iff fun _ _ => mem_hboxes_iff).mp
      (Option.map_eq_none_iff.mp hnone')
    exact ⟨fun haround => absurd haround hnot, fun _ hbox => absurd hbox hnot',
      fun _ => leads_of_deepestNearest? h hdeepest⟩
  · -- the last resort is never needed, as the walk has visited every node
    obtain ⟨node, hnode⟩ := mem_entries_of_nearest? hlast
    have hsize := Nat.zero_lt_of_lt (lt_size_of_get? (mem_entries_iff.mp hnode))
    obtain ⟨start, hsome⟩ := h.exists_deepestNearest? point hsize
    rw [hnone''] at hsome
    contradiction

theorem PrecedesInSize.asymm {i j : ℕ} {a b : Node} (h : PrecedesInSize i a j b) :
    ¬ PrecedesInSize j b i a := by
  intro h'
  obtain ⟨hheight, hheight'⟩ := Precedes.and_rest h h'
  obtain ⟨hlt, hgt⟩ := hheight.and_rest hheight'
  exact absurd hgt (Nat.lt_asymm hlt)

theorem PrecedesInDistance.asymm {i j : ℕ} {a b : Node} (h : PrecedesInDistance point i a j b) :
    ¬ PrecedesInDistance point j b i a := by
  intro h'
  obtain ⟨hlt, hgt⟩ := Precedes.and_rest h h'
  exact absurd hgt (Nat.lt_asymm hlt)

theorem PrecedesInDepth.asymm {i j : ℕ} {a b : Node} (h : page.PrecedesInDepth point i a j b) :
    ¬ page.PrecedesInDepth point j b i a := by
  intro h'
  obtain ⟨hrest, hrest'⟩ := Precedes.and_rest h h'
  rcases hrest with ⟨ha, hb⟩ | ⟨hsame, hdeep⟩
  · rcases hrest' with ⟨hb', -⟩ | ⟨hsame, -⟩
    · exact hb' hb
    · exact ha (hsame.mp hb)
  · rcases hrest' with ⟨hb, ha⟩ | ⟨-, hdeep'⟩
    · exact hb (hsame.mp ha)
    · omega

theorem IsStart.unique {j : ℕ} (hi : page.IsStart point i) (hj : page.IsStart point j) : i = j := by
  by_cases haround : ∃ i node, page.get? i = some node ∧ IsAround point node
  · obtain ⟨a, ha⟩ := hi.around haround
    obtain ⟨b, hb⟩ := hj.around haround
    exact ha.unique (fun _ _ _ _ h => h.asymm) hb
  · by_cases hbox : ∃ i node, page.get? i = some node ∧ node.kind = .hbox
    · obtain ⟨a, ha⟩ := hi.nearest haround hbox
      obtain ⟨b, hb⟩ := hj.nearest haround hbox
      exact ha.unique (fun _ _ _ _ h => h.asymm) hb
    · obtain ⟨a, ha⟩ := hi.deepest hbox
      obtain ⟨b, hb⟩ := hj.deepest hbox
      exact ha.unique (fun _ _ _ _ h => h.asymm) hb

end Page

namespace Index

variable {root : Option String} {text : List UInt8} {number : UInt32} {page : Page}

/-- A page of a document that has a node has a start for every point, and the start is the optimum:
the smallest horizontal box around the point, or else the nearest horizontal box, or else the node
that is nearest, no kern if possible and deepest. On ties it is the earliest. The walk over all
nodes visits each once. -/
theorem start?_ofDocument (hpage : (ofDocument root text).page? number = some page)
    (hsize : 0 < page.size) (point : Point) :
    (page.start? point).isSome = true ∧
    (∀ start, page.start? point = some start ↔ page.IsStart point start) ∧
    ∃ placed, page.placed? = some placed ∧ placed.map Page.Placed.id = List.range page.size ∧
      ∀ p ∈ placed, page.get? p.id = some p.node ∧ p.depth = (page.ancestors p.id).length := by
  have hsound := Draft.page_sound_ofEvents hpage
  have hsome := (page.isSome_start? point).mpr hsize
  obtain ⟨start, hstart⟩ := Option.isSome_iff_exists.mp hsome
  have hoptimum := hsound.isStart (fun i node => isBounded_of_get? hpage) hstart
  refine ⟨hsome, fun other => ?_, hsound.exists_placed?_depth⟩
  constructor
  · exact hsound.isStart fun i node => isBounded_of_get? hpage
  · intro hother
    rw [hstart, hoptimum.unique hother]

/-- All four nodes are equally far. The kern comes behind the boxes, and of the two boxes inside
the first one the earlier is the start. -/
theorem start?_ofDocument_nested :
    let text := Text.Utf8.encode ("Unit:65536\nContent:\n\x7b1\n[1,1:0,0:99,99,0\nk1,2:0,0:99\n" ++
      "[1,3:0,0:99,9,0\n]\n[1,4:0,0:99,9,0\n]\n]\n")
    let page := (ofDocument none text).pageAt 1
    let point : Point := ⟨5000, 0⟩
    (ofDocument none text).page? 1 = some page ∧ 0 < page.size ∧ page.start? point = some 2 ∧
      page.IsStart point 2 ∧ ¬ page.IsStart point 3 := by
  intro text page point
  have hpage : (ofDocument none text).page? 1 = some page := page?_of_size_pos (by decide +kernel)
  have hsize : 0 < page.size := by decide +kernel
  have hstart : page.start? point = some 2 := by decide +kernel
  have hoptimum := (start?_ofDocument hpage hsize point).2.1
  refine ⟨hpage, hsize, hstart, (hoptimum 2).mp hstart, fun hother => ?_⟩
  rw [← hoptimum 3, hstart] at hother
  exact absurd hother (by decide)

end Index

end PageSync

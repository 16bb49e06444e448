import PageSync.Proofs.Inverse.Optimum
import PageSync.Proofs.Inverse.Passing

/-! # Steps of a descent

A descent goes into the first box around the point among the children. If there
is none it leaves a vertical box for the nearest child that has children. Each
of its steps is said here of all children at once, and where it ends neither
step is left, whatever the coordinates are.
-/

namespace PageSync

/-- A box that may hold other nodes and whose rectangle holds the point. -/
def Node.IsBoxAround (point : Point) (node : Node) : Prop :=
  (node.kind = .hbox ∨ node.kind = .vbox) ∧ node.contains point = true

namespace Page

/-- The node of a child of the box. Other numbers have none. -/
def child? (page : Page) (box c : ℕ) : Option Node :=
  if c ∈ page.children box then page.get? c else none

/-- A step of a descent: into the first child that is a box around the point, or else from a
vertical box to the nearest child with children, which is the first of those that are as near. -/
inductive StepsTo (page : Page) (point : Point) (box c : ℕ) : Prop
  | into {child : Node}
      (hleads : Leads (page.child? box) (Node.IsBoxAround point) (fun i _ j _ => i < j) c child)
  | past {node child : Node}
      (hnone : ∀ i other, page.child? box i = some other → ¬ other.IsBoxAround point)
      (hbox : page.get? box = some node) (hkind : node.kind = .vbox)
      (hleads : Leads (page.child? box) (fun other => other.hasChildren = true)
        (PrecedesInDistance point) c child)

/-- A node where a descent ends: no child is a box around the point, and if the node is a vertical
box no child has children. -/
structure EndsAt (page : Page) (point : Point) (last : ℕ) : Prop where
  around : ∀ c ∈ page.children last, ∃ child, page.get? c = some child ∧ ¬ child.IsBoxAround point
  filled : ∃ node, page.get? last = some node ∧
    (node.kind = .vbox → ∀ c ∈ page.children last, page.children c = [])

variable {page : Page} {point : Point} {box c last : ℕ} {node child : Node}

theorem child?_eq_some_iff :
    page.child? box c = some child ↔ (c, child) ∈ page.childEntries box := by
  rw [child?, mem_childEntries_iff, Option.ite_none_right_eq_some]

theorem isBoxAround_iff :
    (node.kind.isContainer && node.contains point) = true ↔ node.IsBoxAround point := by
  rw [Bool.and_eq_true, Kind.isContainer_iff, Node.IsBoxAround]

theorem children_eq_nil_of_hasChildren (hget : page.get? c = some child)
    (hchildren : child.hasChildren = false) : page.children c = [] := by
  rw [children, hget]
  simpa [Node.hasChildren] using hchildren

theorem childAround?_eq_none_iff_isBoxAround : page.childAround? point box = none ↔
    ∀ c child, page.child? box c = some child → ¬ child.IsBoxAround point := by
  simp only [childAround?_eq_none_iff, child?_eq_some_iff, Prod.forall, ← isBoxAround_iff,
    Bool.and_eq_true, not_and, Bool.not_eq_true]

namespace Sound

theorem pairwise_children (h : page.Sound) (box : ℕ) : (page.children box).Pairwise (· < ·) := by
  rcases Nat.lt_or_ge box page.size with hbox | hbox
  · obtain ⟨stop, -, hcovers⟩ := h.exists_covers hbox
    exact hcovers.pairwise_lt
  · rw [children_eq_nil hbox]
    exact List.Pairwise.nil

theorem pairwise_childEntries (h : page.Sound) (box : ℕ) :
    (page.childEntries box).Pairwise fun a b => a.1 < b.1 := by
  rw [← List.pairwise_map, h.map_fst_childEntries]
  exact h.pairwise_children box

theorem leads_of_childAround? (h : page.Sound) (haround : page.childAround? point box = some c) :
    ∃ child, Leads (page.child? box) (Node.IsBoxAround point) (fun i _ j _ => i < j) c child := by
  obtain ⟨best, hbest, rfl⟩ := Option.map_eq_some_iff.mp haround
  rw [← List.head?_filter] at hbest
  refine ⟨best.2, leads_of_head? ((h.pairwise_childEntries box).filter _) (fun i node => ?_) hbest⟩
  exact List.mem_filter.trans (and_congr child?_eq_some_iff.symm isBoxAround_iff)

theorem leads_of_nearestFilledChild? (h : page.Sound)
    (hnearest : page.nearestFilledChild? point box = some c) :
    ∃ node child, page.get? box = some node ∧ node.kind = .vbox ∧
      Leads (page.child? box) (fun other => other.hasChildren = true) (PrecedesInDistance point)
        c child := by
  rw [nearestFilledChild?] at hnearest
  split at hnearest
  next => contradiction
  next node hbox =>
    rw [Option.ite_none_right_eq_some, beq_iff_eq] at hnearest
    have hleads : ∃ child, Leads (page.child? box) (fun other => other.hasChildren = true)
        (PrecedesInDistance point) c child :=
      leads_of_nearest? ((h.pairwise_childEntries box).filter _)
        (fun _ _ => List.mem_filter.trans (and_congr_left' child?_eq_some_iff.symm)) hnearest.2
    obtain ⟨child, hleads⟩ := hleads
    exact ⟨node, child, hbox, hnearest.1, hleads⟩

theorem stepsTo_of_descendStep? (h : page.Sound) (hstep : page.descendStep? point box = some c) :
    page.StepsTo point box c := by
  rw [descendStep?] at hstep
  split at hstep
  next around haround =>
    obtain rfl := Option.some.inj hstep
    obtain ⟨child, hleads⟩ := h.leads_of_childAround? haround
    exact .into hleads
  next hnone =>
    obtain ⟨node, child, hbox, hkind, hleads⟩ := h.leads_of_nearestFilledChild? hstep
    exact .past (childAround?_eq_none_iff_isBoxAround.mp hnone) hbox hkind hleads

theorem descendStep?_of_stepsTo (h : page.Sound) (hsteps : page.StepsTo point box c) :
    page.descendStep? point box = some c := by
  cases hsteps with
  | @into child hleads =>
      cases haround : page.childAround? point box with
      | none =>
          have hnone := childAround?_eq_none_iff_isBoxAround.mp haround
          exact absurd hleads.isCandidate (hnone c child hleads.isNode)
      | some other =>
          obtain ⟨_, hother⟩ := h.leads_of_childAround? haround
          have hsame := hother.unique (fun _ _ _ _ => Nat.lt_asymm) hleads
          rw [descendStep?, haround, hsame]
  | @past node child hnone hbox hkind hleads =>
      have hsome : (page.nearestFilledChild? point box).isSome = true :=
        isSome_nearestFilledChild?_iff.mpr ⟨node, hbox, hkind, (c, child),
          child?_eq_some_iff.mp hleads.isNode, hleads.isCandidate⟩
      obtain ⟨other, hnearest⟩ := Option.isSome_iff_exists.mp hsome
      obtain ⟨_, _, -, -, hother⟩ := h.leads_of_nearestFilledChild? hnearest
      have hsame := hother.unique (fun _ _ _ _ hlt => hlt.asymm) hleads
      rw [descendStep?, childAround?_eq_none_iff_isBoxAround.mpr hnone, hnearest, hsame]

/-- What keeps a descent from going on. -/
theorem endsAt_of_descendStep?_eq_none (h : page.Sound) (hlast : last < page.size)
    (hnone : page.descendStep? point last = none) : page.EndsAt point last := by
  have hchild {c : ℕ} (hc : c ∈ page.children last) :
      ∃ child, page.get? c = some child ∧ page.child? last c = some child := by
    obtain ⟨child, hget⟩ := exists_get? (h.lt_of_mem_children hc).2
    exact ⟨child, hget, by rw [child?, if_pos hc, hget]⟩
  rw [descendStep?] at hnone
  split at hnone
  next => contradiction
  next haround =>
    have hmisses := childAround?_eq_none_iff_isBoxAround.mp haround
    refine ⟨fun c hc => ?_, ?_⟩
    · obtain ⟨child, hget, hentry⟩ := hchild hc
      exact ⟨child, hget, hmisses c child hentry⟩
    · obtain ⟨node, hget⟩ := exists_get? hlast
      refine ⟨node, hget, fun hkind c hc => ?_⟩
      obtain ⟨child, hget', hentry⟩ := hchild hc
      apply children_eq_nil_of_hasChildren hget'
      by_contra hfilled
      -- a child with children would be the nearest such child, or there would be a nearer one
      have hsome : (page.nearestFilledChild? point last).isSome = true :=
        isSome_nearestFilledChild?_iff.mpr ⟨node, hget, hkind, (c, child),
          child?_eq_some_iff.mp hentry, Bool.not_eq_false _ ▸ hfilled⟩
      rw [hnone] at hsome
      contradiction

end Sound

end Page

namespace Index

variable {root : Option String} {events : List Event} {number : UInt32} {page : Page}

/-- On every page that is built, a descent steps as it should, from any box and at any point. From
any node it goes on by such steps, down to a node below it where it has to end. -/
theorem descend?_ofEvents (hpage : (Draft.ofEvents root events).index.page? number = some page)
    {start : ℕ} (hstart : start < page.size) (point : Point) :
    (∀ box, (page.children box).Pairwise (· < ·) ∧
      ∀ c, page.descendStep? point box = some c ↔ page.StepsTo point box c) ∧
    ∃ last, page.descend? point start = some last ∧ page.Descends point start last ∧
      page.Below start last ∧ page.EndsAt point last := by
  have hsound := Draft.page_sound_ofEvents hpage
  refine ⟨fun box => ⟨hsound.pairwise_children box, fun c => ?_⟩, ?_⟩
  · exact ⟨hsound.stepsTo_of_descendStep?, hsound.descendStep?_of_stepsTo⟩
  · obtain ⟨last, hlast, hdescends, hnone⟩ := hsound.exists_descend? point start
    have hsize := hsound.lt_size_of_below hstart hdescends.below
    exact ⟨last, hlast, hdescends, hdescends.below,
      hsound.endsAt_of_descendStep?_eq_none hsize hnone⟩

/-- The first step goes into the vertical box on line 2. None of its children holds the point, and
the next step goes to the second one, which is nearer than the first. -/
theorem descend?_ofEvents_past :
    let text := Text.Utf8.encode ("Unit:65536\nContent:\n\x7b1\n(1,1:0,0:99,99,0\n" ++
      "[1,2:0,0:99,99,0\n(1,3:50,0:9,9,0\ng1,4:50,0\n)\n(1,5:20,0:9,9,0\ng1,6:20,0\n)\n]\n)\n")
    let page := (ofDocument none text).pageAt 1
    let point : Point := ⟨2, -5⟩
    (ofDocument none text).page? 1 = some page ∧ 0 < page.size ∧
      page.StepsTo point 0 1 ∧ page.StepsTo point 1 4 ∧ ¬ page.StepsTo point 1 2 ∧
      page.descend? point 0 = some 4 ∧ page.EndsAt point 4 := by
  intro text page point
  have hpage : (ofDocument none text).page? 1 = some page := page?_of_size_pos (by decide +kernel)
  have hsize : 0 < page.size := by decide +kernel
  have hinto : page.descendStep? point 0 = some 1 := by decide +kernel
  have hpast : page.descendStep? point 1 = some 4 := by decide +kernel
  have hlast : page.descend? point 0 = some 4 := by decide +kernel
  obtain ⟨hsteps, last, hdescend, -, -, hends⟩ := descend?_ofEvents hpage hsize point
  obtain rfl : last = 4 := Option.some.inj (hdescend.symm.trans hlast)
  refine ⟨hpage, hsize, ((hsteps 0).2 1).mp hinto, ((hsteps 1).2 4).mp hpast, fun hother => ?_,
    hdescend, hends⟩
  rw [← (hsteps 1).2 2, hpast] at hother
  exact absurd hother (by decide)

end Index

end PageSync

import PageSync.Inverse.Search
import PageSync.Proofs.Index.Forest
import PageSync.Proofs.Inverse.Descent

/-! # Leaves that a descent passes by

A descent looks for a child around the point among the containers only. A
vertical box is therefore left for its nearest child with children also if a
leaf of it holds the point: what counts is that no container does.
-/

namespace PageSync

namespace Page

variable {page : Page} {point : Point} {i c : Nat} {node : Node}

/-- The descent goes from a node on to a child that does not hold the point. -/
def PassesTo (page : Page) (point : Point) (i c : Nat) : Prop :=
  page.descendStep? point i = some c ∧
    ∃ child, page.get? c = some child ∧ child.contains point = false

theorem childAround?_eq_none_iff : page.childAround? point i = none ↔
    ∀ entry ∈ page.childEntries i, entry.2.kind.isContainer = true →
      entry.2.contains point = false := by
  simp [childAround?]

theorem exists_of_childAround? (h : page.childAround? point i = some c) :
    ∃ child, page.get? c = some child ∧ child.contains point = true := by
  obtain ⟨⟨id, child⟩, hfind, rfl⟩ := Option.map_eq_some_iff.mp h
  have haccept := List.find?_some hfind
  rw [Bool.and_eq_true] at haccept
  exact ⟨child, (mem_childEntries_iff.mp (List.mem_of_find?_eq_some hfind)).2, haccept.2⟩

theorem exists_of_nearestFilledChild? (h : page.nearestFilledChild? point i = some c) :
    ∃ child, (c, child) ∈ page.childEntries i ∧ child.hasChildren = true := by
  rw [nearestFilledChild?] at h
  split at h
  · contradiction
  · split at h
    · obtain ⟨child, hchild⟩ := mem_entries_of_nearest? h
      exact ⟨child, List.mem_filter.mp hchild⟩
    · contradiction

/-- Only vertical boxes with a child that has children have a nearest one. -/
theorem isSome_nearestFilledChild?_iff : (page.nearestFilledChild? point i).isSome = true ↔
    ∃ box, page.get? i = some box ∧ box.kind = .vbox ∧
      ∃ entry ∈ page.childEntries i, entry.2.hasChildren = true := by
  rw [nearestFilledChild?]
  cases page.get? i with
  | none => simp
  | some box =>
      by_cases hkind : box.kind = .vbox
      · simp [hkind, isSome_nearest?]
      · simp [hkind]

namespace Sound

theorem isContainer_of_hasChildren (h : page.Sound) (hget : page.get? i = some node)
    (hchildren : node.hasChildren = true) : node.kind.isContainer = true := by
  have hne : page.children i ≠ [] := by
    rw [children, hget]
    simpa [Node.hasChildren] using hchildren
  obtain ⟨child, hchild⟩ := List.exists_mem_of_ne_nil _ hne
  obtain ⟨box, hbox, hkind⟩ := h.isContainer_of_parent? (h.parent?_of_mem_children hchild)
  rw [hget] at hbox
  exact Option.some.inj hbox ▸ hkind

/-- A step past the point is that of a box without a container around the point. -/
theorem passesTo_iff (h : page.Sound) : page.PassesTo point i c ↔
    page.childAround? point i = none ∧ page.nearestFilledChild? point i = some c := by
  constructor
  · rintro ⟨hstep, child, hget, hmisses⟩
    rw [descendStep?] at hstep
    split at hstep
    next around haround =>
      obtain ⟨other, hother, hholds⟩ := exists_of_childAround? haround
      have hsame : child = other := by
        rw [Option.some.inj hstep, hget] at hother
        exact Option.some.inj hother
      rw [hsame, hholds] at hmisses
      contradiction
    next hnone => exact ⟨hnone, hstep⟩
  · rintro ⟨hnone, hnearest⟩
    obtain ⟨child, hchild, hfilled⟩ := exists_of_nearestFilledChild? hnearest
    have hget := (mem_childEntries_iff.mp hchild).2
    refine ⟨by rw [descendStep?, hnone, hnearest], child, hget, ?_⟩
    -- a child with children is a container, and none of them holds the point
    exact childAround?_eq_none_iff.mp hnone (c, child) hchild
      (h.isContainer_of_hasChildren hget hfilled)

end Sound

end Page

namespace Index

/-- A descent leaves a box for a child that misses the point exactly if the box is vertical, has a
child with children, and no container among its children holds the point. Leaves do not count. It
goes on with the nearest child that has children. -/
theorem exists_passesTo_iff {root : Option String} {text : List UInt8} {number : UInt32}
    {page : Page} (hpage : (ofDocument root text).page? number = some page) (point : Point)
    (i : Nat) :
    ((∃ c, page.PassesTo point i c) ↔
      (∀ entry ∈ page.childEntries i, entry.2.kind.isContainer = true →
        entry.2.contains point = false) ∧
      ∃ box, page.get? i = some box ∧ box.kind = .vbox ∧
        ∃ entry ∈ page.childEntries i, entry.2.hasChildren = true) ∧
    ∀ c, page.PassesTo point i c → page.nearestFilledChild? point i = some c := by
  have hsound := Draft.page_sound_ofEvents hpage
  refine ⟨?_, fun c hpasses => (hsound.passesTo_iff.mp hpasses).2⟩
  simp only [hsound.passesTo_iff, exists_and_left, ← Option.isSome_iff_exists,
    Page.isSome_nearestFilledChild?_iff, Page.childAround?_eq_none_iff]

/-- The leaf on line 3 holds the point, and the descent goes on into the box on line 4 beside it. -/
theorem exists_passesTo_beside_leaf :
    let text := Text.Utf8.encode ("Input:1:a\nUnit:65536\nContent:\n\x7b1\n(1,1:0,0:99,99,0\n" ++
      "[1,2:0,0:99,99,0\nh1,3:0,0:9,99,0\n(1,4:50,0:9,9,0\ng1,5:50,0\n)\n]\n)\n\x7d1\n")
    let index := ofDocument none text
    let page := index.pageAt 1
    let inLeaf : Point := ⟨2, -5⟩
    index.page? 1 = some page ∧
      (∃ entry ∈ page.childEntries 1, entry.2.line = 3 ∧ entry.2.contains inLeaf = true) ∧
      (∃ c, page.PassesTo inLeaf 1 c) ∧ page.nearestFilledChild? inLeaf 1 = some 3 ∧
      index.inverse? {} 1 inLeaf = some ⟨"a", 5⟩ := by
  intro text index page inLeaf
  have hpage : index.page? 1 = some page := page?_of_size_pos (by decide +kernel)
  have hkind : (page.get? 1).map Node.kind = some .vbox := by decide +kernel
  have hfilled : ∃ entry ∈ page.childEntries 1, entry.2.hasChildren = true := by decide +kernel
  have haround : ∀ entry ∈ page.childEntries 1, entry.2.kind.isContainer = true →
      entry.2.contains inLeaf = false := by decide +kernel
  obtain ⟨box, hbox, hvbox⟩ := Option.map_eq_some_iff.mp hkind
  have hpasses := (exists_passesTo_iff hpage inLeaf 1).1.mpr ⟨haround, box, hbox, hvbox, hfilled⟩
  exact ⟨hpage, by decide +kernel, hpasses, by decide +kernel, by decide +kernel⟩

/-- A child around the point does not keep a vertical box from being left for one that misses it. -/
theorem not_forall_around_not_passesTo :
    ¬ ∀ (root : Option String) (text : List UInt8) (number : UInt32) (page : Page) (point : Point)
      (start i : Nat) (box : Node), (ofDocument root text).page? number = some page →
        page.start? point = some start → page.Descends point start i →
        page.get? i = some box → box.kind = .vbox →
        (∃ entry ∈ page.childEntries i, entry.2.contains point = true) →
        ∀ c, ¬ page.PassesTo point i c := by
  intro hall
  let text := Text.Utf8.encode ("Input:1:a\nUnit:65536\nContent:\n\x7b1\n(1,1:0,0:99,99,0\n" ++
    "[1,2:0,0:99,99,0\nh1,3:0,0:9,99,0\n(1,4:50,0:9,9,0\ng1,5:50,0\n)\n]\n)\n\x7d1\n")
  let page := (ofDocument none text).pageAt 1
  have hpage : (ofDocument none text).page? 1 = some page := page?_of_size_pos (by decide +kernel)
  have hkind : (page.get? 1).map Node.kind = some .vbox := by decide +kernel
  have hmisses : (page.get? 3).map (Node.contains · ⟨2, -5⟩) = some false := by decide +kernel
  have hstep : page.descendStep? ⟨2, -5⟩ 0 = some 1 := by decide +kernel
  have hnext : page.descendStep? ⟨2, -5⟩ 1 = some 3 := by decide +kernel
  obtain ⟨box, hbox, hvbox⟩ := Option.map_eq_some_iff.mp hkind
  exact hall none text 1 page ⟨2, -5⟩ 0 1 box hpage (by decide +kernel)
    (Relation.ReflTransGen.single hstep) hbox hvbox (by decide +kernel) 3
    ⟨hnext, Option.map_eq_some_iff.mp hmisses⟩

end Index

end PageSync

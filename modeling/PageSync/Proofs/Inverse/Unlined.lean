import PageSync.Proofs.Inverse.Siblings
import PageSync.Proofs.Page.Closest
import PageSync.Proofs.Page.Leaf

/-! # Children that tell nothing

A child without a line and without children is never hit and stands on no side.
When it is deleted from the page, every search inside its box finds what it
found before.
-/

namespace PageSync.Page

variable {page : Page} {point : Point} {x i c box : ℕ} {kernBias : Float} {node : Node}
  {children : List (ℕ × Node)}

/-- A child that is kept when the node `x` is deleted, as it is then. -/
def kept (page : Page) (x : ℕ) (entry : ℕ × Node) : ℕ × Node :=
  (renumber x entry.1, page.relink x entry.2)

/-- Of the children that are kept the same are accepted, if `x` was not. -/
theorem filter_kept {accept : ℕ × Node → Bool}
    (hrefused : ∀ entry ∈ children, entry.1 = x → accept entry = false)
    (hsame : ∀ entry ∈ children, entry.1 ≠ x → accept (page.kept x entry) = accept entry) :
    ((children.filter (·.1 != x)).map (page.kept x)).filter accept =
      (children.filter accept).map (page.kept x) := by
  rw [List.filter_map, List.filter_filter]
  congr 1
  apply List.filter_congr
  intro entry hentry
  by_cases hx : entry.1 = x
  · rw [hrefused entry hentry hx]
    simp [hx]
  · simp [hx, hsame entry hentry hx]

/-- All that is known of a child that tells nothing, and of the box it is in. -/
structure TellsNothing (page : Page) (box x : ℕ) : Prop where
  mem_children : x ∈ page.children box
  exists_node : ∃ node, page.get? x = some node ∧ node.line = 0 ∧ node.hasChildren = false

namespace TellsNothing

theorem children_eq_nil (hx : page.TellsNothing box x) : page.children x = [] := by
  obtain ⟨node, hget, -, hchildren⟩ := hx.exists_node
  rw [children, hget]
  simpa [Node.hasChildren] using hchildren

theorem of_mem_childEntries (hx : page.TellsNothing box x)
    (hentry : (c, node) ∈ page.childEntries i) (hc : c = x) :
    node.line = 0 ∧ node.hasChildren = false := by
  obtain ⟨other, hother, htells⟩ := hx.exists_node
  have hget := (mem_childEntries_iff.mp hentry).2
  rw [hc, hother] at hget
  exact Option.some.inj hget ▸ htells

theorem childEntries_erase (hx : page.TellsNothing box x) (hi : i ≠ x) :
    (page.erase x).childEntries (renumber x i) =
      ((page.childEntries i).filter (·.1 != x)).map (page.kept x) :=
  Page.childEntries_erase hx.children_eq_nil hi

/-- Whatever only accepts nodes with a line accepts the same children. -/
theorem filter_childEntries_erase (hx : page.TellsNothing box x) {accept : Node → Bool}
    (hline : ∀ node, accept node = true → node.hasLine = true)
    (hsame : ∀ node, accept (page.relink x node) = accept node) (hi : i ≠ x) :
    ((((page.erase x).childEntries (renumber x i)).map Prod.snd).filter accept) =
      ((((page.childEntries i).map Prod.snd).filter accept).map (page.relink x)) := by
  rw [hx.childEntries_erase hi, List.filter_map, filter_kept, List.filter_map,
    List.map_map, List.map_map]
  · rfl
  · intro entry hentry heq
    have hzero := (hx.of_mem_childEntries hentry heq).1
    by_contra haccept
    have hlined := hline _ (Bool.not_eq_false _ ▸ haccept)
    rw [Node.hasLine_eq_false_iff.mpr hzero] at hlined
    contradiction
  · intro entry _ _
    exact hsame entry.2

theorem left?_erase (hx : page.TellsNothing box x) {point : Float} (hi : i ≠ x) :
    left? point kernBias ((page.erase x).childEntries (renumber x i)) =
      (left? point kernBias (page.childEntries i)).map (page.relink x) := by
  rw [left?, left?, hx.filter_childEntries_erase ?_ ?_ hi, firstBest?_map]
  · rfl
  · intro node haccept
    exact (Bool.and_eq_true_iff.mp haccept).1
  · exact fun _ => rfl

theorem right?_erase (hx : page.TellsNothing box x) {point : Float} (hi : i ≠ x) :
    right? point kernBias ((page.erase x).childEntries (renumber x i)) =
      (right? point kernBias (page.childEntries i)).map (page.relink x) := by
  rw [right?, right?, hx.filter_childEntries_erase ?_ ?_ hi, firstBest?_map]
  · rfl
  · intro node haccept
    exact (Bool.and_eq_true_iff.mp (Bool.and_eq_true_iff.mp haccept).1).1
  · exact fun _ => rfl

end TellsNothing

namespace Sound

variable (h : page.Sound) (hx : page.TellsNothing box x)

include h hx

theorem lt_of_tellsNothing : box < x ∧ x < page.size := h.lt_of_mem_children hx.mem_children

/-- Nodes inside the box keep their children, as the deleted one is no child of theirs. -/
theorem hasChildren_relink (hget : page.get? c = some node) (hc : box < c) :
    (page.relink x node).hasChildren = node.hasChildren := by
  have hchildren : page.children c = node.children.toList := by rw [children, hget]
  have hmem : x ∉ node.children.toList := by
    intro hmem
    rw [← hchildren] at hmem
    have hparent := h.parent?_of_mem_children hmem
    rw [h.parent?_of_mem_children hx.mem_children] at hparent
    exact absurd (Option.some.inj hparent) (Nat.ne_of_lt hc)
  simp [Node.hasChildren, relink, splice_of_notMem hmem]

theorem hit?_erase {point : Float} (hi : i ≠ x) (hle : box ≤ i) :
    hit? point kernBias ((page.erase x).childEntries (renumber x i)) =
      (hit? point kernBias (page.childEntries i)).map (page.kept x) := by
  rw [hx.childEntries_erase hi, hit?, hit?, ← List.head?_filter, ← List.head?_filter,
    filter_kept, List.head?_map]
  · intro entry hentry heq
    obtain ⟨hline, hchildren⟩ := hx.of_mem_childEntries hentry heq
    simp [Node.hasLine_eq_false_iff.mpr hline, hchildren]
  · rintro ⟨c, node⟩ hentry _
    obtain ⟨hc, hget⟩ := mem_childEntries_iff.mp hentry
    have hlt := (h.lt_of_mem_children hc).1
    have hchildren := h.hasChildren_relink hx hget (Nat.lt_of_le_of_lt hle hlt)
    simp only [kept, hchildren]
    rfl

theorem source?_erase (hi : i ≠ x) : (page.erase x).source? (renumber x i) = page.source? i := by
  have hleaf := h.isLeaf_of_children hx.children_eq_nil
  have herased := h.erase (h.lt_of_tellsNothing hx).2 hx.children_eq_nil
  have hwhere : (page.erase x).ancestorWhere? Node.hasLine (renumber x i) =
      (page.ancestorWhere? Node.hasLine i).map (renumber x) :=
    hleaf.ancestorWhere?_erase (fun _ => rfl) h herased hi
  rw [source?, source?, hwhere, get?_erase_renumber page hi, Option.map_map]
  congr 1
  funext node
  cases habove : page.ancestorWhere? Node.hasLine i with
  | none => rfl
  | some a =>
      obtain ⟨ha, above, hget, -⟩ := exists_of_ancestorWhere? habove
      have hne := hleaf.ne_of_mem_ancestors h ha
      simp only [Function.comp_apply, Option.map_some, Option.bind_some,
        get?_erase_renumber page hne, hget]
      rfl

/-- A child that tells nothing may be deleted without changing what is found inside its box. -/
theorem sourceIn?_erase (hi : i ≠ x) (hle : box ≤ i) :
    (page.erase x).sourceIn? point kernBias (renumber x i) = page.sourceIn? point kernBias i := by
  have herased := h.erase (h.lt_of_tellsNothing hx).2 hx.children_eq_nil
  -- by induction on the box: a child that is hit and has children is the next one, and it is kept
  induction i using h.wellFounded_children.induction with
  | _ i ih =>
      have hhitErased : hit? point.x kernBias ((page.erase x).childEntries (renumber x i)) =
          (hit? point.x kernBias (page.childEntries i)).map (page.kept x) :=
        h.hit?_erase hx hi hle
      cases hhit : hit? point.x kernBias (page.childEntries i) with
      | some entry =>
          obtain ⟨c, node⟩ := entry
          have hentry := List.mem_of_find?_eq_some hhit
          obtain ⟨hc, hget⟩ := mem_childEntries_iff.mp hentry
          have hlt := (h.lt_of_mem_children hc).1
          have hrelink := h.hasChildren_relink hx hget (Nat.lt_of_le_of_lt hle hlt)
          rw [hhit, Option.map_some, kept] at hhitErased
          cases hchildren : node.hasChildren with
          | true =>
              have hne : c ≠ x := fun heq =>
                Bool.false_ne_true ((hx.of_mem_childEntries hentry heq).2.symm.trans hchildren)
              rw [h.sourceIn?_of_reenters ⟨node, hhit, hchildren⟩,
                herased.sourceIn?_of_reenters ⟨_, hhitErased, hrelink.trans hchildren⟩,
                ih c hc hne (Nat.le_trans hle (Nat.le_of_lt hlt))]
          | false =>
              rw [sourceIn?, sourceIn?]
              simp only [hhitErased, hhit, hrelink, hchildren, Bool.false_eq_true, if_false]
              rfl
      | none =>
          rw [hhit, Option.map_none] at hhitErased
          rw [sourceIn?, sourceIn?]
          simp only [hhitErased, hhit, hx.left?_erase hi, hx.right?_erase hi,
            h.source?_erase hx hi]
          cases left? point.x kernBias (page.childEntries i) with
          | some left =>
              cases right? point.x kernBias (page.childEntries i) with
              | some right => rfl
              | none => rfl
          | none =>
              cases right? point.x kernBias (page.childEntries i) with
              | some right => rfl
              | none => rfl

end Sound

end PageSync.Page

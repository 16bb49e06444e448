import PageSync.Proofs.Page.Ancestors
import PageSync.Proofs.Page.Erase

/-! # Deleting a leaf

When a node without children is deleted, all other nodes keep their parents
and everything above them, by their new numbers.
-/

namespace PageSync.Page

/-- The node is no parent of any other. -/
def IsLeaf (page : Page) (x : Nat) : Prop := ∀ i, page.parent? i ≠ some x

variable {page : Page} {x i j n : Nat} {node : Node}

theorem Sound.isLeaf (h : page.Sound) (hget : page.get? x = some node)
    (hkind : node.kind.isContainer = false) : page.IsLeaf x := by
  intro i hparent
  obtain ⟨box, hbox, hcontainer⟩ := h.isContainer_of_parent? hparent
  rw [hget] at hbox
  rw [← Option.some.inj hbox, hkind] at hcontainer
  contradiction

theorem renumber_injOn (hi : i ≠ x) (hj : j ≠ x) : renumber x i = renumber x j ↔ i = j := by
  rw [renumber_eq_iff hi, oldNumber_renumber hj]

/-- A node that is kept has its new number, and is linked by new numbers. -/
theorem get?_erase_renumber (page : Page) (hi : i ≠ x) :
    (page.erase x).get? (renumber x i) = (page.get? i).map (page.relink x) := by
  rw [get?_erase, oldNumber_renumber hi]

/-- What counts of a node beside its links stays when another one is deleted. -/
theorem any_get?_erase {accept : Node → Bool}
    (haccept : ∀ node, accept (page.relink x node) = accept node) (hi : i ≠ x) :
    ((page.erase x).get? (renumber x i)).any accept = (page.get? i).any accept := by
  rw [get?_erase_renumber page hi]
  cases page.get? i with
  | none => rfl
  | some node => rw [Option.map_some, Option.any_some, Option.any_some, haccept]

namespace IsLeaf

theorem parent?_erase (h : page.IsLeaf x) (hi : i ≠ x) :
    (page.erase x).parent? (renumber x i) = (page.parent? i).map (renumber x) := by
  rw [Page.parent?_erase, oldNumber_renumber hi, heir_of_ne (h i)]

theorem ne_of_mem_ancestors (h : page.IsLeaf x) (hsound : page.Sound)
    (hn : n ∈ page.ancestors i) : n ≠ x := by
  induction i using Nat.strongRecOn with
  | ind i ih =>
      obtain ⟨p, hparent⟩ := exists_parent?_of_mem_ancestors hn
      rw [hsound.ancestors_eq_cons hparent, List.mem_cons] at hn
      rcases hn with rfl | hn
      · rintro rfl
        exact h i hparent
      · exact ih p (hsound.lt_of_parent? hparent) hn

/-- The way up from a node leads over the same nodes. -/
theorem ancestors_erase (h : page.IsLeaf x) (hsound : page.Sound)
    (herased : (page.erase x).Sound) (hi : i ≠ x) :
    (page.erase x).ancestors (renumber x i) = (page.ancestors i).map (renumber x) := by
  induction i using Nat.strongRecOn with
  | ind i ih =>
      cases hparent : page.parent? i with
      | none =>
          rw [ancestors_eq_nil hparent, ancestors_eq_nil, List.map_nil]
          rw [h.parent?_erase hi, hparent, Option.map_none]
      | some p =>
          have hp : p ≠ x := by
            rintro rfl
            exact h i hparent
          have herasedParent : (page.erase x).parent? (renumber x i) = some (renumber x p) := by
            rw [h.parent?_erase hi, hparent, Option.map_some]
          rw [hsound.ancestors_eq_cons hparent, herased.ancestors_eq_cons herasedParent,
            ih p (hsound.lt_of_parent? hparent) hp, List.map_cons]

theorem ancestorWhere?_erase {accept : Node → Bool}
    (haccept : ∀ node, accept (page.relink x node) = accept node) (h : page.IsLeaf x)
    (hsound : page.Sound) (herased : (page.erase x).Sound) (hi : i ≠ x) :
    (page.erase x).ancestorWhere? accept (renumber x i) =
      (page.ancestorWhere? accept i).map (renumber x) := by
  rw [ancestorWhere?_eq_find?, ancestorWhere?_eq_find?, h.ancestors_erase hsound herased hi,
    List.find?_map, ← List.head?_filter, ← List.head?_filter]
  congr 2
  apply List.filter_congr
  intro n hn
  exact any_get?_erase haccept (h.ne_of_mem_ancestors hsound hn)

end IsLeaf

/-! ## The page that is left -/

section Left

variable {first stop : Nat} {ids : List Nat}

theorem splice_nil (x : Nat) (ids : List Nat) : splice x [] ids = ids.filter (· != x) := by
  induction ids with
  | nil => rfl
  | cons i ids ih =>
      rw [splice] at ih
      by_cases hi : i = x
      · simp [splice, hi, ih]
      · simp [splice, hi, ih]

theorem children_erase (hx : page.children x = []) (i : Nat) :
    (page.erase x).children i =
      (splice x [] (page.children (oldNumber x i))).map (renumber x) := by
  have herase := childrenOf_erase page x (some i)
  rwa [hx] at herase

theorem roots_erase (hx : page.children x = []) : (page.erase x).roots.toList =
    (splice x [] page.roots.toList).map (renumber x) := by
  have herase := childrenOf_erase page x none
  rwa [hx] at herase

theorem Sound.isLeaf_of_children (h : page.Sound) (hx : page.children x = []) : page.IsLeaf x := by
  intro i hparent
  have hmem := h.mem_children_of_parent? hparent
  rw [hx] at hmem
  exact absurd hmem List.not_mem_nil

/-- What a list covers is covered by what is left of it, if the deleted node has no children. -/
theorem Covers.erase (h : page.Covers ids first stop) (hx : page.children x = []) :
    (page.erase x).Covers ((splice x [] ids).map (renumber x)) (renumber x first)
      (renumber x stop) := by
  induction h with
  | nil first => exact .nil _
  | @cons id middle stop rest hchildren hrest ihchildren ihrest =>
      rw [← List.singleton_append, splice_append, List.map_append]
      by_cases hid : id = x
      · subst hid
        rw [hx] at hchildren
        cases hchildren
        rw [splice_singleton, List.map_nil, List.nil_append]
        have hnumber : renumber id (id + 1) = renumber id id := by
          unfold renumber
          split <;> split <;> omega
        rwa [hnumber] at ihrest
      · have hnumber : renumber x (id + 1) = renumber x id + 1 := by
          unfold renumber
          split <;> split <;> omega
        have hkept : splice x [] [id] = [id] := splice_of_notMem (by simpa using Ne.symm hid)
        rw [hkept, List.map_singleton, List.singleton_append]
        refine .cons ?_ ihrest
        rw [children_erase hx, oldNumber_renumber hid, ← hnumber]
        exact ihchildren

/-- A page stays sound when a node without children is deleted. -/
theorem Sound.erase (h : page.Sound) (hsize : x < page.size) (hx : page.children x = []) :
    (page.erase x).Sound where
  covers := by
    have hcovers := h.covers.erase hx
    have hlast : renumber x page.size = (page.erase x).size := by
      rw [size_erase hsize, renumber, if_pos hsize]
    rw [hlast] at hcovers
    rwa [roots_erase hx]
  parent?_of_mem_children {i p} hi := by
    rw [children_erase hx, List.mem_map] at hi
    obtain ⟨j, hj, rfl⟩ := hi
    rw [splice_nil, List.mem_filter, bne_iff_ne] at hj
    rw [(h.isLeaf_of_children hx).parent?_erase hj.2, h.parent?_of_mem_children hj.1,
      Option.map_some, renumber_oldNumber]
  parent?_of_mem_roots {i} hi := by
    obtain ⟨j, hj, rfl⟩ := List.mem_map.mp (roots_erase hx ▸ hi)
    rw [splice_nil, List.mem_filter, bne_iff_ne] at hj
    rw [(h.isLeaf_of_children hx).parent?_erase hj.2, h.parent?_of_mem_roots hj.1, Option.map_none]
  isContainer_of_parent? {i p} hi := by
    have hleaf := h.isLeaf_of_children hx
    rw [Page.parent?_erase, heir_of_ne (hleaf _)] at hi
    obtain ⟨q, hq, rfl⟩ := Option.map_eq_some_iff.mp hi
    have hne : q ≠ x := by
      rintro rfl
      exact hleaf _ hq
    obtain ⟨node, hget, hkind⟩ := h.isContainer_of_parent? hq
    exact ⟨page.relink x node, by rw [get?_erase_renumber page hne, hget, Option.map_some], hkind⟩

/-- The children of a node that is kept are those from before, but the deleted one. -/
theorem childEntries_erase (hx : page.children x = []) (hi : i ≠ x) :
    (page.erase x).childEntries (renumber x i) =
      ((page.childEntries i).filter (·.1 != x)).map fun entry =>
        (renumber x entry.1, page.relink x entry.2) := by
  rw [childEntries, childEntries, children_erase hx, oldNumber_renumber hi, splice_nil]
  induction page.children i with
  | nil => rfl
  | cons c ids ih =>
      by_cases hc : c = x
      · cases hget : page.get? c with
        | none => simpa [hc, hc ▸ hget] using ih
        | some node => simpa [hc, hc ▸ hget] using ih
      · have herase := get?_erase_renumber page hc
        cases hget : page.get? c with
        | none => simpa [hc, hget, herase] using ih
        | some node => simpa [hc, hget, herase] using ih

end Left

end PageSync.Page

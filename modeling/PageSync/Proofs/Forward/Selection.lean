import PageSync.Forward.Selection
import PageSync.Proofs.Page.Ancestors

/-! # Selected nodes

Narrowing nodes down never leaves none of them, and what it brings in is above
one of them.
-/

namespace PageSync.Page

variable {page : Page} {ids : List Nat} {i : Nat}

theorem mem_ancestors_of_enclosingHbox? {box : Nat} (h : page.enclosingHbox? i = some box) :
    box ∈ page.ancestors i := by
  rw [enclosingHbox?] at h
  split at h
  · contradiction
  · split at h
    · contradiction
    · exact (exists_of_ancestorWhere? h).1

theorem select_ne_nil (hids : ids ≠ []) : page.select ids ≠ [] := by
  simp only [select]
  split_ifs with henclosing hhorizontal hboxes
  · simpa using henclosing
  · simpa using hhorizontal
  · simpa using hboxes
  · exact hids

/-- What is selected was given or is above a given node. -/
theorem mem_or_mem_ancestors_of_mem_select (h : i ∈ page.select ids) :
    i ∈ ids ∨ ∃ leaf ∈ ids, i ∈ page.ancestors leaf := by
  simp only [select] at h
  split_ifs at h
  · rw [enclosingHboxes, List.mem_eraseDups, List.mem_filterMap] at h
    obtain ⟨leaf, hleaf, hbox⟩ := h
    exact Or.inr ⟨leaf, hleaf, mem_ancestors_of_enclosingHbox? hbox⟩
  · exact Or.inl (List.mem_of_mem_filter h)
  · exact Or.inl (List.mem_of_mem_filter h)
  · exact Or.inl h

theorem Sound.lt_size_of_mem_select (h : page.Sound) (hids : ∀ j ∈ ids, j < page.size)
    (hi : i ∈ page.select ids) : i < page.size := by
  rcases mem_or_mem_ancestors_of_mem_select hi with hi | ⟨leaf, -, hi⟩
  · exact hids i hi
  · exact h.lt_size_of_mem_ancestors hi

end PageSync.Page

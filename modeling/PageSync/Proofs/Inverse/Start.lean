import PageSync.Inverse.Start
import PageSync.Proofs.Page.Ancestors

/-! # Starts of a search

A search has a start as soon as the page has a node, since the last resort is
the nearest node of all. Wherever the start comes from, it is a node of the
page.
-/

namespace PageSync

theorem mem_entries_of_nearest? {point : Point} {entries : List (Nat × Node)} {id : Nat}
    (h : nearest? point entries = some id) : ∃ node, (id, node) ∈ entries := by
  obtain ⟨⟨other, node⟩, hbest, rfl⟩ := Option.map_eq_some_iff.mp h
  exact ⟨node, mem_of_firstBest? hbest⟩

theorem isSome_nearest? (point : Point) (entries : List (Nat × Node)) :
    (nearest? point entries).isSome = !entries.isEmpty := by
  rw [nearest?, Option.isSome_map, isSome_firstBest?]

namespace Page

variable {page : Page} {point : Point} {id : Nat} {node : Node}

theorem mem_entries_iff : (id, node) ∈ page.entries ↔ page.get? id = some node := by
  simp only [entries, List.mem_map, Prod.exists, Prod.mk.injEq, List.mem_zipIdx_iff_getElem?, get?,
    Array.getElem?_toList]
  constructor
  · rintro ⟨other, place, hget, rfl, rfl⟩
    exact hget
  · intro hget
    exact ⟨node, id, hget, rfl, rfl⟩

theorem get?_of_mem_hboxes (h : (id, node) ∈ page.hboxes) : page.get? id = some node :=
  mem_entries_iff.mp (List.mem_of_mem_filter h)

theorem exists_get?_of_smallestAround? (h : page.smallestAround? point = some id) :
    ∃ node, page.get? id = some node := by
  obtain ⟨⟨other, node⟩, hbest, rfl⟩ := Option.map_eq_some_iff.mp h
  exact ⟨node, get?_of_mem_hboxes (List.mem_of_mem_filter (mem_of_firstBest? hbest))⟩

theorem exists_get?_of_nearestHbox? (h : page.nearestHbox? point = some id) :
    ∃ node, page.get? id = some node := by
  obtain ⟨node, hnode⟩ := mem_entries_of_nearest? h
  exact ⟨node, get?_of_mem_hboxes hnode⟩

theorem exists_get?_of_deepestNearest? (h : page.deepestNearest? point = some id) :
    ∃ node, page.get? id = some node := by
  obtain ⟨placed, hplaced, hchosen⟩ := Option.bind_eq_some_iff.mp h
  obtain ⟨best, hbest, rfl⟩ := Option.map_eq_some_iff.mp hchosen
  obtain ⟨visited, -, rfl⟩ := Option.map_eq_some_iff.mp hplaced
  obtain ⟨⟨other, depth⟩, -, hplace⟩ := List.mem_filterMap.mp (mem_of_firstBest? hbest)
  obtain ⟨node, hget, rfl⟩ := Option.map_eq_some_iff.mp hplace
  exact ⟨node, hget⟩

/-- The start is a node of the page, whichever way it was chosen. -/
theorem exists_get?_of_start? (h : page.start? point = some id) :
    ∃ node, page.get? id = some node := by
  simp only [start?, Option.orElse_eq_some] at h
  rcases h with h | ⟨-, h | ⟨-, h | ⟨-, h⟩⟩⟩
  · exact exists_get?_of_smallestAround? h
  · exact exists_get?_of_nearestHbox? h
  · exact exists_get?_of_deepestNearest? h
  · obtain ⟨node, hnode⟩ := mem_entries_of_nearest? h
    exact ⟨node, mem_entries_iff.mp hnode⟩

/-- A page with nodes has a start for every point. -/
theorem isSome_start? (page : Page) (point : Point) :
    (page.start? point).isSome = true ↔ 0 < page.size := by
  constructor
  · intro hstart
    obtain ⟨id, hid⟩ := Option.isSome_iff_exists.mp hstart
    obtain ⟨node, hget⟩ := exists_get?_of_start? hid
    exact Nat.zero_lt_of_lt (lt_size_of_get? hget)
  · intro hsize
    have hnearest : (nearest? point page.entries).isSome = true := by
      rw [isSome_nearest?, Bool.not_eq_true', List.isEmpty_eq_false_iff_exists_mem]
      obtain ⟨node, hget⟩ := exists_get? hsize
      exact ⟨(0, node), mem_entries_iff.mpr hget⟩
    simp [start?, hnearest]

namespace Sound

/-- The walk over a sound page visits every node once. -/
theorem exists_placed? (h : page.Sound) :
    ∃ placed, page.placed? = some placed ∧ placed.map Placed.id = List.range page.size := by
  obtain ⟨visited, hvisited, hnumbers⟩ := Option.map_eq_some_iff.mp h.map_fst_preorder?
  refine ⟨_, by rw [placed?, hvisited, Option.map_some], ?_⟩
  rw [← hnumbers, List.map_filterMap, List.filterMap_eq_map_iff_forall_eq_some]
  rintro ⟨id, depth⟩ hmem
  have hid : id ∈ List.range page.size := hnumbers ▸ List.mem_map_of_mem hmem
  obtain ⟨node, hget⟩ := exists_get? (List.mem_range.mp hid)
  simp only [hget, Option.map_some]

end Sound

end Page

end PageSync

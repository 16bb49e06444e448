import PageSync.Inverse.Descent
import PageSync.Proofs.Inverse.Start

/-! # Ends of a descent

Every step of a descent goes to a child, so on a sound page there is no descent
without an end, and none that leaves the page, whatever the distances are. The
descent from a node stays below it and stops where no step leads on.
-/

namespace PageSync.Page

variable {page : Page} {point : Point} {i c : Nat} {node : Node}

theorem mem_childEntries_iff :
    (c, node) ∈ page.childEntries i ↔ c ∈ page.children i ∧ page.get? c = some node := by
  simp only [childEntries, List.mem_filterMap, Option.map_eq_some_iff, Prod.mk.injEq]
  constructor
  · rintro ⟨child, hchild, other, hget, rfl, rfl⟩
    exact ⟨hchild, hget⟩
  · rintro ⟨hchild, hget⟩
    exact ⟨c, hchild, node, hget, rfl, rfl⟩

theorem Sound.map_fst_childEntries (h : page.Sound) (i : Nat) :
    (page.childEntries i).map Prod.fst = page.children i := by
  rw [childEntries, List.map_filterMap]
  refine (List.filterMap_eq_map_iff_forall_eq_some.mpr ?_).trans (List.map_id _)
  intro child hchild
  obtain ⟨node, hget⟩ := exists_get? (h.lt_of_mem_children hchild).2
  rw [hget, Option.map_some, Option.map_some, id]

theorem mem_children_of_childAround? (h : page.childAround? point i = some c) :
    c ∈ page.children i := by
  obtain ⟨⟨child, node⟩, hfind, rfl⟩ := Option.map_eq_some_iff.mp h
  exact (mem_childEntries_iff.mp (List.mem_of_find?_eq_some hfind)).1

theorem mem_children_of_nearestFilledChild? (h : page.nearestFilledChild? point i = some c) :
    c ∈ page.children i := by
  rw [nearestFilledChild?] at h
  split at h
  · contradiction
  · split at h
    · obtain ⟨node, hnode⟩ := mem_entries_of_nearest? h
      exact (mem_childEntries_iff.mp (List.mem_of_mem_filter hnode)).1
    · contradiction

/-- A step of a descent goes to a child. -/
theorem mem_children_of_descendStep? (h : page.descendStep? point i = some c) :
    c ∈ page.children i := by
  rw [descendStep?] at h
  split at h
  next child haround =>
    cases h
    exact mem_children_of_childAround? haround
  next => exact mem_children_of_nearestFilledChild? h

/-- Some steps of the descent lead from the first node to the second. -/
def Descends (page : Page) (point : Point) : Nat → Nat → Prop :=
  Relation.ReflTransGen fun here next => page.descendStep? point here = some next

theorem Descends.below (h : page.Descends point i c) : page.Below i c :=
  Relation.ReflTransGen.mono (fun _ _ hstep => mem_children_of_descendStep? hstep) _ _ h

namespace Sound

/-- No descent goes on for ever. -/
theorem wellFounded_descendStep? (h : page.Sound) (point : Point) :
    WellFounded fun next here => page.descendStep? point here = some next :=
  Subrelation.wf mem_children_of_descendStep? h.wellFounded_children

theorem descend?_of_step (h : page.Sound) (hstep : page.descendStep? point i = some c) :
    page.descend? point i = page.descend? point c := by
  rw [descend?, hstep]
  exact dif_pos (h.lt_of_mem_children (mem_children_of_descendStep? hstep))

/-- A descent ends where no step leads on. -/
theorem exists_descend? (h : page.Sound) (point : Point) (i : Nat) :
    ∃ last, page.descend? point i = some last ∧ page.Descends point i last ∧
      page.descendStep? point last = none := by
  induction i using (h.wellFounded_descendStep? point).induction with
  | _ i ih =>
      cases hstep : page.descendStep? point i with
      | none => exact ⟨i, by rw [descend?, hstep], Relation.ReflTransGen.refl, hstep⟩
      | some next =>
          obtain ⟨last, hlast, hdescends, hend⟩ := ih next hstep
          exact ⟨last, by rw [h.descend?_of_step hstep, hlast],
            Relation.ReflTransGen.head hstep hdescends, hend⟩

end Sound

end PageSync.Page

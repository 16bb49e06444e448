import PageSync.Page.Basic
import PageSync.Page.Distance

/-! # The best of a list

Nodes are chosen by comparing them one after the other: a later one is taken
only if it beats the one kept so far. Of equally good nodes the first stays,
and a comparison that cannot tell changes nothing.
-/

namespace PageSync

/-- The candidate that is kept after comparing with one more. -/
def keepBest {α : Type} (beats : α → α → Bool) (best : Option α) (candidate : α) : Option α :=
  match best with
  | none => some candidate
  | some kept => if beats candidate kept then some candidate else some kept

/-- The candidate that is kept in the end. -/
def firstBest? {α : Type} (beats : α → α → Bool) (candidates : List α) : Option α :=
  candidates.foldl (keepBest beats) none

theorem foldl_keepBest_some {α : Type} (beats : α → α → Bool) (kept : α) (candidates : List α) :
    ∃ best, candidates.foldl (keepBest beats) (some kept) = some best ∧
      (best = kept ∨ best ∈ candidates) := by
  induction candidates generalizing kept with
  | nil => exact ⟨kept, rfl, Or.inl rfl⟩
  | cons candidate rest ih =>
      by_cases h : beats candidate kept = true
      · obtain ⟨best, hbest, hmem⟩ := ih candidate
        refine ⟨best, by simpa [keepBest, h] using hbest, Or.inr ?_⟩
        rcases hmem with rfl | hmem
        · exact List.mem_cons_self
        · exact List.mem_cons_of_mem _ hmem
      · obtain ⟨best, hbest, hmem⟩ := ih kept
        exact ⟨best, by simpa [keepBest, h] using hbest, hmem.imp_right (List.mem_cons_of_mem _)⟩

/-- The best candidate is one of them. -/
theorem mem_of_firstBest? {α : Type} {beats : α → α → Bool} {candidates : List α} {best : α}
    (h : firstBest? beats candidates = some best) : best ∈ candidates := by
  cases candidates with
  | nil => simp [firstBest?] at h
  | cons candidate rest =>
      obtain ⟨other, hother, hmem⟩ := foldl_keepBest_some beats candidate rest
      have heq : other = best := by
        rw [firstBest?, List.foldl_cons, keepBest, hother] at h
        exact Option.some.inj h
      subst heq
      rcases hmem with rfl | hmem
      · exact List.mem_cons_self
      · exact List.mem_cons_of_mem _ hmem

/-- There is a best candidate unless there is none at all. -/
theorem isSome_firstBest? {α : Type} (beats : α → α → Bool) (candidates : List α) :
    (firstBest? beats candidates).isSome = !candidates.isEmpty := by
  cases candidates with
  | nil => rfl
  | cons candidate rest =>
      obtain ⟨best, hbest, -⟩ := foldl_keepBest_some beats candidate rest
      rw [firstBest?, List.foldl_cons, keepBest, hbest]
      rfl

theorem eq_nil_of_firstBest?_eq_none {α : Type} {beats : α → α → Bool} {candidates : List α}
    (h : firstBest? beats candidates = none) : candidates = [] := by
  have hsome := isSome_firstBest? beats candidates
  rw [h] at hsome
  simpa using hsome

/-- The node with the least L1 distance from a point. -/
def nearest? (point : Point) (entries : List (Nat × Node)) : Option Nat :=
  (firstBest? (fun a b => a.2.l1Distance point < b.2.l1Distance point) entries).map Prod.fst

namespace Page

/-- The horizontal boxes of the page that may hold other nodes. -/
def hboxes (page : Page) : List (Nat × Node) :=
  page.entries.filter fun (_, node) => node.kind == .hbox

end Page

end PageSync

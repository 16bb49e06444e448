import Mathlib.Data.Option.Basic
import PageSync.Page.Basic

/-! # Adding a node

A node that is added under a parent on its page changes the page in three
places only: it gets the next number, it becomes the last child of its parent
or the last root, and nothing else moves. The lemmas say so for each view of a
page, and the page is not opened again behind them.
-/

namespace PageSync.Page

/-- The number stands for a box that may hold other nodes. -/
def IsContainer (page : Page) (id : Nat) : Prop :=
  ∃ node, page.get? id = some node ∧ node.kind.isContainer = true

variable {page : Page} {parent : Option Nat}

theorem exists_get? {i : Nat} (hi : i < page.size) : ∃ node, page.get? i = some node :=
  ⟨page.nodes[i], Array.getElem?_eq_getElem hi⟩

theorem get?_eq_none {i : Nat} (hi : page.size ≤ i) : page.get? i = none :=
  Array.getElem?_eq_none hi

theorem lt_size_of_get? {i : Nat} {node : Node} (hget : page.get? i = some node) :
    i < page.size := by
  by_contra hi
  rw [get?_eq_none (Nat.le_of_not_lt hi)] at hget
  contradiction

theorem children_eq_nil {i : Nat} (hi : page.size ≤ i) : page.children i = [] := by
  rw [children, get?_eq_none hi]

theorem parent?_eq_none {i : Nat} (hi : page.size ≤ i) : page.parent? i = none := by
  rw [parent?, get?_eq_none hi, Option.bind_none]

theorem lt_size_of_parent? {i p : Nat} (hparent : page.parent? i = some p) : i < page.size := by
  obtain ⟨node, hget, -⟩ := Option.bind_eq_some_iff.mp hparent
  exact lt_size_of_get? hget

/-- The node with a number after a push. -/
theorem get?_push (hparent : ∀ p ∈ parent, p < page.size) (node : Node) (i : Nat) :
    (page.push node parent).get? i =
      if i = page.size then some { node with parent := parent, children := #[] }
      else (page.get? i).map fun other =>
        if parent = some i then other.addChild page.size else other := by
  cases parent with
  | none =>
      simp only [push, get?, size, Array.getElem?_push, reduceCtorEq, if_false, Option.map_id']
  | some p =>
      have hp : p < page.size := hparent p rfl
      have hle : p ≤ page.nodes.size := Nat.le_of_lt hp
      simp only [push, get?, size, if_pos hle, Array.getElem?_modify, Array.getElem?_push,
        Option.some.injEq]
      by_cases hi : i = page.nodes.size
      · have hne : p ≠ i := by
          rw [hi]
          exact Nat.ne_of_lt hp
        rw [if_neg hne, if_pos hi, if_pos hi]
      · rw [if_neg hi, if_neg hi]
        by_cases hpi : p = i
        · simp [hpi]
        · simp [hpi]

/-- What no child changes is kept by every node, and the new node has its own. -/
theorem map_get?_push {α : Type} {f : Node → α} (hf : ∀ id node, f (Node.addChild id node) = f node)
    (hparent : ∀ p ∈ parent, p < page.size) (node : Node) (i : Nat) :
    ((page.push node parent).get? i).map f =
      if i = page.size then some (f { node with parent := parent, children := #[] })
      else (page.get? i).map f := by
  rw [get?_push hparent]
  split
  · rfl
  · rw [Option.map_map]
    congr 1
    funext other
    simp only [Function.comp_apply]
    split
    · exact hf _ other
    · rfl

theorem get?_push_size (hparent : ∀ p ∈ parent, p < page.size) (node : Node) :
    (page.push node parent).get? page.size =
      some { node with parent := parent, children := #[] } := by
  rw [get?_push hparent, if_pos rfl]

theorem exists_get?_push {α : Type} {f : Node → α}
    (hf : ∀ id node, f (Node.addChild id node) = f node)
    (hparent : ∀ p ∈ parent, p < page.size) (node : Node) {i : Nat} {old : Node}
    (hold : page.get? i = some old) :
    ∃ new, (page.push node parent).get? i = some new ∧ f new = f old := by
  rw [← Option.map_eq_some_iff, map_get?_push hf hparent,
    if_neg (Nat.ne_of_lt (lt_size_of_get? hold)), hold, Option.map_some]

theorem IsContainer.push (hparent : ∀ p ∈ parent, p < page.size) (node : Node) {i : Nat}
    (h : page.IsContainer i) : (page.push node parent).IsContainer i := by
  obtain ⟨old, hold, hkind⟩ := h
  obtain ⟨new, hnew, heq⟩ :=
    exists_get?_push (f := Node.kind) (fun _ _ => rfl) hparent node hold
  exact ⟨new, hnew, heq ▸ hkind⟩

theorem parent?_push (hparent : ∀ p ∈ parent, p < page.size) (node : Node) (i : Nat) :
    (page.push node parent).parent? i = if i = page.size then parent else page.parent? i := by
  rw [parent?, get?_push hparent]
  split
  · rfl
  · rw [parent?]
    cases page.get? i with
    | none => rfl
    | some other =>
        rw [Option.map_some, Option.bind_some, Option.bind_some]
        split
        · rfl
        · rfl

theorem children_push (hparent : ∀ p ∈ parent, p < page.size) (node : Node) (i : Nat) :
    (page.push node parent).children i =
      page.children i ++ if parent = some i then [page.size] else [] := by
  rw [children, get?_push hparent]
  by_cases hi : i = page.size
  · have hne : parent ≠ some i := fun heq => Nat.ne_of_lt (hparent i heq) hi
    rw [if_pos hi, if_neg hne, children_eq_nil (Nat.le_of_eq hi.symm)]
    rfl
  · rw [if_neg hi, children]
    cases hget : page.get? i with
    | none =>
        have hne : parent ≠ some i := by
          intro heq
          obtain ⟨other, hother⟩ := exists_get? (hparent i heq)
          rw [hget] at hother
          contradiction
        rw [if_neg hne]
        rfl
    | some other =>
        by_cases hpi : parent = some i
        · simp [hpi, Node.addChild]
        · simp [hpi]

theorem roots_push (hparent : ∀ p ∈ parent, p < page.size) (node : Node) :
    (page.push node parent).roots.toList =
      page.roots.toList ++ if parent = none then [page.size] else [] := by
  cases parent with
  | none => simp [push, size]
  | some p =>
      have hle : p ≤ page.nodes.size := Nat.le_of_lt (hparent p rfl)
      simp [push, hle]

end PageSync.Page

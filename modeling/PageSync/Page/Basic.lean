import PageSync.Page.Node

/-! # Pages

The nodes of a page form a forest. They are kept in the order of their
records, and parents and children are given by their positions in that order.
`Page.push` is the only way to add a node, so a node comes after its parent
whenever it was given one that exists.
-/

namespace PageSync

/-- The nodes of a page and those of them that have no parent on it. -/
structure Page where
  nodes : Array Node := #[]
  roots : Array Nat := #[]
  deriving Repr, BEq, Inhabited

namespace Page

def size (page : Page) : Nat := page.nodes.size

def isEmpty (page : Page) : Bool := page.nodes.isEmpty

@[inline]
def get? (page : Page) (id : Nat) : Option Node := page.nodes[id]?

/-- The nodes with their numbers, in order. -/
def entries (page : Page) : List (Nat × Node) :=
  page.nodes.toList.zipIdx.map fun (node, id) => (id, node)

/-- The children of a node. Numbers that stand for no node have none. -/
def children (page : Page) (id : Nat) : List Nat :=
  match page.get? id with
  | none => []
  | some node => node.children.toList

/-- The children of a node, with their numbers. -/
def childEntries (page : Page) (id : Nat) : List (Nat × Node) :=
  (page.children id).filterMap fun child => (page.get? child).map fun node => (child, node)

/-- Adds a node under a parent. A parent that does not exist is kept in the
node, which then counts as a root. -/
def push (page : Page) (node : Node) (parent : Option Nat) : Page :=
  let id := page.nodes.size
  let nodes := page.nodes.push { node with parent := parent, children := #[] }
  match parent with
  | none => ⟨nodes, page.roots.push id⟩
  | some p =>
    if p ≤ id then ⟨nodes.modify p (Node.addChild id), page.roots⟩
    else ⟨nodes, page.roots.push id⟩

@[simp]
theorem size_push (page : Page) (node : Node) (parent : Option Nat) :
    (page.push node parent).size = page.size + 1 := by
  cases parent with
  | none => simp [push, size]
  | some p =>
      simp only [push, size]
      split <;> simp

/-- The parent of a node, if the node exists and has one. -/
def parent? (page : Page) (id : Nat) : Option Nat := (page.get? id).bind Node.parent

/-- The given number and those above it, over at most so many steps. The walk
stops behind a number that stands for no node. -/
def chain (page : Page) : Nat → Option Nat → List Nat
  | 0, _ => []
  | _ + 1, none => []
  | steps + 1, some id => id :: page.chain steps (page.parent? id)

@[simp]
theorem chain_none (page : Page) (steps : Nat) : page.chain steps none = [] := by
  cases steps <;> rfl

/-- The parent of a node, the parent's parent and so on, nearest first. -/
def ancestors (page : Page) (id : Nat) : List Nat :=
  page.chain page.size (page.parent? id)

/-- The first node of a chain that is accepted. -/
@[specialize]
def chainFind? (page : Page) (accept : Node → Bool) : Nat → Option Nat → Option Nat
  | 0, _ => none
  | _ + 1, none => none
  | steps + 1, some id =>
    match page.get? id with
    | none => none
    | some node =>
      if accept node then some id else page.chainFind? accept steps node.parent

/-- The nearest ancestor that is accepted. -/
@[specialize]
def ancestorWhere? (page : Page) (accept : Node → Bool) (id : Nat) : Option Nat :=
  page.chainFind? accept page.size (page.parent? id)

theorem chainFind?_eq_find? (page : Page) (accept : Node → Bool) (steps : Nat)
    (next : Option Nat) :
    page.chainFind? accept steps next =
      (page.chain steps next).find? fun id => (page.get? id).any accept := by
  induction steps generalizing next with
  | zero => rfl
  | succ steps ih =>
      cases next with
      | none => rfl
      | some id =>
          cases hnode : page.get? id with
          | none =>
              have hrest : page.chain steps (page.parent? id) = [] := by
                rw [parent?, hnode, Option.bind_none, chain_none]
              simp [chainFind?, chain, hnode, hrest]
          | some node =>
              cases haccept : accept node <;>
                simp [chainFind?, chain, hnode, haccept, parent?, ih]

/-- The nearest accepted ancestor is the first of the ancestors that is accepted. -/
theorem ancestorWhere?_eq_find? (page : Page) (accept : Node → Bool) (id : Nat) :
    page.ancestorWhere? accept id =
      (page.ancestors id).find? fun other => (page.get? other).any accept :=
  page.chainFind?_eq_find? accept page.size (page.parent? id)

/-- Visits the pending numbers with everything below them, over at most so many
nodes. Each number carries its depth. There is no result if a number stands for
no node or the steps do not suffice. -/
def walk? (page : Page) (visited : Array (Nat × Nat)) :
    Nat → List (Nat × Nat) → Option (Array (Nat × Nat))
  | _, [] => some visited
  | 0, _ :: _ => none
  | steps + 1, (id, depth) :: pending =>
    match page.get? id with
    | none => none
    | some node =>
      page.walk? (visited.push (id, depth)) steps
        ((node.children.toList.map fun child => (child, depth + 1)) ++ pending)

/-- All nodes with their depths, parents before their children and siblings in
order. Roots have depth 0. -/
def preorder? (page : Page) : Option (List (Nat × Nat)) :=
  (page.walk? #[] page.size (page.roots.toList.map fun root => (root, 0))).map Array.toList

end Page

end PageSync

import PageSync.Proofs.Page.Forest

/-! # Deleting a node

When a node is deleted its children take its place among its siblings and get
its parent, and the numbers behind it move up by one. A page can be looked at
in three ways that together are all of it: what its nodes are, which parents
they have, and how siblings follow each other. Each of them says what deleting
does, and that a node that is added later comes out the same before and after.
-/

namespace PageSync

namespace Node

/-- A node without its place among the others. -/
def bare (node : Node) : Node := { node with parent := none, children := #[] }

end Node

namespace Page

/-- The number that a node gets when the node `x` is deleted. -/
def renumber (x i : Nat) : Nat := if x < i then i - 1 else i

/-- The number that a node had before the node `x` was deleted. -/
def oldNumber (x i : Nat) : Nat := if i < x then i else i + 1

/-- The siblings with others in the place of one of them. -/
def splice (x : Nat) (others ids : List Nat) : List Nat :=
  ids.flatMap fun i => if i = x then others else [i]

/-- The parent of nodes when the node `x` is deleted, still by the numbers from before. -/
def heir (page : Page) (x : Nat) (parent : Option Nat) : Option Nat :=
  if parent = some x then page.parent? x else parent

/-- A node of the page as it is when the node `x` is deleted. -/
def relink (page : Page) (x : Nat) (node : Node) : Node :=
  { node with
    parent := (page.heir x node.parent).map (renumber x)
    children := ((splice x (page.children x) node.children.toList).map (renumber x)).toArray }

/-- The page without the node `x`. Its children stand where it stood, and numbers close the gap. -/
def erase (page : Page) (x : Nat) : Page where
  nodes := ((page.nodes.toList.eraseIdx x).map (page.relink x)).toArray
  roots := ((splice x (page.children x) page.roots.toList).map (renumber x)).toArray

/-- The children of a node, or the roots. -/
def childrenOf (page : Page) (parent : Option Nat) : List Nat :=
  parent.elim page.roots.toList page.children

@[simp]
theorem childrenOf_none (page : Page) : page.childrenOf none = page.roots.toList := rfl

@[simp]
theorem childrenOf_some (page : Page) (i : Nat) : page.childrenOf (some i) = page.children i := rfl

/-! ## Numbers -/

section Numbers

variable {x i j : Nat}

theorem renumber_of_le (h : i ≤ x) : renumber x i = i := if_neg (Nat.not_lt.mpr h)

@[simp]
theorem renumber_oldNumber (x i : Nat) : renumber x (oldNumber x i) = i := by
  unfold renumber oldNumber
  split <;> split <;> omega

theorem oldNumber_ne (x i : Nat) : oldNumber x i ≠ x := by
  unfold oldNumber
  split <;> omega

theorem oldNumber_renumber (h : i ≠ x) : oldNumber x (renumber x i) = i := by
  unfold renumber oldNumber
  split <;> split <;> omega

theorem renumber_eq_iff (h : i ≠ x) : renumber x i = j ↔ i = oldNumber x j := by
  constructor
  · rintro rfl
    exact (oldNumber_renumber h).symm
  · rintro rfl
    exact renumber_oldNumber x j

/-- The numbers close the gap, so the last one is one less. -/
theorem oldNumber_eq_iff {size : Nat} (hx : x < size) (i : Nat) :
    oldNumber x i = size ↔ i = size - 1 := by
  unfold oldNumber
  split <;> omega

theorem renumber_lt {size : Nat} (hx : x < size) (hne : i ≠ x) (hi : i < size) :
    renumber x i < size - 1 := by
  unfold renumber
  split <;> omega

theorem map_renumber_eq_iff {parent other : Option Nat} (h : parent ≠ some x) :
    parent.map (renumber x) = other ↔ parent = other.map (oldNumber x) := by
  cases parent with
  | none => cases other <;> simp
  | some i =>
      have hi : i ≠ x := fun heq => h (heq ▸ rfl)
      cases other with
      | none => simp
      | some j => simp [renumber_eq_iff hi]

end Numbers

/-! ## Siblings -/

section Splice

variable {x : Nat} {others ids front back : List Nat}

@[simp]
theorem splice_append : splice x others (front ++ back) =
    splice x others front ++ splice x others back := List.flatMap_append

theorem splice_of_notMem (h : x ∉ ids) : splice x others ids = ids := by
  rw [splice, List.flatMap_congr (g := fun i => [i]), List.flatMap_singleton']
  intro i hi
  rw [if_neg]
  rintro rfl
  exact h hi

@[simp]
theorem splice_singleton (x : Nat) (others : List Nat) : splice x others [x] = others := by
  simp [splice]

end Splice

/-! ## Views of a page -/

section Views

variable {page other : Page} {parent : Option Nat} {x i : Nat}

/-- Pages are the same if their nodes, their parents and their siblings are. -/
theorem ext_views
    (hbare : ∀ i, (page.get? i).map Node.bare = (other.get? i).map Node.bare)
    (hparent : ∀ i, page.parent? i = other.parent? i)
    (hchildren : ∀ parent, page.childrenOf parent = other.childrenOf parent) : page = other := by
  have hget : ∀ i, page.get? i = other.get? i := by
    intro i
    have hbare := hbare i
    have hparent := hparent i
    have hchildren := hchildren (some i)
    simp only [parent?, childrenOf_some, children] at hparent hchildren
    cases hnode : page.get? i with
    | none =>
        rw [hnode, Option.map_none] at hbare
        exact (Option.map_eq_none_iff.mp hbare.symm).symm
    | some node =>
        rw [hnode, Option.map_some] at hbare
        obtain ⟨same, hsame, heq⟩ := Option.map_eq_some_iff.mp hbare.symm
        rw [hnode, hsame] at hparent hchildren
        rw [hsame]
        congr 1
        calc
          node = { node.bare with parent := node.parent, children := node.children } := rfl
          _ = { same.bare with parent := same.parent, children := same.children } := by
            rw [heq, show node.parent = same.parent from hparent,
              Array.toList_inj.mp hchildren]
          _ = same := rfl
  have hnodes : page.nodes = other.nodes := Array.ext_getElem? hget
  have hroots : page.roots = other.roots := Array.toList_inj.mp (hchildren none)
  cases page
  cases other
  simp_all

theorem children_eq_elim (page : Page) (i : Nat) :
    page.children i = (page.get? i).elim [] fun node => node.children.toList := by
  rw [children]
  cases page.get? i with
  | none => rfl
  | some node => rfl

theorem childrenOf_push (hparent : ∀ p ∈ parent, p < page.size) (node : Node)
    (owner : Option Nat) : (page.push node parent).childrenOf owner =
      page.childrenOf owner ++ if parent = owner then [page.size] else [] := by
  cases owner with
  | none => exact roots_push hparent node
  | some i => exact children_push hparent node i

theorem map_bare_push (hparent : ∀ p ∈ parent, p < page.size) (node : Node) (i : Nat) :
    ((page.push node parent).get? i).map Node.bare =
      if i = page.size then some node.bare else (page.get? i).map Node.bare :=
  map_get?_push (fun _ _ => rfl) hparent node i

@[simp]
theorem heir_none (page : Page) (x : Nat) : page.heir x none = none := rfl

theorem heir_of_ne (h : parent ≠ some x) : page.heir x parent = parent := if_neg h

@[simp]
theorem heir_self (page : Page) (x : Nat) : page.heir x (some x) = page.parent? x := if_pos rfl

theorem get?_erase (page : Page) (x i : Nat) :
    (page.erase x).get? i = (page.get? (oldNumber x i)).map (page.relink x) := by
  simp only [get?, erase, List.getElem?_toArray, List.getElem?_map, List.getElem?_eraseIdx,
    oldNumber, Array.getElem?_toList]
  split <;> rfl

theorem size_erase (hx : x < page.size) : (page.erase x).size = page.size - 1 := by
  have hlength : x < page.nodes.toList.length := hx
  simp [size, erase, List.length_eraseIdx_of_lt hlength]

theorem map_bare_erase (page : Page) (x i : Nat) :
    ((page.erase x).get? i).map Node.bare = (page.get? (oldNumber x i)).map Node.bare := by
  rw [get?_erase, Option.map_map]
  rfl

theorem parent?_erase (page : Page) (x i : Nat) : (page.erase x).parent? i =
    (page.heir x (page.parent? (oldNumber x i))).map (renumber x) := by
  rw [parent?, get?_erase, parent?]
  cases page.get? (oldNumber x i) with
  | none => rfl
  | some node => rfl

theorem childrenOf_erase (page : Page) (x : Nat) (owner : Option Nat) :
    (page.erase x).childrenOf owner =
      (splice x (page.children x) (page.childrenOf (owner.map (oldNumber x)))).map
        (renumber x) := by
  cases owner with
  | none => rfl
  | some i =>
      rw [childrenOf_some, children_eq_elim, get?_erase, Option.map_some, childrenOf_some,
        children_eq_elim page (oldNumber x i)]
      cases page.get? (oldNumber x i) with
      | none => rfl
      | some node => rfl

/-- Behind the nodes of a page there is nothing to renumber. -/
theorem get?_oldNumber_size (page : Page) (i : Nat) :
    page.get? (oldNumber page.size i) = page.get? i := by
  rw [oldNumber]
  split
  next => rfl
  next hi =>
    have hle : page.size ≤ i := Nat.le_of_not_lt hi
    rw [get?_eq_none hle, get?_eq_none (Nat.le_succ_of_le hle)]

theorem childrenOf_map_oldNumber_size (page : Page) (owner : Option Nat) :
    page.childrenOf (owner.map (oldNumber page.size)) = page.childrenOf owner := by
  cases owner with
  | none => rfl
  | some i =>
      rw [Option.map_some, childrenOf_some, childrenOf_some, children_eq_elim,
        get?_oldNumber_size, ← children_eq_elim]

end Views

/-! ## Nodes that are added -/

namespace Sound

variable {page : Page} {parent owner : Option Nat} {x i : Nat}

theorem parent?_of_mem_childrenOf (h : page.Sound) (hi : i ∈ page.childrenOf owner) :
    page.parent? i = owner := by
  cases owner with
  | none => exact h.parent?_of_mem_roots hi
  | some p => exact h.parent?_of_mem_children hi

theorem lt_size_of_mem_childrenOf (h : page.Sound) (hi : i ∈ page.childrenOf owner) :
    i < page.size := by
  cases owner with
  | none => exact h.lt_size_of_mem_roots hi
  | some p => exact lt_size_of_parent? (h.parent?_of_mem_children hi)

theorem nodup_childrenOf (h : page.Sound) (owner : Option Nat) :
    (page.childrenOf owner).Nodup := by
  cases owner with
  | none => exact h.covers.pairwise_lt.imp Nat.ne_of_lt
  | some p =>
      rcases Nat.lt_or_ge p page.size with hp | hp
      · obtain ⟨stop, -, hcovers⟩ := h.exists_covers hp
        exact hcovers.pairwise_lt.imp Nat.ne_of_lt
      · rw [childrenOf_some, children_eq_nil hp]
        exact List.nodup_nil

theorem lt_size_of_heir (h : page.Sound) (hx : x < page.size)
    (hparent : ∀ p ∈ parent, p < page.size) : ∀ p ∈ page.heir x parent, p < page.size := by
  intro p hp
  unfold heir at hp
  split at hp
  · exact Nat.lt_trans (h.lt_of_parent? hp) hx
  · exact hparent p hp

theorem heir_ne (h : page.Sound) (x : Nat) (parent : Option Nat) :
    page.heir x parent ≠ some x := by
  unfold heir
  split
  · intro hself
    exact Nat.lt_irrefl x (h.lt_of_parent? hself)
  · assumption

theorem map_renumber_childrenOf (h : page.Sound) (owner : Option Nat) :
    (page.childrenOf owner).map (renumber page.size) = page.childrenOf owner := by
  rw [List.map_congr_left (g := id), List.map_id]
  intro i hi
  exact renumber_of_le (Nat.le_of_lt (h.lt_size_of_mem_childrenOf hi))

/-- A node that is deleted as soon as it is added leaves nothing behind. -/
theorem erase_push_size (h : page.Sound) (hparent : ∀ p ∈ parent, p < page.size) (node : Node) :
    (page.push node parent).erase page.size = page := by
  apply ext_views
  · intro i
    rw [map_bare_erase, map_bare_push hparent, if_neg (oldNumber_ne _ _), get?_oldNumber_size]
  · intro i
    rw [parent?_erase, parent?_push hparent, if_neg (oldNumber_ne _ _), parent?,
      get?_oldNumber_size, ← parent?]
    cases hi : page.parent? i with
    | none => rfl
    | some p =>
        have hlt := Nat.lt_trans (h.lt_of_parent? hi) (lt_size_of_parent? hi)
        have hne : some p ≠ some page.size := fun heq => Nat.ne_of_lt hlt (Option.some.inj heq)
        rw [heir_of_ne hne, Option.map_some, renumber_of_le (Nat.le_of_lt hlt)]
  · intro owner
    have hbelow : (page.push node parent).children page.size = [] := by
      have hne : parent ≠ some page.size := fun heq => Nat.lt_irrefl _ (hparent _ heq)
      rw [children_push hparent, if_neg hne, children_eq_nil (Nat.le_refl _), List.append_nil]
    have hmem : page.size ∉ page.childrenOf owner :=
      fun hmem => Nat.lt_irrefl _ (h.lt_size_of_mem_childrenOf hmem)
    rw [childrenOf_erase, hbelow, childrenOf_push hparent, childrenOf_map_oldNumber_size,
      splice_append, splice_of_notMem hmem, List.map_append, h.map_renumber_childrenOf]
    split
    · rw [splice_singleton, List.map_nil, List.append_nil]
    · exact List.append_nil _

/-- Where siblings follow each other after a node is added and another one is deleted. It is used
that the deleted node, if it is the parent of the new one, has no sibling behind it: else the new
node would come in front of that sibling. -/
theorem splice_push (h : page.Sound) (hx : x < page.size)
    (hparent : ∀ p ∈ parent, p < page.size)
    (hlast : parent = some x → (page.childrenOf (page.parent? x)).getLast? = some x)
    (howner : owner ≠ some x) (node : Node) :
    splice x ((page.push node parent).children x) ((page.push node parent).childrenOf owner) =
      splice x (page.children x) (page.childrenOf owner) ++
        if page.heir x parent = owner then [page.size] else [] := by
  have hne : page.size ≠ x := Nat.ne_of_gt hx
  rw [childrenOf_push hparent, children_push hparent]
  by_cases hbelow : parent = some x
  · subst hbelow
    rw [if_pos rfl, if_neg (Ne.symm howner), List.append_nil, heir_self]
    by_cases hsibling : page.parent? x = owner
    · subst hsibling
      obtain ⟨front, hfront⟩ := List.getLast?_eq_some_iff.mp (hlast rfl)
      have hmem : x ∉ front := by
        have hnodup := h.nodup_childrenOf (page.parent? x)
        rw [hfront] at hnodup
        intro hmem
        exact (List.nodup_append.mp hnodup).2.2 x hmem x (List.mem_singleton_self x) rfl
      rw [if_pos rfl, hfront, splice_append, splice_append, splice_of_notMem hmem,
        splice_of_notMem hmem, splice_singleton, splice_singleton, List.append_assoc]
    · have hmem : x ∉ page.childrenOf owner :=
        fun hmem => hsibling (h.parent?_of_mem_childrenOf hmem)
      rw [if_neg hsibling, splice_of_notMem hmem, splice_of_notMem hmem, List.append_nil]
  · rw [if_neg hbelow, List.append_nil, heir_of_ne hbelow, splice_append]
    congr 1
    split
    · exact splice_of_notMem (by simpa using hne.symm)
    · rfl

/-- Deleting a node and adding another one can be done in either order. Children of the deleted
node are then added under its parent. -/
theorem erase_push (h : page.Sound) (hx : x < page.size) (hparent : ∀ p ∈ parent, p < page.size)
    (hlast : parent = some x → (page.childrenOf (page.parent? x)).getLast? = some x)
    (node : Node) :
    (page.push node parent).erase x =
      (page.erase x).push node ((page.heir x parent).map (renumber x)) := by
  have hne : x ≠ page.size := Nat.ne_of_lt hx
  have hsize := size_erase hx
  have hheir : ∀ p ∈ (page.heir x parent).map (renumber x), p < (page.erase x).size := by
    intro p hp
    obtain ⟨q, hq, rfl⟩ := Option.map_eq_some_iff.mp hp
    rw [hsize]
    exact renumber_lt hx (fun heq => h.heir_ne x parent (heq ▸ hq))
      (h.lt_size_of_heir hx hparent q hq)
  have hnumber (i : Nat) : oldNumber x i = page.size ↔ i = page.size - 1 := oldNumber_eq_iff hx i
  apply ext_views
  · intro i
    simp only [map_bare_erase, map_bare_push hparent, map_bare_push hheir, hsize, hnumber]
  · intro i
    have hkept (other : Option Nat) :
        (page.push node parent).heir x other = page.heir x other := by
      rw [heir, heir, parent?_push hparent, if_neg hne]
    rw [parent?_erase, parent?_push hparent, parent?_push hheir, hkept, parent?_erase, hsize]
    simp only [hnumber]
    split <;> rfl
  · intro owner
    have howner : owner.map (oldNumber x) ≠ some x := by
      cases owner with
      | none => simp
      | some i => simpa using oldNumber_ne x i
    rw [childrenOf_erase, h.splice_push hx hparent hlast howner, childrenOf_push hheir,
      childrenOf_erase, List.map_append]
    congr 1
    simp only [map_renumber_eq_iff (h.heir_ne x parent), hsize]
    split
    · simp [renumber, hx]
    · rfl

end Sound

end Page

end PageSync

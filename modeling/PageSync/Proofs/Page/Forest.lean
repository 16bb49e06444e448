import PageSync.Proofs.Page.Cover

/-! # Pages as forests

A page is sound if its roots cover all of it and the links upwards agree with
the lists of children. Sound pages are forests whose order by number is their
preorder, and adding nodes under the innermost open box keeps pages sound.
-/

namespace PageSync

theorem Kind.isContainer_iff {kind : Kind} :
    kind.isContainer = true ↔ kind = .hbox ∨ kind = .vbox := by
  cases kind <;> decide

namespace Page

/-- What is below a node, the node included. -/
def Below (page : Page) : Nat → Nat → Prop :=
  Relation.ReflTransGen fun parent child => child ∈ page.children parent

/-- The nodes of a page form a forest, numbered in preorder. -/
structure IsForest (page : Page) : Prop where
  /-- A parent comes before its children, and is a box that may hold them. -/
  parent_lt : ∀ {i p}, page.parent? i = some p →
    p < i ∧ ∃ node, page.get? p = some node ∧ (node.kind = .hbox ∨ node.kind = .vbox)
  /-- A node with a parent is one of its children, once, and stands in no other list. -/
  child_once : ∀ {i p}, page.parent? i = some p →
    (page.children p).count i = 1 ∧ i ∉ page.roots.toList ∧ ∀ q, q ≠ p → i ∉ page.children q
  /-- A node without a parent is one of the roots, once, and stands in no other list. -/
  root_once : ∀ {i}, i < page.size → page.parent? i = none →
    page.roots.toList.count i = 1 ∧ ∀ q, i ∉ page.children q
  /-- What stands in a list of children has the owner of the list as its parent. -/
  parent?_of_mem_children : ∀ {i p}, i ∈ page.children p → page.parent? i = some p
  /-- What stands among the roots is a node without a parent. -/
  parent?_of_mem_roots : ∀ {i}, i ∈ page.roots.toList → i < page.size ∧ page.parent? i = none
  /-- The walk over the roots and their children visits the nodes by number. -/
  preorder : page.preorder?.map (List.map Prod.fst) = some (List.range page.size)
  /-- What is below a node is an interval that starts with it. -/
  interval : ∀ {i}, i < page.size →
    ∃ stop, stop ≤ page.size ∧ ∀ j, page.Below i j ↔ i ≤ j ∧ j < stop
  /-- The way up from a node goes to ever smaller numbers and ends at a root. -/
  ancestors : ∀ {i}, i < page.size → (i :: page.ancestors i).Pairwise (· > ·) ∧
    ∃ root ∈ page.roots.toList, (i :: page.ancestors i).getLast? = some root

/-- The roots cover the page, and links upwards and downwards agree. -/
structure Sound (page : Page) : Prop where
  covers : page.Covers page.roots.toList 0 page.size
  parent?_of_mem_children : ∀ {i p}, i ∈ page.children p → page.parent? i = some p
  parent?_of_mem_roots : ∀ {i}, i ∈ page.roots.toList → page.parent? i = none
  isContainer_of_parent? : ∀ {i p}, page.parent? i = some p → page.IsContainer p

variable {page : Page}

theorem below_of_mem_children {i c j : Nat} (hc : c ∈ page.children i) (hbelow : page.Below c j) :
    page.Below i j :=
  Relation.ReflTransGen.head hc hbelow

namespace Covers

variable {ids : List Nat} {first stop : Nat}

theorem exists_below (h : page.Covers ids first stop) {j : Nat} (hfirst : first ≤ j)
    (hstop : j < stop) : ∃ i ∈ ids, page.Below i j := by
  induction h with
  | nil first => omega
  | @cons id middle stop rest hchildren hrest ihchildren ihrest =>
      by_cases hid : j = id
      · exact ⟨id, List.mem_cons_self, hid ▸ Relation.ReflTransGen.refl⟩
      · rcases Nat.lt_or_ge j middle with hlt | hge
        · obtain ⟨c, hc, hbelow⟩ := ihchildren (by omega) hlt
          exact ⟨id, List.mem_cons_self, below_of_mem_children hc hbelow⟩
        · obtain ⟨i, hi, hbelow⟩ := ihrest hge hstop
          exact ⟨i, List.mem_cons_of_mem id hi, hbelow⟩

/-- If the children of a node cover an interval behind it, that interval is what is below it. -/
theorem below_iff {i : Nat} (h : page.Covers (page.children i) (i + 1) stop) (j : Nat) :
    page.Below i j ↔ i ≤ j ∧ j < stop := by
  constructor
  · intro hbelow
    induction hbelow with
    | refl => exact ⟨Nat.le_refl i, h.le⟩
    | @tail parent child _ hchild ih =>
        -- the children of a covered node cover a part of what is covered
        by_cases hparent : parent = i
        · have hbounds := h.bounds (hparent ▸ hchild)
          omega
        · obtain ⟨last, hlast, hcovers⟩ := h.exists_stop (i := parent) (by omega) ih.2
          have hbounds := hcovers.bounds hchild
          omega
  · rintro ⟨hle, hlt⟩
    by_cases hj : j = i
    · exact hj ▸ Relation.ReflTransGen.refl
    · obtain ⟨c, hc, hbelow⟩ := h.exists_below (by omega) hlt
      exact below_of_mem_children hc hbelow

/-- The walk visits the interval that a list covers and then goes on with what is pending. -/
theorem walk?_append (h : page.Covers ids first stop) (hsize : stop ≤ page.size)
    (visited : Array (Nat × Nat)) (steps depth : Nat) (pending : List (Nat × Nat)) :
    ∃ entries : List (Nat × Nat), entries.map Prod.fst = List.range' first (stop - first) ∧
      page.walk? visited (stop - first + steps) (ids.map (fun id => (id, depth)) ++ pending) =
        page.walk? (visited.appendList entries) steps pending := by
  induction h generalizing visited steps depth pending with
  | nil first => exact ⟨[], by simp, by simp⟩
  | @cons id middle stop rest hchildren hrest ihchildren ihrest =>
      have hle := hchildren.le
      have hmiddle := hrest.le
      -- the steps for the siblings behind the node are still there when its children are done
      obtain ⟨node, hget⟩ := exists_get? (show id < page.size by omega)
      have hnode : page.children id = node.children.toList := by rw [children, hget]
      obtain ⟨below, hbelow, hwalkBelow⟩ := ihchildren (by omega) (visited.push (id, depth))
        (stop - middle + steps) (depth + 1) (rest.map (fun id => (id, depth)) ++ pending)
      obtain ⟨behind, hbehind, hwalkBehind⟩ := ihrest hsize
        ((visited.push (id, depth)).appendList below) steps depth pending
      refine ⟨(id, depth) :: (below ++ behind), ?_, ?_⟩
      · have hlength : stop - id = (middle - (id + 1)) + (stop - middle) + 1 := by omega
        have hstart : middle = id + 1 + 1 * (middle - (id + 1)) := by omega
        rw [List.map_cons, List.map_append, hbelow, hbehind, hlength, List.range'_succ]
        congr 1
        rw [← List.range'_append, ← hstart]
      · have hsteps : stop - id + steps =
            middle - (id + 1) + (stop - middle + steps) + 1 := by omega
        rw [hsteps, List.map_cons, List.cons_append, walk?, hget]
        simp only [← hnode]
        rw [hwalkBelow, hwalkBehind]
        congr 1
        apply Array.ext'
        simp

end Covers

namespace Sound

theorem lt_size_of_mem_roots (h : page.Sound) {i : Nat} (hi : i ∈ page.roots.toList) :
    i < page.size :=
  (h.covers.bounds hi).2

theorem exists_covers (h : page.Sound) {i : Nat} (hi : i < page.size) :
    ∃ stop, stop ≤ page.size ∧ page.Covers (page.children i) (i + 1) stop :=
  h.covers.exists_stop (Nat.zero_le i) hi

theorem lt_of_parent? (h : page.Sound) {i p : Nat} (hparent : page.parent? i = some p) :
    p < i := by
  have hi : i < page.size := lt_size_of_parent? hparent
  rcases h.covers.mem_or_mem_children (Nat.zero_le i) hi with hroot | ⟨q, -, hq, hmem⟩
  · rw [h.parent?_of_mem_roots hroot] at hparent
    contradiction
  · have heq : q = p := by
      rw [h.parent?_of_mem_children hmem] at hparent
      exact Option.some.inj hparent
    obtain ⟨stop, -, hcovers⟩ := h.exists_covers hq
    have hbounds := hcovers.bounds hmem
    omega

theorem mem_children_of_parent? (h : page.Sound) {i p : Nat} (hparent : page.parent? i = some p) :
    i ∈ page.children p := by
  have hi : i < page.size := lt_size_of_parent? hparent
  rcases h.covers.mem_or_mem_children (Nat.zero_le i) hi with hroot | ⟨q, -, -, hmem⟩
  · rw [h.parent?_of_mem_roots hroot] at hparent
    contradiction
  · rw [h.parent?_of_mem_children hmem] at hparent
    exact Option.some.inj hparent ▸ hmem

theorem mem_roots_of_parent? (h : page.Sound) {i : Nat} (hi : i < page.size)
    (hparent : page.parent? i = none) : i ∈ page.roots.toList := by
  rcases h.covers.mem_or_mem_children (Nat.zero_le i) hi with hroot | ⟨q, -, -, hmem⟩
  · exact hroot
  · rw [h.parent?_of_mem_children hmem] at hparent
    contradiction

theorem count_children (h : page.Sound) {i p : Nat} (hmem : i ∈ page.children p) :
    (page.children p).count i = 1 := by
  have hp : p < page.size := by
    by_contra hp
    rw [children_eq_nil (Nat.le_of_not_lt hp)] at hmem
    exact absurd hmem List.not_mem_nil
  obtain ⟨stop, -, hcovers⟩ := h.exists_covers hp
  exact hcovers.count_eq_one hmem

theorem map_fst_preorder? (h : page.Sound) :
    page.preorder?.map (List.map Prod.fst) = some (List.range page.size) := by
  obtain ⟨entries, hentries, hwalk⟩ := h.covers.walk?_append (Nat.le_refl _) #[] 0 0 []
  have hdone : page.walk? (#[].appendList entries) 0 [] = some (#[].appendList entries) := by
    rw [walk?]
  rw [Nat.sub_zero, Nat.add_zero, List.append_nil, hdone] at hwalk
  rw [Nat.sub_zero] at hentries
  rw [preorder?, hwalk, Option.map_some, Option.map_some, List.range_eq_range', ← hentries]
  simp

/-- Enough steps lead from a node up to a root, through ever smaller numbers. -/
theorem chain_some (h : page.Sound) (steps : Nat) {i : Nat} (hi : i < page.size)
    (hsteps : i < steps) : (page.chain steps (some i)).Pairwise (· > ·) ∧
      (∀ a ∈ page.chain steps (some i), a ≤ i) ∧
      ∃ root ∈ page.roots.toList, (page.chain steps (some i)).getLast? = some root := by
  induction steps generalizing i with
  | zero => omega
  | succ steps ih =>
      rw [chain]
      cases hparent : page.parent? i with
      | none =>
          rw [chain_none]
          exact ⟨List.pairwise_singleton _ _, by simp, i, h.mem_roots_of_parent? hi hparent, rfl⟩
      | some p =>
          have hlt := h.lt_of_parent? hparent
          obtain ⟨hpairwise, hle, root, hroot, hlast⟩ := ih (by omega : p < page.size) (by omega)
          refine ⟨List.pairwise_cons.mpr ⟨?_, hpairwise⟩, ?_, root, hroot, ?_⟩
          · intro a ha
            have hap := hle a ha
            omega
          · rw [List.forall_mem_cons]
            refine ⟨Nat.le_refl i, ?_⟩
            intro a ha
            have hap := hle a ha
            omega
          · rw [List.getLast?_cons, hlast]
            rfl

theorem isForest (h : page.Sound) : page.IsForest where
  parent_lt hparent := by
    obtain ⟨node, hget, hkind⟩ := h.isContainer_of_parent? hparent
    exact ⟨h.lt_of_parent? hparent, node, hget, Kind.isContainer_iff.mp hkind⟩
  child_once {i p} hparent := by
    refine ⟨h.count_children (h.mem_children_of_parent? hparent), ?_, ?_⟩
    · intro hroot
      rw [h.parent?_of_mem_roots hroot] at hparent
      contradiction
    · intro q hne hmem
      rw [h.parent?_of_mem_children hmem] at hparent
      exact hne (Option.some.inj hparent)
  root_once {i} hi hparent := by
    refine ⟨h.covers.count_eq_one (h.mem_roots_of_parent? hi hparent), ?_⟩
    intro q hmem
    rw [h.parent?_of_mem_children hmem] at hparent
    contradiction
  parent?_of_mem_children := h.parent?_of_mem_children
  parent?_of_mem_roots hroot := ⟨h.lt_size_of_mem_roots hroot, h.parent?_of_mem_roots hroot⟩
  preorder := h.map_fst_preorder?
  interval hi := by
    obtain ⟨stop, hstop, hcovers⟩ := h.exists_covers hi
    exact ⟨stop, hstop, hcovers.below_iff⟩
  ancestors {i} hi := by
    obtain ⟨hpairwise, -, hend⟩ := h.chain_some (page.size + 1) hi (by omega)
    exact ⟨hpairwise, hend⟩

/-- The page without nodes is sound. -/
theorem empty : Sound {} where
  covers := .nil 0
  parent?_of_mem_children {i p} hmem := by
    rw [children_eq_nil (Nat.zero_le p)] at hmem
    exact absurd hmem List.not_mem_nil
  parent?_of_mem_roots hmem := absurd hmem List.not_mem_nil
  isContainer_of_parent? {i p} hparent := by
    rw [parent?_eq_none (Nat.zero_le i)] at hparent
    contradiction

variable {boxes : List Nat}

theorem edge_push (hedge : page.Edge page.roots.toList 0 boxes) (node : Node) :
    (page.push node boxes.getLast?).Edge (page.push node boxes.getLast?).roots.toList 0
      (boxes ++ [page.size]) := by
  have hparent : ∀ p ∈ boxes.getLast?, p < page.size :=
    fun p hp => (hedge.bounds (List.mem_of_mem_getLast? hp)).2
  have hroots : (page.push node boxes.getLast?).roots.toList =
      page.roots.toList ++ if boxes = [] then [page.size] else [] := by
    simp only [roots_push hparent, List.getLast?_eq_none_iff]
  rw [hroots]
  exact hedge.push node

/-- A node may be added under the innermost open box. -/
theorem push (h : page.Sound) (hedge : page.Edge page.roots.toList 0 boxes)
    (hboxes : ∀ box ∈ boxes, page.IsContainer box) (node : Node) :
    (page.push node boxes.getLast?).Sound := by
  have hparent : ∀ p ∈ boxes.getLast?, p < page.size :=
    fun p hp => (hedge.bounds (List.mem_of_mem_getLast? hp)).2
  refine ⟨(edge_push hedge node).covers, ?_, ?_, ?_⟩
  · intro i p hmem
    rw [children_push hparent, List.mem_append] at hmem
    rw [parent?_push hparent]
    rcases hmem with hmem | hmem
    · have hi := h.parent?_of_mem_children hmem
      rw [if_neg (Nat.ne_of_lt (lt_size_of_parent? hi)), hi]
    · split at hmem
      next heq => rw [if_pos (List.mem_singleton.mp hmem), heq]
      next => exact absurd hmem List.not_mem_nil
  · intro i hmem
    rw [roots_push hparent, List.mem_append] at hmem
    rw [parent?_push hparent]
    rcases hmem with hmem | hmem
    · rw [if_neg (Nat.ne_of_lt (h.lt_size_of_mem_roots hmem)), h.parent?_of_mem_roots hmem]
    · split at hmem
      next heq => rw [if_pos (List.mem_singleton.mp hmem), heq]
      next => exact absurd hmem List.not_mem_nil
  · intro i p hi
    rw [parent?_push hparent] at hi
    split at hi
    next => exact (hboxes p (List.mem_of_mem_getLast? hi)).push hparent node
    next => exact (h.isContainer_of_parent? hi).push hparent node

end Sound

end Page

end PageSync

import Mathlib.Data.List.Nodup
import Mathlib.Logic.Relation
import PageSync.Proofs.Page.Push

/-! # Intervals of nodes

A list of siblings covers an interval if walking them one after the other,
each before its children, visits the numbers of the interval in order. Every
subtree of a covering list covers an interval of its own, and a node can be
added without loss only at the end of the last one, below a box whose subtree
reaches the end of the page.
-/

namespace PageSync.Page

/-- Walking the numbers with everything below them visits `first`, `first + 1` and so on, up to
the one before `stop`. -/
inductive Covers (page : Page) : List Nat → Nat → Nat → Prop
  | nil (first : Nat) : Covers page [] first first
  | cons {id middle stop : Nat} {rest : List Nat}
      (hchildren : Covers page (page.children id) (id + 1) middle)
      (hrest : Covers page rest middle stop) : Covers page (id :: rest) id stop

variable {page : Page} {ids : List Nat} {first middle stop : Nat}

namespace Covers

theorem le (h : page.Covers ids first stop) : first ≤ stop := by
  induction h with
  | nil first => exact Nat.le_refl first
  | cons _ _ ihchildren ihrest => omega

theorem append {front back : List Nat} (hfront : page.Covers front first middle)
    (hback : page.Covers back middle stop) : page.Covers (front ++ back) first stop := by
  induction hfront with
  | nil first => exact hback
  | cons hchildren _ _ ihrest => exact .cons hchildren (ihrest hback)

theorem bounds (h : page.Covers ids first stop) {i : Nat} (hi : i ∈ ids) :
    first ≤ i ∧ i < stop := by
  induction h with
  | nil first => exact absurd hi List.not_mem_nil
  | @cons id middle stop rest hchildren hrest _ ihrest =>
      have hle := hchildren.le
      have hstop := hrest.le
      rcases List.mem_cons.mp hi with rfl | hi
      · omega
      · have hbounds := ihrest hi
        omega

theorem pairwise_lt (h : page.Covers ids first stop) : ids.Pairwise (· < ·) := by
  induction h with
  | nil first => exact List.Pairwise.nil
  | @cons id middle stop rest hchildren hrest _ ihrest =>
      refine List.pairwise_cons.mpr ⟨?_, ihrest⟩
      intro i hi
      have hle := hchildren.le
      have hbounds := hrest.bounds hi
      omega

theorem count_eq_one (h : page.Covers ids first stop) {i : Nat} (hi : i ∈ ids) :
    ids.count i = 1 :=
  List.count_eq_one_of_mem (h.pairwise_lt.imp Nat.ne_of_lt) hi

/-- Only the children of the covered nodes matter. -/
theorem congr {other : Page} (h : page.Covers ids first stop)
    (hsame : ∀ i, first ≤ i → i < stop → other.children i = page.children i) :
    other.Covers ids first stop := by
  induction h with
  | nil first => exact .nil first
  | @cons id middle stop rest hchildren hrest ihchildren ihrest =>
      have hle := hchildren.le
      have hstop := hrest.le
      have hbelow := ihchildren fun i hi hlt => hsame i (by omega) (by omega)
      rw [← hsame id (Nat.le_refl id) (by omega)] at hbelow
      exact .cons hbelow (ihrest fun i hi hlt => hsame i (by omega) hlt)

/-- Every covered node has a subtree that covers an interval. -/
theorem exists_stop (h : page.Covers ids first stop) {i : Nat} (hfirst : first ≤ i)
    (hstop : i < stop) : ∃ last, last ≤ stop ∧ page.Covers (page.children i) (i + 1) last := by
  induction h with
  | nil first => omega
  | @cons id middle stop rest hchildren hrest ihchildren ihrest =>
      have hle := hrest.le
      rcases Nat.lt_trichotomy i id with hlt | rfl | hlt
      · omega
      · exact ⟨middle, hle, hchildren⟩
      · rcases Nat.lt_or_ge i middle with hmiddle | hmiddle
        · obtain ⟨last, hlast, hcovers⟩ := ihchildren hlt hmiddle
          exact ⟨last, by omega, hcovers⟩
        · exact ihrest hmiddle hstop

/-- Every covered node is in the list or is a child of a covered node. -/
theorem mem_or_mem_children (h : page.Covers ids first stop) {i : Nat} (hfirst : first ≤ i)
    (hstop : i < stop) : i ∈ ids ∨ ∃ p, first ≤ p ∧ p < stop ∧ i ∈ page.children p := by
  induction h with
  | nil first => omega
  | @cons id middle stop rest hchildren hrest ihchildren ihrest =>
      have hle := hchildren.le
      have hmiddle := hrest.le
      rcases Nat.lt_or_ge i middle with hlt | hge
      · by_cases hi : i = id
        · exact Or.inl (hi ▸ List.mem_cons_self)
        · rcases ihchildren (by omega) hlt with hmem | ⟨p, hp, hplt, hmem⟩
          · exact Or.inr ⟨id, Nat.le_refl id, by omega, hmem⟩
          · exact Or.inr ⟨p, by omega, by omega, hmem⟩
      · rcases ihrest hge hstop with hmem | ⟨p, hp, hplt, hmem⟩
        · exact Or.inl (List.mem_cons_of_mem id hmem)
        · exact Or.inr ⟨p, by omega, hplt, hmem⟩

theorem push (h : page.Covers ids first stop) {parent : Option Nat}
    (hparent : ∀ p ∈ parent, p < page.size ∧ (p < first ∨ stop ≤ p)) (node : Node) :
    (page.push node parent).Covers ids first stop := by
  apply h.congr
  intro i hi hlt
  have hne : parent ≠ some i := by
    intro heq
    have hplace := (hparent i heq).2
    omega
  rw [children_push fun p hp => (hparent p hp).1, if_neg hne, List.append_nil]

end Covers

/-! ## The edge of a page -/

/-- The open boxes, outermost first, lead from the last of the given siblings down to the end of
the page: each is the last child of the one before it. -/
inductive Edge (page : Page) : List Nat → Nat → List Nat → Prop
  | closed {ids : List Nat} {first : Nat} (h : page.Covers ids first page.size) :
      Edge page ids first []
  | opened {front : List Nat} {first id : Nat} {boxes : List Nat}
      (hfront : page.Covers front first id)
      (hboxes : Edge page (page.children id) (id + 1) boxes) :
      Edge page (front ++ [id]) first (id :: boxes)

namespace Edge

variable {boxes : List Nat}

theorem covers (h : page.Edge ids first boxes) : page.Covers ids first page.size := by
  induction h with
  | closed h => exact h
  | opened hfront _ ih => exact hfront.append (.cons ih (.nil _))

theorem bounds (h : page.Edge ids first boxes) {i : Nat} (hi : i ∈ boxes) :
    first ≤ i ∧ i < page.size := by
  induction h with
  | closed h => exact absurd hi List.not_mem_nil
  | @opened front first id boxes hfront hboxes ih =>
      have hle := hfront.le
      have hsize := hboxes.covers.le
      rcases List.mem_cons.mp hi with rfl | hi
      · omega
      · have hbounds := ih hi
        omega

theorem pairwise_lt (h : page.Edge ids first boxes) : boxes.Pairwise (· < ·) := by
  induction h with
  | closed h => exact List.Pairwise.nil
  | @opened front first id boxes hfront hboxes ih =>
      refine List.pairwise_cons.mpr ⟨?_, ih⟩
      intro i hi
      have hbounds := hboxes.bounds hi
      omega

/-- The innermost open box is the last child of the one around it, or the last of the given
siblings. -/
theorem getLast?_around {outer : List Nat} {box : Nat}
    (h : page.Edge ids first (outer ++ [box])) :
    (outer.getLast?.elim ids page.children).getLast? = some box := by
  generalize hboxes : outer ++ [box] = boxes at h
  induction h generalizing outer with
  | closed h => simp at hboxes
  | @opened front first id boxes hfront hbelow ih =>
      cases outer with
      | nil =>
          obtain ⟨rfl, -⟩ := List.cons.inj hboxes
          simp
      | cons other outer =>
          obtain ⟨rfl, hrest⟩ := List.cons.inj hboxes
          have hlast := ih hrest
          cases outer with
          | nil => exact hlast
          | cons next outer => rwa [List.getLast?_cons_cons]

/-- Closing the innermost box leaves the others open. -/
theorem dropLast (h : page.Edge ids first boxes) : page.Edge ids first boxes.dropLast := by
  induction h with
  | closed h => exact .closed h
  | @opened front first id boxes hfront hboxes ih =>
      cases boxes with
      | nil => exact .closed (Edge.opened hfront hboxes).covers
      | cons box boxes => exact .opened hfront ih

theorem push_last {node : Node} {parent : Option Nat}
    (h : (page.push node parent).Covers ids first page.size)
    (hparent : ∀ p ∈ parent, p < page.size) :
    (page.push node parent).Edge (ids ++ [page.size]) first [page.size] := by
  refine .opened h (.closed ?_)
  have hne : parent ≠ some page.size := fun heq => Nat.lt_irrefl _ (hparent _ heq)
  rw [children_push hparent, if_neg hne, children_eq_nil (Nat.le_refl _), size_push]
  exact .nil _

/-- A node that is added under the innermost open box is the new end of the page. -/
theorem push (h : page.Edge ids first boxes) (node : Node) :
    (page.push node boxes.getLast?).Edge (ids ++ if boxes = [] then [page.size] else []) first
      (boxes ++ [page.size]) := by
  -- down the edge: only the innermost box gets the node, and it is the last of its siblings, so
  -- what stands in front of it and above it keeps what it covers
  induction h with
  | @closed ids first h =>
      rw [if_pos rfl]
      exact push_last (h.push (by simp) node) (by simp)
  | @opened front first id boxes hfront hboxes ih =>
      have hbelow : ∀ p ∈ (id :: boxes).getLast?, p < page.size ∧ id ≤ p := by
        intro p hp
        have hbounds := (Edge.opened hfront hboxes).bounds (List.mem_of_mem_getLast? hp)
        rcases List.mem_cons.mp (List.mem_of_mem_getLast? hp) with rfl | hmem
        · exact ⟨hbounds.2, Nat.le_refl _⟩
        · have hinner := hboxes.bounds hmem
          exact ⟨hbounds.2, by omega⟩
      have hsize : ∀ p ∈ (id :: boxes).getLast?, p < page.size := fun p hp => (hbelow p hp).1
      have hfront' := hfront.push (fun p hp => ⟨hsize p hp, Or.inr (hbelow p hp).2⟩) node
      rw [if_neg (List.cons_ne_nil id boxes), List.append_nil, List.cons_append]
      refine .opened hfront' ?_
      rw [children_push hsize]
      cases boxes with
      | nil =>
          have hbefore : ∀ p ∈ [id].getLast?, p < page.size ∧ (p < id + 1 ∨ page.size ≤ p) := by
            intro p hp
            have hid : p = id := by simpa using hp.symm
            exact ⟨hsize p hp, Or.inl (by omega)⟩
          rw [if_pos List.getLast?_singleton]
          exact push_last (hboxes.covers.push hbefore node) hsize
      | cons box boxes =>
          have hne : (id :: box :: boxes).getLast? ≠ some id := by
            intro heq
            have hmem : id ∈ box :: boxes := by
              rw [List.getLast?_cons_cons] at heq
              exact List.mem_of_mem_getLast? heq
            have hbounds := hboxes.bounds hmem
            omega
          rw [if_neg hne, List.getLast?_cons_cons]
          rwa [if_neg (List.cons_ne_nil box boxes)] at ih

end Edge

end PageSync.Page

import PageSync.Proofs.Index.Forest
import PageSync.Proofs.Stream.Part

/-! # Growing indexes

An index only grows while events are added. Pages stay, nodes keep their
numbers and all they say but may get further children, and what is listed for
a source line stays in front. So what the first lines of a document say about
a page or a line holds in the whole document, whatever the other lines are.
-/

namespace PageSync

/-- The later page has the nodes and roots of the page in front of its own. A node is the same on
both, except that it may have got further children behind those it had. -/
structure Page.GrowsTo (page later : Page) : Prop where
  node : ∀ {i node}, page.get? i = some node → ∃ children,
    node.children.toList <+: children.toList ∧
      later.get? i = some { node with children := children }
  roots : page.roots.toList <+: later.roots.toList

/-- The later index has all pages, possibly grown, and behind the nodes of a line only more. -/
structure Index.GrowsTo (index later : Index) : Prop where
  page : ∀ {number page}, index.page? number = some page →
    ∃ grown, later.page? number = some grown ∧ page.GrowsTo grown
  friends : ∀ input line, index.friends input line <+: later.friends input line

namespace Page.GrowsTo

variable {page middle later : Page}

theorem refl (page : Page) : page.GrowsTo page where
  node hget := ⟨_, List.prefix_rfl, hget⟩
  roots := List.prefix_rfl

theorem trans (h : page.GrowsTo middle) (hlater : middle.GrowsTo later) : page.GrowsTo later where
  node {i node} hget := by
    obtain ⟨children, hchildren, hmiddle⟩ := h.node hget
    obtain ⟨more, hmore, hget⟩ := hlater.node hmiddle
    exact ⟨more, hchildren.trans hmore, hget⟩
  roots := h.roots.trans hlater.roots

theorem push {parent : Option Nat} (hparent : ∀ p ∈ parent, p < page.size) (node : Node) :
    page.GrowsTo (page.push node parent) where
  node {i old} hget := by
    have hi : i ≠ page.size := Nat.ne_of_lt (lt_size_of_get? hget)
    rw [get?_push hparent, if_neg hi, hget, Option.map_some]
    by_cases hchild : parent = some i
    · rw [if_pos hchild]
      refine ⟨old.children.push page.size, ?_, rfl⟩
      rw [Array.toList_push]
      exact List.prefix_append _ _
    · rw [if_neg hchild]
      exact ⟨old.children, List.prefix_rfl, rfl⟩
  roots := by
    rw [roots_push hparent]
    exact List.prefix_append _ _

end Page.GrowsTo

namespace Index.GrowsTo

variable {index middle later : Index}

theorem refl (index : Index) : index.GrowsTo index where
  page hpage := ⟨_, hpage, .refl _⟩
  friends _ _ := List.prefix_rfl

theorem trans (h : index.GrowsTo middle) (hlater : middle.GrowsTo later) :
    index.GrowsTo later where
  page {number page} hpage := by
    obtain ⟨grown, hgrown, hpage⟩ := h.page hpage
    obtain ⟨last, hlast, hlater⟩ := hlater.page hgrown
    exact ⟨last, hlast, hpage.trans hlater⟩
  friends input line := (h.friends input line).trans (hlater.friends input line)

end Index.GrowsTo

namespace Draft

/-- One more event makes the index of a draft grow. -/
theorem Sound.growsTo_add {draft : Draft} (h : draft.Sound) (event : Event) :
    draft.index.GrowsTo (draft.add event).index := by
  cases hrecorded : draft.recorded? event with
  | none =>
      refine ⟨fun {number page} hpage => ⟨page, ?_, .refl page⟩, fun input line => ?_⟩
      · rw [page?_add_of_none hrecorded, hpage, Index.pageAt_of_page? hpage, ite_self]
      · rw [friends_add_of_none hrecorded]
  | some placed =>
      obtain ⟨page, record⟩ := placed
      refine ⟨fun {number nodes} hpage => ?_, fun input line => ?_⟩
      · rw [page?_add_of_some hrecorded]
        split
        next hnumber =>
          have hopen := (recorded?_eq_some.mp hrecorded).2
          have hparent := h.lt_size_of_parent? hopen
          rw [hnumber, Index.pageAt_of_page? hpage] at hparent
          rw [Index.pageAt_of_page? hpage]
          exact ⟨_, rfl, .push hparent _⟩
        next => exact ⟨nodes, hpage, .refl nodes⟩
      · rw [friends_add_of_some hrecorded]
        exact List.prefix_append _ _

/-- Further events make the index grow, whatever they are. -/
theorem growsTo_ofEvents (root : Option String) (events more : List Event) :
    (ofEvents root events).index.GrowsTo (ofEvents root (events ++ more)).index := by
  induction more using List.reverseRecOn with
  | nil =>
      rw [List.append_nil]
      exact .refl _
  | append_singleton more event ih =>
      rw [← List.append_assoc, ofEvents_append_singleton]
      exact ih.trans ((sound_ofEvents root _).growsTo_add event)

end Draft

namespace Index

/-- The index of the first lines of a document grows to that of the whole document. -/
theorem growsTo_ofDocument (root : Option String) {text : List UInt8} (htext : Text.WholeLines text)
    (more : List UInt8) : (ofDocument root text).GrowsTo (ofDocument root (text ++ more)) := by
  rw [ofDocument, ofDocument, Document.events_append htext]
  exact Draft.growsTo_ofEvents root _ _

/-- A document that ends inside a box. The rest ends the box and one that is not open, declares the
input again, opens the page once more and has a line that cannot be read. -/
theorem growsTo_ofDocument_reopened :
    let text := Text.Utf8.encode "Input:1:a\nContent:\n\x7b1\n[1,7:0,0:9,9,0\nk1,7:1,1\n"
    let more := Text.Utf8.encode "g1,7:2,2\n]\n]\nInput:1:b\n(1,7:0,\n\x7b1\n(1,7:0,0:5\n"
    let index := ofDocument none text
    let later := ofDocument none (text ++ more)
    Text.WholeLines text ∧ index.GrowsTo later ∧ index.friends 1 7 = [⟨1, 0⟩, ⟨1, 1⟩] ∧
      later.friends 1 7 = [⟨1, 0⟩, ⟨1, 1⟩, ⟨1, 2⟩, ⟨1, 3⟩] ∧
      (index.pageAt 1).children 0 = [1] ∧ (later.pageAt 1).children 0 = [1, 2] := by
  intro text more index later
  have htext : Text.WholeLines text := by decide +kernel
  exact ⟨htext, growsTo_ofDocument none htext more, by decide +kernel, by decide +kernel,
    by decide +kernel, by decide +kernel⟩

end Index

end PageSync

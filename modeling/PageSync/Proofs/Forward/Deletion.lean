import PageSync.Proofs.Forward.Search
import PageSync.Proofs.Index.Deletion
import PageSync.Proofs.Page.Leaf

/-! # Searches without a record of another line

A search from a line of a file looks at the nodes of one line and at the boxes
around them. A record of another line that holds no other nodes is neither, so
the search comes to the same region without it. Only the numbers of the nodes
behind it differ, and every step of the search goes along with that.
-/

namespace PageSync

open Text

/-- Elements that are told apart before and after are listed once in the same way. -/
theorem eraseDups_map {α β : Type} [BEq α] [LawfulBEq α] [BEq β] [LawfulBEq β] {f : α → β}
    {l : List α} (hf : ∀ a ∈ l, ∀ b ∈ l, f a = f b → a = b) :
    (l.map f).eraseDups = l.eraseDups.map f := by
  -- not by the list itself: what is listed once is taken out of all the rest
  induction hlength : l.length using Nat.strongRecOn generalizing l with
  | ind length ih =>
      cases l with
      | nil => rfl
      | cons a rest =>
          have hkept : (rest.map f).filter (fun b => !b == f a) =
              (rest.filter fun b => !b == a).map f := by
            rw [List.filter_map]
            congr 1
            apply List.filter_congr
            intro b hb
            have heq : f b = f a ↔ b = a :=
              ⟨hf b (List.mem_cons_of_mem a hb) a List.mem_cons_self, congrArg f⟩
            simp [heq]
          have hlt : (rest.filter fun b => !b == a).length < length := by
            have hle := List.length_filter_le (fun b => !b == a) rest
            rw [List.length_cons] at hlength
            omega
          have hrest : ∀ b ∈ rest.filter (fun b => !b == a), b ∈ a :: rest :=
            fun b hb => List.mem_cons_of_mem a (List.mem_of_mem_filter hb)
          rw [List.map_cons, List.eraseDups_cons, List.eraseDups_cons, List.map_cons, hkept,
            ih _ hlt (fun b hb c hc => hf b (hrest b hb) c (hrest c hc)) rfl]

namespace Region

/-- A region depends on where its nodes lie, not on how they are linked. -/
theorem ofNodes?_map {f : Node → Node} (hf : ∀ node, (f node).bare = node.bare)
    (settings : Settings) (number : UInt32) (nodes : List Node) :
    ofNodes? settings number (nodes.map f) = ofNodes? settings number nodes := by
  -- no part of a region is read off the links of a node
  have hbare {α : Type} (get : Node → α) (hget : ∀ node, get node.bare = get node) (node : Node) :
      get (f node) = get node := by
    rw [← hget, hf, hget]
  have hof := hbare Bounds.ofNode fun _ => rfl
  have hadd (bounds : Bounds) := hbare bounds.add fun _ => rfl
  have hv := hbare Node.v fun _ => rfl
  cases nodes with
  | nil => rfl
  | cons first rest =>
      simp only [List.map_cons, ofNodes?, List.foldl_map, hof, hadd, hv]

end Region

namespace Page.IsLeaf

variable {page : Page} {x i : Nat} {ids : List Nat}

theorem enclosingHbox?_erase (h : page.IsLeaf x) (hsound : page.Sound)
    (herased : (page.erase x).Sound) (hi : i ≠ x) :
    (page.erase x).enclosingHbox? (renumber x i) =
      (page.enclosingHbox? i).map (renumber x) := by
  rw [enclosingHbox?, enclosingHbox?, get?_erase_renumber page hi,
    h.ancestorWhere?_erase (fun _ => rfl) hsound herased hi]
  cases page.get? i with
  | none => rfl
  | some node =>
      simp only [Option.map_some, relink]
      split
      · rfl
      · rfl

theorem enclosingHboxes_erase (h : page.IsLeaf x) (hsound : page.Sound)
    (herased : (page.erase x).Sound) (hids : x ∉ ids) :
    (page.erase x).enclosingHboxes (ids.map (renumber x)) =
      (page.enclosingHboxes ids).map (renumber x) := by
  have hboxes : (ids.map (renumber x)).filterMap (page.erase x).enclosingHbox? =
      (ids.filterMap page.enclosingHbox?).map (renumber x) := by
    rw [List.filterMap_map, List.map_filterMap]
    apply List.filterMap_congr
    intro i hi
    exact h.enclosingHbox?_erase hsound herased (ne_of_mem_of_not_mem hi hids)
  have hne : ∀ box ∈ ids.filterMap page.enclosingHbox?, box ≠ x := by
    intro box hbox
    obtain ⟨i, -, hi⟩ := List.mem_filterMap.mp hbox
    exact h.ne_of_mem_ancestors hsound (mem_ancestors_of_enclosingHbox? hi)
  rw [enclosingHboxes, enclosingHboxes, hboxes]
  exact eraseDups_map fun a ha b hb => (renumber_injOn (hne a ha) (hne b hb)).mp

theorem withKind_erase (page : Page) (accept : Kind → Bool) (hids : x ∉ ids) :
    (page.erase x).withKind accept (ids.map (renumber x)) =
      (page.withKind accept ids).map (renumber x) := by
  rw [withKind, withKind, List.filter_map]
  congr 1
  apply List.filter_congr
  intro i hi
  exact any_get?_erase (fun _ => rfl) (ne_of_mem_of_not_mem hi hids)

/-- The same nodes are selected, by their new numbers. -/
theorem select_erase (h : page.IsLeaf x) (hsound : page.Sound) (herased : (page.erase x).Sound)
    (hids : x ∉ ids) :
    (page.erase x).select (ids.map (renumber x)) = (page.select ids).map (renumber x) := by
  simp only [select, h.enclosingHboxes_erase hsound herased hids, withKind_erase page _ hids,
    List.isEmpty_map]
  split_ifs <;> rfl

theorem notMem_select (h : page.IsLeaf x) (hsound : page.Sound) (hids : x ∉ ids) :
    x ∉ page.select ids := by
  intro hx
  rcases mem_or_mem_ancestors_of_mem_select hx with hx | ⟨leaf, -, hx⟩
  · exact hids hx
  · exact h.ne_of_mem_ancestors hsound hx rfl

/-- The nodes that are selected lie where they lay. -/
theorem ofNodes?_select_erase (h : page.IsLeaf x) (hsound : page.Sound)
    (herased : (page.erase x).Sound) (hids : x ∉ ids) (settings : Settings) (number : UInt32) :
    Region.ofNodes? settings number
        (((page.erase x).select (ids.map (renumber x))).filterMap (page.erase x).get?) =
      Region.ofNodes? settings number ((page.select ids).filterMap page.get?) := by
  have hnodes : ((page.select ids).map (renumber x)).filterMap (page.erase x).get? =
      ((page.select ids).filterMap page.get?).map (page.relink x) := by
    rw [List.filterMap_map, List.map_filterMap]
    apply List.filterMap_congr
    intro i hi
    exact get?_erase_renumber page (ne_of_mem_of_not_mem hi (h.notMem_select hsound hids))
  rw [h.select_erase hsound herased hids, hnodes]
  exact Region.ofNodes?_map (f := page.relink x) (fun _ => rfl) settings number _

end Page.IsLeaf

namespace NodeRef

variable {deleted : NodeRef} {refs : List NodeRef}

@[simp]
theorem page_renumber (deleted ref : NodeRef) : (renumber deleted ref).page = ref.page := by
  rw [renumber]
  split
  · rfl
  · rfl

theorem without_of_notMem (h : deleted ∉ refs) :
    without deleted refs = refs.map (renumber deleted) := by
  rw [without, List.filter_eq_self.mpr]
  intro ref href
  rw [bne_iff_ne]
  exact ne_of_mem_of_not_mem href h

theorem onPage_map_renumber (deleted : NodeRef) (number : UInt32) (refs : List NodeRef) :
    Index.onPage number (refs.map (renumber deleted)) =
      if number = deleted.page then (Index.onPage number refs).map (Page.renumber deleted.id)
      else Index.onPage number refs := by
  have hkept : ((fun ref : NodeRef => ref.page == number) ∘ renumber deleted) =
      fun ref => ref.page == number := by
    funext ref
    rw [Function.comp_apply, page_renumber]
  rw [Index.onPage, List.filter_map, hkept, List.map_map, Index.onPage]
  split
  next hnumber =>
    rw [List.map_map]
    apply List.map_congr_left
    intro ref href
    have hpage : ref.page = number := beq_iff_eq.mp (List.mem_filter.mp href).2
    simp [renumber, hpage, hnumber]
  next hnumber =>
    apply List.map_congr_left
    intro ref href
    have hpage : ref.page = number := beq_iff_eq.mp (List.mem_filter.mp href).2
    simp [renumber, hpage, hnumber]

end NodeRef

namespace Index.Erases

variable {index other : Index} {deleted : NodeRef} {settings : Settings}
  {input line found maxOffset : UInt32} {n distance : Nat} {refs : List NodeRef}

/-! ## The nearest line -/

theorem recordedAt?_eq_none (h : index.Erases deleted other)
    (hnone : index.recordedAt? input n = none) : other.recordedAt? input n = none := by
  rw [recordedAt?_eq_none_iff] at hnone ⊢
  intro line hline hpos
  rw [h.friends, hnone line hline hpos]
  rfl

theorem recordedAt?_eq_some (h : index.Erases deleted other) (hrefs : deleted ∉ refs)
    (hfound : index.recordedAt? input n = some (found, refs)) :
    other.recordedAt? input n = some (found, deleted.without refs) := by
  rw [recordedAt?_eq_some_iff] at hfound ⊢
  obtain ⟨hline, hpos, rfl, hne⟩ := hfound
  refine ⟨hline, hpos, h.friends input found, ?_⟩
  rw [NodeRef.without_of_notMem hrefs]
  simpa using hne

theorem recordedNear?_eq_none (h : index.Erases deleted other)
    (hnone : index.recordedNear? input n distance = none) :
    other.recordedNear? input n distance = none := by
  rw [recordedNear?, Option.or_eq_none_iff] at hnone ⊢
  refine ⟨h.recordedAt?_eq_none hnone.1, ?_⟩
  split_ifs with hlt
  · rw [if_pos hlt] at hnone
    exact h.recordedAt?_eq_none hnone.2
  · rfl

theorem recordedNear?_eq_some (h : index.Erases deleted other) (hrefs : deleted ∉ refs)
    (hfound : index.recordedNear? input n distance = some (found, refs)) :
    other.recordedNear? input n distance = some (found, deleted.without refs) := by
  rw [recordedNear?, Option.or_eq_some_iff] at hfound ⊢
  rcases hfound with hbelow | ⟨hnone, habove⟩
  · exact Or.inl (h.recordedAt?_eq_some hrefs hbelow)
  · rw [Option.ite_none_right_eq_some] at habove ⊢
    exact Or.inr ⟨h.recordedAt?_eq_none hnone, habove.1,
      h.recordedAt?_eq_some hrefs habove.2⟩

theorem nearestLine?_eq_none (h : index.Erases deleted other)
    (hnone : index.nearestLine? input line maxOffset = none) :
    other.nearestLine? input line maxOffset = none := by
  rw [nearestLine?_eq_probe?, probe?_eq_none_iff] at hnone ⊢
  exact fun distance hle hlt => h.recordedNear?_eq_none (hnone distance hle hlt)

/-- Lines that are nearer had no records and get none, so the same line is used. -/
theorem nearestLine?_eq_some (h : index.Erases deleted other) (hrefs : deleted ∉ refs)
    (hfound : index.nearestLine? input line maxOffset = some (found, refs)) :
    other.nearestLine? input line maxOffset = some (found, deleted.without refs) := by
  rw [nearestLine?_eq_probe?, probe?_eq_some_iff] at hfound ⊢
  obtain ⟨distance, hle, hlt, hfound, hnearer⟩ := hfound
  exact ⟨distance, hle, hlt, h.recordedNear?_eq_some hrefs hfound,
    fun nearer hge hlt => h.recordedNear?_eq_none (hnearer nearer hge hlt)⟩

/-! ## The region -/

/-- The nodes of a line lead to the same region if the deleted node is none of them. -/
theorem region_matchLine (h : index.Erases deleted other)
    (hleaf : ∀ {page}, index.page? deleted.page = some page → page.IsLeaf deleted.id)
    (hsound : ∀ {number page}, index.page? number = some page → page.Sound)
    (herased : ∀ {number page}, other.page? number = some page → page.Sound)
    (hrefs : deleted ∉ refs) :
    (other.matchLine settings found (deleted.without refs)).region =
      (index.matchLine settings found refs).region := by
  rw [NodeRef.without_of_notMem hrefs]
  cases refs with
  | nil => rfl
  | cons first rest =>
      have hother := h.page first.page
      cases hpage : index.page? first.page with
      | none =>
          rw [hpage, Option.map_none] at hother
          simp [matchLine, hpage, hother]
      | some page =>
          rw [hpage, Option.map_some] at hother
          have hids := NodeRef.onPage_map_renumber deleted first.page (first :: rest)
          rw [List.map_cons] at hids ⊢
          -- the first node is on the same page as before, so the same nodes of the line count
          rw [matchLine_cons hpage, matchLine_cons (by rw [NodeRef.page_renumber, hother]),
            NodeRef.page_renumber, hids]
          have hpageSound := hsound hpage
          have hotherSound := herased hother
          rw [NodeRef.eraseFrom] at hotherSound ⊢
          by_cases hnumber : first.page = deleted.page
          · have hids : deleted.id ∉ onPage first.page (first :: rest) := by
              intro hmem
              obtain ⟨ref, href, hid⟩ := List.mem_map.mp hmem
              obtain ⟨href, hpage⟩ := List.mem_filter.mp href
              rw [beq_iff_eq, hnumber] at hpage
              have hdeleted : ref = deleted := calc
                ref = ⟨ref.page, ref.id⟩ := rfl
                _ = deleted := by rw [hpage, hid]
              exact hrefs (hdeleted ▸ href)
            rw [if_pos hnumber] at hotherSound
            rw [if_pos hnumber, if_pos hnumber]
            exact (hleaf (hnumber ▸ hpage)).ofNodes?_select_erase hpageSound hotherSound hids
              settings first.page
          · rw [if_neg hnumber, if_neg hnumber]

end Index.Erases

namespace Index

variable {root : Option String} {text otherText : List UInt8} {settings : Settings} {file : String}
  {line : UInt32} {deleted : NodeRef} {node : Node}

/-- A search from a line comes to the same region when a node is deleted that holds no others, and
is none of the nodes of the line that the search used. -/
theorem forward?_of_erases (h : (ofDocument root text).Erases deleted (ofDocument root otherText))
    (hnode : (ofDocument root text).node? deleted = some node)
    (hleaf : node.kind.isContainer = false)
    (hother : ∀ tag found, (ofDocument root text).inputs.resolve? file = some tag →
      (ofDocument root text).forward settings file line = .found found →
      node.location ≠ ⟨tag, found.line⟩) :
    (ofDocument root otherText).forward? settings file line =
      (ofDocument root text).forward? settings file line := by
  rw [forward?, forward?]
  unfold forward at hother ⊢
  rw [h.inputs]
  cases htag : (ofDocument root text).inputs.resolve? file with
  | none => rfl
  | some tag =>
      simp only [htag] at hother ⊢
      cases hnearest : (ofDocument root text).nearestLine? tag line settings.maxLineOffset with
      | none => rw [h.nearestLine?_eq_none hnearest]
      | some nearest =>
          obtain ⟨found, refs⟩ := nearest
          obtain ⟨-, hpos, rfl, -⟩ := dist_of_nearestLine? hnearest
          simp only [hnearest] at hother
          -- all nodes of the line that is used lie there, and the deleted one does not
          have hdeleted : deleted ∉ (ofDocument root text).friends tag found := by
            intro hmem
            obtain ⟨other, hget, hlocation⟩ := (mem_friends_iff root _ hpos deleted).mp hmem
            obtain rfl : node = other := Option.some.inj (hnode.symm.trans hget)
            refine hother tag _ rfl rfl ?_
            rw [line_matchLine, hlocation]
          simp only [h.nearestLine?_eq_some hdeleted hnearest, ForwardResult.region?]
          refine h.region_matchLine (fun {page} hpage => ?_)
            (fun {number page} => Draft.page_sound_ofEvents)
            (fun {number page} => Draft.page_sound_ofEvents) hdeleted
          rw [node?, hpage, Option.bind_some] at hnode
          exact (Draft.page_sound_ofEvents hpage).isLeaf hnode hleaf

/-- A search from a line of a file is not disturbed by other lines' records that hold no other
nodes. If the line of such a record is left out of a document, wherever it stands, the region is
the same, unless the record is one of the line that the search used. -/
theorem forward?_without_leaf (root : Option String) {before body after : List UInt8}
    {first : UInt8} {kind : Kind} {record : Record}
    (hline : IsLine before (first :: body) after) (hkind : Kind.ofByte? first = some kind)
    (hleaf : kind.isContainer = false) (hbody : Record.parse? kind (chomp body) = some record)
    (settings : Settings) (file : String) (line : UInt32)
    (hother : ∀ tag found,
      (ofDocument root (before ++ (first :: body) ++ after)).inputs.resolve? file = some tag →
      (ofDocument root (before ++ (first :: body) ++ after)).forward settings file line =
        .found found →
      (record.input, record.line) ≠ (tag, found.line)) :
    (ofDocument root (before ++ after.tail)).forward? settings file line =
      (ofDocument root (before ++ (first :: body) ++ after)).forward? settings file line := by
  rcases eq_or_erases_of_leaf root hline hkind hleaf hbody with hsame | hdeleted
  · rw [hsame]
  · obtain ⟨deleted, node, herases, hnode, rfl, hlocation⟩ := hdeleted
    refine forward?_of_erases herases hnode hleaf fun tag found htag hfound heq => ?_
    rw [hlocation] at heq
    obtain ⟨hinput, hline⟩ := Location.mk.inj heq
    exact hother tag found htag hfound (Prod.ext hinput hline)

/-- The kern of line 7 is left out. The glue that a search from line 4 uses moves up by that. -/
theorem forward?_without_leaf_renumbered :
    let before := Utf8.encode "Input:1:a\nContent:\n\x7b1\n(1,2:0,0:9,9,0\n"
    let body := Utf8.encode "1,7:1,1:1"
    let after := Utf8.encode "\ng1,5:2,2\n)\n\x7d1\n"
    let index := ofDocument none (before ++ (107 :: body) ++ after)
    let other := ofDocument none (before ++ after.tail)
    (IsLine before (107 :: body) after ∧ Kind.ofByte? 107 = some .kern ∧
      Kind.kern.isContainer = false ∧
      Record.parse? .kern (chomp body) = some ⟨.kern, 1, 7, none, 1, 1, some ⟨1, none, none⟩⟩ ∧
      ∀ tag found, index.inputs.resolve? "a" = some tag →
        index.forward {} "a" 4 = .found found → ((1, 7) : UInt32 × UInt32) ≠ (tag, found.line)) ∧
      index.friends 1 5 = [⟨1, 2⟩] ∧ other.friends 1 5 = [⟨1, 1⟩] ∧
      (index.forward? {} "a" 4).isSome = true ∧
      other.forward? {} "a" 4 = index.forward? {} "a" 4 := by
  intro before body after index other
  have hline : IsLine before (107 :: body) after :=
    ⟨by decide +kernel, by decide +kernel, Or.inr (by decide +kernel)⟩
  have hbody : Record.parse? .kern (chomp body) =
      some ⟨.kern, 1, 7, none, 1, 1, some ⟨1, none, none⟩⟩ := by decide +kernel
  have hinput : index.inputs.resolve? "a" = some 1 := by decide +kernel
  have hnear : (index.nearestLine? 1 4 3).map Prod.fst = some 5 := by decide +kernel
  have hother : ∀ tag found, index.inputs.resolve? "a" = some tag →
      index.forward {} "a" 4 = .found found → ((1, 7) : UInt32 × UInt32) ≠ (tag, found.line) := by
    intro tag found htag hfound heq
    obtain ⟨⟨_, refs⟩, hnearest, rfl⟩ := Option.map_eq_some_iff.mp hnear
    have hmatch : index.forward {} "a" 4 = .found (index.matchLine {} 5 refs) := by
      simp only [forward, hinput, hnearest]
    rw [hmatch] at hfound
    rw [← ForwardResult.found.inj hfound, line_matchLine] at heq
    exact absurd (Prod.mk.inj heq).2 (by decide)
  exact ⟨⟨hline, rfl, rfl, hbody, hother⟩, by decide +kernel, by decide +kernel, by decide +kernel,
    forward?_without_leaf none hline rfl rfl hbody {} "a" 4 hother⟩

end Index

end PageSync

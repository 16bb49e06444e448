import PageSync.Inverse.Search
import PageSync.Proofs.Index.Friends
import PageSync.Proofs.Inverse.Siblings

/-! # Answers of a search from a point

Whatever a document says and wherever the point lies, a search from a point
ends, and it has an answer as soon as the page has a node. The answer belongs
to the branch of the start: to the start itself, to a node below it or to one
above it. It is without a line only if the box where the search ended, its
children and the boxes around it are.
-/

namespace PageSync

namespace Page

/-- The numbers that a search can come by: those of the list of nodes, the roots, and the links
of nodes that it has come to. -/
inductive Reached (page : Page) : Nat → Prop
  | listed {i : Nat} (hi : i < page.size) : Reached page i
  | root {i : Nat} (hi : i ∈ page.roots.toList) : Reached page i
  | child {i c : Nat} (hi : Reached page i) (hc : c ∈ page.children i) : Reached page c
  | parent {i p : Nat} (hi : Reached page i) (hp : page.parent? i = some p) : Reached page p

/-- Searches on the page end, and every number that they come by stands for a node. -/
structure SearchEnds (page : Page) (point : Point) (kernBias : Float) : Prop where
  reached : ∀ {i}, page.Reached i → ∃ node, page.get? i = some node
  /-- No child is passed over for want of a node. -/
  children : ∀ i, (page.childEntries i).map Prod.fst = page.children i
  /-- The walk over the page visits every node once. -/
  walk : ∃ placed, page.placed? = some placed ∧ placed.map Placed.id = List.range page.size
  /-- No descent goes on for ever. -/
  descent : WellFounded fun next here => page.descendStep? point here = some next
  /-- The descent from a node ends at a node from which no step leads on. -/
  descend : ∀ {i}, i < page.size → ∃ last < page.size, page.descend? point i = some last ∧
    page.Descends point i last ∧ page.descendStep? point last = none
  /-- The search inside boxes does not go on for ever. -/
  reenter : WellFounded fun child box => page.Reenters point.x kernBias box child
  /-- The search inside a box ends with the answer for a box that it does not leave. -/
  resolve : ∀ {box}, box < page.size → ∃ last < page.size,
    Relation.ReflTransGen (page.Reenters point.x kernBias) box last ∧
    (∀ child, ¬ page.Reenters point.x kernBias last child) ∧
    ∃ location, page.sourceIn? point kernBias box = some location ∧
      page.sourceIn? point kernBias last = some location

/-- Where a search ends: in its start if that has no children, and else in the box that it comes to
inside the box below its descent and does not leave. -/
inductive SearchEndsIn (page : Page) (point : Point) (kernBias : Float) (start : Nat) : Nat → Prop
  | start (hleaf : page.children start = []) : SearchEndsIn page point kernBias start start
  | inside {box last : Nat} (hfilled : page.children start ≠ [])
      (hdescend : page.descend? point start = some box)
      (hlast : Relation.ReflTransGen (page.Reenters point.x kernBias) box last)
      (hstop : ∀ child, ¬ page.Reenters point.x kernBias last child) :
      SearchEndsIn page point kernBias start last

variable {page : Page} {point : Point} {kernBias : Float} {start last other : Nat}

theorem SearchEndsIn.unique (h : page.SearchEndsIn point kernBias start last)
    (hother : page.SearchEndsIn point kernBias start other) : last = other := by
  cases h with
  | start hleaf =>
      cases hother with
      | start => rfl
      | inside hfilled => exact absurd hleaf hfilled
  | inside hfilled hdescend hlast hstop =>
      cases hother with
      | start hleaf => exact absurd hleaf hfilled
      | inside _ hdescend' hlast' hstop' =>
          rw [hdescend] at hdescend'
          obtain rfl := Option.some.inj hdescend'
          exact eq_of_not_reenters hlast hstop hlast' hstop'

namespace Sound

theorem exists_get?_of_reached (h : page.Sound) {i : Nat} (hi : page.Reached i) :
    ∃ node, page.get? i = some node := by
  apply exists_get?
  induction hi with
  | listed hi => exact hi
  | root hi => exact h.lt_size_of_mem_roots hi
  | child _ hc _ => exact (h.lt_of_mem_children hc).2
  | parent _ hp ih => exact Nat.lt_trans (h.lt_of_parent? hp) ih

theorem exists_sourceIn? (h : page.Sound) (point : Point) (kernBias : Float) {box : Nat}
    (hbox : box < page.size) : ∃ last < page.size, ∃ location,
      Relation.ReflTransGen (page.Reenters point.x kernBias) box last ∧
      (∀ child, ¬ page.Reenters point.x kernBias last child) ∧
      page.sourceIn? point kernBias box = some location ∧
      page.sourceIn? point kernBias last = some location ∧
      page.Answers (page.family last) location := by
  obtain ⟨last, hlast, hend, hsource⟩ := h.exists_reenters_end point kernBias box
  have hsize : last < page.size := h.lt_size_of_below hbox (below_of_reenters hlast)
  obtain ⟨location, hlocation, hanswers⟩ := h.exists_sourceIn?_of_not_reenters hsize hend
  exact ⟨last, hsize, location, hlast, hend, hsource.trans hlocation, hlocation, hanswers⟩

theorem searchEnds (h : page.Sound) (point : Point) (kernBias : Float) :
    page.SearchEnds point kernBias where
  reached := h.exists_get?_of_reached
  children := h.map_fst_childEntries
  walk := h.exists_placed?
  descent := h.wellFounded_descendStep? point
  descend {i} hi := by
    obtain ⟨last, hlast, hdescends, hend⟩ := h.exists_descend? point i
    exact ⟨last, h.lt_size_of_below hi hdescends.below, hlast, hdescends, hend⟩
  reenter := h.wellFounded_reenters point.x kernBias
  resolve hbox := by
    obtain ⟨last, hsize, location, hlast, hend, hsource, hlocation, -⟩ :=
      h.exists_sourceIn? point kernBias hbox
    exact ⟨last, hsize, hlast, hend, location, hsource, hlocation⟩

/-- The search has an answer, which the box where it ends accounts for. -/
theorem exists_locate? (h : page.Sound) (hstart : page.start? point = some start)
    (kernBias : Float) : ∃ last location, page.SearchEndsIn point kernBias start last ∧
      page.Below start last ∧ page.locate? point kernBias = some location ∧
      page.Answers (page.family last) location := by
  obtain ⟨node, hget⟩ := exists_get?_of_start? hstart
  have hsize := lt_size_of_get? hget
  cases hchildren : page.children start with
  | nil =>
      obtain ⟨location, hsource, hanswers⟩ := h.exists_source? hsize
      refine ⟨start, location, .start hchildren, Relation.ReflTransGen.refl, ?_,
        hanswers.append_children ?_⟩
      · simpa [locate?, hstart, hchildren] using hsource
      · intro c hc
        rw [hchildren] at hc
        exact absurd hc List.not_mem_nil
  | cons child rest =>
      have hfilled : page.children start ≠ [] := by simp [hchildren]
      obtain ⟨box, hbox, hdescends, -⟩ := h.exists_descend? point start
      have hsizeBox := h.lt_size_of_below hsize hdescends.below
      obtain ⟨last, -, location, hlast, hstop, hsource, -, hanswers⟩ :=
        h.exists_sourceIn? point kernBias hsizeBox
      refine ⟨last, location, .inside hfilled hbox hlast hstop,
        hdescends.below.trans (below_of_reenters hlast), ?_, hanswers⟩
      simpa [locate?, hstart, hchildren, hbox] using hsource

theorem isSome_locate? (h : page.Sound) (point : Point) (kernBias : Float) :
    (page.locate? point kernBias).isSome = true ↔ 0 < page.size := by
  rw [← isSome_start? page point]
  constructor
  · intro hlocate
    cases hstart : page.start? point with
    | none => simp [locate?, hstart] at hlocate
    | some start => rfl
  · intro hsome
    obtain ⟨start, hstart⟩ := Option.isSome_iff_exists.mp hsome
    obtain ⟨last, location, -, -, hlocate, -⟩ := h.exists_locate? hstart kernBias
    rw [hlocate, Option.isSome_some]

end Sound

end Page

namespace Index

variable {index : Index} {settings : Settings} {number : UInt32} {point : Point}
  {source : SourceLine}

theorem inverse?_eq_some_iff : index.inverse? settings number point = some source ↔
    ∃ page location, index.page? number = some page ∧
      page.locate? point settings.kernBias = some location ∧
      source = ⟨(index.inputs.name? location.input).getD "", location.line⟩ := by
  simp only [inverse?, Option.bind_eq_bind, Option.bind_eq_some_iff, Option.some.injEq]
  constructor
  · rintro ⟨page, hpage, location, hlocation, rfl⟩
    exact ⟨page, location, hpage, hlocation, rfl⟩
  · rintro ⟨page, location, hpage, hlocation, rfl⟩
    exact ⟨page, hpage, location, hlocation, rfl⟩

/-- The location is that of a node in the branch of the start, for whose line it is listed. The node
belongs to the box where the search ends: it is that box, one of its children or one of the boxes
around it. The location is without a line only if they all are. -/
structure Traces (index : Index) (number : UInt32) (page : Page) (point : Point)
    (kernBias : Float) (start : Nat) (location : Location) : Prop where
  node : ∃ n node, page.get? n = some node ∧ node.location = location ∧
    (page.Below start n ∨ n ∈ page.ancestors start) ∧
    (0 < location.line → ⟨number, n⟩ ∈ index.friends location.input location.line)
  ends : ∃ last, page.SearchEndsIn point kernBias start last ∧ page.Below start last ∧
    ∃ n ∈ page.family last, ∃ node, page.get? n = some node ∧ node.location = location
  line_zero : location.line = 0 → ∀ last, page.SearchEndsIn point kernBias start last →
    ∀ n ∈ page.family last, ∃ node, page.get? n = some node ∧ node.line = 0

theorem exists_traces_ofEvents {root : Option String} {events : List Event} {page : Page}
    {location : Location} (hpage : (Draft.ofEvents root events).index.page? number = some page)
    (hlocate : page.locate? point settings.kernBias = some location) :
    ∃ start, page.start? point = some start ∧
      (Draft.ofEvents root events).index.Traces number page point settings.kernBias start
        location := by
  have hsound := Draft.page_sound_ofEvents hpage
  have hsome : (page.start? point).isSome = true := by
    rw [Page.isSome_start?, ← hsound.isSome_locate? point settings.kernBias, hlocate,
      Option.isSome_some]
  obtain ⟨start, hstart⟩ := Option.isSome_iff_exists.mp hsome
  obtain ⟨last, other, hends, hbelow, hother, hanswers⟩ :=
    hsound.exists_locate? hstart settings.kernBias
  obtain rfl : other = location := Option.some.inj (hother.symm.trans hlocate)
  have hzero : other.line = 0 → ∀ box, page.SearchEndsIn point settings.kernBias start box →
      ∀ n ∈ page.family box, ∃ node, page.get? n = some node ∧ node.line = 0 := by
    intro hline box hbox
    obtain rfl := hends.unique hbox
    exact hanswers.line_zero hline
  refine ⟨start, hstart, ?_, ⟨last, hends, hbelow, hanswers.mem⟩, hzero⟩
  obtain ⟨n, hn, node, hget, rfl⟩ := hanswers.mem
  refine ⟨n, node, hget, rfl, ?_, ?_⟩
  · rcases List.mem_cons.mp hn with rfl | hn
    · exact Or.inl hbelow
    · rcases List.mem_append.mp hn with hn | hn
      · exact hsound.below_or_mem_ancestors hbelow hn
      · exact Or.inl (hbelow.tail hn)
  · intro hline
    refine (mem_friends_iff root events hline _).mpr ⟨node, ?_, rfl⟩
    rw [node?_eq_get?, pageAt_of_page? hpage, hget]

/-- On every page of a document a search ends, whatever the point is, and it has an answer as soon
as the page has a node. -/
theorem searchEnds_ofDocument (root : Option String) (text : List UInt8) (settings : Settings)
    (number : UInt32) (point : Point) :
    (((ofDocument root text).inverse? settings number point).isSome = true ↔
      ∃ page, (ofDocument root text).page? number = some page ∧ 0 < page.size) ∧
    ((ofDocument root text).pageAt number).SearchEnds point settings.kernBias := by
  refine ⟨?_, ((Draft.sound_ofEvents root _).page number).searchEnds point settings.kernBias⟩
  constructor
  · intro hsome
    obtain ⟨source, hsource⟩ := Option.isSome_iff_exists.mp hsome
    obtain ⟨page, location, hpage, hlocate, -⟩ := inverse?_eq_some_iff.mp hsource
    refine ⟨page, hpage, ?_⟩
    rw [← (Draft.page_sound_ofEvents hpage).isSome_locate? point settings.kernBias, hlocate,
      Option.isSome_some]
  · rintro ⟨page, hpage, hsize⟩
    rw [← (Draft.page_sound_ofEvents hpage).isSome_locate? point settings.kernBias] at hsize
    obtain ⟨location, hlocate⟩ := Option.isSome_iff_exists.mp hsize
    rw [inverse?_eq_some_iff.mpr ⟨page, location, hpage, hlocate, rfl⟩, Option.isSome_some]

/-- Whatever source line a search finds, the nodes in the branch of its start account for it. -/
theorem exists_traces_ofDocument {root : Option String} {text : List UInt8}
    (hsource : (ofDocument root text).inverse? settings number point = some source) :
    ∃ page start location, (ofDocument root text).page? number = some page ∧
      page.start? point = some start ∧ page.locate? point settings.kernBias = some location ∧
      source = ⟨((ofDocument root text).inputs.name? location.input).getD "", location.line⟩ ∧
      (ofDocument root text).Traces number page point settings.kernBias start location := by
  obtain ⟨page, location, hpage, hlocate, hname⟩ := inverse?_eq_some_iff.mp hsource
  obtain ⟨start, hstart, htraces⟩ := exists_traces_ofEvents hpage hlocate
  exact ⟨page, start, location, hpage, hstart, hlocate, hname, htraces⟩

/-- At a point that is no number, a box and a kern without lines have the line of the box around
them. -/
theorem exists_traces_ofDocument_borrowed :
    let text := Text.Utf8.encode
      "Input:3:a\nContent:\n\x7b1\n[3,7:0,0:100,50,0\n(3,0:0,0:100,10,0\nk3,0:5,0:5\n)\n]\n"
    let index := ofDocument none text
    let nowhere : Point := ⟨0 / 0, 0 / 0⟩
    index.inverse? {} 1 nowhere = some ⟨"a", 7⟩ ∧
      ∃ page start location, index.page? 1 = some page ∧ page.start? nowhere = some start ∧
        page.locate? nowhere ({} : Settings).kernBias = some location ∧
        SourceLine.mk "a" 7 = ⟨(index.inputs.name? location.input).getD "", location.line⟩ ∧
        index.Traces 1 page nowhere ({} : Settings).kernBias start location := by
  intro text index nowhere
  have hsource : index.inverse? {} 1 nowhere = some ⟨"a", 7⟩ := by decide +kernel
  exact ⟨hsource, exists_traces_ofDocument hsource⟩

end Index

end PageSync

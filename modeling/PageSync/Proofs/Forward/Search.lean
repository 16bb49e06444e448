import PageSync.Forward.Search
import PageSync.Proofs.Forward.NearestLine
import PageSync.Proofs.Forward.Selection
import PageSync.Proofs.Index.Friends

/-! # Regions of a search from a line

A search from a line of a file finds a region exactly if the file is known and
some node names a line of it within reach. The nodes that are united are those
of a single page, the one to which the first record of the line went; none of
the later steps loses what was found.
-/

namespace PageSync

theorem Region.exists_ofNodes? (settings : Settings) (number : UInt32) {nodes : List Node}
    (hnodes : nodes ≠ []) :
    ∃ region, ofNodes? settings number nodes = some region ∧ region.page = number := by
  cases nodes with
  | nil => exact absurd rfl hnodes
  | cons first rest => exact ⟨_, rfl, rfl⟩

namespace Index

/-- The first record of a line of an input, over all pages. -/
def firstRecorded? (index : Index) (events : List Event) (location : Location) : Option NodeRef :=
  (arrivals events).find? fun ref => (index.node? ref).map Node.location = some location

/-- What was found is a line of the input within reach, all its nodes, and the region of some nodes
on the page to which the first record of the line went. -/
structure Finds (index : Index) (events : List Event) (settings : Settings) (input line : UInt32)
    (found : LineMatch) : Prop where
  near : 0 < found.line ∧
    Nat.dist found.line.toNat line.toNat ≤ settings.maxLineOffset.toNat
  matched : found.matched = index.friends input found.line
  region : ∃ first page region,
    index.firstRecorded? events ⟨input, found.line⟩ = some first ∧
    index.page? first.page = some page ∧
    found.region = some region ∧ region.page = first.page ∧
    found.region =
      Region.ofNodes? settings first.page (found.selected.filterMap page.get?) ∧
    found.selected ≠ [] ∧
    ∀ i ∈ found.selected, ∃ node, page.get? i = some node ∧ node.page = first.page

variable {root : Option String} {events : List Event} {settings : Settings} {file : String}
  {input line other : UInt32} {refs : List NodeRef}

theorem friends_ne_nil_iff (hline : 0 < line) :
    (Draft.ofEvents root events).index.friends input line ≠ [] ↔
      ∃ node ∈ (Draft.ofEvents root events).index.nodes, node.input = input ∧ node.line = line := by
  constructor
  · intro hne
    obtain ⟨ref, href⟩ := List.exists_mem_of_ne_nil _ hne
    obtain ⟨node, hget, hlocation⟩ := (mem_friends_iff root events hline ref).mp href
    exact ⟨node, mem_nodes_iff.mpr ⟨ref, hget⟩, congrArg Location.input hlocation,
      congrArg Location.line hlocation⟩
  · rintro ⟨node, hnode, rfl, rfl⟩
    obtain ⟨ref, hget⟩ := mem_nodes_iff.mp hnode
    exact List.ne_nil_of_mem ((mem_friends_iff root events hline ref).mpr ⟨node, hget, rfl⟩)

theorem head?_friends (hline : 0 < line) :
    ((Draft.ofEvents root events).index.friends input line).head? =
      (Draft.ofEvents root events).index.firstRecorded? events ⟨input, line⟩ := by
  rw [friends_eq_located root events hline, located, List.head?_filter, firstRecorded?]

/-- What is selected of the nodes of a line on a page are nodes of that page. -/
theorem exists_get?_of_mem_select {number : UInt32} {page : Page} {i : Nat} (hline : 0 < line)
    (hpage : (Draft.ofEvents root events).index.page? number = some page)
    (hi : i ∈ page.select
      (onPage number ((Draft.ofEvents root events).index.friends input line))) :
    ∃ node, page.get? i = some node ∧ node.page = number := by
  have hids : ∀ j ∈ onPage number ((Draft.ofEvents root events).index.friends input line),
      j < page.size := by
    intro j hj
    obtain ⟨ref, href, rfl⟩ := List.mem_map.mp hj
    obtain ⟨hmem, hnumber⟩ := List.mem_filter.mp href
    obtain ⟨node, hget, -⟩ := (mem_friends_iff root events hline ref).mp hmem
    rw [node?, beq_iff_eq.mp hnumber, hpage, Option.bind_some] at hget
    exact Page.lt_size_of_get? hget
  have hsize := (Draft.page_sound_ofEvents hpage).lt_size_of_mem_select hids hi
  obtain ⟨node, hget⟩ := Page.exists_get? hsize
  obtain rfl := pageAt_of_page? hpage
  exact ⟨node, hget, (Draft.sound_ofEvents root events).numbered hget⟩

theorem matchLine_cons {index : Index} {first : NodeRef} {page : Page}
    (hpage : index.page? first.page = some page) (settings : Settings) (line : UInt32)
    (rest : List NodeRef) : index.matchLine settings line (first :: rest) =
      ⟨line, first :: rest, page.select (onPage first.page (first :: rest)),
        Region.ofNodes? settings first.page
          ((page.select (onPage first.page (first :: rest))).filterMap page.get?)⟩ := by
  simp only [matchLine, List.head?_cons, Option.bind_some, hpage, Option.map_some]

theorem line_matchLine (index : Index) (settings : Settings) (line : UInt32)
    (refs : List NodeRef) : (index.matchLine settings line refs).line = line := by
  rw [matchLine]
  split <;> rfl

/-- From the nodes of a line on, no step loses what was found. -/
theorem finds_matchLine (hpos : 0 < other)
    (hdistance : Nat.dist other.toNat line.toNat ≤ settings.maxLineOffset.toNat)
    (hrefs : (Draft.ofEvents root events).index.friends input other = refs) (hne : refs ≠ []) :
    (Draft.ofEvents root events).index.Finds events settings input line
      ((Draft.ofEvents root events).index.matchLine settings other refs) := by
  obtain ⟨first, rest, rfl⟩ := List.exists_cons_of_ne_nil hne
  have hfirst : first ∈ (Draft.ofEvents root events).index.friends input other :=
    hrefs ▸ List.mem_cons_self
  obtain ⟨node, hget, -⟩ := (mem_friends_iff root events hpos first).mp hfirst
  obtain ⟨page, hpage, -⟩ := Option.bind_eq_some_iff.mp hget
  have hselected : page.select (onPage first.page (first :: rest)) ≠ [] :=
    Page.select_ne_nil (by simp [onPage])
  have hnodes : ∀ i ∈ page.select (onPage first.page (first :: rest)),
      ∃ node, page.get? i = some node ∧ node.page = first.page :=
    fun i hi => exists_get?_of_mem_select hpos hpage (hrefs ▸ hi)
  obtain ⟨i, hi⟩ := List.exists_mem_of_ne_nil _ hselected
  obtain ⟨united, hunited, -⟩ := hnodes i hi
  obtain ⟨region, hregion, hnumber⟩ := Region.exists_ofNodes? settings first.page
    (List.ne_nil_of_mem (List.mem_filterMap.mpr ⟨i, hi, hunited⟩))
  rw [matchLine_cons hpage]
  exact ⟨⟨hpos, hdistance⟩, hrefs.symm, first, page, region,
    by rw [← head?_friends hpos, hrefs, List.head?_cons], hpage, hregion, hnumber, rfl, hselected,
    hnodes⟩

/-- What a search finds, it finds for the tag of the file. -/
theorem finds_of_forward {found : LineMatch}
    (hfound : (Draft.ofEvents root events).index.forward settings file line = .found found) :
    ∃ input, (Draft.ofEvents root events).index.inputs.resolve? file = some input ∧
      (Draft.ofEvents root events).index.Finds events settings input line found := by
  rw [forward] at hfound
  split at hfound
  next => contradiction
  next input hinput =>
    split at hfound
    next => contradiction
    next other refs hnearest =>
      obtain ⟨hdistance, hpos, hrefs, hne⟩ := dist_of_nearestLine? hnearest
      obtain rfl := ForwardResult.found.inj hfound
      exact ⟨input, hinput, finds_matchLine hpos hdistance hrefs hne⟩

/-- Some node names a line of the input that is within reach of the given one. -/
def Reaches (index : Index) (settings : Settings) (input line : UInt32) : Prop :=
  ∃ node ∈ index.nodes, node.input = input ∧ 0 < node.line ∧
    Nat.dist node.line.toNat line.toNat ≤ settings.maxLineOffset.toNat

theorem isSome_nearestLine?_iff :
    ((Draft.ofEvents root events).index.nearestLine? input line
        settings.maxLineOffset).isSome = true ↔
      (Draft.ofEvents root events).index.Reaches settings input line := by
  constructor
  · intro hsome
    obtain ⟨⟨other, refs⟩, hnearest⟩ := Option.isSome_iff_exists.mp hsome
    obtain ⟨hdistance, hpos, hrefs, hne⟩ := dist_of_nearestLine? hnearest
    obtain ⟨node, hnode, hinput, rfl⟩ := (friends_ne_nil_iff hpos).mp (hrefs ▸ hne)
    exact ⟨node, hnode, hinput, hpos, hdistance⟩
  · rintro ⟨node, hnode, hinput, hpos, hdistance⟩
    by_contra hnone
    rw [Bool.not_eq_true, Option.isSome_eq_false_iff, Option.isNone_iff_eq_none,
      nearestLine?_eq_none_iff] at hnone
    exact (friends_ne_nil_iff hpos).mpr ⟨node, hnode, hinput, rfl⟩ (hnone node.line hpos hdistance)

theorem isSome_forward?_iff :
    ((Draft.ofEvents root events).index.forward? settings file line).isSome = true ↔
      ∃ input, (Draft.ofEvents root events).index.inputs.resolve? file = some input ∧
        (Draft.ofEvents root events).index.Reaches settings input line := by
  simp only [← isSome_nearestLine?_iff]
  constructor
  · intro hsome
    rw [forward?, forward] at hsome
    split at hsome
    next => contradiction
    next input hinput =>
      split at hsome
      next => contradiction
      next hnearest => exact ⟨input, hinput, by rw [hnearest, Option.isSome_some]⟩
  · rintro ⟨input, hinput, hsome⟩
    obtain ⟨⟨other, refs⟩, hnearest⟩ := Option.isSome_iff_exists.mp hsome
    have hfound : (Draft.ofEvents root events).index.forward settings file line =
        .found ((Draft.ofEvents root events).index.matchLine settings other refs) := by
      simp only [forward, hinput, hnearest]
    obtain ⟨_, -, hfinds⟩ := finds_of_forward hfound
    obtain ⟨first, page, region, -, -, hregion, -⟩ := hfinds.region
    rw [forward?, hfound, ForwardResult.region?, hregion, Option.isSome_some]

/-- In a document, a search from a line of a file finds a region exactly if a node within reach
names a line of the file's tag, and then it unites nodes of the page to which the first record of
the line that it used went. -/
theorem isSome_forward?_ofDocument (root : Option String) (text : List UInt8) (settings : Settings)
    (file : String) (line : UInt32) :
    (((ofDocument root text).forward? settings file line).isSome = true ↔
      ∃ input, (ofDocument root text).inputs.resolve? file = some input ∧
        (ofDocument root text).Reaches settings input line) ∧
    ∀ found, (ofDocument root text).forward settings file line = .found found →
      ∃ input, (ofDocument root text).inputs.resolve? file = some input ∧
        (ofDocument root text).Finds (Document.events text) settings input line found :=
  ⟨isSome_forward?_iff, fun _ hfound => finds_of_forward hfound⟩

/-- A line is recorded on page 2 first, on page 1 later, and asked for by a line above it. -/
theorem isSome_forward?_ofDocument_split_line :
    let text := Text.Utf8.encode
      "Input:4:a\nContent:\n\x7b2\n(4,1:0,0:9,9,0\nk4,5:3,0:1\n)\n\x7b1\n(4,5:0,0:9,9,0\n)\n"
    let index := ofDocument none text
    ∃ found, index.forward {} "a" 4 = .found found ∧ found.line = 5 ∧
      found.region.map Region.page = some 2 ∧
      ∃ input, index.inputs.resolve? "a" = some input ∧
        index.Finds (Document.events text) {} input 4 found := by
  intro text index
  have hinput : index.inputs.resolve? "a" = some 4 := by decide +kernel
  have hnear : (index.nearestLine? 4 4 3).map Prod.fst = some 5 := by decide +kernel
  have hpage : (index.forward? {} "a" 4).map Region.page = some 2 := by decide +kernel
  obtain ⟨⟨_, refs⟩, hnearest, rfl⟩ := Option.map_eq_some_iff.mp hnear
  have hfound : index.forward {} "a" 4 = .found (index.matchLine {} 5 refs) := by
    simp only [forward, hinput, hnearest]
  obtain ⟨input, hresolve, hfinds⟩ := (isSome_forward?_ofDocument none text {} "a" 4).2 _ hfound
  rw [forward?, hfound, ForwardResult.region?] at hpage
  exact ⟨_, hfound, line_matchLine index {} 5 refs, hpage, input, hresolve, hfinds⟩

end Index

end PageSync

import PageSync.Proofs.Forward.Search
import PageSync.Proofs.Inverse.Search
import PageSync.Proofs.Source.Inputs

/-! # From a point to its line and back

A search from a point and a search from a line share only the name of a file.
A name may stand for several tags, and the way back takes one of them, so what
was found from a point is found again exactly if nodes of that tag are within
reach.
-/

namespace PageSync

namespace Index

variable {root : Option String} {text : List UInt8} {settings : Settings} {number : UInt32}
  {point : Point} {source : SourceLine} {input : UInt32}

/-- What a search from a point finds is the line of a node, with the name of the node's input. -/
theorem exists_node_of_inverse?
    (hsource : (ofDocument root text).inverse? settings number point = some source) :
    ∃ tag, source.file = ((ofDocument root text).inputs.name? tag).getD "" ∧
      ∃ node ∈ (ofDocument root text).nodes, node.location = ⟨tag, source.line⟩ := by
  obtain ⟨page, location, hpage, hlocate, rfl⟩ := inverse?_eq_some_iff.mp hsource
  obtain ⟨start, -, htraces⟩ := exists_traces_ofEvents hpage hlocate
  obtain ⟨n, node, hget, hlocation, -⟩ := htraces.node
  refine ⟨location.input, rfl, node, mem_nodes_iff.mpr ⟨⟨number, n⟩, ?_⟩, hlocation⟩
  rw [node?, hpage, Option.bind_some, hget]

theorem reaches_of_location {index : Index} {node : Node} {tag line : UInt32} (hline : 0 < line)
    (hnode : node ∈ index.nodes) (hlocation : node.location = ⟨tag, line⟩) :
    index.Reaches settings tag line := by
  obtain ⟨rfl, rfl⟩ := Location.mk.inj hlocation
  exact ⟨node, hnode, rfl, hline, by rw [Nat.dist_self]; exact Nat.zero_le _⟩

/-- The source line that a search from a point finds is found again from its file exactly if a node
of the file's tag is within reach. It always is if that is the tag of the node that was found, as
for a file in normal form that is declared under one tag alone. -/
theorem isSome_forward?_of_inverse?
    (hsource : (ofDocument root text).inverse? settings number point = some source)
    (hline : 0 < source.line)
    (hinput : (ofDocument root text).inputs.resolve? source.file = some input) :
    (((ofDocument root text).forward? settings source.file source.line).isSome = true ↔
      (ofDocument root text).Reaches settings input source.line) ∧
    ∃ tag, (ofDocument root text).inputs.name? tag = some source.file ∧
      (∃ node ∈ (ofDocument root text).nodes, node.location = ⟨tag, source.line⟩) ∧
      (input = tag →
        ((ofDocument root text).forward? settings source.file source.line).isSome = true) ∧
      (FileName.normalize none source.file = source.file →
        (∀ other, (ofDocument root text).inputs.name? other = some source.file → other = tag) →
        ((ofDocument root text).forward? settings source.file source.line).isSome = true) := by
  have hforward : ((ofDocument root text).forward? settings source.file
      source.line).isSome = true ↔ (ofDocument root text).Reaches settings input source.line := by
    refine isSome_forward?_iff.trans ⟨?_, fun hreaches => ⟨input, hinput, hreaches⟩⟩
    rintro ⟨other, hother, hreaches⟩
    obtain rfl : input = other := Option.some.inj (hinput.symm.trans hother)
    exact hreaches
  have hfile : source.file ≠ "" := by
    intro hempty
    rw [hempty, Inputs.resolve?_empty] at hinput
    contradiction
  obtain ⟨tag, hname, node, hnode, hlocation⟩ := exists_node_of_inverse? hsource
  have hdeclared : (ofDocument root text).inputs.name? tag = some source.file := by
    cases htag : (ofDocument root text).inputs.name? tag with
    | none =>
        rw [htag, Option.getD_none] at hname
        exact absurd hname hfile
    | some name => rw [hname, htag, Option.getD_some]
  have hown : input = tag →
      ((ofDocument root text).forward? settings source.file source.line).isSome = true := by
    rintro rfl
    exact hforward.mpr (reaches_of_location hline hnode hlocation)
  refine ⟨hforward, tag, hdeclared, ⟨node, hnode, hlocation⟩, hown, ?_⟩
  intro hnormal hunique
  have hresolve := Inputs.resolve?_eq_some_of_unique hfile hdeclared hnormal hunique
  exact hown (Option.some.inj (hinput.symm.trans hresolve))

/-- Of two tags of a file the first one has no node at the line that was found for the second one,
but one nearby. -/
theorem isSome_forward?_of_inverse?_nearby :
    let text := Text.Utf8.encode
      "Input:1:a\nInput:2:a\nContent:\n\x7b1\n(2,5:0,0\n)\nh1,7:900,900\n\x7d1\n"
    let index := ofDocument none text
    index.inverse? {} 1 ⟨0, 0⟩ = some ⟨"a", 5⟩ ∧ index.inputs.resolve? "a" = some 1 ∧
      (index.forward? {} "a" 5).isSome = true ∧ index.Reaches {} 1 5 ∧
      ∃ tag, index.inputs.name? tag = some "a" ∧
        ∃ node ∈ index.nodes, node.location = ⟨tag, 5⟩ := by
  intro text index
  have hsource : index.inverse? {} 1 ⟨0, 0⟩ = some ⟨"a", 5⟩ := by decide +kernel
  have hinput : index.inputs.resolve? "a" = some 1 := by decide +kernel
  have hfound : (index.forward? {} "a" 5).isSome = true := by decide +kernel
  obtain ⟨hforward, tag, hname, hnode, -⟩ :=
    isSome_forward?_of_inverse? hsource (by decide) hinput
  exact ⟨hsource, hinput, hfound, hforward.mp hfound, tag, hname, hnode⟩

/-- The first of two tags of a file has no node, so a line that was found for the second one is not
found again. -/
theorem forward?_eq_none_of_shared_name :
    let text := Text.Utf8.encode "Input:1:a\nInput:2:a\nContent:\n\x7b1\n(2,5:0,0\n)\n\x7d1\n"
    let index := ofDocument (some defaultRoot) text
    let point : Point := ⟨0, 0⟩
    point.x.isFinite = true ∧ point.y.isFinite = true ∧
      index.inverse? {} 1 point = some ⟨"a", 5⟩ ∧ index.inputs.resolve? "a" = some 1 ∧
      index.forward? {} "a" 5 = none := by
  decide +kernel

end Index

end PageSync

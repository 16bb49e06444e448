import PageSync.Page.Basic
import PageSync.Source.Inputs

/-! # Indexes

An index holds what a document says: its header, its inputs, the nodes of its
pages and, for every source line, the nodes recorded for it. It is searched
from a place on a page to a source line and back.
-/

namespace PageSync

/-- A node by its page and its number on that page. -/
structure NodeRef where
  page : UInt32
  id : Nat
  deriving DecidableEq, Repr

/-- Locations are sorted by input and then by line. -/
instance : Ord Location :=
  ⟨compareLex (compareOn Location.input) (compareOn Location.line)⟩

instance : Std.TransOrd Location :=
  inferInstanceAs (Std.TransCmp (compareLex (compareOn Location.input) (compareOn Location.line)))

instance : Std.LawfulEqOrd Location where
  compare_self := Std.ReflCmp.compare_self
  eq_of_compare {a b} h := by
    have hparts : compare a.input b.input = .eq ∧ compare a.line b.line = .eq :=
      Ordering.then_eq_eq.mp h
    have hinput := Std.LawfulEqOrd.eq_of_compare hparts.1
    have hline := Std.LawfulEqOrd.eq_of_compare hparts.2
    cases a
    cases b
    simp_all

/-- The declarations of the header, with their defaults. -/
structure Header where
  version : Option Int := none
  output : Option String := none
  scale : Scale := {}
  deriving DecidableEq, Repr

/-- All that is known of a document. -/
structure Index where
  header : Header := {}
  inputs : Inputs := {}
  pages : Std.TreeMap UInt32 Page := ∅
  recorded : Std.TreeMap Location (Array NodeRef) := ∅

namespace Index

def page? (index : Index) (page : UInt32) : Option Page := index.pages[page]?

/-- The numbers of the pages, in ascending order. -/
def pageNumbers (index : Index) : List UInt32 := index.pages.keys

/-- The pages with their numbers, in ascending order. -/
def pageEntries (index : Index) : List (UInt32 × Page) := index.pages.toList

/-- How many nodes there are on all pages. -/
def nodeCount (index : Index) : Nat :=
  index.pages.values.foldl (fun total page => total + page.size) 0

def node? (index : Index) (ref : NodeRef) : Option Node :=
  (index.page? ref.page).bind fun page => page.get? ref.id

/-- The nodes recorded for a source line, in the order of their records. -/
def friends (index : Index) (input line : UInt32) : List NodeRef :=
  (index.recorded.getD ⟨input, line⟩ #[]).toList

/-- How many source lines have nodes. -/
def lineCount (index : Index) : Nat := index.recorded.size

/-- Makes sure that a page exists. -/
def ensurePage (index : Index) (page : UInt32) : Index :=
  { index with pages := index.pages.insertIfNew page {} }

/-- Adds a node to a page, under a parent on that page, and notes it for its
source line if it has one. -/
def addNode (index : Index) (node : Node) (parent : Option Nat) : Index :=
  let id := (index.page? node.page).elim 0 Page.size
  { index with
    pages := index.pages.alter node.page fun page => some ((page.getD {}).push node parent)
    recorded :=
      if node.hasLine then
        index.recorded.alter node.location fun refs => some ((refs.getD #[]).push ⟨node.page, id⟩)
      else index.recorded }

end Index

end PageSync

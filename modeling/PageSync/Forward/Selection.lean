import PageSync.Page.Basic

/-! # Which nodes stand for a line

The nodes recorded for a line are narrowed down. Nodes that are no boxes say
little about their height, so the horizontal boxes around them are taken
instead. Otherwise horizontal boxes come before vertical ones, which tend to
reach far beyond the line.
-/

namespace PageSync.Page

/-- The nodes among the given ones whose kind is accepted. -/
def withKind (page : Page) (accept : Kind → Bool) (ids : List Nat) : List Nat :=
  ids.filter fun id => (page.get? id).any fun node => accept node.kind

/-- The nearest horizontal box around a node that is no box itself. -/
def enclosingHbox? (page : Page) (id : Nat) : Option Nat :=
  match page.get? id with
  | none => none
  | some node =>
    if node.kind.isBox then none else page.ancestorWhere? (fun other => other.kind == .hbox) id

/-- The horizontal boxes around those nodes that are no boxes, each once. -/
def enclosingHboxes (page : Page) (ids : List Nat) : List Nat :=
  (ids.filterMap page.enclosingHbox?).eraseDups

/-- The nodes that stand for the given ones: the first of the possible choices
that is not empty. -/
def select (page : Page) (ids : List Nat) : List Nat :=
  let enclosing := page.enclosingHboxes ids
  if !enclosing.isEmpty then enclosing
  else
    let horizontal := page.withKind Kind.isHorizontalBox ids
    if !horizontal.isEmpty then horizontal
    else
      let boxes := page.withKind Kind.isBox ids
      if !boxes.isEmpty then boxes else ids

end PageSync.Page

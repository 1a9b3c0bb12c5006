/-!
# Visiting order

A walk through a graph that visits every vertex after those that it depends on, as far as the
graph allows. Each vertex is visited once; where vertices depend on each other in a circle, the one
that the walk meets first comes last.
-/

namespace Replatform.Graph

variable {α : Type} [DecidableEq α]

/-- The vertices that the walk has met, and the order in which it left them. -/
structure Walk (α : Type) where
  seen : List α
  order : List α
deriving Repr

/-- Visits a vertex, behind the vertices that it depends on. Every step inward meets a vertex for
the first time, so as many steps as there are vertices suffice. -/
def visit (before : α → List α) : Nat → Walk α → α → Walk α
  | 0, w, _ => w
  | fuel + 1, w, x =>
    if x ∈ w.seen then w
    else
      let inner := (before x).foldl (visit before fuel) ⟨x :: w.seen, w.order⟩
      { inner with order := inner.order ++ [x] }

/-- The order in which a walk from each of the vertices leaves them, in a graph of at most `size`
vertices. -/
def visitOrder (before : α → List α) (size : Nat) (xs : List α) : List α :=
  (xs.foldl (visit before (size + 1)) ⟨[], []⟩).order

end Replatform.Graph

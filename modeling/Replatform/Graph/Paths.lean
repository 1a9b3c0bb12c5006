/-!
# Paths in a graph

The paths from one vertex to another that repeat no vertex, in the order of the edges, up to a
limit. The search goes on from the last vertex of a path and stops as soon as the limit is reached.
-/

namespace Replatform.Graph

variable {α : Type} [DecidableEq α]

/-- Adds to `found` the paths to `goal` that go on from a path, which is given with its last vertex
first. Each step makes the path longer by a vertex that is not on it. -/
def extend (next : α → List α) (goal : α) (limit : Int) :
    Nat → List (List α) → α → List α → List (List α)
  | 0, found, _, _ => found
  | fuel + 1, found, current, path =>
    if limit ≤ found.length then found
    else if current = goal then found ++ [path.reverse]
    else (next current).foldl
      (fun found x => if x ∈ path then found else extend next goal limit fuel found x (x :: path))
      found

/-- At most `limit` paths from `start` to `goal`, in a graph of at most `size` vertices. -/
def paths (next : α → List α) (size : Nat) (limit : Int) (start goal : α) : List (List α) :=
  extend next goal limit (size + 1) [] start [start]

end Replatform.Graph

import Replatform.Lineage.Step
import Replatform.Proofs.Graph.Paths
import Replatform.Proofs.Workflow.Connections
/-!
# Paths along connections

The paths that are shown between a source and a target are found by a search with a limit. Up to the
limit it finds all paths, and which paths it finds first does not depend on the limit
(`pathsBetween_enumerates`).

Connections count as such. They may form circles, run side by side and name numbers that no tool
has.
-/

namespace Replatform.Workflow

open Relation

variable {w : Workflow} {start goal : Int}

/-- What it means that `found` gives, for each limit, paths from one number to another. -/
structure Enumerates (w : Workflow) (start goal : Int) (found : Int → List (List Int)) : Prop where
  sound : ∀ limit, ∀ p ∈ found limit, Graph.IsPath w.Feeds start goal p
  bounded : ∀ limit, (found limit).length ≤ limit.toNat
  stable : ∀ limit larger, limit ≤ larger → found limit = (found larger).take limit.toNat
  complete : ∀ limit, (found limit).length < limit →
    ∀ p, Graph.IsPath w.Feeds start goal p → p ∈ found limit
  reached : ∀ limit, 1 ≤ limit → (found limit ≠ [] ↔ ReflTransGen w.Feeds start goal)

/-- All paths, in the order in which the search finds them. -/
def routesBetween (w : Workflow) (start goal : Int) : List (List Int) :=
  Graph.routes w.nextIds goal (w.size + 1) start [start]

theorem mem_routesBetween {p : List Int} :
    p ∈ w.routesBetween start goal ↔ Graph.IsPath w.Feeds start goal p := by
  have hfeeds : (fun a b => b ∈ w.nextIds a) = w.Feeds := by
    funext a b
    exact propext mem_nextIds
  rw [routesBetween, Graph.mem_routes_start w.numbers
    (fun a b hb => (mem_nextIds.mp hb).target_mem) w.length_numbers_le, hfeeds]

theorem pathsBetween_eq_take (w : Workflow) (start goal limit : Int) :
    w.pathsBetween start goal limit = (w.routesBetween start goal).take limit.toNat :=
  Graph.paths_eq_take ..

/-- Where the limit is not reached, all paths are found. -/
theorem pathsBetween_eq_routes {limit : Int}
    (h : (w.pathsBetween start goal limit).length < limit) :
    w.pathsBetween start goal limit = w.routesBetween start goal := by
  rw [pathsBetween_eq_take, List.length_take] at h
  rw [pathsBetween_eq_take]
  exact List.take_of_length_le (by omega)

/-- What the search finds are paths, as many as the limit allows, the same ones for a larger limit,
and all there are if they are fewer than the limit. So it finds something whenever connections lead
to the goal. -/
theorem pathsBetween_enumerates (w : Workflow) (start goal : Int) :
    w.Enumerates start goal (w.pathsBetween start goal) where
  sound limit p hp := by
    rw [pathsBetween_eq_take] at hp
    exact mem_routesBetween.mp (List.mem_of_mem_take hp)
  bounded limit := by
    rw [pathsBetween_eq_take]
    exact List.length_take_le ..
  stable limit larger hle := by
    have hmin : min limit.toNat larger.toNat = limit.toNat := by omega
    rw [pathsBetween_eq_take, pathsBetween_eq_take, List.take_take, hmin]
  complete limit hfew p hp := by
    rw [pathsBetween_eq_routes hfew]
    exact mem_routesBetween.mpr hp
  reached limit hlimit := by
    have hempty : w.pathsBetween start goal limit = [] ↔ w.routesBetween start goal = [] := by
      rw [pathsBetween_eq_take, List.take_eq_nil_iff]
      exact or_iff_right (by omega)
    rw [← Graph.exists_isPath_iff, Ne, hempty, List.eq_nil_iff_forall_not_mem, not_forall_not]
    simp only [mem_routesBetween]

/-- Two connections side by side, a circle and a number without a tool. -/
example : pathsBetween { metadata := { name := "w", path := "w.yxmd" }
                         connections := [⟨1, "", 2, ""⟩, ⟨1, "", 2, ""⟩, ⟨2, "", 1, ""⟩,
                           ⟨2, "", 3, ""⟩, ⟨1, "", 3, ""⟩] } 1 3 2
    = [[1, 2, 3], [1, 2, 3]] := by decide

end Replatform.Workflow

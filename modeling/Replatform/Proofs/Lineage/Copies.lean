import Mathlib.Algebra.BigOperators.Group.Finset.Basic
import Mathlib.Algebra.GroupWithZero.Nat
import Replatform.Proofs.Lineage.Paths
/-!
# How often a path is found

The search follows connections, and several connections may lead from one number to another. So a
path is found once for each choice of a connection at every step: `width` counts the choices. The
limit counts what is found with its copies (`pathsBetween_repeats`).
-/

namespace Replatform

open List

namespace Graph

variable {α : Type} [DecidableEq α] {next : α → List α} {goal : α}

/-- In how many ways edges run along a path. -/
def width (next : α → List α) : List α → Nat
  | x :: y :: p => (next x).count y * width next (y :: p)
  | _ => 1

theorem width_cons_cons (x y : α) (p : List α) :
    width next (x :: y :: p) = (next x).count y * width next (y :: p) := rfl

/-- A way on from a path begins with the path. -/
theorem prefix_of_mem_routes (fuel : Nat) : ∀ {current : α} {path p : List α},
    p ∈ routes next goal fuel current path → path.reverse <+: p := by
  induction fuel with
  | zero => exact fun hp => absurd hp not_mem_nil
  | succ fuel ih =>
    intro current path p hp
    rw [routes] at hp
    split at hp
    next => exact mem_singleton.mp hp ▸ prefix_rfl
    next =>
      obtain ⟨x, -, hp⟩ := mem_flatMap.mp hp
      split at hp
      next => exact absurd hp not_mem_nil
      next =>
        have hlonger := ih hp
        rw [reverse_cons] at hlonger
        exact (prefix_append _ _).trans hlonger

/-- What only one of the parts has is counted for each place of the part. -/
theorem count_flatMap_of_ne {β : Type} [BEq β] [LawfulBEq β] {f : α → List β} {p : β} {x : α}
    (h : ∀ y, y ≠ x → p ∉ f y) (xs : List α) :
    (xs.flatMap f).count p = xs.count x * (f x).count p := by
  induction xs with
  | nil => simp
  | cons y xs ih =>
    rw [flatMap_cons, count_append, ih, count_cons]
    by_cases hy : y = x
    · subst hy
      simp [Nat.add_mul, Nat.add_comm]
    · rw [count_eq_zero.mpr (h y hy)]
      simp [hy]

/-- A way on from a path is met once for each choice of an edge at every step. -/
theorem count_routes (fuel : Nat) : ∀ {current : α} {path more : List α},
    path.reverse ++ more ∈ routes next goal fuel current path →
      (routes next goal fuel current path).count (path.reverse ++ more)
        = width next (current :: more) := by
  induction fuel with
  | zero => exact fun hp => absurd hp not_mem_nil
  | succ fuel ih =>
    intro current path more hp
    rw [routes] at hp ⊢
    split at hp
    next hgoal =>
      have hmore : more = [] := by simpa using mem_singleton.mp hp
      rw [if_pos hgoal, hmore, append_nil, count_singleton_self]
      rfl
    next hgoal =>
      obtain ⟨x, -, hx⟩ := mem_flatMap.mp hp
      -- the first vertex behind the path tells which of the parts it comes from
      have hpart : ∀ y, path.reverse ++ more ∈ (if y ∈ path then [] else
          routes next goal fuel y (y :: path)) → y ∉ path ∧ ∃ rest, more = y :: rest := by
        intro y hy
        split at hy
        next => exact absurd hy not_mem_nil
        next hnew =>
          have hprefix := prefix_of_mem_routes fuel hy
          rw [reverse_cons, prefix_append_right_inj] at hprefix
          obtain ⟨rest, hrest⟩ := hprefix
          exact ⟨hnew, rest, hrest.symm⟩
      obtain ⟨hnew, rest, rfl⟩ := hpart x hx
      have hother : ∀ y, y ≠ x → path.reverse ++ x :: rest ∉ (if y ∈ path then [] else
          routes next goal fuel y (y :: path)) := by
        intro y hne hy
        obtain ⟨-, _, heq⟩ := hpart y hy
        exact hne (cons.inj heq).1.symm
      have hlonger : path.reverse ++ x :: rest = (x :: path).reverse ++ rest := by simp
      rw [if_neg hnew, hlonger] at hx
      rw [if_neg hgoal, count_flatMap_of_ne hother, if_neg hnew, hlonger, ih hx, width_cons_cons]

/-- From a single vertex, each path is met as often as it is wide. -/
theorem count_routes_start {start : α} {p : List α} {fuel : Nat}
    (hp : p ∈ routes next goal fuel start [start]) :
    (routes next goal fuel start [start]).count p = width next p := by
  obtain ⟨more, rfl⟩ := prefix_of_mem_routes fuel hp
  exact count_routes fuel hp

end Graph

namespace Workflow

/-- In how many ways connections run along a path. -/
def width (w : Workflow) (p : List Int) : Nat := Graph.width w.nextIds p

/-- What is found for each limit, in which a path has copies. -/
structure Repeats (w : Workflow) (paths : Finset (List Int)) (found : Int → List (List Int)) :
    Prop where
  /-- The limit counts what is found with its copies. -/
  length : ∀ limit, (found limit).length = min limit.toNat (∑ p ∈ paths, w.width p)
  bounded : ∀ limit, ∀ p ∈ paths, (found limit).count p ≤ w.width p
  complete : ∀ limit : Int, (∑ p ∈ paths, w.width p : Nat) ≤ limit → ∀ p ∈ paths,
    (found limit).count p = w.width p
  distinct_iff : (∀ limit, (found limit).Nodup) ↔ ∀ p ∈ paths, w.width p = 1
  complete_of_distinct : (∀ p ∈ paths, w.width p = 1) → ∀ limit : Int, paths.card ≤ limit →
    ∀ p ∈ paths, p ∈ found limit

/-- A path is found as often as it is wide. -/
theorem count_routesBetween {w : Workflow} {start goal : Int} {p : List Int}
    (hp : p ∈ w.routesBetween start goal) : (w.routesBetween start goal).count p = w.width p :=
  Graph.count_routes_start hp

/-- The paths are as many as they are wide, all together. -/
theorem sum_width_eq_length (w : Workflow) (start goal : Int) :
    ∑ p ∈ (w.routesBetween start goal).toFinset, w.width p
      = (w.routesBetween start goal).length := by
  rw [← sum_toFinset_count_eq_length]
  refine Finset.sum_congr rfl fun p hp => ?_
  rw [← count_routesBetween (mem_toFinset.mp hp)]
  congr 1
  exact lawful_beq_subsingleton ..

/-- Paths are found with one copy for each choice of a connection at every step. The limit counts
the copies: all paths are found for sure if there are no more copies than that. No path is found
twice, whatever the limit, if and only if each has one copy. -/
theorem pathsBetween_repeats (w : Workflow) (start goal : Int) : ∃ paths : Finset (List Int),
    (∀ p, p ∈ paths ↔ Graph.IsPath w.Feeds start goal p)
      ∧ w.Repeats paths (w.pathsBetween start goal) := by
  have hcount : ∀ p ∈ (w.routesBetween start goal).toFinset,
      (w.routesBetween start goal).count p = w.width p :=
    fun p hp => count_routesBetween (mem_toFinset.mp hp)
  have hall : ∀ limit : Int, ((w.routesBetween start goal).length : Int) ≤ limit →
      w.pathsBetween start goal limit = w.routesBetween start goal := by
    intro limit hlimit
    rw [pathsBetween_eq_take, take_of_length_le (by omega)]
  have hnodup : (∀ p ∈ (w.routesBetween start goal).toFinset, w.width p = 1) →
      (w.routesBetween start goal).Nodup := by
    intro hone
    rw [nodup_iff_count_le_one]
    intro p
    by_cases hp : p ∈ w.routesBetween start goal
    · rw [hcount p (mem_toFinset.mpr hp), hone p (mem_toFinset.mpr hp)]
    · rw [count_eq_zero.mpr hp]
      exact Nat.zero_le 1
  refine ⟨(w.routesBetween start goal).toFinset, fun p => ?_, ?_, ?_, ?_, ?_, ?_⟩
  · rw [mem_toFinset, mem_routesBetween]
  · intro limit
    rw [pathsBetween_eq_take, length_take, sum_width_eq_length]
  · intro limit p hp
    rw [pathsBetween_eq_take, ← hcount p hp]
    exact (take_sublist ..).count_le p
  · intro limit hlimit p hp
    rw [sum_width_eq_length] at hlimit
    rw [hall limit hlimit, hcount p hp]
  · refine ⟨fun h p hp => ?_, fun hone limit => ?_⟩
    · have hroutes := hall _ (le_refl _) ▸ h (w.routesBetween start goal).length
      rw [← hcount p hp]
      exact count_eq_one_of_mem hroutes (mem_toFinset.mp hp)
    · rw [pathsBetween_eq_take]
      exact (hnodup hone).sublist (take_sublist ..)
  · intro hone limit hlimit p hp
    rw [toFinset_card_of_nodup (hnodup hone)] at hlimit
    rw [hall limit hlimit]
    exact mem_toFinset.mp hp

end Workflow

end Replatform

import Mathlib.Data.List.Chain
import Mathlib.Data.List.Nodup
import Mathlib.Data.List.Perm.Subperm
import Replatform.Graph.Paths
/-!
# What the search for paths finds

The search stops in the middle of its work as soon as it has found enough. Without the limit it
would go through all ways on from a path, one edge after the other: `routes` is this list, in the
order of the search. The argument has two halves that meet in it.

* With a limit, the search has found the front of the list (`paths_eq_take`). So a larger limit only
  adds paths at the end.
* The list has just the paths from `start` to `goal` that repeat no vertex (`mem_routes_start`). The
  fuel is enough, because such a path enters a new vertex at each step.
-/

namespace Replatform.Graph

open List Relation

variable {α : Type}

/-- A path from `start` to `goal` along the edges that repeats no vertex. -/
structure IsPath (edge : α → α → Prop) (start goal : α) (p : List α) : Prop where
  head : p.head? = some start
  last : p.getLast? = some goal
  nodup : p.Nodup
  steps : p.IsChain edge

section Reach

variable {edge : α → α → Prop} {start goal : α}

/-- From a vertex on a path, the rest of the path leads on. -/
theorem IsPath.from_mem {p : List α} (hp : IsPath edge start goal p) {x : α} (hx : x ∈ p) :
    ∃ q, IsPath edge x goal q := by
  obtain ⟨front, back, rfl⟩ := append_of_mem hx
  refine ⟨x :: back, rfl, ?_, ?_, ?_⟩
  · rw [← hp.last, getLast?_append_of_ne_nil _ (cons_ne_nil x back)]
  · exact (nodup_append.mp hp.nodup).2.1
  · exact hp.steps.right_of_append

theorem IsPath.cons {x : α} {p : List α} (hp : IsPath edge start goal p) (hedge : edge x start)
    (hx : x ∉ p) : IsPath edge x goal (x :: p) := by
  refine ⟨rfl, ?_, nodup_cons.mpr ⟨hx, hp.nodup⟩, ?_⟩
  · rw [getLast?_cons, hp.last]
    rfl
  · refine isChain_cons.mpr ⟨fun y hy => ?_, hp.steps⟩
    rw [hp.head, Option.mem_some_iff] at hy
    exact hy ▸ hedge

/-- Where edges lead to the goal at all, they do so without a repetition: a way that comes back to a
vertex is cut there. -/
theorem exists_isPath_iff : (∃ p, IsPath edge start goal p) ↔ ReflTransGen edge start goal := by
  constructor
  · rintro ⟨p, hp⟩
    cases p with
    | nil => exact nomatch hp.head
    | cons x p =>
      obtain rfl : x = start := Option.some.inj hp.head
      have hlast : (x :: p).getLast (cons_ne_nil x p) = goal := by
        rw [← Option.some.injEq, ← getLast?_eq_some_getLast]
        exact hp.last
      exact hlast ▸ relationReflTransGen_of_exists_isChain_cons p hp.steps rfl
  · intro hreach
    induction hreach using ReflTransGen.head_induction_on with
    | refl => exact ⟨[goal], rfl, rfl, nodup_singleton goal, .singleton goal⟩
    | @head x y hedge _ ih =>
      obtain ⟨p, hp⟩ := ih
      by_cases hx : x ∈ p
      · exact hp.from_mem hx
      · exact ⟨x :: p, hp.cons hedge hx⟩

/-- A path enters each of the vertices behind its start once. -/
theorem IsPath.length_le {p vertices : List α} (hp : IsPath edge start goal p)
    (hedge : ∀ x y, edge x y → y ∈ vertices) : p.length ≤ vertices.length + 1 := by
  have hentered : p.tail ⊆ vertices := by
    intro y hy
    obtain ⟨i, hi, rfl⟩ := mem_iff_getElem.mp hy
    rw [length_tail] at hi
    rw [getElem_tail]
    exact hedge _ _ (hp.steps.getElem i (by omega))
  have hlength := (subperm_of_subset hp.nodup.tail hentered).length_le
  rw [length_tail] at hlength
  omega

end Reach

section Front

variable {β : Type}

theorem take_append_take (n : Nat) (xs ys : List β) :
    (xs.take n ++ ys).take n = (xs ++ ys).take n := by
  rw [take_append, take_append, take_take, Nat.min_self, length_take]
  congr 2
  omega

/-- A loop whose rounds each add to the front of a list adds up to the front of the whole list. -/
theorem foldl_eq_take {limit : Nat} {f : List β → α → List β} {g : α → List β} (xs : List α)
    (hf : ∀ found, ∀ x ∈ xs, found.length ≤ limit → f found x = (found ++ g x).take limit) :
    ∀ found : List β, found.length ≤ limit →
      xs.foldl f found = (found ++ xs.flatMap g).take limit := by
  induction xs with
  | nil =>
    intro found hfound
    rw [foldl_nil, flatMap_nil, append_nil, take_of_length_le hfound]
  | cons x xs ih =>
    intro found hfound
    have hround := hf found x (.head _) hfound
    rw [foldl_cons, hround, ih (fun found y hy => hf found y (.tail _ hy)) _
      (length_take_le ..), take_append_take, append_assoc, flatMap_cons]

end Front

variable [DecidableEq α] {next : α → List α} {goal : α}

/-- All ways to go on to the goal from a path, which is given with its last vertex first, in the
order in which the search meets them. -/
def routes (next : α → List α) (goal : α) : Nat → α → List α → List (List α)
  | 0, _, _ => []
  | fuel + 1, current, path =>
    if current = goal then [path.reverse]
    else (next current).flatMap fun x =>
      if x ∈ path then [] else routes next goal fuel x (x :: path)

/-! ## The limit -/

theorem extend_eq_take (limit fuel : Nat) : ∀ (found : List (List α)) (current : α) (path : List α),
    found.length ≤ limit →
      extend next goal limit fuel found current path
        = (found ++ routes next goal fuel current path).take limit := by
  induction fuel with
  | zero =>
    intro found current path hfound
    rw [extend, routes, append_nil, take_of_length_le hfound]
  | succ fuel ih =>
    intro found current path hfound
    rw [extend, routes]
    split
    next hfull =>
      have hlength : found.length = limit := by omega
      rw [← hlength, take_left]
    next hroom =>
      split
      next => rw [take_of_length_le (by simp; omega)]
      next =>
        refine foldl_eq_take _ (fun found x _ hfound => ?_) found hfound
        split
        · rw [append_nil, take_of_length_le hfound]
        · exact ih found x (x :: path) hfound

/-- The search finds the front of all paths. -/
theorem paths_eq_take (next : α → List α) (size : Nat) (limit : Int) (start goal : α) :
    paths next size limit start goal
      = (routes next goal (size + 1) start [start]).take limit.toNat := by
  by_cases hlimit : 0 ≤ limit
  · obtain ⟨n, rfl⟩ := Int.eq_ofNat_of_zero_le hlimit
    exact extend_eq_take n (size + 1) [] start [start] (Nat.zero_le n)
  · rw [Int.toNat_of_nonpos (by omega), take_zero, paths, extend,
      if_pos (by rw [length_nil]; omega)]

/-! ## The paths -/

/-- The ways on from a path are those that repeat no vertex, as far as the fuel goes. -/
theorem mem_routes {p : List α} (fuel : Nat) : ∀ {current : α} {path : List α}, current ∈ path →
    path.Nodup → (p ∈ routes next goal fuel current path ↔ ∃ more, p = path.reverse ++ more
      ∧ more.length < fuel ∧ p.Nodup ∧ (current :: more).getLast? = some goal
      ∧ (current :: more).IsChain fun x y => y ∈ next x) := by
  induction fuel with
  | zero =>
    intro current path _ _
    rw [routes]
    exact ⟨fun h => (nomatch h), fun ⟨more, _, hlength, _⟩ => (nomatch hlength)⟩
  | succ fuel ih =>
    intro current path hcurrent hpath
    rw [routes]
    split
    next hgoal =>
      rw [mem_singleton]
      constructor
      · rintro rfl
        exact ⟨[], (append_nil _).symm, Nat.succ_pos _, nodup_reverse.mpr hpath,
          congrArg some hgoal, .singleton current⟩
      · -- a way that goes on from the goal would come back to it
        rintro ⟨more, rfl, -, hnodup, hlast, -⟩
        cases more with
        | nil => exact append_nil _
        | cons x more =>
          rw [getLast?_cons_cons] at hlast
          have hmore : current ∈ x :: more := hgoal ▸ mem_of_getLast? hlast
          exact absurd rfl ((nodup_append.mp hnodup).2.2 current
            (mem_reverse.mpr hcurrent) current hmore)
    next hgoal =>
      rw [mem_flatMap]
      constructor
      · rintro ⟨x, hx, hp⟩
        split at hp
        next => exact nomatch hp
        next hnew =>
          obtain ⟨more, rfl, hlength, hnodup, hlast, hchain⟩ :=
            (ih (.head _) (nodup_cons.mpr ⟨hnew, hpath⟩)).mp hp
          refine ⟨x :: more, by simp, Nat.succ_lt_succ hlength, hnodup, ?_, ?_⟩
          · rw [getLast?_cons_cons, hlast]
          · exact isChain_cons_cons.mpr ⟨hx, hchain⟩
      · rintro ⟨more, rfl, hlength, hnodup, hlast, hchain⟩
        cases more with
        | nil => exact absurd (Option.some.inj hlast) hgoal
        | cons x more =>
          have hnew : x ∉ path := fun hx => (nodup_append.mp hnodup).2.2 x
            (mem_reverse.mpr hx) x (.head _) rfl
          obtain ⟨hx, hchain⟩ := isChain_cons_cons.mp hchain
          rw [getLast?_cons_cons] at hlast
          refine ⟨x, hx, ?_⟩
          rw [if_neg hnew]
          exact (ih (.head _) (nodup_cons.mpr ⟨hnew, hpath⟩)).mpr
            ⟨more, by simp, Nat.lt_of_succ_lt_succ hlength, hnodup, hlast, hchain⟩

/-- From a single vertex, the ways on are the paths. -/
theorem mem_routes_start {start : α} {p : List α} (vertices : List α) {size : Nat}
    (hnext : ∀ x, ∀ y ∈ next x, y ∈ vertices) (hsize : vertices.length ≤ size) :
    p ∈ routes next goal (size + 1) start [start]
      ↔ IsPath (fun x y => y ∈ next x) start goal p := by
  rw [mem_routes (size + 1) (mem_singleton_self start) (nodup_singleton start)]
  constructor
  · rintro ⟨more, rfl, -, hnodup, hlast, hchain⟩
    exact ⟨rfl, hlast, hnodup, hchain⟩
  · intro hp
    have hlength := hp.length_le fun x y hxy => hnext x y hxy
    cases p with
    | nil => exact nomatch hp.head
    | cons x more =>
      obtain rfl : x = start := Option.some.inj hp.head
      rw [length_cons] at hlength
      exact ⟨more, rfl, by omega, hp.nodup, hp.last, hp.steps⟩

end Replatform.Graph

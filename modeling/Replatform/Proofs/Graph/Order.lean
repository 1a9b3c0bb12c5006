import Mathlib.Data.List.Nodup
import Mathlib.Logic.Relation
import Replatform.Graph.Order
/-!
# What the visiting order guarantees

A walk visits `before x` ahead of `x`, unless it is in the middle of a visit there already. The
vertices in the middle of a visit are those that the walk has met and not left. Each of them led to
the next, so from any vertex that is visited now a path leads back to all of them: this is the one
fact that the whole argument is about.

* `Sound` says of a walk that every vertex was left behind all of its `before`, which are met,
  except for those to which a path leads back.
* `Grows` says of two walks, one earlier and one later, that the order was only extended and that
  the same vertices are in the middle of a visit.

A visit keeps the one and is the other (`visit_spec`), and so does a row of visits. The fuel of a
walk is enough if it is at least the number of vertices that the walk has not met (`unmet`). So a
walk meets just the vertices from which a path leads to one that it starts from, and more fuel makes
no difference.
-/

namespace Replatform.Graph

open List Relation

variable {α : Type}

/-- The edges of a graph, given by what stands before each vertex. -/
def Edge (before : α → List α) (x y : α) : Prop := x ∈ before y

section Unmet

variable [DecidableEq α]

/-- The vertices among `vertices` that have not been met. -/
def unmet (vertices seen : List α) : List α := vertices.filter (· ∉ seen)

/-- Meeting a vertex for the first time leaves fewer to meet. -/
theorem length_unmet_cons {vertices seen : List α} {x : α} (hx : x ∈ vertices) (hnew : x ∉ seen) :
    (unmet vertices (x :: seen)).length < (unmet vertices seen).length := by
  have hmem : x ∈ unmet vertices seen := mem_filter.mpr ⟨hx, by simpa using hnew⟩
  have hfilter : unmet vertices (x :: seen) = (unmet vertices seen).filter (· ≠ x) := by
    rw [unmet, unmet, filter_filter]
    congr 1
    funext y
    simp [not_or]
  rw [hfilter]
  exact length_filter_lt_length_iff_exists.mpr ⟨x, hmem, by simp⟩

theorem length_unmet_le {vertices seen seen' : List α} (h : seen ⊆ seen') :
    (unmet vertices seen').length ≤ (unmet vertices seen).length := by
  apply Sublist.length_le
  apply monotone_filter_right
  intro y hy
  simp only [decide_not, Bool.not_eq_eq_eq_not, Bool.not_true, decide_eq_false_iff_not] at hy ⊢
  exact fun hs => hy (h hs)

end Unmet

namespace Walk

/-- The vertex is met, and not left yet. -/
def Inside (w : Walk α) (x : α) : Prop := x ∈ w.seen ∧ x ∉ w.order

/-- Every vertex was left once, with all that stand before it met, and behind them, except for those
to which a path leads back. -/
structure Sound (before : α → List α) (w : Walk α) : Prop where
  nodup : w.order.Nodup
  met : w.order ⊆ w.seen
  complete : ∀ x ∈ w.order, ∀ y ∈ before x, y ∈ w.seen
  behind : ∀ front x back, w.order = front ++ x :: back →
    ∀ y ∈ before x, y ∈ front ∨ TransGen (Edge before) x y

/-- The later walk has left more vertices, and is in the middle of the same visits. -/
structure Grows (w w' : Walk α) : Prop where
  order : w.order <+: w'.order
  seen : w.seen ⊆ w'.seen
  inside : ∀ x, w'.Inside x ↔ w.Inside x

theorem Grows.refl (w : Walk α) : Grows w w := ⟨prefix_refl _, Subset.refl _, fun _ => Iff.rfl⟩

theorem Grows.trans {w₁ w₂ w₃ : Walk α} (h : Grows w₁ w₂) (h' : Grows w₂ w₃) : Grows w₁ w₃ :=
  ⟨h.order.trans h'.order, Subset.trans h.seen h'.seen, fun x => (h'.inside x).trans (h.inside x)⟩

theorem inside_cons {w : Walk α} {x y : α} (h : Inside ⟨x :: w.seen, w.order⟩ y) :
    y = x ∨ w.Inside y :=
  (mem_cons.mp h.1).imp_right fun hy => ⟨hy, h.2⟩

theorem Sound.enter {before : α → List α} {w : Walk α} (h : Sound before w) (x : α) :
    Sound before ⟨x :: w.seen, w.order⟩ :=
  ⟨h.nodup, Subset.trans h.met (subset_cons_self ..),
    fun y hy z hz => mem_cons_of_mem _ (h.complete y hy z hz), h.behind⟩

/-- Leaving the vertex that was met last keeps the walk sound, if what stands before it is met. -/
theorem Sound.leave {before : α → List α} {w : Walk α} (h : Sound before w) {x : α}
    (hx : w.Inside x) (hbefore : ∀ y ∈ before x, y ∈ w.seen)
    (hback : ∀ y, w.Inside y → y ∈ before x → TransGen (Edge before) x y) :
    Sound before { w with order := w.order ++ [x] } := by
  refine ⟨?_, ?_, ?_, ?_⟩
  · exact nodup_append.mpr ⟨h.nodup, nodup_singleton x, fun y hy z hz hyz =>
      hx.2 (by rw [← mem_singleton.mp hz, ← hyz]; exact hy)⟩
  · intro y hy
    rcases mem_append.mp hy with hy | hy
    · exact h.met hy
    · rw [mem_singleton.mp hy]
      exact hx.1
  · intro y hy z hz
    rcases mem_append.mp hy with hy | hy
    · exact h.complete y hy z hz
    · exact hbefore z (mem_singleton.mp hy ▸ hz)
  · intro front z back hsplit y hy
    rcases eq_nil_or_concat back with rfl | ⟨back', last, rfl⟩
    · -- `x` itself
      obtain ⟨hfront, hlast⟩ := append_inj' hsplit rfl
      rw [singleton_inj] at hlast
      subst hlast hfront
      by_cases hleft : y ∈ w.order
      · exact Or.inl hleft
      · exact Or.inr (hback y ⟨hbefore y hy, hleft⟩ hy)
    · have hsplit' : w.order ++ [x] = (front ++ z :: back') ++ [last] := by
        rw [concat_eq_append] at hsplit
        rw [append_assoc, cons_append]
        exact hsplit
      exact h.behind front z back' (append_inj' hsplit' rfl).1 y hy

theorem foldl_order_subset {P : α → Prop} {f : Walk α → α → Walk α}
    (hf : ∀ w x, (∀ y ∈ w.order, P y) → P x → ∀ y ∈ (f w x).order, P y) (xs : List α) :
    ∀ w : Walk α, (∀ y ∈ w.order, P y) → (∀ x ∈ xs, P x) → ∀ y ∈ (xs.foldl f w).order, P y := by
  induction xs with
  | nil => exact fun w hw _ => hw
  | cons x xs ih =>
    intro w hw hxs
    exact ih _ (hf w x hw (hxs x (.head _)))
      (forall_mem_cons.mp hxs).2

end Walk

open Walk

variable [DecidableEq α] {before : α → List α} {vertices : List α}

/-- A walk may visit a vertex with `limit` steps inward: there are as many as vertices that it has
not met, and a path leads from the vertex back to those in the middle of a visit. -/
structure Ready (before : α → List α) (vertices : List α) (limit : Nat) (w : Walk α) (x : α) :
    Prop where
  vertex : x ∈ vertices
  room : (unmet vertices w.seen).length ≤ limit
  back : ∀ y, w.Inside y → TransGen (Edge before) x y

theorem Ready.grows {limit : Nat} {w w' : Walk α} {x : α} (h : Ready before vertices limit w x)
    (hgrows : Grows w w') : Ready before vertices limit w' x :=
  ⟨h.vertex, Nat.le_trans (length_unmet_le hgrows.seen) h.room,
    fun y hy => h.back y ((hgrows.inside y).mp hy)⟩

variable (hclosed : ∀ x ∈ vertices, ∀ y ∈ before x, y ∈ vertices)

include hclosed in
/-- In the middle of a visit to a vertex that is new, the walk may visit what stands before it. -/
theorem Ready.inward {fuel : Nat} {w : Walk α} {x : α}
    (h : Ready before vertices (fuel + 1) w x) (hnew : x ∉ w.seen) :
    ∀ z ∈ before x, Ready before vertices fuel ⟨x :: w.seen, w.order⟩ z := by
  intro z hz
  refine ⟨hclosed x h.vertex z hz, ?_, fun y hy => ?_⟩
  · have hless := length_unmet_cons h.vertex hnew
    exact Nat.le_of_lt_succ (Nat.lt_of_lt_of_le hless h.room)
  · -- through `x`, a path leads back from what stands before it
    rcases inside_cons hy with rfl | hy
    · exact TransGen.single hz
    · exact TransGen.head hz (h.back y hy)

/-- With no vertex left to meet, the vertex is met. -/
theorem Ready.mem_seen {w : Walk α} {x : α} (h : Ready before vertices 0 w x) : x ∈ w.seen := by
  by_contra hnew
  have hmem : x ∈ unmet vertices w.seen := mem_filter.mpr ⟨h.vertex, by simpa using hnew⟩
  rw [eq_nil_of_length_eq_zero (Nat.le_zero.mp h.room)] at hmem
  exact not_mem_nil hmem

/-- What it means that `f` visits the vertex it is given, wherever the walk may. -/
def Visits (before : α → List α) (vertices : List α) (limit : Nat) (f : Walk α → α → Walk α) :
    Prop :=
  ∀ (w : Walk α) (x : α), Sound before w → Ready before vertices limit w x →
    Sound before (f w x) ∧ Grows w (f w x) ∧ x ∈ (f w x).seen

/-- Visits one after the other are like one visit to each. -/
theorem Visits.foldl {limit : Nat} {f : Walk α → α → Walk α} (hf : Visits before vertices limit f)
    (xs : List α) : ∀ w : Walk α, Sound before w → (∀ x ∈ xs, Ready before vertices limit w x) →
      Sound before (xs.foldl f w) ∧ Grows w (xs.foldl f w) ∧ ∀ x ∈ xs, x ∈ (xs.foldl f w).seen := by
  induction xs with
  | nil =>
    intro w hw _
    exact ⟨hw, Grows.refl w, by simp⟩
  | cons x xs ih =>
    intro w hw hxs
    obtain ⟨hsound, hgrows, hseen⟩ := hf w x hw (hxs x (.head _))
    obtain ⟨hsound', hgrows', hseen'⟩ := ih (f w x) hsound
      fun y hy => (hxs y (.tail _ hy)).grows hgrows
    refine ⟨hsound', hgrows.trans hgrows', ?_⟩
    intro y hy
    rcases mem_cons.mp hy with rfl | hy
    · exact hgrows'.seen hseen
    · exact hseen' y hy

include hclosed in
/-- With as much fuel as there are vertices to meet, `visit` visits. -/
theorem visit_spec (fuel : Nat) : Visits before vertices fuel (visit before fuel) := by
  induction fuel with
  | zero => exact fun w x hw hx => ⟨hw, Grows.refl w, hx.mem_seen⟩
  | succ fuel ih =>
    intro w x hw hx
    rw [visit]
    split
    next hseen => exact ⟨hw, Grows.refl w, hseen⟩
    next hnew =>
      have hleft : x ∉ w.order := fun h => hnew (hw.met h)
      obtain ⟨hsound, hgrows, hmet⟩ :=
        ih.foldl (before x) ⟨x :: w.seen, w.order⟩ (hw.enter x) (hx.inward hclosed hnew)
      have hx' : Inside ((before x).foldl (visit before fuel) ⟨x :: w.seen, w.order⟩) x :=
        (hgrows.inside x).mpr ⟨.head _, hleft⟩
      refine ⟨?_, ⟨?_, ?_, ?_⟩, hgrows.seen (.head _)⟩
      · refine hsound.leave hx' hmet fun y hy hyx => ?_
        rcases inside_cons ((hgrows.inside y).mp hy) with rfl | hy
        · exact TransGen.single hyx
        · exact hx.back y hy
      · exact hgrows.order.trans (prefix_append _ _)
      · exact Subset.trans (subset_cons_self ..) hgrows.seen
      · intro y
        constructor
        · rintro ⟨hy, hyo⟩
          have hyo' := mem_append.not.mp hyo
          rw [not_or, mem_singleton] at hyo'
          exact (inside_cons ((hgrows.inside y).mp ⟨hy, hyo'.1⟩)).resolve_left hyo'.2
        · rintro ⟨hy, hyo⟩
          have hin := (hgrows.inside y).mpr ⟨.tail _ hy, hyo⟩
          refine ⟨hin.1, fun h => ?_⟩
          rcases mem_append.mp h with h | h
          · exact hin.2 h
          · exact hnew (mem_singleton.mp h ▸ hy)

/-- Where two functions agree on every vertex that may be visited, they agree on a row of them. -/
theorem Visits.foldl_congr {limit : Nat} {f f' : Walk α → α → Walk α}
    (hf : Visits before vertices limit f) (h : ∀ (w : Walk α) (x : α), Sound before w →
      Ready before vertices limit w x → f w x = f' w x) (xs : List α) :
    ∀ w : Walk α, Sound before w → (∀ x ∈ xs, Ready before vertices limit w x) →
      xs.foldl f w = xs.foldl f' w := by
  induction xs with
  | nil => exact fun _ _ _ => rfl
  | cons x xs ih =>
    intro w hw hxs
    have hx := hxs x (.head _)
    obtain ⟨hsound, hgrows, -⟩ := hf w x hw hx
    rw [foldl_cons, foldl_cons, ← h w x hw hx]
    exact ih (f w x) hsound fun y hy => (hxs y (.tail _ hy)).grows hgrows

include hclosed in
/-- More fuel than there are vertices to meet makes no difference. -/
theorem visit_fuel (fuel : Nat) :
    ∀ (fuel' : Nat) (w : Walk α) (x : α), fuel ≤ fuel' → Sound before w →
      Ready before vertices fuel w x → visit before fuel w x = visit before fuel' w x := by
  induction fuel with
  | zero =>
    intro fuel' w x _ _ hx
    cases fuel' with
    | zero => rfl
    | succ fuel' => rw [visit, visit, if_pos hx.mem_seen]
  | succ fuel ih =>
    intro fuel' w x hle hw hx
    obtain ⟨fuel', rfl⟩ : ∃ n, fuel' = n + 1 := ⟨fuel' - 1, by omega⟩
    rw [visit, visit]
    split
    next => rfl
    next hnew =>
      rw [(visit_spec hclosed fuel).foldl_congr (fun w x => ih fuel' w x (by omega)) (before x)
        _ (hw.enter x) (hx.inward hclosed hnew)]

/-- A walk stays among vertices that hold all that stands before them. -/
theorem visit_order_subset {P : α → Prop} (hP : ∀ x, P x → ∀ y ∈ before x, P y) (fuel : Nat) :
    ∀ (w : Walk α) (x : α), (∀ y ∈ w.order, P y) → P x →
      ∀ y ∈ (visit before fuel w x).order, P y := by
  induction fuel with
  | zero =>
    intro w x hw _
    exact hw
  | succ fuel ih =>
    intro w x hw hx
    rw [visit]
    split
    next => exact hw
    next =>
      intro y hy
      rcases mem_append.mp hy with hy | hy
      · exact foldl_order_subset ih (before x) ⟨x :: w.seen, w.order⟩ hw (hP x hx) y hy
      · exact mem_singleton.mp hy ▸ hx

/-! ## The order of all vertices -/

section VisitOrder

variable {xs : List α} {size : Nat}

theorem visitOrder_subset {P : α → Prop} (hP : ∀ x, P x → ∀ y ∈ before x, P y)
    (hxs : ∀ x ∈ xs, P x) : ∀ y ∈ visitOrder before size xs, P y :=
  foldl_order_subset (visit_order_subset hP (size + 1)) xs ⟨[], []⟩ (by simp) hxs

variable (hxs : ∀ x ∈ xs, x ∈ vertices) (hsize : vertices.length ≤ size)

include hclosed hxs hsize

omit [DecidableEq α] hclosed hxs hsize in
theorem sound_start : Sound before ⟨[], []⟩ := ⟨nodup_nil, Subset.refl _, by simp, by simp⟩

omit hclosed in
theorem ready_start : ∀ x ∈ xs, Ready before vertices (size + 1) ⟨[], []⟩ x := fun x hx =>
  ⟨hxs x hx, Nat.le_trans (length_filter_le ..) (by omega), fun _ hy => absurd hy.1 not_mem_nil⟩

/-- The order is that of a sound walk that has left all it has met. -/
theorem visitOrder_spec : ∃ w : Walk α, w = xs.foldl (visit before (size + 1)) ⟨[], []⟩
    ∧ Sound before w ∧ (∀ x, x ∈ w.seen ↔ x ∈ visitOrder before size xs)
    ∧ ∀ x ∈ xs, x ∈ visitOrder before size xs := by
  obtain ⟨hsound, hgrows, hseen⟩ := (visit_spec hclosed (size + 1)).foldl xs ⟨[], []⟩ sound_start
    (ready_start hxs hsize)
  have hleft : ∀ x, x ∈ (xs.foldl (visit before (size + 1)) ⟨[], []⟩).seen →
      x ∈ visitOrder before size xs := by
    intro x hx
    by_contra hout
    exact absurd ((hgrows.inside x).mp ⟨hx, hout⟩).1 not_mem_nil
  exact ⟨_, rfl, hsound, fun x => ⟨hleft x, fun hx => hsound.met hx⟩,
    fun x hx => hleft x (hseen x hx)⟩

theorem nodup_visitOrder : (visitOrder before size xs).Nodup := by
  obtain ⟨w, rfl, hsound, -⟩ := visitOrder_spec hclosed hxs hsize
  exact hsound.nodup

theorem subset_visitOrder : xs ⊆ visitOrder before size xs := by
  obtain ⟨-, -, -, -, hall⟩ := visitOrder_spec hclosed hxs hsize
  exact hall

theorem visitOrder_size {size' : Nat} (hle : size ≤ size') :
    visitOrder before size xs = visitOrder before size' xs := by
  unfold visitOrder
  rw [(visit_spec hclosed (size + 1)).foldl_congr
    (fun w x => visit_fuel hclosed (size + 1) (size' + 1) w x (by omega)) xs ⟨[], []⟩ sound_start
    (ready_start hxs hsize)]

/-- A walk meets the vertices from which a path leads to one that it starts from. -/
theorem mem_visitOrder_iff {y : α} :
    y ∈ visitOrder before size xs ↔ ∃ x ∈ xs, ReflTransGen (Edge before) y x := by
  constructor
  · intro hy
    refine visitOrder_subset (P := fun y => ∃ x ∈ xs, ReflTransGen (Edge before) y x) ?_ ?_ y hy
    · rintro z ⟨x, hx, hpath⟩ u hu
      exact ⟨x, hx, hpath.head hu⟩
    · exact fun x hx => ⟨x, hx, .refl⟩
  · obtain ⟨w, rfl, hsound, hseen, hall⟩ := visitOrder_spec hclosed hxs hsize
    rintro ⟨x, hx, hpath⟩
    induction hpath using ReflTransGen.head_induction_on with
    | refl => exact hall x hx
    | @head a b hab _ ih => exact (hseen a).mp (hsound.complete b ih a hab)

end VisitOrder

end Replatform.Graph

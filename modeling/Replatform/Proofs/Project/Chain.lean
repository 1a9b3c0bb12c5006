import Mathlib.Data.List.Perm.Basic
import Replatform.Project.Chain
import Replatform.Proofs.Workflow.Connections
/-!
# Chains are a partition

A chain takes one tool after the other from those that no chain has taken. So the chains of a layer
have each tool of the layer once (`flatten_chains_perm`), if no two tools share a number: a tool
counts as taken when its number is.
-/

namespace Replatform.Project

open List Workflow

variable (w : Workflow) (layer : Tool → Bool)

variable {w layer} in
/-- What a chain goes on to: a tool of the layer that is not taken. -/
theorem nextInChain?_eq_some {taken : List Int} {t n : Tool}
    (h : nextInChain? w layer taken t = some n) :
    n ∈ w.tools ∧ layer n ∧ n.id ∉ taken := by
  unfold nextInChain? at h
  split at h
  next m hnext =>
    have hm : m ∈ (w.downstream t.id).filter fun n => layer n && !taken.contains n.id := by
      rw [hnext]
      exact mem_singleton_self m
    obtain ⟨hdown, hfree⟩ := mem_filter.mp hm
    split at h
    · cases h
      simp only [Bool.and_eq_true, Bool.not_eq_true', contains_eq_mem,
        decide_eq_false_iff_not] at hfree
      exact ⟨(mem_filter.mp hdown).1, hfree⟩
    · exact nomatch h
  next => exact nomatch h

section Grow

variable (fuel : Nat)

/-- The numbers of a chain are taken behind those that were taken before. -/
theorem growChain_taken : ∀ (taken : List Int) (t : Tool), (growChain w layer fuel taken t).2
    = ((growChain w layer fuel taken t).1.map (·.id)).reverse ++ taken := by
  induction fuel with
  | zero => exact fun taken t => rfl
  | succ fuel ih =>
    intro taken t
    rw [growChain]
    split
    · rfl
    next n _ =>
      dsimp only
      rw [ih (n.id :: taken) n]
      simp

theorem nodup_growChain : ∀ (taken : List Int) (t : Tool), taken.Nodup →
    (growChain w layer fuel taken t).2.Nodup := by
  induction fuel with
  | zero => exact fun taken t h => h
  | succ fuel ih =>
    intro taken t htaken
    rw [growChain]
    split
    · exact htaken
    next n hnext =>
      exact ih (n.id :: taken) n (nodup_cons.mpr ⟨(nextInChain?_eq_some hnext).2.2, htaken⟩)

theorem mem_growChain : ∀ (taken : List Int) (t : Tool), ∀ n ∈ (growChain w layer fuel taken t).1,
    n ∈ w.tools ∧ layer n := by
  induction fuel with
  | zero => exact fun taken t n hn => nomatch hn
  | succ fuel ih =>
    intro taken t n hn
    rw [growChain] at hn
    split at hn
    · exact nomatch hn
    next m hnext =>
      rcases mem_cons.mp hn with rfl | hn
      · exact ⟨(nextInChain?_eq_some hnext).1, (nextInChain?_eq_some hnext).2.1⟩
      · exact ih (m.id :: taken) m n hn

end Grow

section ChainsFrom

variable (ts : List Tool)

/-- No number is taken twice. -/
theorem nodup_chainsFrom : ∀ taken : List Int, taken.Nodup →
    (taken ++ (chainsFrom w layer taken ts).flatten.map (·.id)).Nodup := by
  induction ts with
  | nil =>
    intro taken htaken
    simpa [chainsFrom] using htaken
  | cons t ts ih =>
    intro taken htaken
    rw [chainsFrom]
    split
    · exact ih taken htaken
    next hfree =>
      have hstart : (t.id :: taken).Nodup :=
        nodup_cons.mpr ⟨fun h => hfree (contains_iff_mem.mpr h), htaken⟩
      have hrest := ih _ (nodup_growChain w layer (w.tools.length + 1) _ t hstart)
      refine (Perm.nodup_iff ?_).mp hrest
      dsimp only
      rw [flatten_cons, map_append, ← append_assoc]
      refine Perm.append_right _ ?_
      -- the chain itself was taken in the opposite order
      rw [growChain_taken, map_cons]
      exact perm_append_comm.trans
        ((Perm.append_left _ (reverse_perm _)).trans perm_middle.symm)

theorem mem_chainsFrom (hts : ∀ t ∈ ts, t ∈ w.tools ∧ layer t) :
    ∀ taken : List Int, ∀ n ∈ (chainsFrom w layer taken ts).flatten,
      n ∈ w.tools ∧ layer n := by
  induction ts with
  | nil => exact fun taken n hn => nomatch hn
  | cons t ts ih =>
    intro taken n hn
    have ih := ih (forall_mem_cons.mp hts).2
    rw [chainsFrom] at hn
    split at hn
    · exact ih taken n hn
    · dsimp only at hn
      rw [flatten_cons, cons_append, mem_cons, mem_append] at hn
      rcases hn with rfl | hn | hn
      · exact hts n (.head _)
      · exact mem_growChain w layer _ _ _ n hn
      · exact ih _ n hn

/-- Every tool is in a chain, unless it was taken before. -/
theorem covered_chainsFrom : ∀ taken : List Int, ∀ t ∈ ts,
    t.id ∈ taken ∨ t.id ∈ (chainsFrom w layer taken ts).flatten.map (·.id) := by
  induction ts with
  | nil => exact fun taken t ht => nomatch ht
  | cons u ts ih =>
    intro taken t ht
    rw [chainsFrom]
    split
    next htaken =>
      rcases mem_cons.mp ht with rfl | ht
      · exact .inl (contains_iff_mem.mp htaken)
      · exact ih taken t ht
    next =>
      dsimp only
      rw [flatten_cons, map_append, mem_append, map_cons, mem_cons]
      rcases mem_cons.mp ht with rfl | ht
      · exact .inr (.inl (.inl rfl))
      · rcases ih (growChain w layer (w.tools.length + 1) (u.id :: taken) u).2 t ht with hmem | hmem
        · rw [growChain_taken, mem_append, mem_reverse, mem_cons] at hmem
          rcases hmem with hmem | hmem | hmem
          · exact .inr (.inl (.inr hmem))
          · exact .inr (.inl (.inl hmem))
          · exact .inl hmem
        · exact .inr (.inr hmem)

theorem ne_nil_of_mem_chainsFrom : ∀ taken : List Int,
    ∀ chain ∈ chainsFrom w layer taken ts, chain ≠ [] := by
  induction ts with
  | nil => exact fun taken chain h => nomatch h
  | cons t ts ih =>
    intro taken chain h
    rw [chainsFrom] at h
    split at h
    · exact ih taken chain h
    · rcases mem_cons.mp h with rfl | h
      · exact cons_ne_nil _ _
      · exact ih _ chain h

end ChainsFrom

variable {w} in
/-- The chains of a layer have each of its tools once. -/
theorem flatten_chains_perm (hids : w.Distinct) (layer : Layer) :
    (chains w layer).flatten.Perm (w.inLayer layer) := by
  have hnodup := nodup_chainsFrom w (w.isIn layer) (w.inLayer layer) [] nodup_nil
  rw [nil_append] at hnodup
  have hmem : ∀ t ∈ (chains w layer).flatten, t ∈ w.tools ∧ w.isIn layer t :=
    mem_chainsFrom w (w.isIn layer) (w.inLayer layer) (fun t ht => mem_filter.mp ht) []
  refine (perm_ext_iff_of_nodup hnodup.of_map (hids.of_map.filter _)).mpr fun t => ?_
  constructor
  · exact fun ht => mem_filter.mpr (hmem t ht)
  · intro ht
    rcases covered_chainsFrom w (w.isIn layer) (w.inLayer layer) [] t ht with h | h
    · exact nomatch h
    · obtain ⟨u, hu, hid⟩ := mem_map.mp h
      have htools : t ∈ w.tools := (mem_filter.mp ht).1
      rw [← inj_on_of_nodup_map hids (hmem u hu).1 htools hid]
      exact hu

end Replatform.Project

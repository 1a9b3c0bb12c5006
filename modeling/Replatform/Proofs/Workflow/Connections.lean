import Mathlib.Data.Finset.Card
import Mathlib.Logic.Relation
import Replatform.Workflow.Basic
/-!
# Connections as a relation

The connections of a workflow lead from number to number, whether or not a tool has the number. What
is said about order and dependence is said about this relation and the paths along it.
-/

namespace Replatform.Workflow

open List Relation

variable {a b id : Int} {u : Tool}

variable {w : Workflow}

/-- A connection leads from one number to another. -/
def Feeds (w : Workflow) (a b : Int) : Prop := ∃ c ∈ w.connections, c.origin = a ∧ c.target = b

/-- No path of connections leads back to where it began. -/
def Acyclic (w : Workflow) : Prop := ∀ a, ¬ TransGen w.Feeds a a

/-- No two tools share a number. -/
def Distinct (w : Workflow) : Prop := (w.tools.map (·.id)).Nodup

instance (w : Workflow) : Decidable w.Distinct := inferInstanceAs (Decidable (Nodup _))

theorem mem_previousIds : a ∈ w.previousIds b ↔ w.Feeds a b := by
  unfold previousIds incoming Feeds
  rw [mem_map]
  constructor
  · rintro ⟨c, hc, rfl⟩
    obtain ⟨hmem, htarget⟩ := mem_filter.mp hc
    exact ⟨c, hmem, rfl, eq_of_beq htarget⟩
  · rintro ⟨c, hmem, rfl, rfl⟩
    exact ⟨c, mem_filter.mpr ⟨hmem, beq_self_eq_true _⟩, rfl⟩

theorem mem_nextIds : b ∈ w.nextIds a ↔ w.Feeds a b := by
  unfold nextIds outgoing Feeds
  rw [mem_map]
  constructor
  · rintro ⟨c, hc, rfl⟩
    obtain ⟨hmem, horigin⟩ := mem_filter.mp hc
    exact ⟨c, hmem, eq_of_beq horigin, rfl⟩
  · rintro ⟨c, hmem, rfl, rfl⟩
    exact ⟨c, mem_filter.mpr ⟨hmem, beq_self_eq_true _⟩, rfl⟩

theorem mem_upstream : u ∈ w.upstream id ↔ u ∈ w.tools ∧ w.Feeds u.id id := by
  rw [← mem_previousIds]
  simp only [upstream, toolsAmong, previousIds, mem_filter, contains_iff_mem]

theorem mem_downstream : u ∈ w.downstream id ↔ u ∈ w.tools ∧ w.Feeds id u.id := by
  rw [← mem_nextIds]
  simp only [downstream, toolsAmong, nextIds, mem_filter, contains_iff_mem]

theorem isFinal_eq_false (h : w.Feeds a b) : w.isFinal a = false := by
  obtain ⟨c, hc, rfl, -⟩ := h
  have hout : c ∈ w.outgoing c.origin := mem_filter.mpr ⟨hc, beq_self_eq_true _⟩
  simpa [isFinal] using ne_nil_of_mem hout

theorem mem_of_upstreamAt? {anchor : String} (h : w.upstreamAt? id anchor = some u) :
    u ∈ w.tools ∧ w.Feeds u.id id := by
  obtain ⟨c, hc, hu⟩ := Option.bind_eq_some_iff.mp h
  obtain ⟨hmem, htarget⟩ := mem_filter.mp (mem_of_find?_eq_some hc)
  have hid : u.id = c.origin := by simpa using find?_some hu
  exact ⟨mem_of_find?_eq_some hu, c, hmem, hid.symm, eq_of_beq htarget⟩

/-- The tool with a number is the one that has it, when no two share theirs. -/
theorem tool?_eq_some_iff (hids : w.Distinct) {t : Tool} :
    w.tool? id = some t ↔ t ∈ w.tools ∧ t.id = id := by
  constructor
  · intro h
    exact ⟨mem_of_find?_eq_some h, by simpa using find?_some h⟩
  · rintro ⟨hmem, rfl⟩
    unfold tool?
    cases hfind : w.tools.find? (·.id == t.id) with
    | none => exact absurd (find?_eq_none.mp hfind t hmem) (by simp)
    | some u =>
      have hu := mem_of_find?_eq_some hfind
      have hid : u.id = t.id := by simpa using find?_some hfind
      rw [inj_on_of_nodup_map hids hu hmem hid]

/-- The numbers that tools and connections name. -/
def numbers (w : Workflow) : List Int :=
  w.tools.map (·.id) ++ (w.connections.map (·.origin) ++ w.connections.map (·.target))

theorem length_numbers_le (w : Workflow) : w.numbers.length ≤ w.size := by
  simp only [numbers, size, length_append, length_map]
  omega

theorem Feeds.origin_mem (h : w.Feeds a b) : a ∈ w.numbers := by
  obtain ⟨c, hc, rfl, -⟩ := h
  exact mem_append_right _ (mem_append_left _ (mem_map_of_mem hc))

theorem Feeds.target_mem (h : w.Feeds a b) : b ∈ w.numbers := by
  obtain ⟨c, hc, -, rfl⟩ := h
  exact mem_append_right _ (mem_append_right _ (mem_map_of_mem hc))

/-! ## Workflows without circles -/

open Classical in
/-- How many numbers lead to a number. -/
noncomputable def rank (w : Workflow) (b : Int) : Nat :=
  (w.numbers.toFinset.filter fun a => TransGen w.Feeds a b).card

/-- Without circles, more numbers lead to a number than to those before it. -/
theorem Acyclic.rank_lt (h : w.Acyclic) (hab : w.Feeds a b) : w.rank a < w.rank b := by
  classical
  refine Finset.card_lt_card (Finset.ssubset_iff_subset_ne.mpr ⟨fun x hx => ?_, fun he => ?_⟩)
  · rw [Finset.mem_filter] at hx ⊢
    exact ⟨hx.1, hx.2.tail hab⟩
  · have ha : a ∈ w.numbers.toFinset.filter fun x => TransGen w.Feeds x b :=
      Finset.mem_filter.mpr ⟨mem_toFinset.mpr hab.origin_mem, .single hab⟩
    rw [← he, Finset.mem_filter] at ha
    exact h a ha.2

/-- A workflow whose connections all lead to greater numbers has no circles. -/
theorem acyclic_of_ascending (h : ∀ c ∈ w.connections, c.origin < c.target) : w.Acyclic := by
  have hlt : ∀ {a b}, TransGen w.Feeds a b → a < b := by
    intro a b hab
    induction hab with
    | single hab =>
      obtain ⟨c, hc, rfl, rfl⟩ := hab
      exact h c hc
    | tail _ hbc ih =>
      obtain ⟨c, hc, rfl, rfl⟩ := hbc
      exact ih.trans (h c hc)
  exact fun a ha => lt_irrefl a (hlt ha)

end Replatform.Workflow

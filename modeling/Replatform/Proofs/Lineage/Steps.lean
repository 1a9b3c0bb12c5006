import Replatform.Lineage.Step
import Replatform.Proofs.Failure
import Replatform.Proofs.Graph.Order
import Replatform.Proofs.Workflow.Connections
/-!
# The order of steps

The steps of a workflow are its tools in the order of a walk along the connections, against their
direction. There are steps unless a tool cannot be put in words (`Describable`): the line on a tool
names the fields that it adds up or sorts by, and a record may lack them.

Otherwise every tool is one step, the numbers of the steps are their places in the walk, and a tool
comes behind all that it reads from, as far as the connections allow that (`InOrder`).
-/

namespace Replatform

open List Relation

variable {key : String} {t : Tool} {e : Failure} {n : Nat} {macros : Bool} {steps : List Step}

/-! ## Tools in words -/

namespace Lineage

/-- The records that the line on a tool names are complete: of the first two sums of a `Summarize`
the action and the field are known, and of the first two keys of a `Sort` the field and the
order. -/
structure Describable (t : Tool) : Prop where
  sums : t.category ≠ .input → t.category ≠ .output → t.name = "Summarize" →
    ∀ s ∈ t.summaries.take 2, s.action.isSome ∧ s.field.isSome
  sorts : t.category ≠ .input → t.category ≠ .output → t.name = "Sort" →
    ∀ r ∈ (t.settingRecords "sort_fields").take 2,
      (fieldText? r "field").isSome ∧ (fieldText? r "order").isSome

theorem exists_ofBoth {key' : String} {write : String → String → String} {o o' : Option String} :
    (∃ text, ofBoth key key' write o o' = .ok text) ↔ o.isSome ∧ o'.isSome := by
  cases o <;> cases o' <;> simp [ofBoth]

theorem exists_describeSummaries : (∃ parts, describeSummaries t = .ok parts)
    ↔ ∀ s ∈ t.summaries.take 2, s.action.isSome ∧ s.field.isSome := by
  have hall : (∀ s ∈ t.summaries.take 2, s.action.isSome ∧ s.field.isSome)
      ↔ ∀ s ∈ t.summaries.take 2, ∃ text, describeSummary s = .ok text :=
    forall₂_congr fun _ _ => exists_ofBoth.symm
  rw [hall, ← exists_mapM_eq_ok]
  simp only [describeSummaries, bind_eq_ok]
  exact ⟨fun ⟨_, sums, hsums, _⟩ => ⟨sums, hsums⟩, fun ⟨sums, hsums⟩ => ⟨_, sums, hsums, rfl⟩⟩

theorem exists_describeSorts : (∃ parts, describeSorts t = .ok parts)
    ↔ ∀ r ∈ (t.settingRecords "sort_fields").take 2,
      (fieldText? r "field").isSome ∧ (fieldText? r "order").isSome := by
  have hall : (∀ r ∈ (t.settingRecords "sort_fields").take 2,
      (fieldText? r "field").isSome ∧ (fieldText? r "order").isSome)
      ↔ ∀ r ∈ (t.settingRecords "sort_fields").take 2, ∃ text, describeSort r = .ok text :=
    forall₂_congr fun _ _ => exists_ofBoth.symm
  rw [hall, ← exists_mapM_eq_ok]
  simp only [describeSorts, bind_eq_ok]
  exact ⟨fun ⟨_, sorts, hsorts, _⟩ => ⟨sorts, hsorts⟩,
    fun ⟨sorts, hsorts⟩ => ⟨_, sorts, hsorts, rfl⟩⟩

/-- Only sums and sort keys are asked for. -/
theorem describable_of_name (hsum : t.name ≠ "Summarize") (hsort : t.name ≠ "Sort") :
    Describable t :=
  ⟨fun _ _ h => absurd h hsum, fun _ _ h => absurd h hsort⟩

/-- A tool can be put in words if the records that are named are complete. -/
theorem exists_describe : (∃ text, describe t = .ok text) ↔ Describable t := by
  have hplain : t.name ≠ "Summarize" → t.name ≠ "Sort" → ∀ parts : List String,
      (∃ parts', (.ok parts : Except Failure (List String)) = .ok parts') ↔ Describable t :=
    fun hsum hsort parts => iff_of_true ⟨parts, rfl⟩ (describable_of_name hsum hsort)
  rw [describe, exists_map_eq_ok]
  unfold describeParts
  split
  next h => exact iff_of_true ⟨_, rfl⟩ ⟨fun hin => absurd h hin, fun hin => absurd h hin⟩
  next h => exact iff_of_true ⟨_, rfl⟩ ⟨fun _ hout => absurd h hout, fun _ hout => absurd h hout⟩
  next h _ _ => exact hplain (by rw [h]; decide) (by rw [h]; decide) _
  next h _ _ => exact hplain (by rw [h]; decide) (by rw [h]; decide) _
  next h _ _ => exact hplain (by rw [h]; decide) (by rw [h]; decide) _
  next h _ _ => exact hplain (by rw [h]; decide) (by rw [h]; decide) _
  next h hin hout =>
    rw [exists_map_eq_ok, exists_describeSummaries]
    exact ⟨fun hs => ⟨fun _ _ _ => hs, fun _ _ hsort => absurd (h.symm.trans hsort) (by decide)⟩,
      fun hd => hd.sums hin hout h⟩
  next h _ _ => exact hplain (by rw [h]; decide) (by rw [h]; decide) _
  next h hin hout =>
    rw [exists_map_eq_ok, exists_describeSorts]
    exact ⟨fun hs => ⟨fun _ _ hsum => absurd (h.symm.trans hsum) (by decide), fun _ _ _ => hs⟩,
      fun hd => hd.sorts hin hout h⟩
  next hsum _ hsort =>
    split
    next => exact hplain hsum hsort _
    next => exact hplain hsum hsort _

end Lineage

/-! ## Places -/

namespace Workflow

open Lineage

variable {w : Workflow} {ids : List Int}

/-- The tool with a number, and the place of the number. Places are counted from 1. -/
def place? (w : Workflow) (p : Int × Nat) : Option (Tool × Nat) := (w.tool? p.1).map (·, p.2 + 1)

/-- The tools with the numbers, with the places of the numbers. -/
def placed (w : Workflow) (ids : List Int) : List (Tool × Nat) := ids.zipIdx.filterMap w.place?

theorem map_fst_placed : (w.placed ids).map (·.1) = ids.filterMap w.tool? := by
  unfold placed
  rw [map_filterMap]
  conv_rhs => rw [← zipIdx_map_fst 0 ids, filterMap_map]
  congr 1
  funext p
  cases h : w.tool? p.1 <;> simp [place?, h]

theorem step_eq_ok {s : Step} (h : w.step macros t n = .ok s) : (s.tool, s.number) = (t, n) := by
  obtain ⟨_, -, hpure⟩ := bind_eq_ok.mp h
  rw [← Except.ok.inj hpure]

theorem exists_step : (∃ s, w.step macros t n = .ok s) ↔ Describable t := by
  rw [← exists_describe]
  constructor
  · rintro ⟨s, hs⟩
    obtain ⟨text, htext, -⟩ := bind_eq_ok.mp hs
    exact ⟨text, htext⟩
  · rintro ⟨text, htext⟩
    exact ⟨_, bind_eq_ok.mpr ⟨text, htext, rfl⟩⟩

theorem stepsOf_eq (w : Workflow) (macros : Bool) (ids : List Int) :
    w.stepsOf macros ids = (w.placed ids).mapM fun (t, n) => w.step macros t n := rfl

theorem map_stepsOf (h : w.stepsOf macros ids = .ok steps) :
    steps.map (fun s => (s.tool, s.number)) = w.placed ids := by
  rw [stepsOf_eq, mapM_eq_ok] at h
  generalize w.placed ids = places at h ⊢
  induction h with
  | nil => rfl
  | cons hs _ ih => rw [map_cons, ih, step_eq_ok hs]

/-! ## The order -/

/-- If connections lead between tools only, the order holds the numbers of tools only. -/
theorem found_of_mem_order
    (hends : ∀ c ∈ w.connections, (w.tool? c.origin).isSome ∧ (w.tool? c.target).isSome) :
    ∀ id ∈ w.order, (w.tool? id).isSome := by
  apply Graph.visitOrder_subset
  · intro x _ y hy
    obtain ⟨c, hc, rfl, -⟩ := mem_previousIds.mp hy
    exact (hends c hc).1
  · intro id hid
    obtain ⟨t, ht, rfl⟩ := mem_map.mp hid
    rw [tool?, find?_isSome]
    exact ⟨t, ht, beq_self_eq_true _⟩

/-- A source, two tools that feed each other, and a connection from a number without a tool. -/
def circular : Workflow :=
  { metadata := { name := "circular", path := "circular.yxmd" }
    tools := [{ id := 2, name := "Filter" }, { id := 3, name := "Formula" },
      { id := 1, name := "Input Data", category := .input }]
    connections := [⟨1, "Output", 2, "Input"⟩, ⟨2, "True", 3, "Input"⟩, ⟨3, "Output", 2, "Input"⟩,
      ⟨9, "Output", 3, "Input"⟩] }

end Workflow

end Replatform

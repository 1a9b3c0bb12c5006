import Mathlib.Data.List.TakeWhile
import Replatform.Proofs.Project.Attribution
/-!
# When items are noted

The items of a project come in three groups, one after the other. Before a model is entered for the
first time, items belong to no model, and their layer is unknown. From then on they belong to the
models of the layers. At the end, a validation has an item of its own. These are all items
(`todos_generate_groups`), also if the work fails on the way.
-/

namespace Replatform.Project

open List Stateful

/-- Items are added at the end, and all that are have a property. -/
def Adds (Q : Todo → Prop) (b b' : Build) : Prop :=
  ∃ new, b'.todos = b.todos ++ new ∧ ∀ t ∈ new, Q t

section Adds

variable {Q : Todo → Prop}

theorem Adds.of_eq {b b' : Build} (h : b'.todos = b.todos) : Adds Q b b' :=
  ⟨[], h.trans (append_nil _).symm, forall_mem_nil _⟩

instance : IsPreorder Build (Adds Q) where
  refl _ := .of_eq rfl
  trans _ _ _ := by
    rintro ⟨new, hnew, hQ⟩ ⟨new', hnew', hQ'⟩
    refine ⟨new ++ new', by rw [hnew', hnew, append_assoc], fun t ht => ?_⟩
    exact (mem_append.mp ht).elim (hQ t) (hQ' t)

instance : Writing (Adds Q) where
  session _ _ := .of_eq rfl

/-- What is added behind a step, if the step comes to an end. -/
theorem Adds.bind {α β : Type} {x : Work α} {f : α → Work β} {b : Build}
    (hf : ∀ a, Adds Q (state x b) (state (f a) (state x b))) :
    Adds Q (state x b) (state (x >>= f) b) := by
  cases hresult : result x b with
  | error e => exact state_bind_of_error hresult ▸ .of_eq rfl
  | ok a => exact state_bind_of_ok hresult ▸ hf a

end Adds

/-! ## Models -/

def Place.IsModel (p : Place) : Prop := p.model ≠ "" ∧ ∃ layer : Layer, p.layer = layer.name

/-- The item belongs to a model in one of the layers. -/
def Todo.OfModel (t : Todo) : Prop := t.model ≠ "" ∧ ∃ layer : Layer, t.layer = layer.name

theorem Todo.At.ofModel {t : Todo} {p : Place} (h : t.At p) (hp : p.IsModel) : t.OfModel := by
  obtain ⟨hmodel, layer, hlayer⟩ := hp
  refine ⟨h.model ▸ hmodel, layer, ?_⟩
  rw [h.layer, hlayer, if_neg (by cases layer <;> decide)]

namespace Part

theorem isModel_of_entered {p : Part} {place : Place} (h : p.entered? = some place) :
    place.IsModel := by
  cases p with
  | bronze w t =>
    cases h
    exact ⟨by simp, .bronze, rfl⟩
  | silver w t =>
    cases h
    exact ⟨by simp, .silver, rfl⟩
  | gold w t =>
    cases h
    refine ⟨?_, .gold, rfl⟩
    dsimp only
    unfold resultModelName
    dsimp only
    split <;> simp
  | directories | macroFile | macroList | sources | start | chain => cases h

/-- Once a model is entered, items belong to models. -/
def InModels (b b' : Build) : Prop := b.place.IsModel → b'.place.IsModel ∧ Adds Todo.OfModel b b'

instance : IsPreorder Build InModels where
  refl b h := ⟨h, refl_of (Adds _) b⟩
  trans _ _ _ h h' hmodel := by
    obtain ⟨hmodel, hadds⟩ := h hmodel
    obtain ⟨hmodel, hadds'⟩ := h' hmodel
    exact ⟨hmodel, trans_of (Adds _) hadds hadds'⟩

theorem inModels_run (p : Part) : Within InModels p.run := by
  intro b hmodel
  obtain ⟨hplace, new, hnew, hat⟩ := p.todos_run b
  have hmodel : (p.place b.place).IsModel := by
    unfold place
    cases h : p.entered? with
    | none => exact hmodel
    | some place => exact isModel_of_entered h
  rw [← hplace] at hmodel
  exact ⟨hmodel, new, hnew, fun t ht => (hat t ht).ofModel (hplace ▸ hmodel)⟩

/-- Behind a part that enters a model, all items belong to models. -/
theorem adds_forM {p : Part} (h : p.entered?.isNone = false) (ps : List Part) (b : Build) :
    Adds Todo.OfModel b (state ((p :: ps).forM run) b) := by
  cases hplace : p.entered? with
  | none =>
    rw [hplace] at h
    cases h
  | some place =>
    obtain ⟨hentered, new, hnew, hat⟩ := p.todos_run b
    rw [Part.place, hplace] at hentered hat
    have hmodel := isModel_of_entered hplace
    have hfirst : Adds Todo.OfModel b (state p.run b) :=
      ⟨new, hnew, fun t ht => (hat t ht).ofModel hmodel⟩
    refine trans_of (Adds _) hfirst (Adds.bind fun _ => ?_)
    exact (within_forM (fun q _ => inModels_run q) _ (hentered ▸ hmodel)).2

end Part

/-! ## The end of the work -/

def Todo.OfValidation (t : Todo) : Prop :=
  t.model = "validation" ∧ t.layer = "tests" ∧ t.priority = "high"

namespace Work

@[grind ←] theorem adds_writeValidation : Within (Adds Todo.OfValidation) writeValidation := by
  refine within_bind within_get fun b => within_bind (writing_ofRun _) fun files => ?_
  -- the item is noted where the validation was entered just before
  refine within_writeReport (fun _ _ => .of_eq rfl) (writing_ofRun _)
    (fun _ => writing_writeText _ _) (fun _ _ _ b => ⟨_, rfl, fun t ht => ?_⟩) files
  rw [mem_singleton.mp ht]
  exact ⟨rfl, rfl, rfl⟩

theorem adds_finish : Within (Adds Todo.OfValidation) finish := by
  unfold finish
  grind

end Work

/-! ## The whole work -/

/-- The parts before the first that enters a model. -/
def opening (home : Path) (ws : List Workflow) (inv : Option MacroInventory) : List Part :=
  (parts home ws inv).takeWhile (·.entered?.isNone)

/-- The items of a project: first those that belong to no model, then those of the models, and at
last that of the validation. -/
theorem todos_generate_groups (home : Path) (ws : List Workflow) (inv : Option MacroInventory)
    {b : Build} (hplace : b.place = ⟨"", ""⟩) (htodos : b.todos = []) :
    let early := (state ((opening home ws inv).forM Part.run) b).todos
    (∀ t ∈ early, t.model = "" ∧ t.layer = "unknown")
      ∧ ∃ middle last, (state (Work.generate home ws inv) b).todos = early ++ middle ++ last
        ∧ (∀ t ∈ middle, t.OfModel) ∧ ∀ t ∈ last, t.OfValidation := by
  intro early
  constructor
  · -- parts that enter nothing sign their items with the place that the work begins at
    have hnone : ∀ p ∈ opening home ws inv, p.entered? = none := by
      intro p hp
      have hentered : p.entered?.isNone :=
        mem_takeWhile_imp (p := fun p : Part => p.entered?.isNone) hp
      exact Option.isNone_iff_eq_none.mp hentered
    have hsigned := within_forM (fun p hp => Part.signed_run (hnone p hp)) b
    obtain ⟨new, hnew, hat⟩ := hsigned.todos
    rw [htodos, nil_append] at hnew
    intro t ht
    have hat := hat t (hnew ▸ ht)
    rw [hplace] at hat
    exact ⟨hat.model, hat.layer⟩
  · let rest := (parts home ws inv).dropWhile (·.entered?.isNone)
    have hparts : parts home ws inv = opening home ws inv ++ rest := takeWhile_append_dropWhile.symm
    have hrest : ∀ b, Adds Todo.OfModel b (state (rest.forM Part.run) b) := by
      intro b
      have hfirst := head?_dropWhile_not (fun p : Part => p.entered?.isNone) (parts home ws inv)
      cases hcases : rest with
      | nil => exact refl_of (Adds _) b
      | cons p ps =>
        rw [show dropWhile _ _ = p :: ps from hcases] at hfirst
        exact Part.adds_forM hfirst ps b
    rw [Work.generate_eq, hparts, Work.forM_append, bind_assoc]
    have hrun := run_bind ((opening home ws inv).forM Part.run)
      (fun _ => rest.forM Part.run >>= fun _ => Work.finish) b
    cases hresult : result ((opening home ws inv).forM Part.run) b with
    | error e =>
      rw [hresult, Prod.mk.injEq] at hrun
      rw [hrun.2]
      refine ⟨[], [], by simp [early], ?_, ?_⟩ <;> exact forall_mem_nil _
    | ok a =>
      rw [hresult, Prod.mk.injEq] at hrun
      obtain ⟨middle, hmiddle, hmodels⟩ := hrest (state ((opening home ws inv).forM Part.run) b)
      obtain ⟨last, hlast, hvalidation⟩ := Adds.bind (x := rest.forM Part.run)
        (f := fun _ => Work.finish) fun _ => Work.adds_finish _
      refine ⟨middle, last, ?_, hmodels, hvalidation⟩
      rw [hrun.2, hlast, hmiddle]

end Replatform.Project

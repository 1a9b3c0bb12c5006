import Replatform.Lineage.Inventory
import Replatform.Proofs.Lineage.Ways
import Replatform.Proofs.Workflow.Shape
/-!
# Workflows from documents can be analysed

The line on a tool fails where a record lacks an entry, and the hint for a tool passes over what is
not of the kind that it looks for. Neither happens to a workflow that was read from a document: the
records are complete (`Tool.Shaped`), whatever the names of the tools are, those of macros included.

> `analysed_of_load`: such a workflow has steps and ways, with a line and a hint for every tool on
> them, an entry for each source and target, and a layer for every tool but the containers.

Hints are made with the project macros or without them.
-/

namespace Replatform

open List Lineage

variable {t s : Tool}

/-- A tool with complete records can be put in words. -/
theorem Tool.Shaped.describable (h : t.Shaped) : Describable t := by
  constructor
  · intro _ _ _ s hs
    obtain ⟨hfield, haction, -⟩ := h.sums s (mem_of_mem_take hs)
    exact ⟨haction, hfield⟩
  · intro _ _ _ r hr
    have hr := mem_of_mem_take hr
    unfold Tool.settingRecords at hr
    split at hr
    next v hv =>
      have htable := h.sorts v hv
      exact ⟨htable.isSome_fieldText? hr (.head _),
        htable.isSome_fieldText? hr (.tail _ (mem_singleton_self _))⟩
    next => exact absurd hr not_mem_nil

def Way.route (way : Way) : Tool × Tool × List Tool := (way.source, way.target, way.path)

namespace Workflow

variable {w : Workflow} {macros : Bool}

/-- A path from a source to a target with the tools on it, if there are any. -/
def route? (w : Workflow) (s t : Tool) (path : List Int) : Option (Tool × Tool × List Tool) :=
  match path.filterMap w.tool? with
  | [] => none
  | tools => some (s, t, tools)

/-- The tools on the paths from all sources to all targets. -/
def routes (w : Workflow) : List (Tool × Tool × List Tool) :=
  (w.sources.flatMap fun s => w.targets.map fun t => (s, t)).flatMap fun ends =>
    (w.pathsBetween ends.1.id ends.2.id wayLimit).filterMap (w.route? ends.1 ends.2)

/-- A step has the line, the layer and the hint of its tool. -/
structure Tells (w : Workflow) (macros : Bool) (s : Step) : Prop where
  description : describe s.tool = .ok s.description
  layer : s.layer = s.tool.category.layer? (w.isFinal s.tool.id)
  hint : s.hint = Lineage.hint macros s.tool

structure Analysed (w : Workflow) (macros : Bool) : Prop where
  /-- All that is looked up in the records of a tool is there. -/
  shaped : ∀ t ∈ w.tools, t.Shaped
  steps : ∃ steps, w.steps macros = .ok steps
    ∧ steps.map (fun s => (s.tool, s.number)) = w.placed w.order ∧ ∀ s ∈ steps, w.Tells macros s
  lineage : ∃ ways, w.lineage macros = .ok ways
    ∧ ways.map Way.route = w.routes
    ∧ ∀ way ∈ ways, ∀ s ∈ way.steps, w.Tells macros s
  sources : w.sourceInventory.map (·.id) = w.sources.map (·.id)
  targets : w.targetInventory.map (·.id) = w.targets.map (·.id)
  /-- A tool is in the list of one layer, and a container in none. -/
  layers : ∀ t ∈ w.tools, (t.category = .container ∧ ∀ p ∈ w.layers, t ∉ p.2)
    ∨ ∃ layer, ∀ p ∈ w.layers, t ∈ p.2 ↔ p.1 = layer

/-! ## Steps and ways -/

theorem tells_of_step {n : Nat} {s : Step} (h : w.step macros t n = .ok s) : w.Tells macros s := by
  obtain ⟨description, hdescription, hpure⟩ := bind_eq_ok.mp h
  cases hpure
  exact ⟨hdescription, rfl, rfl⟩

theorem mem_tools_of_tool? {id : Int} (h : w.tool? id = some t) : t ∈ w.tools :=
  mem_of_find?_eq_some h

/-- Where all tools can be put in words there are steps, also if tools share numbers. -/
theorem exists_steps_of_describable (h : ∀ t ∈ w.tools, Describable t) :
    ∃ steps, w.steps macros = .ok steps := by
  rw [steps, stepsOf_eq, exists_mapM_eq_ok]
  rintro ⟨t, n⟩ hplaced
  obtain ⟨p, -, hp⟩ := mem_filterMap.mp hplaced
  obtain ⟨u, hu, hpair⟩ := Option.map_eq_some_iff.mp hp
  cases hpair
  exact exists_step.mpr (h t (mem_tools_of_tool? hu))

/-- A way goes along its path, and there is none only where no tool is on the path. -/
theorem map_route {p : List Int} {way : Option Way} (h : w.way macros s t p = .ok way) :
    way.map Way.route = w.route? s t p := by
  unfold Workflow.way at h
  unfold route?
  cases htools : p.filterMap w.tool? with
  | nil =>
    rw [htools] at h
    cases h
    rfl
  | cons u tools =>
    rw [htools] at h
    obtain ⟨steps, hsteps, hpure⟩ := bind_eq_ok.mp h
    cases hpure
    have hpath := (map_tool_of_mapM hsteps).trans (zipIdx_map_fst 0 _)
    rw [Option.map_some, Way.route, Way.path, hpath]

theorem map_ways {paths : List (List Int)} {ways : List (Option Way)}
    (h : Forall₂ (fun p way => w.way macros s t p = .ok way) paths ways) :
    (ways.filterMap id).map Way.route = paths.filterMap (w.route? s t) := by
  rw [map_filterMap]
  induction h with
  | nil => rfl
  | cons hway _ ih => rw [filterMap_cons, filterMap_cons, ih, ← map_route hway, id]

/-- The ways of a workflow go along its paths. -/
theorem map_lineage {ways : List Way} (h : w.lineage macros = .ok ways) :
    ways.map Way.route = w.routes := by
  obtain ⟨found, hfound, hpure⟩ := bind_eq_ok.mp h
  cases hpure
  rw [mapM_eq_ok] at hfound
  clear h
  unfold routes
  generalize (w.sources.flatMap fun s => w.targets.map fun t => (s, t)) = ends at hfound
  induction hfound with
  | nil => rfl
  | cons hthese _ ih =>
    rw [map_cons, flatten_cons, map_append, ih, flatMap_cons, map_ways (mapM_eq_ok.mp hthese)]

/-- A way fails only for a tool that cannot be put in words. -/
theorem exists_way (h : ∀ t ∈ w.tools, Describable t) (s t : Tool) (p : List Int) :
    ∃ way, w.way macros s t p = .ok way := by
  unfold Workflow.way
  split
  next => exact ⟨none, rfl⟩
  next =>
    have hsteps : ∃ steps, ((p.filterMap w.tool?).zipIdx.mapM fun x =>
        w.step macros x.1 (x.2 + 1)) = .ok steps := by
      rw [exists_mapM_eq_ok]
      rintro ⟨u, i⟩ hu
      obtain ⟨id, -, hid⟩ := mem_filterMap.mp (fst_mem_of_mem_zipIdx hu)
      exact exists_step.mpr (h u (mem_tools_of_tool? hid))
    obtain ⟨steps, hsteps⟩ := hsteps
    exact ⟨some ⟨s, t, steps⟩, bind_eq_ok.mpr ⟨steps, hsteps, rfl⟩⟩

theorem exists_lineage_of_describable (h : ∀ t ∈ w.tools, Describable t) :
    ∃ ways, w.lineage macros = .ok ways := by
  have hfound : ∃ found, ((w.sources.flatMap fun s => w.targets.map fun t => (s, t)).mapM
      fun x => (w.pathsBetween x.1.id x.2.id wayLimit).mapM (w.way macros x.1 x.2))
        = .ok found := by
    rw [exists_mapM_eq_ok]
    rintro ⟨s, t⟩ -
    exact exists_mapM_eq_ok.mpr fun p _ => exists_way h s t p
  obtain ⟨found, hfound⟩ := hfound
  exact ⟨_, bind_eq_ok.mpr ⟨found, hfound, rfl⟩⟩

theorem tells_of_way {p : List Int} {way : Way} (h : w.way macros s t p = .ok (some way)) :
    ∀ x ∈ way.steps, w.Tells macros x := by
  unfold Workflow.way at h
  split at h
  next => cases h
  next =>
    obtain ⟨steps, hsteps, hpure⟩ := bind_eq_ok.mp h
    cases hpure
    intro x hx
    obtain ⟨_, -, hstep⟩ := exists_of_mem_mapM hsteps hx
    exact tells_of_step hstep

theorem tells_of_lineage {ways : List Way} (h : w.lineage macros = .ok ways) :
    ∀ way ∈ ways, ∀ x ∈ way.steps, w.Tells macros x := by
  intro way hway
  obtain ⟨found, hfound, hpure⟩ := bind_eq_ok.mp h
  cases hpure
  obtain ⟨_, hlist, hway⟩ := mem_flatten.mp hway
  obtain ⟨these, hthese, rfl⟩ := mem_map.mp hlist
  obtain ⟨⟨s, t⟩, -, hpaths⟩ := exists_of_mem_mapM hfound hthese
  obtain ⟨_, hmem, rfl⟩ := mem_filterMap.mp hway
  obtain ⟨p, -, hsome⟩ := exists_of_mem_mapM hpaths hmem
  exact tells_of_way hsome

/-! ## Layers -/

theorem mem_layers {p : Layer × List Tool} (h : p ∈ w.layers) : p.2 = w.inLayer p.1 := by
  obtain ⟨layer, -, rfl⟩ := mem_map.mp h
  rfl

theorem layer_of_tool (ht : t ∈ w.tools) :
    (t.category = .container ∧ ∀ p ∈ w.layers, t ∉ p.2)
      ∨ ∃ layer, ∀ p ∈ w.layers, t ∈ p.2 ↔ p.1 = layer := by
  have hin : ∀ layer, t ∈ w.inLayer layer ↔ t.category ≠ .container
      ∧ t.category.layer? (w.isFinal t.id) = some layer := by
    intro layer
    simp [inLayer, isIn, ht]
  by_cases hcontainer : t.category = .container
  · refine .inl ⟨hcontainer, fun p hp => ?_⟩
    rw [mem_layers hp, hin]
    exact fun h => h.1 hcontainer
  · have hlayer : ∃ layer, t.category.layer? (w.isFinal t.id) = some layer := by
      revert hcontainer
      cases t.category <;> cases w.isFinal t.id <;> simp [Category.layer?]
    obtain ⟨layer, hlayer⟩ := hlayer
    refine .inr ⟨layer, fun p hp => ?_⟩
    rw [mem_layers hp, hin, hlayer, Option.some.injEq]
    exact ⟨fun h => h.2.symm, fun h => ⟨hcontainer, h.symm⟩⟩

/-- A workflow that was read from a file can be analysed. -/
theorem analysed_of_load {fs : Files} {file : String} {w : Workflow} (h : load fs file = .ok w)
    (macros : Bool) : w.Analysed macros := by
  have hshaped := shaped_of_load h
  have hwords : ∀ t ∈ w.tools, Describable t := fun t ht => (hshaped t ht).describable
  refine ⟨hshaped, ?_, ?_, ?_, ?_, fun t ht => layer_of_tool ht⟩
  · obtain ⟨steps, hsteps⟩ := exists_steps_of_describable hwords
    refine ⟨steps, hsteps, map_stepsOf hsteps, fun s hs => ?_⟩
    obtain ⟨_, -, hstep⟩ := exists_of_mem_mapM hsteps hs
    exact tells_of_step hstep
  · obtain ⟨ways, hways⟩ := exists_lineage_of_describable hwords
    exact ⟨ways, hways, map_lineage hways, tells_of_lineage hways⟩
  · rw [sourceInventory, map_map]
    rfl
  · rw [targetInventory, map_map]
    rfl

/-- Two macros whose files have the names of tools, one that sorts and one that adds up. -/
def macrosLikeTools : String :=
  "<W><Nodes>"
    ++ "<Node ToolID='1'><Configuration><SortInfo field='a'/></Configuration>"
    ++ "<EngineSettings Macro='Sort.yxmc'/></Node>"
    ++ "<Node ToolID='2'><Configuration><SummarizeField/></Configuration>"
    ++ "<EngineSettings Macro='Summarize.yxmc'/></Node>"
    ++ "</Nodes></W>"

def macroFiles : Files :=
  { cwd := ⟨"/", []⟩, entries := [(["w.yxmd"], .file (.text macrosLikeTools))] }

set_option maxRecDepth 100000 in
/-- The document is read, and its workflow can be analysed. -/
theorem analysed_macrosLikeTools : ∃ w, load macroFiles "w.yxmd" = .ok w
    ∧ w.tools.map (fun t => (t.name, t.isMacro, t.summaries.length))
      = [("Sort", true, 0), ("Summarize", true, 1)]
    ∧ w.Analysed true ∧ w.Analysed false := by
  have hread : (load macroFiles "w.yxmd").toOption.map
      (fun w => w.tools.map fun t => (t.name, t.isMacro, t.summaries.length))
      = some [("Sort", true, 0), ("Summarize", true, 1)] := by
    decide +kernel
  cases hload : load macroFiles "w.yxmd" with
  | error e =>
    rw [hload] at hread
    cases hread
  | ok w =>
    rw [hload] at hread
    exact ⟨w, rfl, Option.some.inj hread, analysed_of_load hload true, analysed_of_load hload false⟩

end Workflow

end Replatform

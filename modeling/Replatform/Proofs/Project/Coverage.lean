import Replatform.Proofs.Project.Chain
import Replatform.Proofs.Project.Plan
/-!
# Which tools get a model

The layers take all tools but the containers, and of the tools of the first layer only the inputs
get a model. So a tool that parses has no model unless it comes last, and every other tool has just
one, alone or in a chain (`subjects_writeWorkflow`).

As no container is in a layer, there is none that its members would have to be put in place of
(`expandContainers_inLayer`).
-/

namespace Replatform.Project

open List Stateful

variable {w : Workflow}

def getsModel (w : Workflow) (t : Tool) : Bool :=
  t.category != .container && (t.category != .parse || w.isFinal t.id)

/-! ## Layers -/

/-- What is kept by one of two filters that exclude each other. -/
theorem filter_or_perm {α : Type} {p q r : α → Bool} (hp : ∀ x, p x = (q x || r x))
    (hqr : ∀ x, q x → r x = false) (xs : List α) :
    (xs.filter p).Perm (xs.filter q ++ xs.filter r) := by
  have hq : (xs.filter p).filter q = xs.filter q := by
    rw [filter_filter]
    congr 1
    funext x
    rw [hp]
    cases q x <;> simp
  have hr : (xs.filter p).filter (fun x => !q x) = xs.filter r := by
    rw [filter_filter]
    congr 1
    funext x
    have hx := hqr x
    rw [hp]
    revert hx
    cases q x <;> cases r x <;> simp
  have hsplit := filter_append_perm q (xs.filter p)
  rw [hq, hr] at hsplit
  exact hsplit.symm

/-- The tools that get a model are the inputs of the first layer and the tools of the others. -/
theorem getsModel_perm (w : Workflow) : (w.tools.filter (getsModel w)).Perm
    ((w.inLayer .bronze).filter (·.category == .input)
      ++ w.inLayer .silver ++ w.inLayer .gold) := by
  have hlayers : ∀ t : Tool, getsModel w t
      = ((t.category == .input && w.isIn .bronze t) || (w.isIn .silver t || w.isIn .gold t))
      ∧ (w.isIn .bronze t → (w.isIn .silver t || w.isIn .gold t) = false)
      ∧ (w.isIn .silver t → w.isIn .gold t = false) := by
    intro t
    unfold getsModel Workflow.isIn
    cases t.category <;> cases w.isFinal t.id <;> decide
  have houter := filter_or_perm (fun t => (hlayers t).1)
    (fun t ht => (hlayers t).2.1 (Bool.and_eq_true_iff.mp ht).2) w.tools
  have hinner := filter_or_perm (fun t => rfl) (fun t ht => (hlayers t).2.2 ht) w.tools
  rw [← filter_filter] at houter
  rw [append_assoc]
  exact houter.trans (Perm.append_left _ hinner)

/-- The tools of a layer are what they are when containers are replaced by their members. -/
theorem expandContainers_inLayer (w : Workflow) (layer : Layer) (fuel : Nat) :
    expandContainers w (fuel + 1) (w.inLayer layer) = .ok (w.inLayer layer) := by
  have hplain : ∀ t ∈ w.inLayer layer, t.category ≠ .container := by
    intro t ht
    have hin := (mem_filter.mp ht).2
    exact bne_iff_ne.mp (Bool.and_eq_true_iff.mp hin).1
  refine bind_eq_ok.mpr ⟨(w.inLayer layer).map ([·]), ?_, congrArg Except.ok ?_⟩
  · rw [mapM_eq_ok, forall₂_map_right_iff, forall₂_same]
    exact fun t ht => if_neg (hplain t ht)
  · exact flatMap_singleton' _

/-! ## Tasks -/

/-- There is a model for each chain. -/
theorem flatMap_silverPlan (w : Workflow) (workflow : String) (cs : List (List Tool))
    (hcs : ∀ chain ∈ cs, chain ≠ []) :
    (cs.flatMap fun chain => (silverPlan w workflow chain).map (Task.mk · chain)).map (·.tools)
      = cs := by
  have hone : ∀ chain ∈ cs,
      ((silverPlan w workflow chain).map (Task.mk · chain)).map (·.tools) = [chain] := by
    intro chain hchain
    obtain ⟨p, hp⟩ := silverPlan_eq_singleton w workflow (hcs chain hchain)
    rw [hp]
    rfl
  rw [map_flatMap, flatMap_congr hone, flatMap_singleton']

theorem map_tools_tasks (w : Workflow) : (tasks w).map (·.tools)
    = ((w.inLayer .bronze).filter (·.category == .input)).map ([·])
      ++ chains w .silver ++ (w.inLayer .gold).map ([·]) := by
  have hchains := flatMap_silverPlan w (sanitize w.metadata.name) (chains w .silver)
    (ne_nil_of_mem_chainsFrom w _ _ [])
  unfold tasks
  dsimp only
  rw [map_append, map_append, hchains, map_map, map_map]
  rfl

/-- The tasks of a workflow stand for each tool that gets a model once. -/
theorem flatten_tools_perm (hids : w.Distinct) :
    ((tasks w).map (·.tools)).flatten.Perm (w.tools.filter (getsModel w)) := by
  have hsingle : ∀ ts : List Tool, (ts.map ([·])).flatten = ts := by
    intro ts
    induction ts with
    | nil => rfl
    | cons t ts ih => rw [map_cons, flatten_cons, ih, singleton_append]
  rw [map_tools_tasks, flatten_append, flatten_append, hsingle, hsingle]
  exact ((flatten_chains_perm hids .silver).append_left _ |>.append_right _).trans
    (getsModel_perm w).symm

/-- The tools of a task are of the layer of its model, and there is one of them except in the middle
layer. -/
theorem layer_of_mem_tasks {task : Task} (h : task ∈ tasks w) :
    (∀ t ∈ task.tools, w.isIn task.planned.layer t)
      ∧ (task.planned.layer ≠ .silver → task.tools.length = 1) := by
  simp only [tasks, mem_append, mem_map, mem_flatMap, mem_filter] at h
  rcases h with (⟨t, ⟨ht, -⟩, rfl⟩ | ⟨chain, hchain, p, hp, rfl⟩) | ⟨t, ht, rfl⟩
  · refine ⟨fun u hu => ?_, fun _ => rfl⟩
    rw [mem_singleton.mp hu]
    exact (mem_filter.mp ht).2
  · have hlayer := (mem_silverPlan hp).1
    refine ⟨fun u hu => ?_, fun hne => absurd hlayer hne⟩
    dsimp only
    rw [hlayer]
    exact (mem_chainsFrom w _ _ (fun t ht => mem_filter.mp ht) [] u
      (mem_flatten.mpr ⟨chain, hchain, hu⟩)).2
  · refine ⟨fun u hu => ?_, fun _ => rfl⟩
    rw [mem_singleton.mp hu]
    exact (mem_filter.mp ht).2

/-! ## Subjects -/

/-- The file is that of a model of the tools: it belongs to the first of them and names them all in
its comments, and it is of their layer. In the middle layer there may be several. -/
structure ModelFile.StandsFor (w : Workflow) (f : ModelFile) (group : List Tool) : Prop where
  first : group.head?.map (·.id) = some f.model.tool
  origin : originLine group ∈ f.head
  layer : ∀ t ∈ group, w.isIn f.model.layer t
  alone : f.model.layer ≠ .silver → group.length = 1

/-- How many of the groups have a tool with the number. -/
def groupsWith (groups : List (List Tool)) (id : Int) : Nat :=
  groups.countP fun group => group.any (·.id == id)

/-- A number that occurs once among all groups is in one of them. -/
theorem groupsWith_eq (groups : List (List Tool)) (id : Int)
    (hids : (groups.flatten.map (·.id)).Nodup) :
    groupsWith groups id = if id ∈ groups.flatten.map (·.id) then 1 else 0 := by
  have hany : ∀ group : List Tool, group.any (·.id == id) ↔ id ∈ group.map (·.id) := by
    intro group
    simp [any_eq_true, mem_map]
  induction groups with
  | nil => rfl
  | cons group groups ih =>
    rw [flatten_cons, map_append] at hids ⊢
    obtain ⟨-, hrest, hdisjoint⟩ := nodup_append.mp hids
    have hcount : groupsWith (group :: groups) id
        = groupsWith groups id + if id ∈ group.map (·.id) then 1 else 0 := by
      simp only [groupsWith, countP_cons, hany]
    rw [hcount, ih hrest]
    by_cases hhere : id ∈ group.map (·.id)
    · have hthere : id ∉ groups.flatten.map (·.id) := fun h => hdisjoint id hhere id h rfl
      rw [if_neg hthere, if_pos hhere, if_pos (mem_append_left _ hhere)]
    · simp [hhere]

/-- A tool is in one group, if the groups have the tools that get a model and it does. -/
theorem groupsWith_eq_one_iff (hids : w.Distinct) {groups : List (List Tool)}
    (hperm : groups.flatten.Perm (w.tools.filter (getsModel w))) {t : Tool} (ht : t ∈ w.tools) :
    groupsWith groups t.id = 1 ↔ getsModel w t := by
  have hnumbers := hperm.map (·.id)
  have hnodup : (groups.flatten.map (·.id)).Nodup :=
    hnumbers.nodup_iff.mpr (hids.sublist (filter_sublist.map _))
  have hmem : t.id ∈ groups.flatten.map (·.id) ↔ getsModel w t := by
    rw [hnumbers.mem_iff]
    constructor
    · intro h
      obtain ⟨u, hu, hid⟩ := mem_map.mp h
      obtain ⟨hu, hgets⟩ := mem_filter.mp hu
      rwa [← inj_on_of_nodup_map hids hu ht hid]
    · exact fun h => mem_map_of_mem (mem_filter.mpr ⟨ht, h⟩)
  rw [groupsWith_eq groups t.id hnodup]
  split
  next hin => exact ⟨fun _ => hmem.mp hin, fun _ => rfl⟩
  next hout => exact ⟨fun h => absurd h (by decide), fun h => absurd (hmem.mpr h) hout⟩

/-- A file that meets a task of a workflow stands for the tools of the task. -/
theorem standsFor_of_meets {files : List ModelFile} {ts : List Task}
    (hmeets : Forall₂ ModelFile.Meets files ts) (hts : ∀ task ∈ ts, task ∈ tasks w) :
    Forall₂ (ModelFile.StandsFor w) files (ts.map (·.tools)) := by
  induction hmeets with
  | nil => exact .nil
  | @cons f task files ts hmeet _ ih =>
    refine .cons ?_ (ih (forall_mem_cons.mp hts).2)
    have hlayer : f.model.layer = task.planned.layer := congrArg Outline.layer hmeet.outline
    obtain ⟨hin, hone⟩ := layer_of_mem_tasks (hts task (.head _))
    exact ⟨hmeet.first, hmeet.origin, hlayer ▸ hin, hlayer ▸ hone⟩

/-- Work on a workflow that comes to an end has written models for its tools, each once, except for
the containers and for parsing tools that do not come last. So all tools but the containers have
just one model if every tool that parses comes last, and otherwise some have none. -/
theorem subjects_writeWorkflow (w : Workflow) (hids : w.Distinct) {b b' : Build}
    (hrun : (Work.writeWorkflow w).run.run b = (.ok (), b')) :
    ∃ (new : List ModelFile) (groups : List (List Tool)), b'.files = b.files ++ new
      ∧ Forall₂ (ModelFile.StandsFor w) new groups
      ∧ groups.flatten.Perm (w.tools.filter (getsModel w))
      ∧ ((∀ t ∈ w.tools, t.category ≠ .container → groupsWith groups t.id = 1)
        ↔ ∀ t ∈ w.tools, t.category = .parse → w.isFinal t.id) := by
  have hresult : result (Work.writeWorkflow w) b = .ok () := congrArg Prod.fst hrun
  have hstate : state (Work.writeWorkflow w) b = b' := congrArg Prod.snd hrun
  obtain ⟨new, hfiles, hmeets⟩ := Work.fulfils_writeWorkflow w b () hresult
  have hperm := flatten_tools_perm hids
  refine ⟨new, (tasks w).map (·.tools), hstate ▸ hfiles,
    standsFor_of_meets hmeets fun _ h => h, hperm, ?_⟩
  have hgets : ∀ t : Tool, (t.category ≠ .container → getsModel w t)
      ↔ (t.category = .parse → w.isFinal t.id) := by
    intro t
    unfold getsModel
    cases t.category <;> cases w.isFinal t.id <;> decide
  refine forall₂_congr fun t ht => ?_
  rw [groupsWith_eq_one_iff hids hperm ht, hgets]

/-- A tool that parses between an input and an output. -/
def parsedBetween : Workflow :=
  { metadata := { name := "w", path := "w.yxmd" }
    tools := [
      { id := 1, name := "Input Data", category := .input, table := some "t" },
      { id := 2, name := "RegEx", category := .parse },
      { id := 3, name := "Output Data", category := .output }]
    connections := [⟨1, "Output", 2, "Input"⟩, ⟨2, "Output", 3, "Input"⟩] }

/-- The project of the workflow, in an empty directory. -/
def parsedProject : Build :=
  state (Work.writeWorkflow parsedBetween)
    { session := { files := ⟨⟨"/", []⟩, []⟩ }, dir := ⟨"/", ["d"]⟩ }

set_option maxRecDepth 100000 in
/-- The work comes to an end, and there is no model for the tool in the middle. -/
theorem subjects_parsedBetween :
    (Work.writeWorkflow parsedBetween).run.run
        { session := { files := ⟨⟨"/", []⟩, []⟩ }, dir := ⟨"/", ["d"]⟩ } = (.ok (), parsedProject)
      ∧ parsedProject.written = ["stg_w_t", "dim_w_w_output"]
      ∧ ∃ groups, Forall₂ (ModelFile.StandsFor parsedBetween) parsedProject.files groups
        ∧ ∀ group ∈ groups, ∀ t ∈ group, t.id ≠ 2 := by
  have hwork : (Work.writeWorkflow parsedBetween).run.run
      { session := { files := ⟨⟨"/", []⟩, []⟩ }, dir := ⟨"/", ["d"]⟩ } = (.ok (), parsedProject)
        ∧ parsedProject.written = ["stg_w_t", "dim_w_w_output"] := by
    -- so that the texts of the queries need not be searched
    unfold parsedProject Work.writeWorkflow Work.writeGold
    simp only [Work.noteOpenEnds_eq]
    exact ⟨run_eq_of_result (by decide +kernel), by decide +kernel⟩
  obtain ⟨hrun, hwritten⟩ := hwork
  obtain ⟨new, groups, hfiles, hstands, hperm, -⟩ :=
    subjects_writeWorkflow parsedBetween (by decide) hrun
  refine ⟨hrun, hwritten, groups, ?_, fun group hgroup t ht => ?_⟩
  · rw [hfiles]
    exact hstands
  · have hmem := hperm.mem_iff.mp (mem_flatten.mpr ⟨group, hgroup, ht⟩)
    obtain ⟨htools, hgets⟩ := mem_filter.mp hmem
    simp only [parsedBetween, mem_cons, not_mem_nil, or_false] at htools
    rcases htools with rfl | rfl | rfl
    · decide
    · exact absurd hgets (by decide)
    · decide

end Replatform.Project

import Replatform.Proofs.Project.Frame
/-!
# Which models are written

What models a project gets, what each of them reads, and which tools it stands for follows from its
workflows alone: `plan` lists the models of a workflow in the order in which they are written, and
`tasks` gives their tools as well.
Work that comes to an end has written these models (`fulfils_generate`).
-/

namespace Replatform.Project

open List Stateful

/-- A model that is to be written: its name and layer, the name of its workflow, and the tools that
it reads. -/
structure Planned where
  name : String
  layer : Layer
  workflow : String
  reads : List Tool

def Planned.references (p : Planned) : List String := p.reads.map (modelReference · p.workflow)

def bronzePlan (workflow : String) (t : Tool) : Planned :=
  ⟨"stg_" ++ workflow ++ "_" ++ tableName t, .bronze, workflow, []⟩

/-- The tools that the model of a single tool of the middle layer reads. -/
def silverReads (w : Workflow) (t : Tool) : List Tool :=
  if t.name = "Join" && 2 ≤ (w.upstream t.id).length then
    (joinSides t w).1.toList ++ (joinSides t w).2.toList
  else w.upstream t.id

def silverPlan (w : Workflow) (workflow : String) : List Tool → List Planned
  | [] => []
  | [t] =>
    [⟨"int_" ++ workflow ++ "_" ++ sanitize t.displayName, .silver, workflow, silverReads w t⟩]
  | first :: rest =>
    [⟨chainName workflow (first :: rest), .silver, workflow, w.upstream first.id⟩]

variable (w : Workflow) (workflow : String) (t : Tool)

/-- A chain gets one model. -/
theorem silverPlan_eq_singleton {chain : List Tool}
    (hne : chain ≠ []) : ∃ p, silverPlan w workflow chain = [p] := by
  rcases chain with _ | ⟨first, _ | ⟨second, rest⟩⟩
  · exact absurd rfl hne
  · exact ⟨_, rfl⟩
  · exact ⟨_, rfl⟩

/-- What is the same for all models of a chain. -/
theorem mem_silverPlan {w : Workflow} {workflow : String} {chain : List Tool} {p : Planned}
    (h : p ∈ silverPlan w workflow chain) :
    p.layer = .silver ∧ p.workflow = workflow
      ∧ (∃ rest, p.name = "int_" ++ workflow ++ "_" ++ sanitize rest)
      ∧ ∃ t, p.reads = silverReads w t ∨ p.reads = w.upstream t.id := by
  rcases chain with _ | ⟨first, _ | ⟨second, rest⟩⟩
  · exact nomatch h
  · cases mem_singleton.mp h
    exact ⟨rfl, rfl, ⟨_, rfl⟩, first, .inl rfl⟩
  · cases mem_singleton.mp h
    exact ⟨rfl, rfl, ⟨_, rfl⟩, first, .inr rfl⟩

def goldPlan (w : Workflow) (workflow : String) (t : Tool) : Planned :=
  ⟨resultModelName t workflow w, .gold, workflow, w.upstream t.id⟩

def plan (w : Workflow) : List Planned :=
  let workflow := sanitize w.metadata.name
  ((w.inLayer .bronze).filter (·.category == .input)).map (bronzePlan workflow)
    ++ (chains w .silver).flatMap (silverPlan w workflow)
    ++ (w.inLayer .gold).map (goldPlan w workflow)

/-- What a file says about models: its own name and layer, and the names that it refers to. -/
structure Outline where
  name : String
  layer : Layer
  references : List String

def ModelFile.outline (f : ModelFile) : Outline :=
  ⟨f.model.name, f.model.layer, f.reads.map (·.model)⟩

def Planned.outline (p : Planned) : Outline := ⟨p.name, p.layer, p.references⟩

/-! ## Tasks -/

/-- A planned model with the tools that it stands for. -/
structure Task where
  planned : Planned
  tools : List Tool

/-- The models of a workflow with their tools. -/
def tasks (w : Workflow) : List Task :=
  let workflow := sanitize w.metadata.name
  ((w.inLayer .bronze).filter (·.category == .input)).map (fun t => ⟨bronzePlan workflow t, [t]⟩)
    ++ (chains w .silver).flatMap (fun chain => (silverPlan w workflow chain).map (⟨·, chain⟩))
    ++ (w.inLayer .gold).map fun t => ⟨goldPlan w workflow t, [t]⟩

theorem map_planned_tasks : (tasks w).map (·.planned) = plan w := by
  simp [tasks, plan, map_flatMap, Function.comp_def]

/-- The comment of a model that says which tools it stands for. -/
def originLine : List Tool → String
  | [t] => "-- Generated from Alteryx workflow tool #" ++ toString t.id
  | ts => "-- Generated from Alteryx workflow tools #"
      ++ String.intercalate ", #" (ts.map fun t => toString t.id)

/-- The file is that of the planned model, belongs to the first of its tools, and names all of
them. -/
structure ModelFile.Meets (f : ModelFile) (task : Task) : Prop where
  outline : f.outline = task.planned.outline
  first : task.tools.head?.map (·.id) = some f.model.tool
  origin : originLine task.tools ∈ f.head

/-! ## Files that are added -/

namespace Work

variable {α β τ : Type} {R : ModelFile → τ → Prop} {task : τ} {ts ts₁ ts₂ : List τ} {x : Work α}
  {f : α → Work β}

/-- However the step ends, it has added files that correspond to the first entries of the list, and
if it comes to its end, there is a file for every entry. -/
def Emits (R : ModelFile → τ → Prop) (x : Work α) (ts : List τ) : Prop :=
  ∀ b, ∃ new done, (state x b).files = b.files ++ new ∧ done <+: ts ∧ Forall₂ R new done
    ∧ ∀ a, result x b = .ok a → done = ts

theorem Emits.files (hx : Emits R x ts) {b : Build} {a : α} (h : result x b = .ok a) :
    ∃ new, (state x b).files = b.files ++ new ∧ Forall₂ R new ts := by
  obtain ⟨new, done, hfiles, -, hnew, hall⟩ := hx b
  exact ⟨new, hfiles, hall a h ▸ hnew⟩

theorem emits_of_sameModels (hx : Within SameModels x) : Emits R x [] :=
  fun b => ⟨[], [], by rw [(hx b).files, append_nil], nil_prefix, .nil, fun _ _ => rfl⟩

theorem emits_bind {Q : α → Prop} (hx : Emits R x ts₁) (hQ : Gives x Q)
    (hf : ∀ a, Q a → Emits R (f a) ts₂) : Emits R (x >>= f) (ts₁ ++ ts₂) := by
  intro b
  obtain ⟨new₁, done₁, hfiles₁, hfront₁, hnew₁, hall₁⟩ := hx b
  cases hresult : result x b with
  | error e =>
    -- the entries of the first step may be done in part, none of the second is
    rw [result_bind_of_error hresult, state_bind_of_error hresult]
    refine ⟨new₁, done₁, hfiles₁, hfront₁.trans (prefix_append _ _), hnew₁, ?_⟩
    exact fun _ h => absurd h (by simp)
  | ok a =>
    rw [result_bind_of_ok hresult, state_bind_of_ok hresult]
    obtain rfl := hall₁ a hresult
    obtain ⟨new₂, done₂, hfiles₂, hfront₂, hnew₂, hall₂⟩ := hf a (hQ b a hresult) (state x b)
    refine ⟨new₁ ++ new₂, done₁ ++ done₂, ?_, (prefix_append_right_inj _).mpr hfront₂,
      rel_append hnew₁ hnew₂, fun c h => ?_⟩
    · rw [hfiles₂, hfiles₁, append_assoc]
    · rw [hall₂ c h]

theorem emits_after (hx : Within SameModels x) (hf : ∀ a, Emits R (f a) ts) :
    Emits R (x >>= f) ts :=
  emits_bind (emits_of_sameModels hx) (gives_true x) fun a _ => hf a

theorem emits_forM {f : α → Work PUnit} {ts : α → List τ} {xs : List α}
    (hf : ∀ x ∈ xs, Emits R (f x) (ts x)) : Emits R (xs.forM f) (xs.flatMap ts) := by
  induction xs with
  | nil => exact emits_of_sameModels (within_pure _)
  | cons x xs ih =>
    rw [flatMap_cons]
    exact emits_bind (hf x (.head _)) (gives_true _) fun _ _ =>
      ih (forall_mem_cons.mp hf).2

theorem emits_writeModel {f : ModelFile} (h : R f task) : Emits R (writeModel f) [task] := by
  refine emits_after within_get fun b => emits_after (writing_writeText _ _) fun _ b' => ?_
  exact ⟨[f], [task], rfl, prefix_refl _, .cons h .nil, fun _ _ => rfl⟩

theorem emits_writeBronze {workflow : String} {t : Tool}
    (h : ∀ columns, R (bronzeFile workflow t columns) task) :
    Emits R (writeBronze workflow t) [task] := by
  refine emits_after (within_enter _ _) fun _ => emits_after within_get fun b => ?_
  dsimp only
  split
  · exact emits_after (within_addTodo _ _ _ _) fun _ => emits_writeModel (h _)
  · exact emits_writeModel (h _)

/-- What is known of the parts of a model is known of its file. -/
theorem emits_writeMart {w : Workflow} {model : Model} {head : List String}
    {reads : Work (List Reading)} {query : Work String} {note : String → Work Unit}
    {P : List Reading → Prop} {Q : String → Prop} (hstill : Still w reads query note)
    (hreads : Gives reads P) (hquery : Gives query Q)
    (h : ∀ rs text, P rs → Q text → R ⟨model, head, rs, [text]⟩ task) :
    Emits R (writeMart model head reads query note) [task] := by
  obtain ⟨hreads', hquery', hnote⟩ := hstill.holds (.within SameModels)
  refine emits_bind (emits_of_sameModels hreads') hreads fun rs hrs => ?_
  refine emits_bind (emits_of_sameModels hquery') hquery fun text htext => ?_
  exact emits_after (hnote text) fun _ => emits_writeModel (h rs text hrs htext)

/-- So is it where the step says first which model it writes. -/
theorem emits_enter {name layer : String} {x : Work Unit} (hx : Emits R x [task]) :
    Emits R (enter name layer >>= fun _ => x) [task] :=
  emits_after (within_enter _ _) fun _ => hx

/-! ## What is read -/

theorem gives_readSources (noted : Bool) (upstream : List Tool) :
    Gives (readSources w workflow noted upstream)
      fun rs => rs.map (·.model) = upstream.map (modelReference · workflow) := by
  have hplaces : upstream.map (modelReference · workflow)
      = upstream.zipIdx.map fun p => modelReference p.1 workflow := by
    have hmap := map_map (l := upstream.zipIdx) (f := Prod.fst)
      (g := (modelReference · workflow))
    rwa [zipIdx_map_fst] at hmap
  rw [hplaces]
  refine gives_mapM fun p _ => ?_
  refine gives_bind (gives_true _) fun columns _ => ?_
  dsimp only
  split
  · exact gives_bind (gives_true _) fun _ _ => gives_pure rfl
  · exact gives_pure rfl

theorem gives_readSide (first : Bool) (side : String) (u : Tool) :
    Gives (readSide w workflow first side u) fun r => r.model = modelReference u workflow := by
  refine gives_bind (gives_true _) fun columns _ => ?_
  dsimp only
  split
  · exact gives_bind (gives_true _) fun _ _ => gives_pure rfl
  · exact gives_pure rfl

theorem gives_readSides : Gives (readSides w workflow t) fun rs => rs.map (·.model)
      = ((joinSides t w).1.toList ++ (joinSides t w).2.toList).map (modelReference · workflow) := by
  unfold readSides
  rcases joinSides t w with ⟨left, right⟩
  refine gives_bind (gives_mapM fun u _ => gives_readSide w workflow _ _ u) fun ls hls => ?_
  refine gives_bind (gives_mapM fun u _ => gives_readSide w workflow _ _ u) fun rs hrs => ?_
  refine gives_pure ?_
  rw [map_append, map_append, hls, hrs]

theorem gives_readInputs : Gives (readInputs w workflow t)
      fun rs => rs.map (·.model) = (silverReads w t).map (modelReference · workflow) := by
  unfold readInputs silverReads
  split
  · exact gives_readSides w workflow t
  · exact gives_readSources w workflow true _

/-! ## Models -/

theorem fulfils_writeBronze :
    Emits ModelFile.Meets (writeBronze workflow t) [⟨bronzePlan workflow t, [t]⟩] :=
  emits_writeBronze fun _ => ⟨rfl, rfl, mem_of_getElem? (i := 2) rfl⟩

/-- The outline of a file, when it is known what the file reads. -/
theorem outline_eq {f : ModelFile} {p : Planned} (hname : f.model.name = p.name)
    (hlayer : f.model.layer = p.layer) (hreads : f.reads.map (·.model) = p.references) :
    f.outline = p.outline := by
  rw [ModelFile.outline, hname, hlayer, hreads, Planned.outline]

theorem fulfils_writeSilver :
    Emits ModelFile.Meets (writeSilver w workflow t) ((silverPlan w workflow [t]).map (⟨·, [t]⟩)) :=
  emits_enter <| emits_writeMart (still_silver ..) (gives_readInputs w workflow t)
    (gives_true _) fun _ _ hreads _ =>
      ⟨outline_eq rfl rfl hreads, rfl, mem_of_getElem? (i := 2) rfl⟩

theorem fulfils_writeChain (first second : Tool)
    (rest : List Tool) : Emits ModelFile.Meets (writeChain w workflow (first :: second :: rest))
      ((silverPlan w workflow (first :: second :: rest)).map (⟨·, first :: second :: rest⟩)) :=
  emits_writeMart (still_chain ..) (gives_readSources w workflow false _) (gives_true _)
    fun _ _ hreads _ => ⟨outline_eq rfl rfl hreads, rfl, mem_of_getElem? (i := 2) rfl⟩

theorem fulfils_writeGold :
    Emits ModelFile.Meets (writeGold w workflow t) [⟨goldPlan w workflow t, [t]⟩] :=
  emits_enter <| emits_writeMart (still_gold ..) (gives_readSources w workflow true _)
    (gives_true _) fun _ _ hreads _ =>
      ⟨outline_eq rfl rfl hreads, rfl, mem_of_getElem? (i := 3) rfl⟩

/-- The tasks of the layers, one list behind the other. -/
theorem tasks_eq : tasks w = ((w.inLayer .bronze).filter (·.category == .input)).flatMap
        (fun t => [⟨bronzePlan (sanitize w.metadata.name) t, [t]⟩])
      ++ ((chains w .silver).flatMap
          (fun chain => (silverPlan w (sanitize w.metadata.name) chain).map (⟨·, chain⟩))
        ++ (w.inLayer .gold).flatMap
          (fun t => [⟨goldPlan w (sanitize w.metadata.name) t, [t]⟩])) := by
  simp [tasks, map_eq_flatMap]

/-- What is known of the file of each model is known of the files of a workflow. -/
theorem emits_workflow {R : ModelFile → Task → Prop}
    (hbronze : ∀ workflow t, Emits R (writeBronze workflow t) [⟨bronzePlan workflow t, [t]⟩])
    (hsilver : ∀ workflow t, Emits R (writeSilver w workflow t)
      ((silverPlan w workflow [t]).map (⟨·, [t]⟩)))
    (hchain : ∀ workflow first second rest,
      Emits R (writeChain w workflow (first :: second :: rest))
        ((silverPlan w workflow (first :: second :: rest)).map (⟨·, first :: second :: rest⟩)))
    (hgold : ∀ workflow t, Emits R (writeGold w workflow t) [⟨goldPlan w workflow t, [t]⟩]) :
    Emits R (writeWorkflow w) (tasks w) := by
  rw [tasks_eq]
  refine emits_after (within_modify fun b => ⟨⟨rfl, rfl⟩, rfl, rfl⟩) fun _ => ?_
  refine emits_bind (emits_forM fun t _ => hbronze _ t) (gives_true _) fun _ _ => ?_
  refine emits_bind (emits_forM fun chain _ => ?_) (gives_true _) fun _ _ => emits_forM fun t _ =>
    hgold _ t
  -- a chain of one tool is written as a single model, a longer one is combined
  rcases chain with _ | ⟨first, _ | ⟨second, rest⟩⟩
  · exact emits_of_sameModels (within_pure _)
  · exact hsilver _ first
  · exact hchain _ first second rest

theorem emits_writeWorkflow : Emits ModelFile.Meets (writeWorkflow w) (tasks w) :=
  emits_workflow w fulfils_writeBronze (fulfils_writeSilver w) (fulfils_writeChain w)
    (fulfils_writeGold w)

theorem fulfils_writeWorkflow (b : Build) (a : Unit)
    (h : result (writeWorkflow w) b = .ok a) : ∃ new, (state (writeWorkflow w) b).files
      = b.files ++ new ∧ Forall₂ ModelFile.Meets new (tasks w) := (emits_writeWorkflow w).files h

/-- Work that comes to an end has written the planned models. -/
theorem fulfils_generate (home : Path) (ws : List Workflow) (inv : Option MacroInventory) :
    Emits ModelFile.Meets (generate home ws inv) (ws.flatMap tasks) := by
  obtain ⟨before, hbefore, hgenerate⟩ := exists_generate_eq home ws inv
  rw [hgenerate, ← append_nil (ws.flatMap tasks)]
  refine emits_after hbefore fun _ => ?_
  exact emits_bind (emits_forM fun w _ => emits_writeWorkflow w) (gives_true _) fun _ _ =>
    emits_of_sameModels outward_finish

/-- The files that were added have the outlines of the planned models. -/
theorem adds_generate (home : Path) (ws : List Workflow) (inv : Option MacroInventory) (b : Build)
    (a : Unit) (h : result (generate home ws inv) b = .ok a) :
    (state (generate home ws inv) b).files.map ModelFile.outline
      = b.files.map ModelFile.outline ++ (ws.flatMap plan).map Planned.outline := by
  obtain ⟨new, hfiles, hmeets⟩ := (fulfils_generate home ws inv).files h
  have hnew : new.map ModelFile.outline
      = ((ws.flatMap tasks).map (·.planned)).map Planned.outline := by
    rw [map_map, ← forall₂_eq_eq_eq, forall₂_map_left_iff, forall₂_map_right_iff]
    exact hmeets.imp fun f task hmeet => hmeet.outline
  rw [map_flatMap] at hnew
  simp only [map_planned_tasks] at hnew
  rw [hfiles, map_append, hnew]

end Work

end Replatform.Project

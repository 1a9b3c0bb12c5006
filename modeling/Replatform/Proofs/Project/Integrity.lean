import Replatform.Proofs.Project.Plan
import Replatform.Proofs.Project.Reference
import Replatform.Proofs.Project.Stored
import Replatform.Proofs.Workflow.Connections
/-!
# Which references lead to a model

A model refers to the tools that it reads by names that are made from the tools alone, while the
names of models of the middle layer are made from chains of tools. So a reference leads to a model
if it means a source, or if a model of the middle layer happens to have its name (`resolved_iff`).
-/

namespace Replatform.Project

open List Stateful

variable {w : Workflow} {p : Planned} {u : Tool} {f : ModelFile}

/-! ## Planned models -/

theorem mem_plan : p ∈ plan w ↔
    (∃ t ∈ w.inLayer .bronze, t.category = .input ∧ bronzePlan (sanitize w.metadata.name) t = p)
      ∨ (∃ chain ∈ chains w .silver, p ∈ silverPlan w (sanitize w.metadata.name) chain)
      ∨ ∃ t ∈ w.inLayer .gold, goldPlan w (sanitize w.metadata.name) t = p := by
  simp only [plan, mem_append, mem_map, mem_flatMap, mem_filter, beq_iff_eq, or_assoc, and_assoc]

/-- The first letters of the names of the models of a layer. -/
def initials : Layer → List Char
  | .bronze => ['s']
  | .silver => ['i']
  | .gold => ['f', 'd']

theorem initial_of_mem_plan (h : p ∈ plan w) :
    ∃ c ∈ initials p.layer, p.name.toList.head? = some c := by
  rcases mem_plan.mp h with ⟨t, -, -, rfl⟩ | ⟨chain, -, hp⟩ | ⟨t, -, rfl⟩
  · exact ⟨'s', by simp [bronzePlan, initials], by simp [bronzePlan]⟩
  · obtain ⟨hlayer, -, ⟨rest, hname⟩, -⟩ := mem_silverPlan hp
    exact ⟨'i', by simp [hlayer, initials], by simp [hname]⟩
  · by_cases hkind : (t.name = "Summarize" || !t.summaries.isEmpty)
    · refine ⟨'f', by simp [goldPlan, initials], ?_⟩
      rw [goldPlan, resultModelName, if_pos hkind]
      simp
    · refine ⟨'d', by simp [goldPlan, initials], ?_⟩
      rw [goldPlan, resultModelName, if_neg hkind]
      simp

/-- The name of a model says its layer. -/
theorem layer_eq_of_name_eq {w' : Workflow} {q : Planned} (hp : p ∈ plan w) (hq : q ∈ plan w')
    (hname : p.name = q.name) : p.layer = q.layer := by
  obtain ⟨c, hc, hhead⟩ := initial_of_mem_plan hp
  obtain ⟨d, hd, hhead'⟩ := initial_of_mem_plan hq
  rw [hname, hhead', Option.some.injEq] at hhead
  subst hhead
  generalize p.layer = l at *
  generalize q.layer = l' at *
  cases l <;> cases l' <;> simp_all [initials]

/-! ## Tools that are read -/

theorem feeds_of_mem_joinSides {t : Tool}
    (h : u ∈ (joinSides t w).1.toList ++ (joinSides t w).2.toList) :
    u ∈ w.tools ∧ w.Feeds u.id t.id := by
  rw [mem_append, Option.mem_toList, Option.mem_toList] at h
  unfold joinSides at h
  split at h
  next =>
    split at h
    next =>
      rcases h with h | h <;> exact Workflow.mem_upstream.mp (mem_of_getElem? h)
    next => rcases h with h | h <;> exact Workflow.mem_of_upstreamAt? h
  next => rcases h with h | h <;> exact Workflow.mem_of_upstreamAt? h

/-- What a model reads are tools of its workflow that do not come last. -/
theorem isFinal_of_mem_reads (hp : p ∈ plan w) (hu : u ∈ p.reads) :
    u ∈ w.tools ∧ w.isFinal u.id = false := by
  have hfeeds : ∃ id, u ∈ w.tools ∧ w.Feeds u.id id := by
    rcases mem_plan.mp hp with ⟨t, -, -, rfl⟩ | ⟨chain, -, hchain⟩ | ⟨t, -, rfl⟩
    · exact nomatch hu
    · obtain ⟨-, -, -, t, hreads | hreads⟩ := mem_silverPlan hchain
      · rw [hreads, silverReads] at hu
        split at hu
        · exact ⟨t.id, feeds_of_mem_joinSides hu⟩
        · exact ⟨t.id, Workflow.mem_upstream.mp hu⟩
      · exact ⟨t.id, Workflow.mem_upstream.mp (hreads ▸ hu)⟩
    · exact ⟨t.id, Workflow.mem_upstream.mp hu⟩
  obtain ⟨id, htool, hfeeds⟩ := hfeeds
  exact ⟨htool, Workflow.isFinal_eq_false hfeeds⟩

theorem workflow_of_mem_plan (hp : p ∈ plan w) : p.workflow = sanitize w.metadata.name := by
  rcases mem_plan.mp hp with ⟨t, -, -, rfl⟩ | ⟨chain, -, hchain⟩ | ⟨t, -, rfl⟩
  · rfl
  · exact (mem_silverPlan hchain).2.1
  · rfl

theorem exists_source_model (hp : p ∈ plan w) (hu : u ∈ p.reads) (hinput : u.category = .input) :
    ∃ q ∈ plan w, q.name = modelReference u p.workflow := by
  obtain ⟨htool, hfinal⟩ := isFinal_of_mem_reads hp hu
  have hbronze : u ∈ w.inLayer .bronze := by
    refine mem_filter.mpr ⟨htool, ?_⟩
    rw [Workflow.isIn, hfinal, hinput]
    decide
  refine ⟨bronzePlan (sanitize w.metadata.name) u,
    mem_plan.mpr (.inl ⟨u, hbronze, hinput, rfl⟩), ?_⟩
  rw [workflow_of_mem_plan hp, modelReference, if_pos hinput]
  rfl

/-- A reference leads to a model if it means a source, or if a model of the middle layer has the
name. -/
theorem exists_model_iff {ws : List Workflow} (hp : p ∈ ws.flatMap plan) (hu : u ∈ p.reads) :
    (∃ q ∈ ws.flatMap plan, q.name = modelReference u p.workflow) ↔ u.category = .input
      ∨ ∃ q ∈ ws.flatMap plan, q.layer = .silver ∧ q.name = modelReference u p.workflow := by
  obtain ⟨w, hw, hp⟩ := mem_flatMap.mp hp
  constructor
  · rintro ⟨q, hq, hname⟩
    by_cases hinput : u.category = .input
    · exact .inl hinput
    · -- The name begins as only the names of the middle layer do.
      refine .inr ⟨q, hq, ?_, hname⟩
      obtain ⟨w', -, hq⟩ := mem_flatMap.mp hq
      obtain ⟨c, hc, hhead⟩ := initial_of_mem_plan hq
      have hinitial : (modelReference u p.workflow).toList.head? = some 'i' := by
        rw [modelReference, if_neg hinput]
        simp
      rw [hname, hinitial, Option.some.injEq] at hhead
      subst hhead
      cases hlayer : q.layer with
      | silver => rfl
      | bronze | gold =>
        rw [hlayer] at hc
        exact absurd hc (by decide)
  · rintro (hinput | ⟨q, hq, -, hname⟩)
    · obtain ⟨q, hq, hname⟩ := exists_source_model hp hu hinput
      exact ⟨q, mem_flatMap.mpr ⟨w, hw, hq⟩, hname⟩
    · exact ⟨q, hq, hname⟩

/-! ## References of a project -/

/-- Every model that the file of a model of the middle or last layer refers to was written. -/
def Build.Resolved (b : Build) : Prop :=
  ∀ f ∈ b.files, f.model.layer ≠ .bronze →
    ∀ text, b.session.files.read (f.path b.dir) = .ok (.text text) →
      ∀ m, Quotable m → Refers text m → m ∈ b.written

/-- The same of the remarks of the files. -/
def Build.RemarksResolved (b : Build) : Prop :=
  ∀ f ∈ b.current, f.model.layer ≠ .bronze →
    ∀ line ∈ f.remarks, ∀ m, Quotable m → Refers line m → m ∈ b.written

/-- What models of the middle or last layer read are sources, or tools whose name is the name of a
model of the middle layer. -/
def ReadsResolved (ps : List Planned) : Prop :=
  ∀ p ∈ lastByName (·.name) ps, p.layer ≠ .bronze → ∀ u ∈ p.reads,
    u.category = .input ∨ ∃ q ∈ ps, q.layer = .silver ∧ q.name = modelReference u p.workflow

instance (ps : List Planned) : Decidable (ReadsResolved ps) :=
  inferInstanceAs (Decidable (∀ p ∈ lastByName (·.name) ps, p.layer ≠ .bronze → ∀ u ∈ p.reads,
    u.category = .input ∨ ∃ q ∈ ps, q.layer = .silver ∧ q.name = modelReference u p.workflow))

section Outlines

variable {b : Build} {ws : List Workflow}
  (hfiles : b.files.map ModelFile.outline = (ws.flatMap plan).map Planned.outline)

include hfiles

theorem written_eq_names : b.written = (ws.flatMap plan).map (·.name) := by
  have hnames := congrArg (map Outline.name) hfiles
  rwa [map_map, map_map] at hnames

/-- Every file has the outline of a planned model. -/
theorem exists_planned (hf : f ∈ b.files) : ∃ p ∈ ws.flatMap plan, p.outline = f.outline :=
  mem_map.mp (hfiles ▸ mem_map_of_mem hf)

theorem current_outlines :
    b.current.map ModelFile.outline = (lastByName (·.name) (ws.flatMap plan)).map Planned.outline :=
  calc b.current.map ModelFile.outline
      = lastByName Outline.name (b.files.map ModelFile.outline) :=
      map_lastByName _ _ (fun f => show f.outline.name = f.model.name from rfl) _
    _ = lastByName Outline.name ((ws.flatMap plan).map Planned.outline) := by rw [hfiles]
    _ = (lastByName (·.name) (ws.flatMap plan)).map Planned.outline :=
      (map_lastByName _ _ (fun p => show p.outline.name = p.name from rfl) _).symm

theorem layer_eq_of_files {g : ModelFile} (hf : f ∈ b.files) (hg : g ∈ b.files)
    (hname : f.model.name = g.model.name) : f.model.layer = g.model.layer := by
  obtain ⟨p, hp, hpf⟩ := exists_planned hfiles hf
  obtain ⟨q, hq, hqg⟩ := exists_planned hfiles hg
  obtain ⟨w, -, hp⟩ := mem_flatMap.mp hp
  obtain ⟨w', -, hq⟩ := mem_flatMap.mp hq
  have hnames : p.name = q.name :=
    (congrArg Outline.name hpf).trans (hname.trans (congrArg Outline.name hqg).symm)
  have hlayers := layer_eq_of_name_eq hp hq hnames
  exact (congrArg Outline.layer hpf).symm.trans (hlayers.trans (congrArg Outline.layer hqg))

theorem quotable_of_mem_reads (hf : f ∈ b.files) {r : Reading} (hr : r ∈ f.reads) :
    Quotable r.model := by
  obtain ⟨p, hp, hpf⟩ := exists_planned hfiles hf
  obtain ⟨w, -, hp⟩ := mem_flatMap.mp hp
  have hreads : p.references = f.reads.map (·.model) := congrArg Outline.references hpf
  have hmem : r.model ∈ p.references := hreads ▸ mem_map_of_mem hr
  obtain ⟨u, -, hu⟩ := mem_map.mp hmem
  rw [← hu, workflow_of_mem_plan hp]
  exact (isModelName_modelReference u (isModelName_sanitize _)).quotable

/-- The reads of the last files lead to models just when those of the last planned models do. -/
theorem readsResolved_iff :
    (∀ f ∈ b.current, f.model.layer ≠ .bronze → ∀ r ∈ f.reads, r.model ∈ b.written)
      ↔ ReadsResolved (ws.flatMap plan) := by
  have hmem : ∀ m, m ∈ b.written ↔ ∃ q ∈ ws.flatMap plan, q.name = m := by
    intro m
    rw [written_eq_names hfiles, mem_map]
  have hcurrent := current_outlines hfiles
  constructor
  · intro h p hp hlayer u hu
    obtain ⟨f, hf, houtline⟩ := mem_map.mp
      (hcurrent ▸ mem_map_of_mem hp : p.outline ∈ b.current.map ModelFile.outline)
    have hreads : f.reads.map (·.model) = p.references := congrArg Outline.references houtline
    obtain ⟨r, hr, hmodel⟩ := mem_map.mp
      (hreads ▸ mem_map_of_mem hu : modelReference u p.workflow ∈ f.reads.map (·.model))
    refine (exists_model_iff (mem_of_mem_lastByName hp) hu).mp ((hmem _).mp ?_)
    exact hmodel ▸ h f hf ((congrArg Outline.layer houtline).trans_ne hlayer) r hr
  · intro h f hf hlayer r hr
    obtain ⟨p, hp, houtline⟩ := mem_map.mp
      (hcurrent ▸ mem_map_of_mem hf :
        f.outline ∈ (lastByName (·.name) (ws.flatMap plan)).map Planned.outline)
    have hreads : p.references = f.reads.map (·.model) := congrArg Outline.references houtline
    obtain ⟨u, hu, hmodel⟩ := mem_map.mp
      (hreads ▸ mem_map_of_mem hr : r.model ∈ p.references)
    rw [hmem, ← hmodel]
    exact (exists_model_iff (mem_of_mem_lastByName hp) hu).mpr
      (h p hp ((congrArg Outline.layer houtline).trans_ne hlayer) u hu)

/-- The files of the models hold the texts that were written last. -/
theorem read_eq_ok_iff (hstored : Stored b) (hf : f ∈ b.files) {text : String} :
    b.session.files.read (f.path b.dir) = .ok (.text text)
      ↔ ∃ g ∈ b.current, g.model.name = f.model.name ∧ g.text = text := by
  have hpath : ∀ g ∈ b.current, g.model.name = f.model.name → g.path b.dir = f.path b.dir := by
    intro g hg hname
    have hlayer := layer_eq_of_files hfiles (mem_of_mem_lastByName hg) hf hname
    rw [ModelFile.path, ModelFile.path, hname, hlayer]
  constructor
  · intro hread
    obtain ⟨g, hg, hname⟩ := exists_mem_lastByName hf
    refine ⟨g, hg, hname, ?_⟩
    have htext := hstored.text g hg
    rw [hpath g hg hname, hread] at htext
    simpa using htext.symm
  · rintro ⟨g, hg, hname, rfl⟩
    rw [← hpath g hg hname]
    exact hstored.text g hg

theorem resolved_iff_reads_and_remarks (hstored : Stored b) :
    b.Resolved ↔ ReadsResolved (ws.flatMap plan) ∧ b.RemarksResolved := by
  rw [← readsResolved_iff hfiles]
  have hrefers : ∀ f ∈ b.current, ∀ m, Quotable m →
      (Refers f.text m ↔ (∃ r ∈ f.reads, r.model = m) ∨ ∃ line ∈ f.remarks, Refers line m) :=
    fun f hf m hm => ModelFile.refers_text_iff
      (fun r hr => quotable_of_mem_reads hfiles (mem_of_mem_lastByName hf) hr) hm
  constructor
  · intro h
    have htext : ∀ f ∈ b.current, f.model.layer ≠ .bronze → ∀ m, Quotable m → Refers f.text m →
        m ∈ b.written := fun f hf hlayer =>
      h f (mem_of_mem_lastByName hf) hlayer _ (hstored.text f hf)
    refine ⟨fun f hf hlayer r hr => ?_, fun f hf hlayer line hline m hm hline' => ?_⟩
    · have hquotable := quotable_of_mem_reads hfiles (mem_of_mem_lastByName hf) hr
      exact htext f hf hlayer _ hquotable ((hrefers f hf _ hquotable).mpr (.inl ⟨r, hr, rfl⟩))
    · exact htext f hf hlayer m hm ((hrefers f hf m hm).mpr (.inr ⟨line, hline, hline'⟩))
  · rintro ⟨hreads, hremarks⟩ f hf hlayer text hread m hm hmention
    -- The file holds the text of the last model of this name, which is of the same layer.
    obtain ⟨g, hg, hname, rfl⟩ := (read_eq_ok_iff hfiles hstored hf).mp hread
    have hlayer' : g.model.layer ≠ .bronze :=
      layer_eq_of_files hfiles (mem_of_mem_lastByName hg) hf hname ▸ hlayer
    rcases (hrefers g hg m hm).mp hmention with ⟨r, hr, rfl⟩ | ⟨line, hline, hline'⟩
    · exact hreads g hg hlayer' r hr
    · exact hremarks g hg hlayer' line hline m hm hline'

end Outlines

/-- Work that comes to an end has written the planned models, and its files hold them. -/
theorem Work.files_generate {home : Path} {ws : List Workflow} {inv : Option MacroInventory}
    {b b' : Build} (hb : b.Fresh) (hrun : (generate home ws inv).run.run b = (.ok (), b')) :
    b'.files.map ModelFile.outline = (ws.flatMap plan).map Planned.outline ∧ Stored b' := by
  obtain rfl : state (generate home ws inv) b = b' := congrArg Prod.snd hrun
  have hfiles := adds_generate home ws inv b () (congrArg Prod.fst hrun)
  rw [hb.1, map_nil, nil_append] at hfiles
  exact ⟨hfiles, stored_generate home ws inv hb⟩

/-- Work that comes to an end has written the planned models, and each stands in its file. The
references in the files of the middle and the last layer lead to models that were written just when
all tools that are read are sources or have the name of a model of the middle layer, and the remarks
refer to models that were written. -/
theorem resolved_iff (home : Path) (ws : List Workflow) (inv : Option MacroInventory) {b b' : Build}
    (hb : b.Fresh) (hrun : (Work.generate home ws inv).run.run b = (.ok (), b')) :
    b'.written = (ws.flatMap plan).map (·.name)
      ∧ (∀ f ∈ b'.files, ∃ text, b'.session.files.read (f.path b'.dir) = .ok (.text text))
      ∧ (b'.Resolved ↔ ReadsResolved (ws.flatMap plan) ∧ b'.RemarksResolved) := by
  obtain ⟨hfiles, hstored⟩ := Work.files_generate hb hrun
  refine ⟨written_eq_names hfiles, fun f hf => ?_, resolved_iff_reads_and_remarks hfiles hstored⟩
  obtain ⟨g, hg, hname⟩ := exists_mem_lastByName hf
  exact ⟨g.text, (read_eq_ok_iff hfiles hstored hf).mpr ⟨g, hg, hname, rfl⟩⟩

/-- A workflow whose two middle tools become one model, while the last tool looks for a model with
the name of the second. -/
def fusedTools : Workflow :=
  { metadata := { name := "w", path := "w.yxmd" }
    tools := [
      { id := 1, name := "Input Data", category := .input, table := some "t" },
      { id := 2, name := "Filter", category := .preparation },
      { id := 3, name := "Formula", category := .preparation },
      { id := 4, name := "Output Data", category := .output }]
    connections := [⟨1, "Output", 2, "Input"⟩, ⟨2, "True", 3, "Input"⟩, ⟨3, "Output", 4, "Input"⟩] }

/-- A project without models, in a directory beside the one with the ready-made macros. -/
def emptyProject : Build :=
  { session := { files := ⟨⟨"/", []⟩, [(["h"], .directory), (["h", "dbt_macros"], .directory)]⟩ }
    dir := ⟨"/", ["d"]⟩
    interactive := false
    validation := false }

def fusedProject : Build := state (Work.generate ⟨"/", ["h"]⟩ [fusedTools] none) emptyProject

set_option maxRecDepth 100000 in
/-- The work comes to an end, and a reference leads nowhere. -/
theorem not_resolved_fusedTools :
    (Work.generate ⟨"/", ["h"]⟩ [fusedTools] none).run.run emptyProject = (.ok (), fusedProject)
      ∧ fusedProject.written = ["stg_w_t", "int_w_filter_formula", "dim_w_w_output"]
      ∧ ¬ fusedProject.Resolved := by
  have hresult : result (Work.generate ⟨"/", ["h"]⟩ [fusedTools] none) emptyProject = .ok () := by
    decide +kernel
  have hrun : (Work.generate ⟨"/", ["h"]⟩ [fusedTools] none).run.run emptyProject
      = (.ok (), fusedProject) := run_eq_of_result hresult
  obtain ⟨hwritten, -, hresolved⟩ :=
    resolved_iff ⟨"/", ["h"]⟩ [fusedTools] none (b := emptyProject) ⟨rfl, rfl⟩ hrun
  refine ⟨hrun, hwritten.trans (by decide +kernel), fun h => ?_⟩
  exact absurd (hresolved.mp h).1 (by decide +kernel)

end Replatform.Project

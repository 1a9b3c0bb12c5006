import Replatform.Proofs.Project.Asking
import Replatform.Proofs.Project.Collection
import Replatform.Proofs.Project.Independence
import Replatform.Proofs.Project.Integrity
import Replatform.Proofs.Project.Ledger
/-!
# Staging models and the list of the sources

The model of a source selects from a table of the list of the sources. All sources are collected
before the list and the models are written, so the list, the model and what reads the model go by
the same columns (`staging_generate`).
-/

namespace Replatform.Project

open List Stateful Replatform.Path

variable {f : ModelFile} {t : Tool} {b : Build}

/-- A block reads the model of a tool. Of a source whose number no other tool has, it reads columns
that are known. -/
def ReadsKnown (sources : Sources) (w : Workflow) (r : Reading) (u : Tool) : Prop :=
  r.model = modelReference u (sanitize w.metadata.name)
    ∧ (u ∈ w.sources → w.Sole u → r.columns ⊆ columnsOf sources u)

/-- The file is that of a planned model of the workflow and goes by the columns of the sources. -/
structure Staged (sources : Sources) (w : Workflow) (f : ModelFile) : Prop where
  bronze : f.model.layer = .bronze → ∃ t ∈ w.sources,
    f = Work.bronzeFile (sanitize w.metadata.name) t (columnsOf sources t)
  reads : ∃ p ∈ plan w, f.outline = p.outline
    ∧ Forall₂ (ReadsKnown sources w) f.reads p.reads

/-! ## The work on one workflow -/

theorem mem_tools_of_mem_chains {w : Workflow} {layer : Layer} {chain : List Tool}
    (h : chain ∈ chains w layer) : ∀ t ∈ chain, t ∈ w.tools := by
  intro t ht
  have hall : ∀ t ∈ w.inLayer layer, t ∈ w.tools ∧ w.isIn layer t := fun t ht => mem_filter.mp ht
  exact (mem_chainsFrom w (w.isIn layer) _ hall [] t (mem_flatten.mpr ⟨chain, h, ht⟩)).1

/-- The sources are as they were collected, and the files of the workflows go by them. -/
structure Shelved (sources : Sources) (ws : List Workflow) (b : Build) : Prop where
  stock : b.sources = sources
  files : ∀ f ∈ b.files, ∃ w ∈ ws, Staged sources w f

/-- What is kept of the sources of the workflow is true, too. -/
structure Stocked (sources : Sources) (ws : List Workflow) (w : Workflow) (b : Build) : Prop
    extends Shelved sources ws b where
  known : Faithful w b.columns

namespace Work

variable {sources : Sources} {ws : List Workflow} {w : Workflow}

theorem ensures_of_asks {α : Type} {x : Work α} (hx : Within (Asks w) x) :
    Ensures (Stocked sources ws w) x fun _ => True := by
  refine ensures_of_within fun b hb => ?_
  obtain ⟨hknown, hsources, hfiles⟩ := hx b
  exact ⟨⟨hsources.trans hb.stock, hfiles ▸ hb.files⟩, hknown hb.known⟩

theorem mem_tools_of_mem_upstream {t : Tool} : ∀ u ∈ w.upstream t.id, u ∈ w.tools :=
  fun _ hu => (Workflow.mem_upstream.mp hu).1

theorem asks_toolQuery {t : Tool} (ht : t ∈ w.tools) :
    Within (Asks w) (toolQuery w t (w.upstream t.id)) :=
  holds_toolQuery (T := .within (Asks w)) ht mem_tools_of_mem_upstream

theorem ensures_enter (model layer : String) :
    Ensures (Stocked sources ws w) (enter model layer) fun _ => True :=
  ensures_of_within (within_modify fun _ hb => ⟨⟨hb.stock, hb.files⟩, hb.known⟩)

theorem ensures_writeModel (hw : w ∈ ws) (hf : Staged sources w f) :
    Ensures (Stocked sources ws w) (writeModel f) fun _ => True := by
  refine ensures_of_within fun b hb => ?_
  rcases state_writeModel f b with hstate | ⟨fs, files, -, -, hstate⟩
  · rw [hstate]
    exact hb
  · rw [hstate]
    refine ⟨⟨hb.stock, fun g hg => ?_⟩, hb.known⟩
    rcases mem_append.mp hg with hg | hg
    · exact hb.files g hg
    · exact ⟨w, hw, mem_singleton.mp hg ▸ hf⟩

section Readings

variable (hcovered : ∀ t ∈ w.sources, Covered sources t)

include hcovered

/-- The columns that leave a source are known. -/
theorem ensures_toolColumns {u : Tool} (hu : u ∈ w.tools) :
    Ensures (Stocked sources ws w) (toolColumns w u)
      fun columns => u ∈ w.sources → w.Sole u → columns ⊆ columnsOf sources u := by
  intro b hb
  refine ⟨(ensures_of_asks (asks_toolColumns hu) b hb).1, fun columns h hsource hsole => ?_⟩
  obtain ⟨_, hanswer, hmentioned⟩ := toolColumns_subset hsource hsole hb.known
  cases h.symm.trans hanswer
  exact Subset.trans hmentioned (hcovered u hsource).subset

theorem ensures_readSources (noted : Bool) {upstream : List Tool}
    (hup : ∀ u ∈ upstream, u ∈ w.tools) :
    Ensures (Stocked sources ws w) (readSources w (sanitize w.metadata.name) noted upstream)
      fun reads => Forall₂ (ReadsKnown sources w) reads upstream := by
  have hmap : Ensures (Stocked sources ws w)
      (readSources w (sanitize w.metadata.name) noted upstream)
      fun reads => Forall₂ (fun r p => ReadsKnown sources w r p.1) reads upstream.zipIdx := by
    refine ensures_mapM fun p hp => ?_
    refine ensures_bind (ensures_toolColumns hcovered (hup p.1 (fst_mem_of_mem_zipIdx hp)))
      fun columns hcolumns => ?_
    dsimp only
    split
    · exact ensures_bind (ensures_of_asks (within_addTodo _ _ _ _)) fun _ _ =>
        ensures_pure ⟨rfl, hcolumns⟩
    · exact ensures_pure ⟨rfl, hcolumns⟩
  intro b hb
  refine ⟨(hmap b hb).1, fun reads h => ?_⟩
  have hreads := forall₂_map_right_iff.mpr ((hmap b hb).2 reads h)
  rwa [zipIdx_map_fst] at hreads

theorem ensures_readSide (first : Bool) (side : String) {u : Tool} (hu : u ∈ w.tools) :
    Ensures (Stocked sources ws w) (readSide w (sanitize w.metadata.name) first side u)
      fun r => ReadsKnown sources w r u := by
  refine ensures_bind (ensures_toolColumns hcovered hu) fun columns hcolumns => ?_
  dsimp only
  split
  · exact ensures_bind (ensures_of_asks (within_addTodo _ _ _ _)) fun _ _ =>
      ensures_pure ⟨rfl, hcolumns⟩
  · exact ensures_pure ⟨rfl, hcolumns⟩

theorem ensures_readSides (t : Tool) :
    Ensures (Stocked sources ws w) (readSides w (sanitize w.metadata.name) t)
      fun reads => Forall₂ (ReadsKnown sources w) reads
        ((joinSides t w).1.toList ++ (joinSides t w).2.toList) := by
  have hmem : ∀ u ∈ (joinSides t w).1.toList ++ (joinSides t w).2.toList, u ∈ w.tools :=
    fun u hu => (feeds_of_mem_joinSides hu).1
  have hside : ∀ first side (us : List Tool), (∀ u ∈ us, u ∈ w.tools) →
      Ensures (Stocked sources ws w)
        (us.mapM (readSide w (sanitize w.metadata.name) first side))
        fun reads => Forall₂ (ReadsKnown sources w) reads us :=
    fun first side us hus => ensures_mapM fun u hu => ensures_readSide hcovered _ _ (hus u hu)
  unfold readSides
  generalize joinSides t w = sides at hmem
  obtain ⟨left, right⟩ := sides
  refine ensures_bind (hside _ _ _ fun u hu => hmem u (mem_append_left _ hu)) fun ls hls => ?_
  refine ensures_bind (hside _ _ _ fun u hu => hmem u (mem_append_right _ hu)) fun rs hrs => ?_
  exact ensures_pure (rel_append hls hrs)

end Readings

section Models

variable (hw : w ∈ ws)

include hw

theorem ensures_writeBronze (ht : t ∈ w.inLayer .bronze) (hsource : t.category = .input) :
    Ensures (Stocked sources ws w) (writeBronze (sanitize w.metadata.name) t) fun _ => True := by
  have htool : t ∈ w.sources := mem_sources.mpr ⟨(mem_filter.mp ht).1, hsource⟩
  have hplan : bronzePlan (sanitize w.metadata.name) t ∈ plan w :=
    mem_plan.mpr (.inl ⟨t, ht, hsource, rfl⟩)
  refine ensures_of_within fun b hb => ?_
  obtain ⟨todos, -, hstate⟩ := run_writeBronze (sanitize w.metadata.name) t b
  have hcolumns : sourceColumns b t = columnsOf sources t := by
    rw [← hb.stock]
    rfl
  rw [hstate, hcolumns]
  refine (ensures_writeModel hw ⟨fun _ => ⟨t, htool, rfl⟩, _, hplan, rfl, .nil⟩ _ ?_).1
  exact ⟨⟨hb.stock, hb.files⟩, hb.known⟩

/-- A model behind the first layer is written when it is known what it reads. -/
theorem ensures_writeMart {p : Planned} {model : Model} {head : List String}
    {reads : Work (List Reading)} {query : Work String} {note : String → Work Unit}
    (hp : p ∈ plan w) (hname : model.name = p.name) (hlayer : model.layer = p.layer)
    (hmart : p.layer ≠ .bronze)
    (hreads : Ensures (Stocked sources ws w) reads
      fun rs => Forall₂ (ReadsKnown sources w) rs p.reads)
    (hquery : Within (Asks w) query) (hnote : ∀ text, Within (Asks w) (note text)) :
    Ensures (Stocked sources ws w) (writeMart model head reads query note) fun _ => True := by
  refine ensures_bind hreads fun rs hrs => ensures_bind (ensures_of_asks hquery) fun text _ => ?_
  refine ensures_bind (ensures_of_asks (hnote text)) fun _ _ => ?_
  refine ensures_writeModel hw ⟨fun h => absurd (hlayer.symm.trans h) hmart, p, hp, ?_, hrs⟩
  refine outline_eq hname hlayer ?_
  rw [Planned.references, workflow_of_mem_plan hp, ← forall₂_eq_eq_eq,
    forall₂_map_left_iff, forall₂_map_right_iff]
  exact hrs.imp fun _ _ h => h.1

variable (hcovered : ∀ t ∈ w.sources, Covered sources t)

include hcovered

theorem ensures_writeSilver (ht : [t] ∈ chains w .silver) :
    Ensures (Stocked sources ws w) (writeSilver w (sanitize w.metadata.name) t)
      fun _ => True := by
  have htool : t ∈ w.tools := mem_tools_of_mem_chains ht t (mem_singleton.mpr rfl)
  have hplan := mem_plan.mpr (.inr (.inl ⟨[t], ht, mem_singleton.mpr rfl⟩))
  refine ensures_bind (ensures_enter _ _) fun _ _ => ?_
  refine ensures_writeMart hw hplan rfl rfl nofun ?_ (asks_toolQuery htool) fun _ =>
    holds_noteOpenEnds (T := .within (Asks w)) _ _ _ _
  unfold readInputs
  change Ensures _ _ fun rs => Forall₂ (ReadsKnown sources w) rs (silverReads w t)
  unfold silverReads
  split
  · exact ensures_readSides hcovered t
  · exact ensures_readSources hcovered true mem_tools_of_mem_upstream

theorem ensures_writeChain {first second : Tool} {rest : List Tool}
    (hchain : first :: second :: rest ∈ chains w .silver) :
    Ensures (Stocked sources ws w)
      (writeChain w (sanitize w.metadata.name) (first :: second :: rest)) fun _ => True := by
  have htools := mem_tools_of_mem_chains hchain
  have hplan := mem_plan.mpr (.inr (.inl ⟨_, hchain, mem_singleton.mpr rfl⟩))
  exact ensures_writeMart hw hplan rfl rfl nofun
    (ensures_readSources hcovered false mem_tools_of_mem_upstream)
    (holds_chainQuery (T := .within (Asks w)) htools _) fun _ => within_pure _

theorem ensures_writeGold (ht : t ∈ w.inLayer .gold) :
    Ensures (Stocked sources ws w) (writeGold w (sanitize w.metadata.name) t) fun _ => True := by
  have hplan := mem_plan.mpr (.inr (.inr ⟨t, ht, rfl⟩))
  refine ensures_bind (ensures_enter _ _) fun _ _ => ?_
  exact ensures_writeMart hw hplan rfl rfl nofun
    (ensures_readSources hcovered true mem_tools_of_mem_upstream)
    (asks_toolQuery (mem_filter.mp ht).1) fun _ =>
      holds_noteOpenEnds (T := .within (Asks w)) _ _ _ _

theorem ensures_writeWorkflow : Ensures (Shelved sources ws) (writeWorkflow w) fun _ => True := by
  refine ensures_of_within fun b hb => ?_
  -- nothing is kept of any tool when the work on a workflow begins
  have hstart : Stocked sources ws w { b with columns := [] } :=
    ⟨⟨hb.stock, hb.files⟩, fun _ _ _ _ h => nomatch h⟩
  unfold writeWorkflow
  rw [state_modify_bind]
  refine ((ensures_bind (R := fun _ => True) (ensures_forM fun t ht => ?_) fun _ _ => ?_)
    _ hstart).1.toShelved
  · obtain ⟨ht, hsource⟩ := mem_filter.mp ht
    exact ensures_writeBronze hw ht (beq_iff_eq.mp hsource)
  refine ensures_bind (ensures_forM fun chain hchain => ?_) fun _ _ =>
    ensures_forM fun t ht => ensures_writeGold hw hcovered ht
  match chain, hchain with
  | [], _ => exact ensures_pure trivial
  | [t], hchain => exact ensures_writeSilver hw hcovered hchain
  | _ :: _ :: _, hchain => exact ensures_writeChain hw hcovered hchain

end Models

/-! ## Every source has its model -/

/-- Sources stay as they are, and files of models stay. -/
def KeepsStock (b b' : Build) : Prop := b'.sources = b.sources ∧ b.files ⊆ b'.files

instance : Discreet KeepsStock where
  refl _ := ⟨rfl, Subset.refl _⟩
  trans _ _ _ h₁ h₂ := ⟨h₂.1.trans h₁.1, Subset.trans h₁.2 h₂.2⟩
  printed _ _ := ⟨rfl, Subset.refl _⟩
  noted _ _ _ _ _ := ⟨rfl, Subset.refl _⟩
  columns _ _ := ⟨rfl, Subset.refl _⟩
  model _ _ _ := ⟨rfl, Subset.refl _⟩

theorem keepsStock_writeModel (f : ModelFile) : Within KeepsStock (writeModel f) := by
  intro b
  rcases state_writeModel f b with hstate | ⟨fs, files, -, -, hstate⟩
  · rw [hstate]
    exact refl_of KeepsStock b
  · rw [hstate]
    exact ⟨rfl, subset_append_left _ _⟩

/-- The sources are these, and the files of the log have been written. -/
def Holding (sources : Sources) (log : List ModelFile) (b : Build) : Prop :=
  b.sources = sources ∧ log ⊆ b.files

theorem puts_of_keepsStock {α : Type} {x : Work α} (hx : Within KeepsStock x) :
    Puts (Holding sources) x [] := by
  refine puts_of_within fun b log hb => ?_
  obtain ⟨hsources, hfiles⟩ := hx b
  exact ⟨hsources.trans hb.1, Subset.trans hb.2 hfiles⟩

/-- A model whose step answers has been written. -/
theorem puts_writeModel (f : ModelFile) : Puts (Holding sources) (writeModel f) [f] := by
  intro log b a hb h
  obtain ⟨hsources, hfiles⟩ := keepsStock_writeModel f b
  refine ⟨hsources.trans hb.1, append_subset.mpr ⟨Subset.trans hb.2 hfiles, ?_⟩⟩
  unfold writeModel at h ⊢
  rw [result_get_bind] at h
  rw [state_get_bind]
  obtain ⟨_, -, -, hstate⟩ := bind_ok h
  rw [hstate]
  exact subset_append_right _ _

theorem puts_writeBronze (workflow : String) (t : Tool) :
    Puts (Holding sources) (writeBronze workflow t)
      [bronzeFile workflow t (columnsOf sources t)] := by
  intro log b a hb h
  obtain ⟨todos, hresult, hstate⟩ := run_writeBronze workflow t b
  have hcolumns : sourceColumns b t = columnsOf sources t := by
    rw [← hb.1]
    rfl
  rw [hcolumns] at hresult hstate
  rw [hresult] at h
  rw [hstate]
  exact puts_writeModel _ log _ a hb h

def bronzeFiles (sources : Sources) (w : Workflow) : List ModelFile :=
  ((w.inLayer .bronze).filter (·.category == .input)).map fun t =>
    bronzeFile (sanitize w.metadata.name) t (columnsOf sources t)

theorem puts_writeWorkflow (w : Workflow) :
    Puts (Holding sources) (writeWorkflow w) (bronzeFiles sources w) := by
  have hworkflow := isModelName_sanitize w.metadata.name
  have hwrite : ∀ f : ModelFile, IsModelName f.model.name → Within KeepsStock (writeModel f) :=
    fun f _ => keepsStock_writeModel f
  refine puts_after (puts_of_keepsStock (within_modify fun b => Quiet.columns b _)) fun _ => ?_
  dsimp only
  rw [bronzeFiles, map_eq_flatMap]
  refine puts_before (puts_forM fun t _ => puts_writeBronze _ t) fun _ =>
    puts_of_keepsStock (holds_marts (T := .within KeepsStock) hwrite hworkflow within_enter)

/-! ## The list of the sources on the disk -/

/-- The project is written to the directory, the names of its models are parts of paths, and its
list of the sources has the text. -/
structure Posted (dir : Path) (text : String) (b : Build) : Prop where
  dir_eq : b.dir = dir
  wellNamed : b.WellNamed
  list : b.session.files.read (dir.below sourceListNames) = .ok (.text text)

/-- Work that begins with the list ends with it. -/
def KeepsPosted (dir : Path) (text : String) (b b' : Build) : Prop :=
  Posted dir text b → Posted dir text b'

variable {dir : Path} {text : String}

instance : Modest (KeepsPosted dir text) where
  refl _ h := h
  trans _ _ _ h₁ h₂ h := h₂ (h₁ h)
  of_eq {b b'} hoptions _ hmodels hdisk h := by
    refine ⟨hoptions.1.trans h.dir_eq, ?_, hdisk ▸ h.list⟩
    rw [Build.WellNamed, hmodels]
    exact h.wellNamed

theorem modelNames_ne_sourceListNames (layer : Layer) (name : String) :
    modelNames layer name ≠ sourceListNames := by
  intro he
  have hlast : name ++ ".sql" = "_sources.yml" := by
    simpa [sourceListNames, modelNames] using congrArg getLast? he
  have hend := congrArg (fun s : String => s.toList.reverse.take 2) hlast
  rw [String.toList_append] at hend
  simp at hend

/-- The list has a name of its own. -/
theorem posted_writeModel (hname : IsModelName f.model.name) :
    Within (KeepsPosted dir text) (writeModel f) := by
  intro b hb
  rcases state_writeModel f b with hstate | ⟨fs, files, hmade, hwrite, hstate⟩
  · rw [hstate]
    exact hb
  · rw [path_eq_below hname, hb.dir_eq] at hwrite
    have hpermits : Permits dir (· ≠ sourceListNames) (SparesBelow dir sourceListNames) :=
      permits_sparesBelow dir (by decide)
    have hne : ["models", f.model.layer.name] ++ [f.model.name ++ ".sql"] ≠ sourceListNames :=
      modelNames_ne_sourceListNames f.model.layer f.model.name
    have hup : ".." ∉ ["models", f.model.layer.name] ++ [f.model.name ++ ".sql"] :=
      dots_notMem_modelNames f.model.layer f.model.name
    have hspared : SparesBelow dir sourceListNames b.session.files files :=
      trans_of (SparesBelow dir sourceListNames) (hpermits.directory hmade)
        (hpermits.file hne (isPart_sql hname) hup hwrite)
    rw [hstate]
    refine ⟨hb.dir_eq, fun m hm => ?_, Files.read_of_spares hspared hb.list⟩
    rcases mem_of_mem_setField hm with rfl | hm
    · exact ⟨hname, hname⟩
    · exact hb.wellNamed m hm

theorem posted_finish : Within (KeepsPosted dir text) finish := by
  intro b hb
  have hlists : ∀ layer, listNames layer ≠ sourceListNames := by
    intro layer
    cases layer <;> decide
  obtain ⟨hsame, hspared⟩ := beside_finish (permits_sparesBelow dir (by decide))
    (fun names hout => by
      rintro rfl
      exact hout (by decide)) hlists (fun name he => absurd (cons.inj he).1 (by decide))
    b hb.dir_eq hb.wellNamed
  refine ⟨hsame.options.1.trans hb.dir_eq, ?_, Files.read_of_spares hspared hb.list⟩
  rw [Build.WellNamed, hsame.models]
  exact hb.wellNamed

/-- The list that is written tells of the sources that are known then. -/
theorem posted_writeSourceList (hb : b.models = []) (h : result writeSourceList b = .ok ()) :
    Posted b.dir (sourceList b.sources) (state writeSourceList b) := by
  have hpath : b.dir / "models" / "bronze" / "_sources.yml" = b.dir.below sourceListNames := by
    rw [div_div_eq_below b.dir (by decide) (by decide), below_div _ _ (by decide)]
    rfl
  unfold writeSourceList at h ⊢
  rw [result_get_bind, hpath] at h
  rw [state_get_bind, hpath]
  rcases run_writeText (b.dir.below sourceListNames) (sourceList b.sources) b with
    ⟨e, hresult, -⟩ | ⟨fs, files, -, hwrite, -, hstate⟩
  · exact nomatch hresult.symm.trans h
  · have hparts : (b.dir.below sourceListNames).parts
        = (b.dir.parts ++ ["models", "bronze"]) ++ ["_sources.yml"] := by
      simp [below, sourceListNames]
    rw [hstate]
    refine ⟨rfl, ?_, Files.read_of_write hparts (by decide) hwrite⟩
    rw [Build.WellNamed, hb]
    exact forall_mem_nil _

end Work

/-! ## The whole work -/

/-- What is told of the tables has no line breaks. -/
def Plainly (sources : Sources) : Prop :=
  ∀ x ∈ sources, ∀ y ∈ x.2, '\n' ∉ y.2.description.toList ∧ ∀ c ∈ y.2.columns, '\n' ∉ c.toList

theorem Collected.oneLine {sources : Sources} (h : Collected sources) (hplain : Plainly sources) :
    OneLine sources where
  schemas x hx hbreak := absurd (h.schemas x hx _ hbreak) (by decide)
  tables x hx y hy hbreak := absurd (h.tables x hx y hy _ hbreak) (by decide)
  descriptions x hx y hy := (hplain x hx y hy).1
  columns x hx y hy := (hplain x hx y hy).2

/-- The list of the sources, their models and what reads them go by the same columns. -/
structure Staging (sources : Sources) (ws : List Workflow) (b : Build) : Prop where
  /-- The list is on the disk. -/
  listed : b.session.files.read (b.dir.below sourceListNames) = .ok (.text (sourceList sources))
  /-- Its lines declare the tables. -/
  legible : Plainly sources → declarations (sourceList sources) = declared sources
  /-- The table of every source is declared once. -/
  once : ∀ w ∈ ws, ∀ t ∈ w.sources,
    (declared sources).filter (fun d => (d.schema, d.table) = (schemaName t, tableName t))
      = [⟨schemaName t, tableName t, columnsOf sources t⟩]
  /-- The models of the sources have the columns that are declared, and no other model reads more of
  them. -/
  models : ∀ f ∈ b.files, ∃ w ∈ ws, Staged sources w f
  /-- Whatever was asked before, a source answers columns that are declared. -/
  answers : ∀ w ∈ ws, ∀ t ∈ w.sources, w.Sole t → ∀ qs : List ColumnQuery,
    (∀ q ∈ qs, q.tool ∈ w.tools) → ∀ c : Build, c.columns = [] → ∃ columns,
      result (Work.toolColumns w t) (state (qs.mapM (·.ask w)) c) = .ok columns
        ∧ columns ⊆ columnsOf sources t

namespace Work

variable {sources : Sources} {ws : List Workflow}

theorem answers_of_covered {w : Workflow} (ht : t ∈ w.sources) (hsole : w.Sole t)
    (hcovered : Covered sources t) {qs : List ColumnQuery} (hqs : ∀ q ∈ qs, q.tool ∈ w.tools)
    {c : Build} (hc : c.columns = []) : ∃ columns,
      result (toolColumns w t) (state (qs.mapM (·.ask w)) c) = .ok columns
        ∧ columns ⊆ columnsOf sources t := by
  have hasks : Within (Asks w) (qs.mapM (·.ask w)) := within_mapM fun q hq => asks_ask (hqs q hq)
  have hstart : Faithful w c.columns := hc ▸ fun _ _ _ _ h => nomatch h
  obtain ⟨columns, hanswer, hmentioned⟩ := toolColumns_subset ht hsole ((hasks c).1 hstart)
  exact ⟨columns, hanswer, Subset.trans hmentioned hcovered.subset⟩

/-- From where the list is written, everything goes by it. -/
theorem staging_of_posted (hb : b.Fresh) (hposted : Posted b.dir (sourceList b.sources) b)
    (hcollected : Collected b.sources) (hcovered : ∀ w ∈ ws, ∀ t ∈ w.sources, Covered b.sources t) :
    let rest : Work Unit := do ws.forM writeWorkflow; finish
    Staging b.sources ws (state rest b)
      ∧ (result rest b = .ok () → ∀ w ∈ ws, bronzeFiles b.sources w ⊆ (state rest b).files) := by
  intro rest
  have hfinish : Within SameStock finish := outward_finish
  have hlist : Posted b.dir (sourceList b.sources) (state rest b) :=
    within_bind (R := KeepsPosted b.dir (sourceList b.sources))
      (within_forM fun w _ => within_writeWorkflow (fun _ => posted_writeModel) w)
      (fun _ => posted_finish) b hposted
  have hshelved : Ensures (Shelved b.sources ws) rest fun _ => True := by
    refine ensures_bind (ensures_forM fun w hw => ensures_writeWorkflow hw (hcovered w hw))
      fun _ _ => ensures_of_within fun c hc => ?_
    obtain ⟨hsources, hfiles⟩ := hfinish c
    exact ⟨hsources.trans hc.stock, hfiles ▸ hc.files⟩
  have hputs : Puts (Holding b.sources) rest (ws.flatMap (bronzeFiles b.sources)) := by
    refine puts_before (puts_forM fun w _ => puts_writeWorkflow w) fun _ => ?_
    refine puts_of_keepsStock fun c => ?_
    obtain ⟨hsources, hfiles⟩ := hfinish c
    exact ⟨hsources, hfiles ▸ Subset.refl _⟩
  have hstart : Shelved b.sources ws b := ⟨rfl, by rw [hb.1]; exact fun f hf => nomatch hf⟩
  refine ⟨⟨?_, fun h => declarations_sourceList (hcollected.oneLine h), ?_, ?_, ?_⟩,
    fun h w hw => ?_⟩
  · rw [hlist.dir_eq]
    exact hlist.list
  · exact fun w hw t ht => (hcovered w hw t ht).declared_once hcollected.once
  · exact (hshelved b hstart).1.files
  · exact fun w hw t ht hsole qs hqs c hc => answers_of_covered ht hsole (hcovered w hw t ht) hqs hc
  · have hholding := hputs [] b () ⟨rfl, nil_subset _⟩ h
    exact fun f hf => hholding.2 (mem_flatMap.mpr ⟨w, hw, hf⟩)

/-- The work fails before it writes a model, or its models go by the list of the sources. -/
def Contract (ws : List Workflow) (x : Work Unit) (b : Build) : Prop :=
  (∃ e, result x b = .error e ∧ (state x b).files = [])
    ∨ ∃ sources, Staging sources ws (state x b)
      ∧ (result x b = .ok () → ∀ w ∈ ws, bronzeFiles sources w ⊆ (state x b).files)

/-- A step that writes no model may come first. -/
theorem contract_bind {x : Work Unit} {f : Unit → Work Unit} (hb : b.Fresh)
    (hx : Within SameModels x)
    (hf : result x b = .ok () → (state x b).Fresh → Contract ws (f ()) (state x b)) :
    Contract ws (x >>= f) b := by
  have hfresh := hb.of_sameModels (hx b)
  unfold Contract
  cases hresult : result x b with
  | error e =>
    rw [result_bind_of_error hresult, state_bind_of_error hresult]
    exact .inl ⟨e, rfl, hfresh.1⟩
  | ok a =>
    rw [result_bind_of_ok hresult, state_bind_of_ok hresult]
    exact hf hresult hfresh

/-- Unless the work fails before it writes a model, the table of every source is declared once in
the list of the sources, whose lines tell just this if nothing in it has a line break. The models of
the sources have the columns of the list, and no more are read from them unless another tool of the
workflow has the number of the source. -/
theorem staging_generate (home : Path) (ws : List Workflow) (inv : Option MacroInventory)
    {b : Build} (hb : b.Fresh) (hsources : b.sources = []) :
    Contract ws (generate home ws inv) b := by
  have hmodels : ∀ b : Build, b.Fresh → b.sources = [] →
      Contract ws (do collectSources ws; writeSourceList; ws.forM writeWorkflow; finish) b := by
    intro b hb hsources
    refine contract_bind hb (within_collectSources ws) fun hcollect hb => ?_
    obtain ⟨hcollected, hcovered⟩ := covered_collectSources hsources hcollect
    generalize state (collectSources ws) b = c at hb hcollected hcovered
    refine contract_bind hb writing_writeSourceList fun hlist hfresh => .inr ?_
    have hposted := posted_writeSourceList hb.2 hlist
    have hsame : (state writeSourceList c).sources = c.sources := writing_writeSourceList
      (R := SameSources) c
    have hdir : (state writeSourceList c).dir = c.dir :=
      (writing_writeSourceList (R := SameModels) c).options.1
    rw [← hsame, ← hdir] at hposted
    rw [← hsame] at hcollected hcovered
    exact ⟨_, staging_of_posted hfresh hposted hcollected hcovered⟩
  refine contract_bind hb (writing_makeDirectories home) fun _ hb => ?_
  have hkept : (state (makeDirectories home) b).sources = [] :=
    (writing_makeDirectories (R := SameSources) home b).trans hsources
  generalize state (makeDirectories home) b = c at hb hkept
  cases inv with
  | none => exact hmodels c hb hkept
  | some inv =>
    refine contract_bind hb (outward_writeMacros inv) fun _ hfresh => hmodels _ hfresh ?_
    exact (outward_writeMacros (R := SameSources) inv c).trans hkept

/-- The columns of the models, and what is read from models, in order. -/
def columnView (b : Build) : List (String × List String) × List (String × List String) :=
  (b.files.map fun f => (f.model.name, f.model.columns),
    b.files.flatMap fun f => f.reads.map fun r => (r.model, r.columns))

set_option maxRecDepth 100000 in
/-- Two workflows read one table, each another column of it: the table is declared once, with both
columns, and each result reads its own. -/
theorem staging_sharedTable :
    let ws := [passedOn "x", passedOn "y"]
    let b := state (generate ⟨"/", ["h"]⟩ ws none) emptyProject
    (∃ sources, Staging sources ws b ∧ ∀ w ∈ ws, bronzeFiles sources w ⊆ b.files)
      ∧ columnView b = ([("stg_w_t", ["x", "y"]), ("dim_w_o", []), ("stg_w_t", ["x", "y"]),
        ("dim_w_o", [])], [("stg_w_t", ["x"]), ("stg_w_t", ["y"])]) := by
  intro ws b
  have hresult : result (generate ⟨"/", ["h"]⟩ ws none) emptyProject = .ok () := by
    unfold generate writeWorkflow writeGold
    simp only [noteOpenEnds_eq]
    decide +kernel
  have hcontract := staging_generate ⟨"/", ["h"]⟩ ws none (b := emptyProject) ⟨rfl, rfl⟩ rfl
  constructor
  · rcases hcontract with ⟨e, he, -⟩ | ⟨sources, hstaging, hfiles⟩
    · exact nomatch hresult.symm.trans he
    · exact ⟨sources, hstaging, hfiles hresult⟩
  · unfold b generate writeWorkflow writeGold
    simp only [noteOpenEnds_eq]
    decide +kernel

/-- Two sources with one number, and a result that reads both. -/
def sharedNumber : Workflow :=
  { metadata := { name := "w", path := "w.yxmd" }
    tools := [
      { id := 1, name := "Input Data", category := .input, table := some "a", selected := ["x"] },
      { id := 1, name := "Input Data", category := .input, table := some "b", selected := ["y"] },
      { id := 2, name := "Output Data", category := .output, table := some "o" }]
    connections := [⟨1, "Output", 2, "Input"⟩] }

/-- A source whose annotation spells a further entry of the list, and a result that reads it. -/
def spelledEntry : Workflow :=
  { metadata := { name := "w", path := "w.yxmd" }
    tools := [
      { id := 1, name := "Input Data", category := .input, table := some "t"
        annotation := some "x\"\n      - name: t\n        description: \"y", selected := ["c"] },
      { id := 2, name := "Output Data", category := .output, table := some "o" }]
    connections := [⟨1, "Output", 2, "Input"⟩] }

set_option maxRecDepth 100000 in
/-- What is kept of the first source is taken for the second, so that a column is read from the
second model that it does not have. A table whose annotation spells an entry is declared twice. -/
theorem reads_foreign_column :
    columnView (state (generate ⟨"/", ["h"]⟩ [sharedNumber] none) emptyProject)
        = ([("stg_w_a", ["x"]), ("stg_w_b", ["y"]), ("dim_w_o", [])],
          [("stg_w_a", ["x"]), ("stg_w_b", ["x"])])
      ∧ let b := state (generate ⟨"/", ["h"]⟩ [spelledEntry] none) emptyProject
        columnView b = ([("stg_w_t", ["c"]), ("dim_w_o", [])], [("stg_w_t", ["c"])])
          ∧ declarations (sourceList b.sources) = [⟨"raw", "t", []⟩, ⟨"raw", "t", ["c"]⟩] := by
  unfold generate writeWorkflow writeGold
  simp only [noteOpenEnds_eq]
  refine ⟨?_, ?_, ?_⟩ <;> decide +kernel

end Work

end Replatform.Project

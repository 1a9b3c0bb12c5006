import Replatform.Proofs.Project.Chain
import Replatform.Proofs.Project.Integrity
import Replatform.Proofs.Project.Record
/-!
# Models that replace each other

The name of a model is made from its workflow and from what its tools are called, and nothing keeps
two tools from being called the same. The model that is written last under a name has the file and
the entry of this name, while the names that were written are counted all the same
(`nodup_written_iff`).
-/

namespace Replatform.Project

open List Stateful

/-! ## Names of a layer -/

/-- The name of the model of a chain, which may be a single tool. -/
def silverName (workflow : String) : List Tool → String
  | [t] => "int_" ++ workflow ++ "_" ++ sanitize t.displayName
  | chain => chainName workflow chain

def layerNames (w : Workflow) : Layer → List String
  | .bronze => ((w.inLayer .bronze).filter (·.category == .input)).map fun t =>
      "stg_" ++ sanitize w.metadata.name ++ "_" ++ tableName t
  | .silver => (chains w .silver).map (silverName (sanitize w.metadata.name))
  | .gold => (w.inLayer .gold).map fun t => resultModelName t (sanitize w.metadata.name) w

theorem map_name_silverPlan (w : Workflow) (workflow : String) (cs : List (List Tool))
    (hcs : ∀ chain ∈ cs, chain ≠ []) :
    (cs.flatMap (silverPlan w workflow)).map (·.name) = cs.map (silverName workflow) := by
  have hone : ∀ chain ∈ cs,
      (silverPlan w workflow chain).map (·.name) = [silverName workflow chain] := by
    intro chain hchain
    rcases chain with _ | ⟨first, _ | ⟨second, rest⟩⟩
    · exact absurd rfl (hcs [] hchain)
    · rfl
    · rfl
  rw [map_flatMap, flatMap_congr hone, ← map_eq_flatMap]

/-- The planned models of a layer have the names of the layer. -/
theorem map_name_filter_plan (w : Workflow) (layer : Layer) :
    ((plan w).filter (·.layer = layer)).map (·.name) = layerNames w layer := by
  have hbronze : ∀ p ∈ ((w.inLayer .bronze).filter (·.category == .input)).map
      (bronzePlan (sanitize w.metadata.name)), p.layer = .bronze := by
    intro p hp
    obtain ⟨t, -, rfl⟩ := mem_map.mp hp
    rfl
  have hsilver : ∀ p ∈ (chains w .silver).flatMap (silverPlan w (sanitize w.metadata.name)),
      p.layer = .silver := by
    intro p hp
    obtain ⟨chain, -, hp⟩ := mem_flatMap.mp hp
    exact (mem_silverPlan hp).1
  have hgold : ∀ p ∈ (w.inLayer .gold).map (goldPlan w (sanitize w.metadata.name)),
      p.layer = .gold := by
    intro p hp
    obtain ⟨t, -, rfl⟩ := mem_map.mp hp
    rfl
  have hkeep : ∀ {ps : List Planned} {l : Layer}, (∀ p ∈ ps, p.layer = l) →
      ps.filter (·.layer = layer) = if l = layer then ps else [] := by
    intro ps l hps
    split
    next hl => exact filter_eq_self.mpr fun p hp => by simp [hps p hp, hl]
    next hl => exact filter_eq_nil_iff.mpr fun p hp => by simp [hps p hp, hl]
  have hchains := map_name_silverPlan w (sanitize w.metadata.name) (chains w .silver)
    (ne_nil_of_mem_chainsFrom w _ _ [])
  unfold plan
  dsimp only
  rw [filter_append, filter_append, hkeep hbronze, hkeep hsilver, hkeep hgold]
  cases layer with
  | bronze => simp [layerNames, bronzePlan, Function.comp_def]
  | silver => simpa [layerNames] using hchains
  | gold => simp [layerNames, goldPlan, Function.comp_def]

theorem map_name_plan (w : Workflow) :
    (plan w).map (·.name) = Layer.all.flatMap (layerNames w) := by
  have hchains := map_name_silverPlan w (sanitize w.metadata.name) (chains w .silver)
    (ne_nil_of_mem_chainsFrom w _ _ [])
  unfold plan
  dsimp only
  rw [map_append, map_append, hchains]
  simp [Layer.all, layerNames, bronzePlan, goldPlan, Function.comp_def]

/-- Names that say their kind are distinct just when those of each kind are. -/
theorem nodup_map_iff_filter {α κ : Type} [DecidableEq κ] (kind : α → κ) {name : α → String}
    {xs : List α} (h : ∀ x ∈ xs, ∀ y ∈ xs, name x = name y → kind x = kind y) :
    (xs.map name).Nodup ↔ ∀ k, ((xs.filter (kind · = k)).map name).Nodup := by
  constructor
  · exact fun hnodup k => hnodup.sublist (filter_sublist.map name)
  · intro hkinds
    induction xs with
    | nil => exact .nil
    | cons x xs ih =>
      rw [map_cons, nodup_cons]
      refine ⟨fun hmem => ?_, ih ?_ fun k => ?_⟩
      · -- a second entry with this name would be of the same kind
        obtain ⟨y, hy, hname⟩ := mem_map.mp hmem
        have hkind := h y (.tail _ hy) x (.head _) hname
        have hnodup := hkinds (kind x)
        rw [filter_cons_of_pos (by simp), map_cons, nodup_cons] at hnodup
        refine hnodup.1 (hname ▸ mem_map_of_mem (mem_filter.mpr ⟨hy, ?_⟩))
        simpa using hkind
      · exact fun y hy z hz => h y (.tail _ hy) z (.tail _ hz)
      · exact (hkinds k).sublist (((sublist_cons_self x xs).filter _).map name)

/-- The planned models have different names if those of each layer have. -/
theorem nodup_plan_iff (ws : List Workflow) : ((ws.flatMap plan).map (·.name)).Nodup
    ↔ ∀ layer, (ws.flatMap (layerNames · layer)).Nodup := by
  rw [nodup_map_iff_filter Planned.layer]
  · refine forall_congr' fun layer => ?_
    rw [filter_flatMap, map_flatMap]
    simp only [map_name_filter_plan]
  · intro p hp q hq hname
    obtain ⟨w, -, hp⟩ := mem_flatMap.mp hp
    obtain ⟨w', -, hq⟩ := mem_flatMap.mp hq
    exact layer_eq_of_name_eq hp hq hname

/-! ## The last of each name -/

theorem lastByName_sublist {α : Type} (name : α → String) (xs : List α) :
    (lastByName name xs).Sublist xs := by
  fun_induction lastByName name xs with
  | case1 => exact .slnil
  | case2 x xs _ ih => exact ih.cons x
  | case3 x xs _ ih => exact ih.cons_cons x

/-- Nothing is replaced just when no name occurs twice. -/
theorem lastByName_eq_self_iff {α : Type} {name : α → String} {xs : List α} :
    lastByName name xs = xs ↔ (xs.map name).Nodup := by
  induction xs with
  | nil => simp [lastByName]
  | cons x xs ih =>
    rw [lastByName, map_cons, nodup_cons, ← ih]
    split
    next hlater =>
      refine ⟨fun he => ?_, fun h => absurd hlater h.1⟩
      have hlength := (lastByName_sublist name xs).length_le
      rw [he, length_cons] at hlength
      omega
    next hlater => simp [hlater]

/-- The file and the entry of the model tell of it. -/
def Build.Keeps (b : Build) (f : ModelFile) : Prop :=
  b.session.files.read (f.path b.dir) = .ok (.text f.text)
    ∧ b.models.lookup f.model.name = some f.model

/-- Work that comes to an end has written the models of all layers of all workflows. Their names are
distinct just when those of each layer are, over all workflows. There is one entry for each name.
Under the name of a model, the file and the entry tell of the last model that was written under this
name, so that no model is replaced just when the names are distinct. -/
theorem nodup_written_iff (home : Path) (ws : List Workflow) (inv : Option MacroInventory)
    {b b' : Build} (hb : b.Fresh) (hrun : (Work.generate home ws inv).run.run b = (.ok (), b')) :
    b'.written = ws.flatMap (fun w => Layer.all.flatMap (layerNames w))
      ∧ (b'.written.Nodup ↔ ∀ layer, (ws.flatMap (layerNames · layer)).Nodup)
      ∧ (b'.written.Nodup ↔ b'.models.length = b'.written.length)
      ∧ (b'.written.Nodup ↔ b'.current = b'.files)
      ∧ ∀ f ∈ b'.files, ∃ g ∈ b'.current, g.model.name = f.model.name
        ∧ g.path b'.dir = f.path b'.dir ∧ b'.Keeps g := by
  obtain ⟨hfiles, hstored⟩ := Work.files_generate hb hrun
  have hstate : state (Work.generate home ws inv) b = b' := congrArg Prod.snd hrun
  have hrecorded := hstate ▸ Work.records_generate home ws inv b hb.recorded
  refine ⟨?_, ?_, ?_, lastByName_eq_self_iff.symm, fun f hf => ?_⟩
  · rw [written_eq_names hfiles, map_flatMap]
    simp only [map_name_plan]
  · rw [written_eq_names hfiles, nodup_plan_iff]
  · rw [← length_distinct_eq_iff, ← map_fst_models hrecorded, length_map]
  · obtain ⟨g, hg, hname⟩ := exists_mem_lastByName hf
    have hlayer := layer_eq_of_files hfiles (mem_of_mem_lastByName hg) hf hname
    refine ⟨g, hg, hname, ?_, hstored.text g hg, lookup_models hrecorded hg⟩
    rw [ModelFile.path, ModelFile.path, hname, hlayer]

/-- Two tools of the same kind behind one input. -/
def twoFilters : Workflow :=
  { metadata := { name := "w", path := "w.yxmd" }
    tools := [
      { id := 1, name := "Input Data", category := .input, table := some "t" },
      { id := 2, name := "Filter", category := .preparation },
      { id := 3, name := "Filter", category := .preparation },
      { id := 4, name := "Output Data", category := .output, table := some "a" },
      { id := 5, name := "Output Data", category := .output, table := some "b" }]
    connections := [⟨1, "Output", 2, "Input"⟩, ⟨1, "Output", 3, "Input"⟩, ⟨2, "True", 4, "Input"⟩,
      ⟨3, "True", 5, "Input"⟩] }

def twoFiltersProject : Build := state (Work.generate ⟨"/", ["h"]⟩ [twoFilters] none) emptyProject

set_option maxRecDepth 100000 in
/-- The work comes to an end, and the model of the second filter has replaced that of the first. -/
theorem not_nodup_twoFilters :
    (Work.generate ⟨"/", ["h"]⟩ [twoFilters] none).run.run emptyProject
        = (.ok (), twoFiltersProject)
      ∧ twoFiltersProject.written
        = ["stg_w_t", "int_w_filter", "int_w_filter", "dim_w_a", "dim_w_b"]
      ∧ ¬ twoFiltersProject.written.Nodup
      ∧ twoFiltersProject.current ≠ twoFiltersProject.files := by
  have hresult : result (Work.generate ⟨"/", ["h"]⟩ [twoFilters] none) emptyProject = .ok () := by
    -- so that the texts of the queries need not be searched
    unfold Work.generate Work.writeWorkflow Work.writeSilver Work.writeGold
    simp only [Work.noteOpenEnds_eq]
    decide +kernel
  have hrun : (Work.generate ⟨"/", ["h"]⟩ [twoFilters] none).run.run emptyProject
      = (.ok (), twoFiltersProject) := run_eq_of_result hresult
  obtain ⟨hwritten, hnames, -, hcurrent, -⟩ :=
    nodup_written_iff ⟨"/", ["h"]⟩ [twoFilters] none (b := emptyProject) ⟨rfl, rfl⟩ hrun
  have hsame : ¬ twoFiltersProject.written.Nodup := fun h =>
    absurd (hnames.mp h .silver) (by decide +kernel)
  exact ⟨hrun, hwritten.trans (by decide +kernel), hsame, fun h => hsame (hcurrent.mpr h)⟩

end Replatform.Project

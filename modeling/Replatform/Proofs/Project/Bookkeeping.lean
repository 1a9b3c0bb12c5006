import Replatform.Proofs.Project.Integrity
import Replatform.Proofs.Project.Ledger
import Replatform.Proofs.Project.Listing
import Replatform.Proofs.Project.Record
/-!
# What a project says about its models

A model leaves its traces in many places: its name is noted, its entry is set, its file is written,
and later steps list it and write tests for it. Models may replace each other on the way, and all of
these still tell of the same ones (`consistent_generate`).

The files are read off the log of what was written (`Complete`), and the entries off the files of
the models (`Recorded`).
-/

namespace Replatform.Project

open List Stateful Replatform.Path

variable {dirs : List String} {name : String}

/-- There is a file below the directory of the project under the names. -/
def Build.HasFile (b : Build) (names : List String) : Prop :=
  ∃ content, b.session.files.read (b.dir.below names) = .ok content

/-- The name of the test that counts the rows of a model. -/
def countName (name : String) : String := "validate_count_" ++ name ++ ".sql"

/-- The name of the test that counts the missing values of a model. -/
def nullsName (name : String) : String := "validate_nulls_" ++ name ++ ".sql"

-- left to itself, the unifier compares these names byte by byte
theorem countName_eq (name : String) : countName name = "validate_count_" ++ name ++ ".sql" := by
  delta countName
  rfl

theorem nullsName_eq (name : String) : nullsName name = "validate_nulls_" ++ name ++ ".sql" := by
  delta nullsName
  rfl

/-- The names, entries, files, lists and tests of a project tell of the same models. -/
structure Build.Consistent (b : Build) : Prop where
  /-- The names that were written are those of the entries. -/
  written : ∀ name, name ∈ b.written ↔ name ∈ b.models.map (·.1)
  /-- No name has two entries. -/
  once : (b.models.map (·.1)).Nodup
  /-- The files in the directory of the models that hold a query are those of the entries, each in
  the directory of its layer. -/
  files : ∀ dirs name, ".." ∉ dirs → (b.HasFile ("models" :: dirs ++ [name ++ ".sql"])
    ↔ ∃ m, (name, m) ∈ b.models ∧ dirs = [m.layer.name])
  /-- Every layer with models has a list of them. -/
  lists : ∀ layer, (∃ m ∈ b.models, m.2.layer = layer) → ∃ text,
    b.session.files.read (b.dir.below (listNames layer)) = .ok (.text text)
      ∧ Lists text (b.models.filter (·.2.layer = layer))
  /-- Every model has a test that counts its rows. -/
  counts : ∀ dirs name, ".." ∉ dirs →
    (b.HasFile (["tests", "validation"] ++ dirs ++ [countName name])
      ↔ dirs = [] ∧ name ∈ b.models.map (·.1))
  /-- Models with known columns have a test that counts their missing values. -/
  nulls : ∀ dirs name, ".." ∉ dirs →
    (b.HasFile (["tests", "validation"] ++ dirs ++ [nullsName name])
      ↔ dirs = [] ∧ ∃ m, (name, m) ∈ b.models ∧ m.columns ≠ [])

/-! ## Names in the log -/

theorem take_reverse_sql (name : String) : (name ++ ".sql").toList.reverse.take 2 = ['l', 'q'] := by
  simp

section Names

variable {models : List (String × Model)} {names : List String} {layer : Layer}

theorem layerLog_eq (h : ∃ m ∈ models, m.2.layer = layer) : layerLog models layer
    = [(listNames layer, modelList (models.filter (·.2.layer = layer)))] := by
  obtain ⟨m, hm, hlayer⟩ := h
  have hmem : m ∈ models.filter (·.2.layer = layer) := mem_filter.mpr ⟨hm, by simpa using hlayer⟩
  refine if_neg fun hempty => ?_
  rw [isEmpty_iff.mp hempty] at hmem
  exact nomatch hmem

theorem mem_layerLog : names ∈ (layerLog models layer).map (·.1)
    ↔ (∃ m ∈ models, m.2.layer = layer) ∧ names = listNames layer := by
  by_cases h : ∃ m ∈ models, m.2.layer = layer
  · rw [layerLog_eq h]
    simp [h]
  · have hnone : models.filter (·.2.layer = layer) = [] :=
      filter_eq_nil_iff.mpr fun m hm hlayer => h ⟨m, hm, by simpa using hlayer⟩
    simp [layerLog, hnone, h]

theorem mem_testFiles {s : Validation.Subject} {file : String} :
    file ∈ (Validation.testFiles s).map (·.1)
      ↔ file = countName s.name ∨ s.columns ≠ [] ∧ file = nullsName s.name := by
  unfold Validation.testFiles
  cases hcolumns : s.columns with
  | nil => simp [countName_eq]
  | cons c columns => simp [countName_eq, nullsName_eq]

theorem mem_testLog : names ∈ (testLog models).map (·.1) ↔ ∃ file,
    names = ["tests", "validation", file]
      ∧ ((∃ m ∈ models, file = countName m.2.name ∨ m.2.columns ≠ [] ∧ file = nullsName m.2.name)
        ∨ file = "_validation_schema.yml") := by
  have hkeys : (testLog models).map (·.1)
      = (models.flatMap (fun m => (Validation.testFiles m.2.subject).map (·.1))
        ++ ["_validation_schema.yml"]).map fun file => ["tests", "validation", file] := by
    simp [testLog, testEntry, map_flatMap, flatMap_map, Function.comp_def]
  rw [hkeys, mem_map]
  constructor
  · rintro ⟨file, hfile, rfl⟩
    refine ⟨file, rfl, ?_⟩
    rw [mem_append, mem_flatMap, mem_singleton] at hfile
    exact hfile.imp_left fun ⟨m, hm, hfile⟩ => ⟨m, hm, mem_testFiles.mp hfile⟩
  · rintro ⟨file, rfl, hfile⟩
    refine ⟨file, ?_, rfl⟩
    rw [mem_append, mem_flatMap, mem_singleton]
    exact hfile.imp_left fun ⟨m, hm, hfile⟩ => ⟨m, hm, mem_testFiles.mpr hfile⟩

end Names

section FinalLog

variable {b : Build} {sources : String} {names : List String}

theorem mem_finalLog : names ∈ (finalLog sources b).map (·.1) ↔ names = sourceListNames
    ∨ (∃ f ∈ b.files, names = modelNames f.model.layer f.model.name)
    ∨ (∃ layer, (∃ m ∈ b.models, m.2.layer = layer) ∧ names = listNames layer)
    ∨ names ∈ (testLog b.models).map (·.1) := by
  have hlists : names ∈ (Layer.all.flatMap (layerLog b.models)).map (·.1)
      ↔ ∃ layer, (∃ m ∈ b.models, m.2.layer = layer) ∧ names = listNames layer := by
    rw [map_flatMap, mem_flatMap]
    constructor
    · rintro ⟨layer, -, h⟩
      exact ⟨layer, mem_layerLog.mp h⟩
    · rintro ⟨layer, h⟩
      exact ⟨layer, by cases layer <;> decide, mem_layerLog.mpr h⟩
  have hfiles : names ∈ (b.files.map ModelFile.entry).map (·.1)
      ↔ ∃ f ∈ b.files, names = modelNames f.model.layer f.model.name := by
    simp [ModelFile.entry, eq_comm]
  rw [finalLog, map_append, map_append, mem_append, mem_append, hlists,
    map_cons, mem_cons, hfiles, or_assoc, or_assoc]

/-- In the directory of the models, only the files of models hold queries. -/
theorem mem_finalLog_sql :
    "models" :: dirs ++ [name ++ ".sql"] ∈ (finalLog sources b).map (·.1)
      ↔ ∃ f ∈ b.files, f.model.name = name ∧ dirs = [f.model.layer.name] := by
  have hend : ∀ front last, "models" :: dirs ++ [name ++ ".sql"] = front ++ [last] →
      last.toList.reverse.take 2 = ['l', 'q'] := by
    intro front last he
    rw [← singleton_inj.mp (append_inj_right' he rfl)]
    exact take_reverse_sql name
  rw [mem_finalLog]
  constructor
  · rintro (h | ⟨f, hf, h⟩ | ⟨layer, -, h⟩ | h)
    · exact absurd (hend ["models", "bronze"] "_sources.yml" h) (by decide)
    · change "models" :: dirs ++ [name ++ ".sql"]
        = ["models", f.model.layer.name] ++ [f.model.name ++ ".sql"] at h
      obtain ⟨hdirs, hlast⟩ := append_inj' h rfl
      refine ⟨f, hf, ?_, (cons.inj hdirs).2⟩
      exact ((String.append_left_inj ".sql").mp (singleton_inj.mp hlast)).symm
    · exact absurd (hend ["models", layer.name] ("_" ++ layer.name ++ "_schema.yml") h)
        (by cases layer <;> decide)
    · obtain ⟨file, h, -⟩ := mem_testLog.mp h
      exact absurd (cons.inj h).1 (by decide)
  · rintro ⟨f, hf, rfl, rfl⟩
    exact .inr (.inl ⟨f, hf, rfl⟩)

/-- Among the tests that compare the models, those of a model have its name. -/
theorem mem_finalLog_test {last : String} :
    ["tests", "validation"] ++ dirs ++ [last] ∈ (finalLog sources b).map (·.1)
      ↔ dirs = [] ∧ ((∃ m ∈ b.models,
        last = countName m.2.name ∨ m.2.columns ≠ [] ∧ last = nullsName m.2.name)
        ∨ last = "_validation_schema.yml") := by
  rw [mem_finalLog]
  constructor
  · rintro (h | ⟨f, -, h⟩ | ⟨layer, -, h⟩ | h)
    · exact absurd (cons.inj h).1 (by decide)
    · exact absurd (cons.inj h).1 (by decide)
    · exact absurd (cons.inj h).1 (by decide)
    · obtain ⟨file, h, hfile⟩ := mem_testLog.mp h
      change ["tests", "validation"] ++ dirs ++ [last] = ["tests", "validation"] ++ [file] at h
      obtain ⟨hdirs, hlast⟩ := append_inj' h rfl
      rw [singleton_inj.mp hlast]
      exact ⟨by simpa using hdirs, hfile⟩
  · rintro ⟨rfl, hlast⟩
    exact .inr (.inr (.inr (mem_testLog.mpr ⟨last, rfl, hlast⟩)))

theorem listNames_injective {layer layer' : Layer} (h : listNames layer = listNames layer') :
    layer = layer' := by
  cases layer <;> cases layer' <;> first | rfl | exact absurd h (by decide)

/-- The list of a layer is what was written last under its names. -/
theorem text?_listNames {layer : Layer} (h : ∃ m ∈ b.models, m.2.layer = layer) :
    (finalLog sources b).text? (listNames layer)
      = some (modelList (b.models.filter (·.2.layer = layer))) := by
  obtain ⟨front, back, hall, hback⟩ :
      ∃ front back, Layer.all = front ++ layer :: back ∧ layer ∉ back := by
    cases layer with
    | bronze => exact ⟨[], [.silver, .gold], rfl, by decide⟩
    | silver => exact ⟨[.bronze], [.gold], rfl, by decide⟩
    | gold => exact ⟨[.bronze, .silver], [], rfl, by decide⟩
  have hlater : listNames layer
      ∉ (back.flatMap (layerLog b.models) ++ testLog b.models).map (·.1) := by
    rw [map_append, mem_append, not_or, map_flatMap, mem_flatMap]
    refine ⟨?_, fun htest => ?_⟩
    · rintro ⟨layer', hlayer', hmem⟩
      exact hback (listNames_injective (mem_layerLog.mp hmem).2 ▸ hlayer')
    · obtain ⟨file, he, -⟩ := mem_testLog.mp htest
      exact absurd (cons.inj he).1 (by decide)
  have hlog : finalLog sources b
      = ((sourceListNames, sources) :: b.files.map ModelFile.entry
          ++ front.flatMap (layerLog b.models))
        ++ (listNames layer, modelList (b.models.filter (·.2.layer = layer)))
        :: (back.flatMap (layerLog b.models) ++ testLog b.models) := by
    rw [finalLog, hall, flatMap_append, flatMap_cons, layerLog_eq h]
    simp
  rw [hlog, Log.text?_of_last hlater]

end FinalLog

/-! ## Names of tests -/

theorem countName_inj {name' : String} : countName name = countName name' ↔ name = name' := by
  rw [countName_eq, countName_eq, String.append_left_inj, String.append_right_inj]

theorem nullsName_inj {name' : String} : nullsName name = nullsName name' ↔ name = name' := by
  rw [nullsName_eq, nullsName_eq, String.append_left_inj, String.append_right_inj]

/-- The tests and their settings begin with different letters. -/
theorem initials_of_tests (name : String) : (countName name).toList.take 10 = "validate_c".toList
    ∧ (nullsName name).toList.take 10 = "validate_n".toList := by
  constructor
  · simp [countName_eq]
  · simp [nullsName_eq]

theorem countName_ne_nullsName (name name' : String) : countName name ≠ nullsName name' := by
  intro he
  have hfront := (initials_of_tests name).1
  rw [he, (initials_of_tests name').2] at hfront
  exact absurd hfront (by decide)

theorem ne_settings (name : String) :
    countName name ≠ "_validation_schema.yml" ∧ nullsName name ≠ "_validation_schema.yml" := by
  constructor
  · intro he
    have hfront := (initials_of_tests name).1
    rw [he] at hfront
    exact absurd hfront (by decide)
  · intro he
    have hfront := (initials_of_tests name).2
    rw [he] at hfront
    exact absurd hfront (by decide)

/-! ## The project -/

theorem hasFile_iff {b : Build} {sources : String} {names : List String}
    (h : b.session.files.Holds b.dir Tracked (finalLog sources b)) (htracked : Tracked names)
    (hup : ".." ∉ names) : b.HasFile names ↔ names ∈ (finalLog sources b).map (·.1) := by
  have hshows := h.shows names htracked hup
  rw [← Log.isSome_text?, Option.isSome_iff_exists]
  constructor
  · rintro ⟨c, hc⟩
    obtain ⟨text, htext, -⟩ := Option.map_eq_some_iff.mp (hshows.read_iff.mp hc)
    exact ⟨text, htext⟩
  · rintro ⟨text, htext⟩
    exact ⟨.text text, hshows.read_iff.mpr (by rw [htext, Option.map_some])⟩

section Complete

variable {b : Build} {ws : List Workflow} {sources : String}
  (hfiles : b.files.map ModelFile.outline = (ws.flatMap plan).map Planned.outline)
  (hrecorded : b.Recorded) (hstored : Stored b)
  (hholds : b.session.files.Holds b.dir Tracked (finalLog sources b))

include hrecorded

/-- An entry has the name of its model. -/
theorem name_eq_of_mem {m : String × Model} (hm : m ∈ b.models) : m.2.name = m.1 := by
  obtain ⟨f, -, hname, hmodel⟩ := (mem_models_iff hrecorded).mp hm
  rw [← hmodel, hname]

include hfiles hholds

theorem hasFile_sql_iff (name : String) (hup : ".." ∉ dirs) :
    b.HasFile ("models" :: dirs ++ [name ++ ".sql"])
      ↔ ∃ m, (name, m) ∈ b.models ∧ dirs = [m.layer.name] := by
  have hup' : ".." ∉ "models" :: dirs ++ [name ++ ".sql"] := by
    have hlast := ne_dots "" name ".sql" (by decide)
    rw [String.empty_append] at hlast
    simp only [cons_append, mem_cons, mem_append, not_mem_nil, or_false, not_or]
    exact ⟨by decide, hup, hlast⟩
  have htracked : Tracked ("models" :: dirs ++ [name ++ ".sql"]) :=
    .inl ⟨dirs ++ [name ++ ".sql"], rfl⟩
  rw [hasFile_iff hholds htracked hup', mem_finalLog_sql]
  constructor
  · rintro ⟨f, hf, hname, hdirs⟩
    -- the entry is that of the last model of this name, which is of the same layer
    obtain ⟨g, hg, hsame⟩ := exists_mem_lastByName hf
    refine ⟨g.model, (mem_models_iff hrecorded).mpr ⟨g, hg, hsame.trans hname, rfl⟩, ?_⟩
    rw [hdirs, layer_eq_of_files hfiles (mem_of_mem_lastByName hg) hf hsame]
  · rintro ⟨m, hm, hdirs⟩
    obtain ⟨f, hf, hname, rfl⟩ := (mem_models_iff hrecorded).mp hm
    exact ⟨f, mem_of_mem_lastByName hf, hname, hdirs⟩

omit hfiles

/-- A test of a model is there just when the log has it. -/
theorem hasFile_test_iff {last : String} (hup : ".." ∉ dirs) (hlast : last ≠ "..")
    (hsettings : last ≠ "_validation_schema.yml") :
    b.HasFile (["tests", "validation"] ++ dirs ++ [last]) ↔ dirs = [] ∧ ∃ m ∈ b.models,
      last = countName m.1 ∨ m.2.columns ≠ [] ∧ last = nullsName m.1 := by
  have hup' : ".." ∉ ["tests", "validation"] ++ dirs ++ [last] := by
    simp only [mem_append, mem_cons, not_mem_nil, or_false, not_or]
    exact ⟨⟨⟨by decide, by decide⟩, hup⟩, hlast.symm⟩
  rw [hasFile_iff hholds (.inr ⟨dirs ++ [last], by simp⟩) hup', mem_finalLog_test,
    or_iff_left hsettings]
  refine and_congr_right fun _ => exists_congr fun m => and_congr_right fun hm => ?_
  rw [name_eq_of_mem hrecorded hm]

theorem hasFile_count_iff (name : String) (hup : ".." ∉ dirs) :
    b.HasFile (["tests", "validation"] ++ dirs ++ [countName name])
      ↔ dirs = [] ∧ name ∈ b.models.map (·.1) := by
  have hdots : countName name ≠ ".." := (ne_dots _ _ _ (by decide)).symm
  rw [hasFile_test_iff hrecorded hholds hup hdots (ne_settings name).1, mem_map]
  refine and_congr_right fun _ => exists_congr fun m => and_congr_right fun _ => ?_
  simp [countName_inj, countName_ne_nullsName, eq_comm]

theorem hasFile_nulls_iff (name : String) (hup : ".." ∉ dirs) :
    b.HasFile (["tests", "validation"] ++ dirs ++ [nullsName name])
      ↔ dirs = [] ∧ ∃ m, (name, m) ∈ b.models ∧ m.columns ≠ [] := by
  have hdots : nullsName name ≠ ".." := (ne_dots _ _ _ (by decide)).symm
  rw [hasFile_test_iff hrecorded hholds hup hdots (ne_settings name).2]
  refine and_congr_right fun _ => ?_
  constructor
  · rintro ⟨m, hm, hname | ⟨hcolumns, hname⟩⟩
    · exact absurd hname.symm (countName_ne_nullsName _ _)
    · rw [nullsName_inj.mp hname]
      exact ⟨m.2, hm, hcolumns⟩
  · rintro ⟨m, hm, hcolumns⟩
    exact ⟨(name, m), hm, .inr ⟨hcolumns, rfl⟩⟩

include hstored

theorem exists_list {layer : Layer} (h : ∃ m ∈ b.models, m.2.layer = layer) : ∃ text,
    b.session.files.read (b.dir.below (listNames layer)) = .ok (.text text)
      ∧ Lists text (b.models.filter (·.2.layer = layer)) := by
  have hup : ".." ∉ listNames layer := by cases layer <;> decide
  refine ⟨_, ?_, lists_modelList ?_ fun m hm => ?_⟩
  · have hshows := hholds.shows (listNames layer) (.inl ⟨_, rfl⟩) hup
    rw [text?_listNames h] at hshows
    exact hshows
  · exact (nodup_keys hrecorded).sublist (filter_sublist.map _)
  · have hname := (hstored.models m (mem_filter.mp hm).1).1
    exact fun hbreak => absurd (hname _ hbreak) (by decide)

end Complete

/-- In a directory without files, work with a validation that comes to an end leaves a project whose
names, entries, files, lists and tests tell of the same models, whatever replaced each other on the
way. The names that are read from the list of a layer are those of its models if nothing that is
told of these has a line break. -/
theorem consistent_generate (home : Path) (ws : List Workflow) (inv : Option MacroInventory)
    {b b' : Build} (hb : b.Fresh) (hvalidation : b.validation)
    (hnamed : b.session.files.Named)
    (hempty : ∀ names content,
      b.session.files.at? (b.session.files.placeOf b.dir ++ names) ≠ some (.file content))
    (hrun : (Work.generate home ws inv).run.run b = (.ok (), b')) :
    b'.Consistent ∧ ∀ layer, (∃ m ∈ b'.models, m.2.layer = layer) →
      (∀ m ∈ b'.models, m.2.layer = layer → m.2.OneLine) → ∃ text,
        b'.session.files.read (b'.dir.below (listNames layer)) = .ok (.text text)
          ∧ (listedNames text).Pairwise (· < ·)
          ∧ ∀ name, name ∈ listedNames text ↔ ∃ m, (name, m) ∈ b'.models ∧ m.layer = layer := by
  have hresult : result (Work.generate home ws inv) b = .ok () := congrArg Prod.fst hrun
  have hstate : state (Work.generate home ws inv) b = b' := congrArg Prod.snd hrun
  obtain ⟨hfiles, hstored⟩ := Work.files_generate hb hrun
  have hrecorded := hstate ▸ Work.records_generate home ws inv b hb.recorded
  have hstanding : Standing b.dir [] [] [] b := by
    refine ⟨rfl, hvalidation, hb.1, hb.2, hnamed, fun names _ hup content => ?_⟩
    rw [placeOf_below _ _ hup]
    exact hempty names content
  obtain ⟨hdir, sources, hholds⟩ := Work.leads_generate home ws inv b () hstanding hresult
  rw [hstate, ← hdir, hstate] at hholds
  refine ⟨⟨fun name => ?_, ?_,
    fun dirs name hup => hasFile_sql_iff hfiles hrecorded hholds name hup,
    fun layer h => exists_list hrecorded hstored hholds h,
    fun dirs name hup => hasFile_count_iff hrecorded hholds name hup,
    fun dirs name hup => hasFile_nulls_iff hrecorded hholds name hup⟩, fun layer h hlines => ?_⟩
  · rw [map_fst_models hrecorded, mem_distinct]
  · exact nodup_keys hrecorded
  · obtain ⟨text, hread, hlists⟩ := exists_list hrecorded hstored hholds h
    obtain ⟨hsorted, hnames⟩ := hlists.names fun m hm =>
      hlines m (mem_filter.mp hm).1 (of_decide_eq_true (mem_filter.mp hm).2)
    refine ⟨text, hread, hsorted, fun name => (hnames name).trans ?_⟩
    simp

/-- An input that is summed up in two ways which get the same name. -/
def twoSummaries : Workflow :=
  { metadata := { name := "w", path := "w.yxmd" }
    tools := [
      { id := 1, name := "Input Data", category := .input, table := some "t" },
      { id := 2, name := "Summarize", category := .transform, groupBy := ["a"] },
      { id := 3, name := "Summarize", category := .transform, groupBy := ["a"] }]
    connections := [⟨1, "Output", 2, "Input"⟩, ⟨1, "Output", 3, "Input"⟩] }

/-- A project without models that gets a validation. There is one ready-made macro. -/
def validatedProject : Build :=
  { session := { files := ⟨⟨"/", []⟩, [(["h"], .directory), (["h", "dbt_macros"], .directory),
      (["h", "dbt_macros", "pivot.sql"], .file (.text ""))]⟩ }
    dir := ⟨"/", ["d"]⟩
    interactive := false }

def summariesProject : Build :=
  state (Work.generate ⟨"/", ["h"]⟩ [twoSummaries] none) validatedProject

set_option maxRecDepth 100000 in
/-- The work comes to an end, and one of its models has replaced another in all places. -/
theorem consistent_twoSummaries :
    (Work.generate ⟨"/", ["h"]⟩ [twoSummaries] none).run.run validatedProject
        = (.ok (), summariesProject)
      ∧ summariesProject.written = ["stg_w_t", "fct_w_summary_by_a", "fct_w_summary_by_a"]
      ∧ summariesProject.Consistent
      ∧ ∃ text, summariesProject.session.files.read
          (summariesProject.dir.below (listNames .gold)) = .ok (.text text)
        ∧ (listedNames text).Pairwise (· < ·)
        ∧ ∀ name, name ∈ listedNames text
          ↔ ∃ m, (name, m) ∈ summariesProject.models ∧ m.layer = .gold := by
  have hresult : result (Work.generate ⟨"/", ["h"]⟩ [twoSummaries] none) validatedProject = .ok ()
      ∧ (∃ m ∈ summariesProject.models, m.2.layer = .gold)
      ∧ ∀ m ∈ summariesProject.models, m.2.layer = .gold → m.2.OneLine := by
    -- so that the texts of the queries need not be searched
    unfold summariesProject Work.generate Work.writeWorkflow Work.writeGold
    simp only [Work.noteOpenEnds_eq]
    decide +kernel
  obtain ⟨hresult, hgold, hlines⟩ := hresult
  have hrun : (Work.generate ⟨"/", ["h"]⟩ [twoSummaries] none).run.run validatedProject
      = (.ok (), summariesProject) := run_eq_of_result hresult
  have hwritten := written_eq_names (Work.adds_generate _ _ _ validatedProject () hresult)
  have hfile : ∀ place c, validatedProject.session.files.at? place = some (.file c) →
      place = ["h", "dbt_macros", "pivot.sql"] := by
    intro place c h
    have hmem := Files.mem_entries h
    simp only [validatedProject, mem_cons, Prod.mk.injEq, reduceCtorEq, and_false,
      not_mem_nil, or_false, false_or] at hmem
    exact hmem.1
  have hnamed : validatedProject.session.files.Named := by
    intro front name c h
    have hplace : front ++ [name] = ["h", "dbt_macros"] ++ ["pivot.sql"] := hfile _ _ h
    rw [singleton_inj.mp (append_inj_right' hplace rfl)]
    decide
  have hall := consistent_generate _ _ none (b := validatedProject) ⟨rfl, rfl⟩ rfl hnamed
    (fun names content h => absurd (cons.inj (hfile _ _ h)).1 (by decide)) hrun
  exact ⟨hrun, hwritten.trans (by decide +kernel), hall.1, hall.2 .gold hgold hlines⟩

end Replatform.Project

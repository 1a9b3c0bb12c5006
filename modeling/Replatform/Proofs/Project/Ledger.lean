import Replatform.Proofs.Disk
import Replatform.Proofs.Project.Stored
/-!
# The files of a project

Work that begins in a directory without files writes every file below `models` and
`tests/validation` itself, so that a log can be kept of them: the list of the sources, the files of
the models in the order in which they are written, the lists of the models, and the tests that
compare them. When the work is done, these are the files that there are (`leads_generate`).

The ready-made macros are copied under the names that they have, so these have to be names of files.
-/

namespace Replatform.Project

open List Stateful Replatform.Path

/-! ## The log -/

def sourceListNames : List String := ["models", "bronze", "_sources.yml"]

def ModelFile.entry (f : ModelFile) : List String × String :=
  (modelNames f.model.layer f.model.name, f.text)

def layerLog (models : List (String × Model)) (layer : Layer) : Log :=
  if (models.filter (·.2.layer = layer)).isEmpty then []
  else [(listNames layer, modelList (models.filter (·.2.layer = layer)))]

def testEntry (file : String × String) : List String × String :=
  (["tests", "validation", file.1], file.2)

/-- The tests that compare the models, and the settings for them. -/
def testLog (models : List (String × Model)) : Log :=
  ((models.map fun p => p.2.subject).flatMap Validation.testFiles).map testEntry
    ++ [testEntry ("_validation_schema.yml", Validation.testSettings)]

/-- What has been written when the work is done. -/
def finalLog (sources : String) (b : Build) : Log :=
  (sourceListNames, sources) :: b.files.map ModelFile.entry ++ Layer.all.flatMap (layerLog b.models)
    ++ testLog b.models

/-! ## Changes that leave the log as it is -/

/-- What the files hold, they hold still. -/
def KeepsLog (dir : Path) (fs fs' : Files) : Prop :=
  ∀ log, fs.Holds dir Tracked log → fs'.Holds dir Tracked log

instance (dir : Path) : IsPreorder Files (KeepsLog dir) where
  refl _ _ h := h
  trans _ _ _ h₁ h₂ log h := h₂ log (h₁ log h)

theorem permits_keepsLog (dir : Path) :
    Permits dir (fun names => ¬ Tracked names) (KeepsLog dir) where
  directory h _ hfs := hfs.makeDirectory h
  file hout hpart hup h _ hfs := hfs.write_outside hpart hup h hout

/-- A file that is found by its ending has a name other than dots. -/
theorem parts_of_mem_withSuffix {fs : Files} {p file : Path} {files : List Path}
    (h : fs.withSuffix p false ".sql" = .ok files) (hfile : file ∈ files) :
    ∃ front name, file.parts = front ++ [name] ∧ file.name = name ∧ name ≠ ".." := by
  have hend : Text.endsWith ".sql".toList file.name.toList := by
    unfold Files.withSuffix at h
    split at h
    next place _ =>
      rw [← Except.ok.inj h, mem_filterMap] at hfile
      obtain ⟨entry, -, hentry⟩ := hfile
      dsimp only at hentry
      split at hentry
      next hcond =>
        cases hentry
        exact (Bool.and_eq_true_iff.mp hcond).1
      next => exact nomatch hentry
    next =>
      rw [← Except.ok.inj h] at hfile
      exact nomatch hfile
  have hne : file.parts ≠ [] := by
    intro hnil
    rw [Path.name, hnil] at hend
    exact absurd hend (by decide)
  have hsplit := dropLast_concat_getLast hne
  refine ⟨file.parts.dropLast, file.parts.getLast hne, hsplit.symm, ?_, ?_⟩
  · rw [Path.name, getLast?_eq_some_getLast hne, Option.getD_some]
  · intro hdots
    rw [Path.name, getLast?_eq_some_getLast hne, Option.getD_some, hdots] at hend
    exact absurd hend (by decide)

/-- A file that is copied keeps its name, which is a single part. -/
theorem keepsLog_copyInto {dir file : Path} {front : List String} {name : String} {fs fs' : Files}
    (hparts : file.parts = front ++ [name]) (hname : file.name = name) (hup : name ≠ "..")
    (h : copyInto (dir / "macros" / "migration") fs file = .ok fs') : KeepsLog dir fs fs' := by
  intro log hfs
  obtain ⟨c, hread, hwrite⟩ := bind_eq_ok.mp h
  have hat := Files.at?_of_read hread
  have hplace : ∃ q, fs.placeOf file = q ++ [name] := by
    refine ⟨(fs.cwd.append file.parent).parts.foldl climb [], ?_⟩
    show (fs.cwd.append file).parts.foldl climb [] = _
    rw [Files.parts_append_parent fs.cwd hparts, foldl_append]
    exact if_neg hup
  obtain ⟨q, hplace⟩ := hplace
  have hpart : IsPart name := hfs.named q name c (hplace ▸ hat)
  rw [hname, div_div_eq_below dir (by decide) (by decide), below_div _ _ hpart] at hwrite
  refine hfs.write_outside hpart ?_ hwrite ?_
  · simpa using fun he : ".." = name => hup he.symm
  · simp [Tracked]

namespace Work

variable {dir : Path}

theorem beside_copyLibrary (home : Path) :
    Within (Beside dir (KeepsLog dir)) (copyLibrary home) := by
  refine beside_get_bind fun b hdir _ => ?_
  dsimp only
  rw [hdir]
  refine within_bind (within_ofRun (sameDisk_look _)) fun there => within_ite (within_throw _) ?_
  refine within_bind_of (within_ofRun (sameDisk_look _)) fun b files hfiles => ?_
  rw [(run_ofRun _ b).1, (run_look _ _).1] at hfiles
  refine within_bind (within_forM fun file hfile => ?_) fun _ => within_ite ?_ (within_pure _)
  · obtain ⟨front, name, hparts, hname, hup⟩ := parts_of_mem_withSuffix hfiles hfile
    exact beside_ofRun (within_change fun _ _ h => keepsLog_copyInto hparts hname hup h)
  · refine within_bind (within_say _) fun _ => ?_
    rw [div_div_eq_below dir (by decide) (by decide), below_div _ _ (by decide)]
    exact beside_writeText (permits_keepsLog dir) ["macros", "migration"] (by decide) (by decide)
      (by decide)

theorem beside_makeDirectories (home : Path) :
    Within (Beside dir (KeepsLog dir)) (makeDirectories home) := by
  refine within_bind within_get fun b => within_bind (within_forM fun p _ => ?_) fun _ => ?_
  · exact beside_ofRun (onFiles_makeDirectory (permits_keepsLog dir) p)
  · exact beside_copyLibrary home

end Work

/-! ## Runs that add to the log -/

def HoldsLog (dir : Path) (log : Log) (s : Session) : Prop := s.files.Holds dir Tracked log

section Runs

variable {dir : Path}

theorem puts_of_onFiles {α : Type} {r : Run α} (hr : Within (OnFiles (KeepsLog dir)) r) :
    Puts (HoldsLog dir) r [] := puts_of_within hr

theorem puts_change {f : Files → Except Failure Files} {new : Log}
    (hf : ∀ fs fs' log, f fs = .ok fs' → fs.Holds dir Tracked log →
      fs'.Holds dir Tracked (log ++ new)) : Puts (HoldsLog dir) (Run.change f) new := by
  intro log s a hs hok
  have hrun := run_change f s
  cases hfiles : f s.files with
  | error e =>
    rw [hfiles, hok] at hrun
    exact nomatch congrArg Prod.fst hrun
  | ok files =>
    rw [hfiles] at hrun
    rw [show state (Run.change f) s = { s with files } from congrArg Prod.snd hrun]
    exact hf s.files files log hfiles hs

/-- A file that is placed in a directory is one entry more. -/
theorem puts_place (names : List String) {last : String} (text : String) (hpart : IsPart last)
    (hup : ".." ∉ names ++ [last]) :
    Puts (HoldsLog dir) (Validation.place (dir.below names) last text)
      [(names ++ [last], text)] := by
  unfold Validation.place
  rw [below_div _ _ hpart]
  exact puts_before (puts_change fun _ _ _ h hfs => hfs.write hpart hup h) fun _ => puts_pure _

theorem puts_writeAll {models : List (String × Model)}
    (hnames : ∀ s ∈ models.map (fun p => p.2.subject), IsModelName s.name) :
    Puts (HoldsLog dir) (Validation.writeAll dir (models.map fun p => p.2.subject))
      (testLog models) := by
  have hmake := fun p => puts_of_onFiles (onFiles_makeDirectory (permits_keepsLog dir) p)
  have htests : Puts (HoldsLog dir)
      (Validation.writeTests dir (models.map fun p => p.2.subject))
      (((models.map fun p => p.2.subject).flatMap Validation.testFiles).map testEntry) := by
    rw [map_eq_flatMap (f := testEntry)]
    refine puts_after (hmake _) fun _ => puts_mapM fun file hfile => ?_
    obtain ⟨s, hs, hfile⟩ := mem_flatMap.mp hfile
    obtain ⟨hpart, hup⟩ := fit_of_mem_testFiles (hnames s hs) hfile
    rw [testDir_eq_below]
    exact puts_place ["tests", "validation"] _ hpart hup
  unfold Validation.writeAll
  dsimp only
  rw [testDir_eq_below, div_div_eq_below dir (by decide) (by decide)]
  refine puts_bind htests (gives_true _) fun _ _ => puts_after (hmake _) fun _ => ?_
  refine puts_after (puts_of_onFiles ?_) fun _ => puts_before ?_ fun _ => puts_pure _
  · exact onFiles_place (permits_keepsLog dir) _ (by decide) (by decide) (by decide)
  · exact puts_place ["tests", "validation"] _ (by decide) (by decide)

end Runs

/-! ## Steps that add to the log -/

/-- The project is written to the directory and gets a validation, it has the models, and the files
are those of the log. -/
structure Standing (dir : Path) (files : List ModelFile) (models : List (String × Model))
    (log : Log) (b : Build) : Prop where
  dir_eq : b.dir = dir
  validation : b.validation
  files_eq : b.files = files
  models_eq : b.models = models
  holds : b.session.files.Holds dir Tracked log

section Standing

variable {dir : Path} {files : List ModelFile} {models : List (String × Model)} {log : Log}
  {b b' : Build}

theorem Standing.wellNamed (h : Standing dir files models log b)
    (hnames : ∀ m ∈ models, IsModelName m.1 ∧ IsModelName m.2.name) : b.WellNamed := by
  rw [← h.models_eq] at hnames
  exact hnames

/-- Steps that leave the models and the log as they are. -/
theorem Standing.of_beside (h : Standing dir files models log b) (hnames : b.WellNamed)
    (hbeside : Beside dir (KeepsLog dir) b b') : Standing dir files models log b' := by
  obtain ⟨hsame, hkeeps⟩ := hbeside h.dir_eq hnames
  exact ⟨hsame.options.1.trans h.dir_eq, hsame.options.2.trans h.validation,
    hsame.files.trans h.files_eq, hsame.models.trans h.models_eq, hkeeps log h.holds⟩

end Standing

namespace Work

section Steps

variable {dir : Path} {files : List ModelFile} {models : List (String × Model)}

theorem puts_ofRun {α : Type} {r : Run α} {new : Log} (hr : Puts (HoldsLog dir) r new) :
    Puts (Standing dir files models) (ofRun r) new := by
  intro log b a hb hok
  rw [(run_ofRun r b).1] at hok
  rw [(run_ofRun r b).2]
  exact ⟨hb.dir_eq, hb.validation, hb.files_eq, hb.models_eq, hr log b.session a hb.holds hok⟩

theorem puts_writeText (names : List String) {last text : String} (hpart : IsPart last)
    (hup : ".." ∉ names ++ [last]) :
    Puts (Standing dir files models) (writeText (dir.below (names ++ [last])) text)
      [(names ++ [last], text)] := by
  refine puts_ofRun (puts_change fun fs fs' log h hfs => ?_)
  obtain ⟨made, hmade, hwrite⟩ := bind_eq_ok.mp h
  exact (hfs.makeDirectory hmade).write hpart hup hwrite

theorem puts_writeModelLists :
    Puts (Standing dir files models) writeModelLists (Layer.all.flatMap (layerLog models)) := by
  refine puts_forM fun layer _ => puts_get_bind fun log b hb => ?_
  dsimp only
  rw [hb.dir_eq, hb.models_eq, list_eq_below, layerLog]
  cases (models.filter (·.2.layer = layer)).isEmpty with
  | true => exact puts_pure _
  | false =>
    refine puts_writeText ["models", layer.name] ?_ ?_
    · cases layer <;> decide
    · cases layer <;> decide

variable (hnames : ∀ m ∈ models, IsModelName m.1 ∧ IsModelName m.2.name)

include hnames

theorem puts_of_beside {α : Type} {x : Work α} (hx : Within (Beside dir (KeepsLog dir)) x) :
    Puts (Standing dir files models) x [] :=
  puts_of_within fun b _ hb => hb.of_beside (hb.wellNamed hnames) (hx b)

theorem puts_writeValidation :
    Puts (Standing dir files models) writeValidation (testLog models) := by
  refine puts_get_bind fun log b hb => ?_
  have hsubjects := (hb.wellNamed hnames).subjects
  have hreport := beside_writeReport (permits_keepsLog dir) (fun _ h => h) hb.dir_eq
  rw [hb.models_eq] at hsubjects ⊢
  rw [hb.dir_eq]
  refine puts_before (puts_ofRun (puts_writeAll hsubjects)) fun tests => ?_
  exact puts_of_beside hnames (hreport tests)

theorem puts_finish : Puts (Standing dir files models) finish
    (Layer.all.flatMap (layerLog models) ++ testLog models) := by
  have hout : ∀ names, ¬ Tracked names → ¬ Tracked names := fun _ h => h
  refine puts_bind puts_writeModelLists (gives_true _) fun _ _ => ?_
  refine puts_after (puts_of_beside hnames (beside_writeTests (permits_keepsLog dir) hout))
    fun _ => puts_get_bind fun log b hb => ?_
  rw [hb.validation, if_pos rfl]
  refine puts_before (puts_writeValidation hnames) fun _ => puts_of_beside hnames ?_
  exact within_bind (beside_writeProject (permits_keepsLog dir) hout) fun _ => within_sayCounts

end Steps

/-! ## Models -/

/-- The names of the models are parts of paths, and the files are the list of the sources and those
of the models. -/
structure Noted (dir : Path) (b : Build) : Prop where
  wellNamed : b.WellNamed
  standing : ∃ sources, Standing dir b.files b.models
    ((sourceListNames, sources) :: b.files.map ModelFile.entry) b

/-- Work whose files began as those of the models ends so. -/
def Notes (dir : Path) (b b' : Build) : Prop := Noted dir b → Noted dir b'

variable {dir : Path}

instance : Modest (Notes dir) where
  refl _ h := h
  trans _ _ _ h₁ h₂ h := h₂ (h₁ h)
  of_eq {b b'} hoptions hfiles hmodels hdisk := by
    rintro ⟨hnames, sources, h⟩
    refine ⟨?_, sources, hoptions.1.trans h.dir_eq, hoptions.2.trans h.validation, rfl, rfl, ?_⟩
    · rw [Build.WellNamed, hmodels]
      exact hnames
    · rw [hfiles, hdisk]
      exact h.holds

theorem notes_writeModel {f : ModelFile} (hname : IsModelName f.model.name) :
    Within (Notes dir) (writeModel f) := by
  rintro b ⟨hnames, sources, hb⟩
  rcases state_writeModel f b with hstate | ⟨fs, disk, hmade, hwrite, hstate⟩
  · rw [hstate]
    exact ⟨hnames, sources, hb⟩
  · rw [hstate]
    refine ⟨fun m hm => ?_, sources, hb.dir_eq, hb.validation, rfl, rfl, ?_⟩
    · rcases mem_of_mem_setField hm with rfl | hm
      · exact ⟨hname, hname⟩
      · exact hnames m hm
    · rw [path_eq_below hname, hb.dir_eq] at hwrite
      have hup : ".." ∉ ["models", f.model.layer.name] ++ [f.model.name ++ ".sql"] :=
        dots_notMem_modelNames f.model.layer f.model.name
      have hholds := (hb.holds.makeDirectory hmade).write (isPart_sql hname) hup hwrite
      rw [map_append]
      exact hholds

/-! ## The whole work -/

/-- The list of the sources is the first file. -/
theorem leads_writeSourceList : Leads (Standing dir [] [] []) (Noted dir) writeSourceList := by
  intro b a hb hok
  have hpath : b.dir / "models" / "bronze" / "_sources.yml"
      = dir.below (["models", "bronze"] ++ ["_sources.yml"]) := by
    rw [hb.dir_eq, div_div_eq_below dir (by decide) (by decide), below_div _ _ (by decide)]
  unfold writeSourceList at hok ⊢
  rw [result_get_bind, hpath] at hok
  rw [state_get_bind, hpath]
  have hb' := puts_writeText ["models", "bronze"] (by decide) (by decide) [] b a hb hok
  refine ⟨?_, sourceList b.sources, hb'.dir_eq, hb'.validation, rfl, rfl, ?_⟩
  · rw [Build.WellNamed, hb'.models_eq]
    exact fun m hm => nomatch hm
  · rw [hb'.files_eq]
    exact hb'.holds

/-- The files of the two directories are those of the log of all that is written. -/
def Complete (dir : Path) (b : Build) : Prop :=
  b.dir = dir ∧ ∃ sources, b.session.files.Holds dir Tracked (finalLog sources b)

theorem leads_finish : Leads (Noted dir) (Complete dir) finish := by
  rintro b a ⟨hnames, sources, hb⟩ hok
  have hb' := puts_finish hnames _ b a hb hok
  refine ⟨hb'.dir_eq, sources, ?_⟩
  rw [finalLog, hb'.files_eq, hb'.models_eq, append_assoc]
  exact hb'.holds

/-- When the work is done, the files of the two directories are those of the log. -/
theorem leads_generate (home : Path) (ws : List Workflow) (inv : Option MacroInventory) :
    Leads (Standing dir [] [] []) (Complete dir) (generate home ws inv) := by
  have hbeside : ∀ {α : Type} {x : Work α}, Within (Beside dir (KeepsLog dir)) x →
      Leads (Standing dir [] [] []) (Standing dir [] [] []) x :=
    fun hx => puts_of_beside (forall_mem_nil _) hx []
  have hmodels : Leads (Standing dir [] [] []) (Complete dir)
      (do collectSources ws; writeSourceList; ws.forM writeWorkflow; finish) := by
    refine leads_bind (hbeside (within_collectSources ws)) fun _ => ?_
    have hworkflows : Within (Notes dir) (ws.forM writeWorkflow) :=
      within_forM fun w _ => within_writeWorkflow (fun _ => notes_writeModel) w
    refine leads_bind leads_writeSourceList fun _ => ?_
    exact leads_bind (leads_of_within hworkflows) fun _ => leads_finish
  refine leads_bind (hbeside (beside_makeDirectories home)) fun _ => ?_
  cases inv with
  | none => exact hmodels
  | some inv =>
    exact leads_bind (hbeside (beside_writeMacros (permits_keepsLog dir) (fun _ h => h) inv))
      fun _ => hmodels

end Work

end Replatform.Project

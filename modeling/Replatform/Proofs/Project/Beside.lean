import Replatform.Proofs.Project.Frame
/-!
# What is written beside the models

Macros come before the models; behind them, the work writes lists of the models, tests and settings.
All of it goes to fixed names below the directory of the project, or to names that are made from the
names of macros and models. So a relation that allows files under these names (`Permits`) allows
these parts of the work, which leave the models as they are (`Beside`).
-/

namespace Replatform.Project

open Stateful Replatform.Path

/-- The names lead into the directory of the models, or of the tests that compare them with the old
platform. -/
def Tracked (names : List String) : Prop := ["models"] <+: names ∨ ["tests", "validation"] <+: names

instance (names : List String) : Decidable (Tracked names) := inferInstanceAs (Decidable (_ ∨ _))

def listNames (layer : Layer) : List String :=
  ["models", layer.name, "_" ++ layer.name ++ "_schema.yml"]

/-- The relation allows to make directories, and to write files below the directory under some
names. -/
structure Permits (dir : Path) (W : List String → Prop) (R : Files → Files → Prop) : Prop where
  directory : ∀ {fs fs' : Files} {p : Path}, fs.makeDirectory p = .ok fs' → R fs fs'
  file : ∀ {fs fs' : Files} {names : List String} {last : String} {c : Content},
    W (names ++ [last]) → IsPart last → ".." ∉ names ++ [last] →
    fs.write (dir.below (names ++ [last])) c = .ok fs' → R fs fs'

/-! ## Names -/

theorem list_eq_below (dir : Path) (layer : Layer) :
    dir / "models" / layer.name / ("_" ++ layer.name ++ "_schema.yml")
      = dir.below (["models", layer.name] ++ ["_" ++ layer.name ++ "_schema.yml"]) := by
  rw [div_div_eq_below dir (by decide) (isPart_layer _), below_div]
  cases layer <;> decide

theorem testDir_eq_below (dir : Path) :
    Validation.testDir dir = dir.below ["tests", "validation"] :=
  div_div_eq_below dir (by decide) (by decide)

/-- The files of the tests of a model have its name between fixed letters. -/
theorem fit_of_mem_testFiles {s : Validation.Subject} (hname : IsModelName s.name)
    {file : String × String} (hfile : file ∈ Validation.testFiles s) :
    IsPart file.1 ∧ ".." ∉ ["tests", "validation"] ++ [file.1] := by
  have hfit : ∀ front, '/' ∉ front.toList → IsPart (front ++ s.name ++ ".sql")
      ∧ ".." ∉ ["tests", "validation"] ++ [front ++ s.name ++ ".sql"] := by
    intro front hfront
    refine ⟨isPart_of_isModelName hname _ _ hfront (by decide) (by decide), ?_⟩
    simpa using ne_dots front s.name ".sql" (by decide)
  unfold Validation.testFiles at hfile
  rcases List.mem_cons.mp hfile with rfl | hfile
  · exact hfit _ (by decide)
  · split at hfile
    · exact nomatch hfile
    · rw [List.mem_singleton.mp hfile]
      exact hfit _ (by decide)

/-! ## Runs -/

/-- The relation holds of the files. -/
def OnFiles (R : Files → Files → Prop) (s s' : Session) : Prop := R s.files s'.files

section Runs

variable {dir : Path} {W : List String → Prop} {R : Files → Files → Prop} [IsPreorder Files R]

instance : IsPreorder Session (OnFiles R) where
  refl s := refl_of R s.files
  trans _ _ _ h₁ h₂ := trans_of R h₁ h₂

variable (hR : Permits dir W R) {names : List String} {last : String}

include hR

theorem onFiles_makeDirectory (p : Path) : Within (OnFiles R) (Run.change (·.makeDirectory p)) :=
  within_change fun _ _ h => hR.directory h

/-- A file that is written with the directories above it. -/
theorem onFiles_writeFile {c : Content} (hW : W (names ++ [last])) (hpart : IsPart last)
    (hup : ".." ∉ names ++ [last]) :
    Within (OnFiles R) (Run.change fun fs => do
      (← fs.makeDirectory (dir.below (names ++ [last])).parent).write
        (dir.below (names ++ [last])) c) := by
  refine within_change fun s files h => ?_
  obtain ⟨fs, hmade, hwrite⟩ := bind_eq_ok.mp h
  exact trans_of R (hR.directory hmade) (hR.file hW hpart hup hwrite)

theorem onFiles_place (text : String) (hW : W (names ++ [last])) (hpart : IsPart last)
    (hup : ".." ∉ names ++ [last]) :
    Within (OnFiles R) (Validation.place (dir.below names) last text) := by
  unfold Validation.place
  rw [below_div _ _ hpart]
  refine within_bind (within_change fun _ _ h => ?_) fun _ => within_pure _
  exact hR.file hW hpart hup h

variable (hout : ∀ names, ¬ Tracked names → W names)

include hout

theorem onFiles_writeAll {subjects : List Validation.Subject}
    (htests : ∀ name, W ["tests", "validation", name])
    (hnames : ∀ s ∈ subjects, IsModelName s.name) :
    Within (OnFiles R) (Validation.writeAll dir subjects) := by
  have hwriteTests : Within (OnFiles R) (Validation.writeTests dir subjects) := by
    refine within_bind (onFiles_makeDirectory hR _) fun _ => within_mapM fun file hfile => ?_
    obtain ⟨s, hs, hfile⟩ := List.mem_flatMap.mp hfile
    obtain ⟨hpart, hup⟩ := fit_of_mem_testFiles (hnames s hs) hfile
    rw [testDir_eq_below]
    exact onFiles_place hR _ (htests _) hpart hup
  unfold Validation.writeAll
  dsimp only
  rw [testDir_eq_below, div_div_eq_below dir (by decide) (by decide)]
  refine within_bind hwriteTests fun tests => within_bind (onFiles_makeDirectory hR _) fun _ => ?_
  refine within_bind ?_ fun macrosFile => within_bind ?_ fun settingsFile => within_pure _
  · exact onFiles_place hR _ (hout _ (by decide)) (by decide) (by decide)
  · exact onFiles_place hR _ (htests _) (by decide) (by decide)

theorem onFiles_writeSeed : Within (OnFiles R) (Validation.writeSeed dir) := by
  unfold Validation.writeSeed
  rw [div_eq_below dir (by decide)]
  refine within_bind (onFiles_makeDirectory hR _) fun _ => ?_
  exact onFiles_place hR _ (hout _ (by decide)) (by decide) (by decide)

end Runs

/-! ## Steps of the work -/

/-- The names of the models are parts of paths. -/
def Build.WellNamed (b : Build) : Prop := ∀ m ∈ b.models, IsModelName m.1 ∧ IsModelName m.2.name

theorem Build.WellNamed.subjects {b : Build} (hnames : b.WellNamed) :
    ∀ s ∈ b.models.map (fun p => p.2.subject), IsModelName s.name := by
  intro s hs
  obtain ⟨m, hm, rfl⟩ := List.mem_map.mp hs
  exact (hnames m hm).2

/-- In the directory, the models stay as they are, and the relation holds of the files. -/
def Beside (dir : Path) (R : Files → Files → Prop) (b b' : Build) : Prop :=
  b.dir = dir → b.WellNamed → Work.SameModels b b' ∧ R b.session.files b'.session.files

section Steps

variable {dir : Path} {W : List String → Prop} {R : Files → Files → Prop}

instance [IsPreorder Files R] : Modest (Beside dir R) where
  refl b _ _ := ⟨refl_of Work.SameModels b, refl_of R _⟩
  trans b₁ b₂ b₃ h₁ h₂ hdir hnames := by
    obtain ⟨hsame, hfiles⟩ := h₁ hdir hnames
    have hnames₂ : b₂.WellNamed := by
      unfold Build.WellNamed
      rw [hsame.models]
      exact hnames
    obtain ⟨hsame', hfiles'⟩ := h₂ (hsame.options.1.trans hdir) hnames₂
    exact ⟨trans_of Work.SameModels hsame hsame', trans_of R hfiles hfiles'⟩
  of_eq hoptions hfiles hmodels hdisk _ _ := ⟨⟨hoptions, hfiles, hmodels⟩, hdisk ▸ refl_of R _⟩

namespace Work

theorem beside_ofRun {α : Type} {r : Run α} (hr : Within (OnFiles R) r) :
    Within (Beside dir R) (ofRun r) := by
  intro b _ _
  rw [(run_ofRun r b).2]
  exact ⟨⟨⟨rfl, rfl⟩, rfl, rfl⟩, hr b.session⟩

/-- A step that goes on with the state may use that the names of its models are parts of paths. -/
theorem beside_get_bind {α : Type} {f : Build → Work α}
    (hf : ∀ b, b.dir = dir → b.WellNamed → Within (Beside dir R) (f b)) :
    Within (Beside dir R) (get >>= f) :=
  fun b hdir hnames => hf b hdir hnames b hdir hnames

variable [IsPreorder Files R] (hR : Permits dir W R)

include hR

theorem beside_writeText (names : List String) {last text : String} (hW : W (names ++ [last]))
    (hpart : IsPart last) (hup : ".." ∉ names ++ [last]) :
    Within (Beside dir R) (writeText (dir.below (names ++ [last])) text) :=
  beside_ofRun (onFiles_writeFile hR hW hpart hup)

theorem beside_writeModelLists (hlists : ∀ layer, W (listNames layer)) :
    Within (Beside dir R) writeModelLists := by
  refine within_forM fun layer _ => beside_get_bind fun b hdir _ => ?_
  dsimp only
  split
  · rw [hdir, list_eq_below]
    refine beside_writeText hR _ (hlists layer) ?_ ?_
    · cases layer <;> decide
    · cases layer <;> decide
  · exact within_pure _

variable (hout : ∀ names, ¬ Tracked names → W names)

include hout

theorem beside_writeMacros (inv : MacroInventory) : Within (Beside dir R) (writeMacros inv) := by
  have hstep : ∀ key info, Within (Beside dir R) (writeMacro key info) := by
    intro key info
    have hpart : IsPart (macroName key ++ ".sql") := isPart_sql (isModelName_sanitize _)
    refine within_bind (within_modify fun _ => Modest.of_eq ⟨rfl, rfl⟩ rfl rfl rfl) fun _ => ?_
    refine within_bind (within_macroText _ _) fun text => beside_get_bind fun b hdir _ => ?_
    rw [hdir, div_div_eq_below dir (by decide) hpart]
    refine within_bind (beside_writeText hR ["macros"] (hout _ ?_) hpart ?_) fun _ =>
      within_modify fun _ => Modest.of_eq ⟨rfl, rfl⟩ rfl rfl rfl
    · simp [Tracked]
    · simpa using ne_dots "" (macroName key) ".sql" (by decide)
  refine within_bind (within_forM fun p _ => within_ite (hstep _ _) (within_pure _)) fun _ => ?_
  refine beside_get_bind fun b hdir _ => within_ite ?_ (within_pure _)
  rw [hdir, div_div_eq_below dir (by decide) (by decide)]
  exact beside_writeText hR ["macros"] (hout _ (by decide)) (by decide) (by decide)

theorem beside_writeTests : Within (Beside dir R) writeTests := by
  refine beside_get_bind fun b hdir hnames => ?_
  dsimp only
  rw [hdir]
  refine within_bind ?_ fun _ => within_bind ?_ fun _ => within_bind (within_forM ?_) fun _ => ?_
  · rw [div_div_eq_below dir (by decide) (by decide)]
    exact beside_writeText hR ["tests"] (hout _ (by decide)) (by decide) (by decide)
  · rw [div_div_eq_below dir (by decide) (by decide), below_div _ _ (by decide)]
    exact beside_writeText hR ["tests", "generic"] (hout _ (by decide)) (by decide) (by decide)
  · rintro ⟨name, m⟩ hm
    have hname := (hnames _ (List.mem_filter.mp hm).1).1
    have hpart := isPart_of_isModelName hname "test_" "_row_count.sql" (by decide) (by decide)
      (by decide)
    rw [div_div_eq_below dir (by decide) (by decide), below_div _ _ hpart]
    refine beside_writeText hR ["tests", "singular"] (hout _ ?_) hpart ?_
    · simp [Tracked]
    · simpa using ne_dots "test_" name "_row_count.sql" (by decide)
  · rw [div_div_eq_below dir (by decide) (by decide)]
    exact beside_writeText hR ["tests"] (hout _ (by decide)) (by decide) (by decide)

theorem beside_writeProject : Within (Beside dir R) writeProject := by
  refine beside_get_bind fun b hdir _ => ?_
  rw [hdir, div_eq_below dir (by decide), div_eq_below dir (by decide)]
  refine within_bind ?_ fun _ => ?_
  · exact beside_writeText hR [] (hout _ (by decide)) (by decide) (by decide)
  · exact beside_writeText hR [] (hout _ (by decide)) (by decide) (by decide)

theorem beside_writeReport {b : Build} (hdir : b.dir = dir) (files : List String) :
    Within (Beside dir R) (writeReport b files) := by
  refine within_writeReport (fun _ _ => Modest.of_eq ⟨rfl, rfl⟩ rfl rfl rfl) ?_ (fun _ => ?_)
    (fun _ _ _ => ?_) files
  · exact beside_ofRun (hdir ▸ onFiles_writeSeed hR hout)
  · rw [hdir, div_div_eq_below dir (by decide) (by decide)]
    exact beside_writeText hR ["docs"] (hout _ (by decide)) (by decide) (by decide)
  · exact within_bind (within_enter _ _) fun _ => within_addTodo _ _ _ _

theorem beside_writeValidation (htests : ∀ name, W ["tests", "validation", name]) :
    Within (Beside dir R) writeValidation := by
  refine beside_get_bind fun b hdir hnames => ?_
  have hall := onFiles_writeAll hR hout htests hnames.subjects
  rw [← hdir] at hall
  exact within_bind (beside_ofRun hall) fun files => beside_writeReport hR hout hdir files

theorem beside_finish (hlists : ∀ layer, W (listNames layer))
    (htests : ∀ name, W ["tests", "validation", name]) : Within (Beside dir R) finish := by
  refine within_bind (beside_writeModelLists hR hlists) fun _ => ?_
  refine within_bind (beside_writeTests hR hout) fun _ => within_bind within_get fun b => ?_
  have hrest : Within (Beside dir R) (do writeProject; sayCounts) :=
    within_bind (beside_writeProject hR hout) fun _ => within_sayCounts
  exact within_ite (within_bind (beside_writeValidation hR hout htests) fun _ => hrest) hrest

end Work

end Steps

end Replatform.Project

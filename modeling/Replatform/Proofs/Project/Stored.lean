import Replatform.Proofs.Project.Beside
import Replatform.Proofs.Value
/-!
# Models and their files

Every model that was written stands in its file at the end, as it was written last: later steps
write other files (`stored_generate`). The names of models are single parts of a path, so that the
file of one model is never the file of another, of a list of models or of a test.
-/

namespace Replatform.Project

open List Stateful Replatform.Path

variable {f : ModelFile} {b b' : Build}

/-! ## The last of each name -/

/-- The entries that no later one of the same name replaces. -/
def lastByName {α : Type} (name : α → String) : List α → List α
  | [] => []
  | x :: xs => if name x ∈ xs.map name then lastByName name xs else x :: lastByName name xs

section LastByName

variable {α β : Type} {name : α → String} {x y : α} {xs : List α}

theorem mem_of_mem_lastByName (h : x ∈ lastByName name xs) : x ∈ xs := by
  fun_induction lastByName name xs with
  | case1 => exact h
  | case2 y ys _ ih => exact .tail _ (ih h)
  | case3 y ys _ ih =>
    rcases mem_cons.mp h with rfl | h
    · exact .head _
    · exact .tail _ (ih h)

theorem exists_mem_lastByName (h : x ∈ xs) : ∃ y ∈ lastByName name xs, name y = name x := by
  induction xs generalizing x with
  | nil => exact nomatch h
  | cons z zs ih =>
    rw [lastByName]
    split
    next hlater =>
      rcases mem_cons.mp h with rfl | h
      · obtain ⟨y, hy, hname⟩ := mem_map.mp hlater
        obtain ⟨y', hy', hname'⟩ := ih hy
        exact ⟨y', hy', hname'.trans hname⟩
      · exact ih h
    next =>
      rcases mem_cons.mp h with rfl | h
      · exact ⟨x, .head _, rfl⟩
      · obtain ⟨y, hy, hname⟩ := ih h
        exact ⟨y, .tail _ hy, hname⟩

/-- A new entry is the last of its name. -/
theorem mem_lastByName_concat (h : x ∈ lastByName name (xs ++ [y])) :
    x = y ∨ x ∈ lastByName name xs ∧ name x ≠ name y := by
  induction xs with
  | nil => exact .inl (mem_singleton.mp h)
  | cons z zs ih =>
    rw [cons_append, lastByName] at h
    split at h
    next hlater =>
      rcases ih h with rfl | ⟨hmem, hne⟩
      · exact .inl rfl
      · refine .inr ⟨?_, hne⟩
        rw [lastByName]
        split
        · exact hmem
        · exact .tail _ hmem
    next hlater =>
      -- nothing behind `z` has its name, so the new entry has another name
      rw [map_append, mem_append, not_or] at hlater
      have hkept : lastByName name (z :: zs) = z :: lastByName name zs := by
        rw [lastByName, if_neg hlater.1]
      rw [hkept]
      rcases mem_cons.mp h with rfl | h
      · exact .inr ⟨.head _, fun he => hlater.2 (mem_singleton.mpr he)⟩
      · rcases ih h with rfl | ⟨hmem, hne⟩
        · exact .inl rfl
        · exact .inr ⟨.tail _ hmem, hne⟩

theorem map_lastByName (name' : β → String) (f : α → β) (hf : ∀ x, name' (f x) = name x)
    (xs : List α) : (lastByName name xs).map f = lastByName name' (xs.map f) := by
  have hnames : ∀ xs : List α, (xs.map f).map name' = xs.map name := by
    intro xs
    rw [map_map]
    exact map_congr_left fun x _ => hf x
  induction xs with
  | nil => rfl
  | cons x xs ih =>
    rw [map_cons, lastByName, lastByName, hnames, hf]
    split
    · exact ih
    · rw [map_cons, ih]

end LastByName

/-- The files of the models as they were written last. -/
def Build.current (b : Build) : List ModelFile := lastByName (·.model.name) b.files

/-- Every model stands in its file. -/
structure Stored (b : Build) : Prop where
  files : ∀ f ∈ b.files, IsModelName f.model.name
  models : ∀ m ∈ b.models, IsModelName m.1 ∧ IsModelName m.2.name
  text : ∀ f ∈ b.current, b.session.files.read (f.path b.dir) = .ok (.text f.text)

/-! ## The files of a project -/

/-- The names that lead from the directory of a project to the file of a model. -/
def modelNames (layer : Layer) (name : String) : List String :=
  ["models", layer.name, name ++ ".sql"]

theorem path_eq_below (h : IsModelName f.model.name) (dir : Path) :
    f.path dir = dir.below (modelNames f.model.layer f.model.name) := by
  rw [ModelFile.path, div_div_eq_below dir (by decide) (isPart_layer _),
    below_div _ _ (isPart_sql h)]
  rfl

/-! ## Changes that spare the files of models -/

/-- What was done to the files has spared the file below the directory. -/
def SparesBelow (dir : Path) (names : List String) (fs fs' : Files) : Prop :=
  Files.Spares (fs.placeOf (dir.below names)) fs fs'

instance (dir : Path) (names : List String) : IsPreorder Files (SparesBelow dir names) where
  refl fs := .refl _ fs
  trans fs₁ fs₂ fs₃ h₁ h₂ := by
    -- the place is counted from the working directory, which stays
    unfold SparesBelow at h₂
    rw [Files.placeOf, h₁.cwd] at h₂
    exact h₁.trans h₂

/-- Directories spare all files, and a file spares all others. -/
theorem permits_sparesBelow (dir : Path) {names : List String} (hnames : ".." ∉ names) :
    Permits dir (· ≠ names) (SparesBelow dir names) where
  directory h := Files.spares_of_makeDirectory (Files.dots_notMem_placeOf _ _) h
  file {fs _ names' last _} hne _ hup h := by
    have hparts : (dir.below (names' ++ [last])).parts = (dir.parts ++ names') ++ [last] := by
      simp [below]
    have hlast : last ≠ ".." := by
      rintro rfl
      exact hup (mem_append_right _ (mem_singleton.mpr rfl))
    refine Files.spares_of_write hparts hlast h ?_
    rw [placeOf_below fs dir hnames, placeOf_below fs dir hup]
    exact fun he => hne (append_cancel_left he).symm

/-- What was done to the files has spared the files of all models. -/
def Leaves (dir : Path) (fs fs' : Files) : Prop :=
  ∀ layer name, IsModelName name →
    Files.Spares (fs.placeOf (dir.below (modelNames layer name))) fs fs'

instance (dir : Path) : IsPreorder Files (Leaves dir) where
  refl fs layer name _ := refl_of (SparesBelow dir (modelNames layer name)) fs
  trans _ _ _ h₁ h₂ layer name hname :=
    trans_of (SparesBelow dir (modelNames layer name)) (h₁ layer name hname) (h₂ layer name hname)

theorem dots_notMem_modelNames (layer : Layer) (name : String) : ".." ∉ modelNames layer name := by
  intro hmem
  simp only [modelNames, mem_cons, not_mem_nil, or_false] at hmem
  rcases hmem with hmem | hmem | hmem
  · exact absurd hmem (by decide)
  · cases layer <;> exact absurd hmem (by decide)
  · have hlist := congrArg String.toList hmem
    rw [String.toList_append] at hlist
    have hlength := congrArg length hlist
    simp only [length_append] at hlength
    exact absurd hlength (by simp)

theorem permits_leaves (dir : Path) :
    Permits dir (fun names => ∀ layer name, names ≠ modelNames layer name) (Leaves dir) where
  directory h layer name _ :=
    (permits_sparesBelow dir (dots_notMem_modelNames layer name)).directory h
  file hne hpart hup h layer name _ :=
    (permits_sparesBelow dir (dots_notMem_modelNames layer name)).file (hne layer name) hpart hup h

/-! ## Steps of the work -/

/-- Work in the directory that began with every model in its file ends so. -/
def Upholds (dir : Path) (b b' : Build) : Prop := b.dir = dir → Stored b → b'.dir = dir ∧ Stored b'

section Upholds

variable {dir : Path}

/-- What is said of the files of models depends on the files and the models only. -/
theorem upholds_of_eq (hdir : b'.dir = b.dir) (hfiles : b'.files = b.files)
    (hmodels : b'.models = b.models) (hdisk : b'.session.files = b.session.files) :
    Upholds dir b b' := by
  intro hb hstored
  refine ⟨hdir.trans hb, hfiles ▸ hstored.files, hmodels ▸ hstored.models, ?_⟩
  rw [Build.current, hfiles, hdisk, hdir]
  exact hstored.text

instance : Modest (Upholds dir) where
  refl _ := upholds_of_eq rfl rfl rfl rfl
  trans _ _ _ h₁ h₂ hdir hstored := h₂ (h₁ hdir hstored).1 (h₁ hdir hstored).2
  of_eq hoptions := upholds_of_eq hoptions.1

theorem Stored.of_leaves {s : Session} (hstored : Stored b)
    (hleaves : Leaves b.dir b.session.files s.files) : Stored { b with session := s } := by
  refine ⟨hstored.files, hstored.models, fun f hf => ?_⟩
  have hname := hstored.files f (mem_of_mem_lastByName hf)
  have hread := hstored.text f hf
  rw [path_eq_below hname] at hread
  show s.files.read (f.path b.dir) = _
  rw [path_eq_below hname]
  exact Files.read_of_spares (hleaves _ _ hname) hread

namespace Work

/-! ### Models -/

theorem modelNames_ne {layer layer' : Layer} {name name' : String} (h : name ≠ name') :
    modelNames layer name ≠ modelNames layer' name' := by
  intro he
  have hlast : name ++ ".sql" = name' ++ ".sql" := by
    simpa [modelNames] using congrArg getLast? he
  exact h (String.append_left_inj ".sql" |>.mp hlast)

/-- A model that is written stands in its file, and all others stay in theirs. -/
theorem stored_write {fs files : Files} (hstored : Stored b) (hname : IsModelName f.model.name)
    (hmade : b.session.files.makeDirectory (f.path b.dir).parent = .ok fs)
    (hwrite : fs.write (f.path b.dir) (.text f.text) = .ok files) :
    Stored { b with
      session := { b.session with files }
      files := b.files ++ [f]
      models := setField b.models f.model.name f.model } := by
  have hparts : (f.path b.dir).parts
      = (b.dir.parts ++ ["models", f.model.layer.name]) ++ [f.model.name ++ ".sql"] := by
    rw [path_eq_below hname]
    simp [below, modelNames]
  have hup : f.model.name ++ ".sql" ≠ ".." := fun he =>
    dots_notMem_modelNames f.model.layer f.model.name (by simp [modelNames, he])
  refine ⟨fun g hg => ?_, fun m hm => ?_, fun g hg => ?_⟩
  · rcases mem_append.mp hg with hg | hg
    · exact hstored.files g hg
    · exact mem_singleton.mp hg ▸ hname
  · rcases mem_of_mem_setField hm with rfl | hm
    · exact ⟨hname, hname⟩
    · exact hstored.models m hm
  · rcases mem_lastByName_concat hg with rfl | ⟨hg, hne⟩
    · exact Files.read_of_write hparts hup hwrite
    · -- a model of another name has another file, which neither step touches
      have hname' := hstored.files g (mem_of_mem_lastByName hg)
      have hmade' := Files.spares_of_makeDirectory
        (Files.dots_notMem_placeOf b.session.files (g.path b.dir)) hmade
      have hread := Files.read_of_spares hmade' (hstored.text g hg)
      refine Files.read_of_spares (Files.spares_of_write hparts hup hwrite ?_) hread
      rw [path_eq_below hname, path_eq_below hname', placeOf_below _ _ (dots_notMem_modelNames _ _),
        placeOf_below _ _ (dots_notMem_modelNames _ _)]
      exact fun he => modelNames_ne hne (append_cancel_left he)

/-- A file is written, or nothing changes. -/
theorem run_writeText (p : Path) (text : String) (b : Build) :
    (∃ e, result (writeText p text) b = .error e ∧ state (writeText p text) b = b)
      ∨ ∃ fs files, b.session.files.makeDirectory p.parent = .ok fs
        ∧ fs.write p (.text text) = .ok files ∧ result (writeText p text) b = .ok ()
        ∧ state (writeText p text) b = { b with session := { b.session with files } } := by
  let f : Files → Except Failure Files := fun fs => do
    (← fs.makeDirectory p.parent).write p (.text text)
  have hrun := run_change f b.session
  obtain ⟨hresult, hstate⟩ := run_ofRun (Run.change f) b
  cases hf : f b.session.files with
  | error e =>
    rw [hf, Prod.mk.injEq] at hrun
    exact .inl ⟨e, hresult.trans hrun.1, by rw [writeText, hstate, hrun.2]⟩
  | ok files =>
    rw [hf, Prod.mk.injEq] at hrun
    obtain ⟨fs, hmade, hwrite⟩ := bind_eq_ok.mp hf
    exact .inr ⟨fs, files, hmade, hwrite, hresult.trans hrun.1, by rw [writeText, hstate, hrun.2]⟩

/-- A model is written and noted, or nothing changes. -/
theorem state_writeModel (f : ModelFile) (b : Build) :
    state (writeModel f) b = b
      ∨ ∃ fs files, b.session.files.makeDirectory (f.path b.dir).parent = .ok fs
        ∧ fs.write (f.path b.dir) (.text f.text) = .ok files
        ∧ state (writeModel f) b = { b with
          session := { b.session with files }
          files := b.files ++ [f]
          models := setField b.models f.model.name f.model } := by
  unfold writeModel
  rw [state_get_bind]
  rcases run_writeText (f.path b.dir) f.text b with ⟨e, hresult, hstate⟩
    | ⟨fs, files, hmade, hwrite, hresult, hstate⟩
  · -- a file that cannot be written is not noted as written
    rw [state_bind_of_error hresult, hstate]
    exact .inl rfl
  · rw [state_bind_of_ok hresult, hstate]
    exact .inr ⟨fs, files, hmade, hwrite, rfl⟩

/-- The model of a source is written with the columns that are known then. -/
theorem run_writeBronze (workflow : String) (t : Tool) (b : Build) : ∃ todos,
    let f := bronzeFile workflow t (sourceColumns b t)
    let b' := { b with model := f.model.name, layer := "bronze", todos }
    result (writeBronze workflow t) b = result (writeModel f) b'
      ∧ state (writeBronze workflow t) b = state (writeModel f) b' := by
  unfold writeBronze enter
  rw [result_modify_bind, state_modify_bind, result_get_bind, state_get_bind]
  dsimp only
  split
  · unfold addTodo
    rw [result_modify_bind, state_modify_bind]
    exact ⟨_, rfl, rfl⟩
  · exact ⟨b.todos, rfl, rfl⟩

theorem upholds_writeModel (hname : IsModelName f.model.name) :
    Within (Upholds dir) (writeModel f) := by
  intro b hdir hstored
  rcases state_writeModel f b with hstate | ⟨fs, files, hmade, hwrite, hstate⟩
  · rw [hstate]
    exact ⟨hdir, hstored⟩
  · rw [hstate]
    exact ⟨hdir, stored_write hstored hname hmade hwrite⟩

/-! ### Lists, tests and settings -/

/-- Steps beside the models leave every model in its file. -/
theorem upholds_of_beside (h : Beside dir (Leaves dir) b b') : Upholds dir b b' := by
  intro hdir hstored
  obtain ⟨hsame, hleaves⟩ := h hdir hstored.models
  have hdir' : b'.dir = dir := hsame.options.1.trans hdir
  refine ⟨hdir', hsame.files ▸ hstored.files, hsame.models ▸ hstored.models, ?_⟩
  rw [Build.current, hsame.files, hdir']
  subst hdir
  exact (hstored.of_leaves hleaves).text

/-- The file of a model does not end as the list of models does. -/
theorem listNames_ne (layer layer' : Layer) (name : String) :
    listNames layer ≠ modelNames layer' name := by
  intro he
  have hlast : "_" ++ layer.name ++ "_schema.yml" = name ++ ".sql" := by
    simpa [listNames, modelNames] using congrArg getLast? he
  -- the last letters differ
  have hend := congrArg (fun s : String => s.toList.reverse.take 2) hlast
  rw [String.toList_append] at hend
  cases layer <;> simp at hend

theorem upholds_finish : Within (Upholds dir) finish := by
  intro b
  refine upholds_of_beside (beside_finish (permits_leaves dir) ?_ listNames_ne ?_ b)
  · rintro names hnames layer name rfl
    exact hnames (.inl ⟨_, rfl⟩)
  · intro name layer name' he
    exact absurd (cons.inj he).1 (by decide)

end Work

end Upholds

/-! ## The whole work -/

def Build.Fresh (b : Build) : Prop := b.files = [] ∧ b.models = []

theorem Build.Fresh.stored (h : b.Fresh) : Stored b := by
  refine ⟨?_, ?_, ?_⟩ <;> simp [Build.current, h.1, h.2, lastByName]

theorem Build.Fresh.of_sameModels (h : b.Fresh) (hsame : Work.SameModels b b') :
    b'.Fresh := ⟨hsame.files.trans h.1, hsame.models.trans h.2⟩

namespace Work

/-- Steps that write no model may come first. -/
theorem stored_after {α β : Type} {x : Work α} {f : α → Work β} (hx : Within SameModels x)
    (hf : ∀ a b, b.Fresh → Stored (state (f a) b)) (hb : b.Fresh) : Stored (state (x >>= f) b) := by
  have hfresh := hb.of_sameModels (hx b)
  cases hresult : result x b with
  | error e => exact state_bind_of_error hresult ▸ hfresh.stored
  | ok a => exact state_bind_of_ok hresult ▸ hf a _ hfresh

/-- However the work ends, every model that was written stands in its file. -/
theorem stored_generate (home : Path) (ws : List Workflow) (inv : Option MacroInventory)
    (hb : b.Fresh) : Stored (state (generate home ws inv) b) := by
  obtain ⟨before, hbefore, hgenerate⟩ := exists_generate_eq home ws inv
  rw [hgenerate]
  refine stored_after hbefore (fun _ b hb => ?_) hb
  -- from here on models are written, and the directory is known
  have hupholds : Within (Upholds b.dir) (do ws.forM writeWorkflow; finish) :=
    within_bind (within_forM fun w _ => within_writeWorkflow (fun _ => upholds_writeModel) w)
      fun _ => upholds_finish
  exact (hupholds b rfl hb.stored).2

end Work

end Replatform.Project

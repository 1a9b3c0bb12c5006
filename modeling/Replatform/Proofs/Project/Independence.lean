import Replatform.Proofs.Placement
import Replatform.Proofs.Project.Columns
import Replatform.Proofs.Project.Stored
/-!
# Workflows that came before

The work on a workflow begins in the state that the work on others has left. Of that state, what is
written behind the first layer depends on the names of the macros only. The columns that were kept
are forgotten at the start; todos, sources and models are added to and not read; and the files that
stand on the disk by then are not in the way of new ones (`Files.outcome_place`). So after two
histories, the work on a workflow writes the same models (`marts_of_histories`).
-/

namespace Replatform.Project

open Stateful Replatform.Path

/-- The names and layers of the models behind the first layer, with the texts of their files. -/
def marts (files : List ModelFile) : List (String × Layer × String) :=
  (files.filter (·.model.layer != .bronze)).map fun f => (f.model.name, f.model.layer, f.text)

theorem marts_append (files files' : List ModelFile) :
    marts (files ++ files') = marts files ++ marts files' := by
  rw [marts, List.filter_append, List.map_append, marts, marts]

/-! ## What the parts of a query read -/

/-- The columns that are kept and the names of the macros are the same. -/
structure SameView (b b' : Build) : Prop where
  columns : b'.columns = b.columns
  macroNames : b'.macroNames = b.macroNames

/-- The project, its files and the names of its macros are left as they are. -/
structure Untouched (b b' : Build) : Prop where
  dir : b'.dir = b.dir
  files : b'.files = b.files
  disk : b'.session.files = b.session.files
  macroNames : b'.macroNames = b.macroNames

instance : Discreet Untouched where
  refl _ := ⟨rfl, rfl, rfl, rfl⟩
  trans _ _ _ h₁ h₂ := ⟨h₂.dir.trans h₁.dir, h₂.files.trans h₁.files, h₂.disk.trans h₁.disk,
    h₂.macroNames.trans h₁.macroNames⟩
  printed _ _ := ⟨rfl, rfl, rfl, rfl⟩
  noted _ _ _ _ _ := ⟨rfl, rfl, rfl, rfl⟩
  columns _ _ := ⟨rfl, rfl, rfl, rfl⟩
  model _ _ _ := ⟨rfl, rfl, rfl, rfl⟩

namespace Work

theorem steady_toolColumns (w : Workflow) (t : Tool) : Steady SameView (toolColumns w t) := by
  intro b b' h
  obtain ⟨hresult, hcolumns⟩ := run_toolColumns w t b
  obtain ⟨hresult', hcolumns'⟩ := run_toolColumns w t b'
  rw [h.columns] at hresult' hcolumns'
  refine ⟨hresult.trans hresult'.symm, hcolumns'.trans hcolumns.symm, ?_⟩
  have hmacros : Within Untouched (toolColumns w t) := within_toolColumns w t
  rw [(hmacros b).macroNames, (hmacros b').macroNames, h.macroNames]

end Work

/-! ## Room for models -/

/-- What comes of writing the file of a model is the same, whatever it holds. -/
structure SameRoom (b b' : Build) : Prop where
  dir : b'.dir = b.dir
  outcome : ∀ layer name c c',
    Files.outcome (b'.session.files.place (b.dir.below (modelNames layer name)) c')
      = Files.outcome (b.session.files.place (b.dir.below (modelNames layer name)) c)

section SameRoom

variable {b b' b'' : Build}

theorem SameRoom.symm (h : SameRoom b b') : SameRoom b' b := by
  refine ⟨h.dir.symm, fun layer name c c' => ?_⟩
  rw [h.dir]
  exact (h.outcome layer name c' c).symm

theorem SameRoom.trans (h : SameRoom b b') (h' : SameRoom b' b'') : SameRoom b b'' := by
  refine ⟨h'.dir.trans h.dir, fun layer name c c' => ?_⟩
  have hlast := h'.outcome layer name c c'
  rw [h.dir] at hlast
  exact hlast.trans (h.outcome layer name c c)

theorem below_modelNames (dir : Path) (layer : Layer) (name : String) :
    dir.below (modelNames layer name)
      = (dir.below ["models"]).below [layer.name, name ++ ".sql"] := by
  simp [below, modelNames]

theorem sameRoom_of_disk (hdir : b'.dir = b.dir) (hdisk : b'.session.files = b.session.files) :
    SameRoom b b' := by
  refine ⟨hdir, fun layer name c c' => ?_⟩
  rw [hdisk]
  exact Files.outcome_place_content _ _ c' c

/-- A model that is written is not in the way of others. -/
theorem sameRoom_of_place {layer : Layer} {name : String} {c : Content} {files : Files}
    (h : b.session.files.place (b.dir.below (modelNames layer name)) c = .ok files)
    (hdir : b'.dir = b.dir) (hdisk : b'.session.files = files) : SameRoom b b' := by
  have hlayer : ∀ layer : Layer, layer.name ≠ ".." := by
    intro layer
    cases layer <;> decide
  have hname : ∀ name : String, name ++ ".sql" ≠ ".." := by
    intro name
    simpa using (ne_dots "" name ".sql" (by decide)).symm
  refine ⟨hdir, fun layer' name' c' c'' => ?_⟩
  rw [below_modelNames] at h ⊢
  rw [hdisk]
  exact Files.outcome_place (by simp [below]) (hlayer _) (hname _) (hlayer _) (hname _) h c'' c'

end SameRoom

/-- The names of the macros are the same, and so is the room for models. -/
def SameGround (b b' : Build) : Prop := b'.macroNames = b.macroNames ∧ SameRoom b b'

instance : Discreet SameGround where
  refl _ := ⟨rfl, sameRoom_of_disk rfl rfl⟩
  trans _ _ _ h₁ h₂ := ⟨h₂.1.trans h₁.1, h₁.2.trans h₂.2⟩
  printed _ _ := ⟨rfl, sameRoom_of_disk rfl rfl⟩
  noted _ _ _ _ _ := ⟨rfl, sameRoom_of_disk rfl rfl⟩
  columns _ _ := ⟨rfl, sameRoom_of_disk rfl rfl⟩
  model _ _ _ := ⟨rfl, sameRoom_of_disk rfl rfl⟩

namespace Work

/-- A model is written and noted, if its file can be placed. -/
theorem run_writeModel {f : ModelFile} (hname : IsModelName f.model.name) (b : Build) :
    (result (writeModel f) b, state (writeModel f) b)
      = match b.session.files.place (b.dir.below (modelNames f.model.layer f.model.name))
          (.text f.text) with
        | .ok files => (.ok (), { b with
            session := { b.session with files }
            files := b.files ++ [f]
            models := setField b.models f.model.name f.model })
        | .error e => (.error e, b) := by
  let place : Files → Except Failure Files := fun fs => fs.place (f.path b.dir) (.text f.text)
  obtain ⟨hresult, hstate⟩ := run_ofRun (Run.change place) b
  have hchange := run_change place b.session
  have hwrite : writeText (f.path b.dir) f.text = ofRun (Run.change place) := rfl
  rw [← path_eq_below hname]
  unfold writeModel
  rw [result_get_bind, state_get_bind, run_bind, hwrite, hresult, hstate]
  cases hplace : b.session.files.place (f.path b.dir) (.text f.text) with
  | error e =>
    rw [show place b.session.files = .error e from hplace, Prod.mk.injEq] at hchange
    rw [hchange.1, hchange.2]
  | ok files =>
    rw [show place b.session.files = .ok files from hplace, Prod.mk.injEq] at hchange
    rw [hchange.1, hchange.2]
    rfl

theorem sameGround_writeModel {f : ModelFile} (hname : IsModelName f.model.name) :
    Within SameGround (writeModel f) := by
  intro b
  have hrun := congrArg Prod.snd (run_writeModel hname b)
  dsimp only at hrun
  rw [hrun]
  split
  next files hplace => exact ⟨rfl, sameRoom_of_place hplace rfl rfl⟩
  next => exact refl_of SameGround b

end Work

/-! ## Two runs side by side -/

/-- Two runs that began with some files each have written the same models behind the first layer,
and see the same from here on. -/
structure Abreast (base base' : List ModelFile) (b b' : Build) : Prop where
  view : SameView b b'
  room : SameRoom b b'
  files : ∃ new new', b.files = base ++ new ∧ b'.files = base' ++ new' ∧ marts new = marts new'

namespace Work

variable {base base' : List ModelFile} {b b' : Build}

theorem steady_of_untouched {α : Type} {x : Work α} (hview : Steady SameView x)
    (hsame : Within Untouched x) : Steady (Abreast base base') x := by
  refine hview.of_within hsame (fun _ _ h => h.view) fun b b' c c' h hview hb hb' => ⟨hview, ?_, ?_⟩
  · exact ((sameRoom_of_disk hb.dir hb.disk).symm.trans h.room).trans
      (sameRoom_of_disk hb'.dir hb'.disk)
  · rw [hb.files, hb'.files]
    exact h.files

theorem steady_enter (model layer : String) : Steady (Abreast base base') (enter model layer) :=
  steady_of_untouched (steady_modify fun _ _ h => ⟨h.columns, h.macroNames⟩) (within_enter _ _)

instance : Noting (.steady (Abreast base base')) where
  noted _ _ _ _ := steady_of_untouched (steady_modify fun _ _ h => ⟨h.columns, h.macroNames⟩)
    (within_addTodo _ _ _ _)

instance (w : Workflow) : Inquiring (.steady (Abreast base base')) w fun _ => True where
  columns _ := steady_of_untouched (steady_toolColumns w _) (within_toolColumns w _)
  upstream _ _ _ := trivial
  names _ _ _ := by
    refine steady_get_bind (R := Abreast base base') (fun b b' h => ?_) fun _ => steady_pure _
    rw [h.view.macroNames]

/-- Two files of one model go to the same place, and only their texts may differ. -/
theorem abreast_writeModel {f f' : ModelFile} (hname : IsModelName f.model.name)
    (hsame : f'.model.name = f.model.name) (hlayer : f'.model.layer = f.model.layer)
    (hmarts : marts [f] = marts [f']) (h : Abreast base base' b b') :
    result (writeModel f) b = result (writeModel f') b'
      ∧ Abreast base base' (state (writeModel f) b) (state (writeModel f') b') := by
  have houtcome := h.room.outcome f.model.layer f.model.name (.text f.text) (.text f'.text)
  have hrun := run_writeModel hname b
  have hrun' := run_writeModel (hsame ▸ hname) b'
  rw [hsame, hlayer, h.room.dir] at hrun'
  cases hplace : b.session.files.place
      (b.dir.below (modelNames f.model.layer f.model.name)) (.text f.text) with
  | error e =>
    cases hplace' : b'.session.files.place
        (b.dir.below (modelNames f.model.layer f.model.name)) (.text f'.text) with
    | ok files =>
      rw [hplace, hplace'] at houtcome
      exact nomatch houtcome
    | error e' =>
      rw [hplace, hplace'] at houtcome
      rw [hplace, Prod.mk.injEq] at hrun
      rw [hplace', Prod.mk.injEq] at hrun'
      rw [hrun.1, hrun.2, hrun'.1, hrun'.2, Except.error.inj houtcome]
      exact ⟨rfl, h⟩
  | ok files =>
    cases hplace' : b'.session.files.place
        (b.dir.below (modelNames f.model.layer f.model.name)) (.text f'.text) with
    | error e =>
      rw [hplace, hplace'] at houtcome
      exact nomatch houtcome
    | ok files' =>
      rw [hplace, Prod.mk.injEq] at hrun
      rw [hplace', Prod.mk.injEq] at hrun'
      rw [hrun.1, hrun.2, hrun'.1, hrun'.2]
      refine ⟨rfl, ⟨h.view.columns, h.view.macroNames⟩, ?_, ?_⟩
      · rw [← h.room.dir] at hplace'
        refine SameRoom.trans (SameRoom.symm ?_) (h.room.trans ?_)
        · exact sameRoom_of_place hplace rfl rfl
        · exact sameRoom_of_place hplace' h.room.dir.symm rfl
      · obtain ⟨new, new', hfiles, hfiles', hnew⟩ := h.files
        refine ⟨new ++ [f], new' ++ [f'], ?_, ?_, ?_⟩
        · rw [hfiles, List.append_assoc]
        · rw [hfiles', List.append_assoc]
        · rw [marts_append, marts_append, hnew, hmarts]

theorem steady_writeModel {f : ModelFile} (hname : IsModelName f.model.name) :
    Steady (Abreast base base') (writeModel f) :=
  fun _ _ h => abreast_writeModel hname rfl rfl rfl h

/-- The columns of a source may differ, but not the name of its model. -/
theorem steady_writeBronze {workflow : String} (hworkflow : IsModelName workflow) (t : Tool) :
    Steady (Abreast base base') (writeBronze workflow t) := by
  intro b b' h
  obtain ⟨todos, hresult, hstate⟩ := run_writeBronze workflow t b
  obtain ⟨todos', hresult', hstate'⟩ := run_writeBronze workflow t b'
  rw [hresult, hstate, hresult', hstate']
  refine abreast_writeModel ?_ rfl rfl rfl ⟨⟨h.view.columns, h.view.macroNames⟩,
    ⟨h.room.dir, h.room.outcome⟩, h.files⟩
  exact isModelName_joined "stg_" (by decide) hworkflow (isModelName_tableName t)

/-- On the same ground, the work on a workflow ends in the same way, with the same models. -/
theorem abreast_writeWorkflow (w : Workflow) (h : SameGround b b') :
    result (writeWorkflow w) b = result (writeWorkflow w) b'
      ∧ Abreast b.files b'.files (state (writeWorkflow w) b) (state (writeWorkflow w) b') := by
  have hworkflow := isModelName_sanitize w.metadata.name
  have hwrite : ∀ f : ModelFile, IsModelName f.model.name →
      Steady (Abreast b.files b'.files) (writeModel f) := fun _ => steady_writeModel
  have hstart : Abreast b.files b'.files { b with columns := [] } { b' with columns := [] } :=
    ⟨⟨rfl, h.1⟩, ⟨h.2.dir, h.2.outcome⟩, [], [], (List.append_nil _).symm,
      (List.append_nil _).symm, rfl⟩
  unfold writeWorkflow
  rw [result_modify_bind, result_modify_bind, state_modify_bind, state_modify_bind]
  -- the columns that were kept are gone, and what is left is read in the same way
  refine (steady_bind (Trait.holds_forM (T := .steady _) fun t _ =>
    steady_writeBronze hworkflow t) fun _ => ?_) _ _ hstart
  exact holds_marts (T := .steady _) hwrite hworkflow steady_enter

/-- The models behind the first layer that the work on a workflow writes, in order. -/
def newMarts (w : Workflow) (b : Build) : List (String × Layer × String) :=
  marts ((state (writeWorkflow w) b).files.drop b.files.length)

/-- Whatever workflows came before, the work on a workflow ends in the same way and writes the same
models behind the first layer. -/
theorem marts_of_histories (w : Workflow) (before before' : List Workflow) (hdir : b'.dir = b.dir)
    (hmacros : b'.macroNames = b.macroNames) (hdisk : b'.session.files = b.session.files) :
    let s := state (before.forM writeWorkflow) b
    let s' := state (before'.forM writeWorkflow) b'
    result (writeWorkflow w) s = result (writeWorkflow w) s' ∧ newMarts w s = newMarts w s' := by
  intro s s'
  have hpast : ∀ before : List Workflow, Within SameGround (before.forM writeWorkflow) :=
    fun before => within_forM fun v _ => within_writeWorkflow (fun _ => sameGround_writeModel) v
  have hground : SameGround s s' := by
    obtain ⟨hnames, hroom⟩ := hpast before b
    obtain ⟨hnames', hroom'⟩ := hpast before' b'
    refine ⟨?_, hroom.symm.trans ((sameRoom_of_disk hdir hdisk).trans hroom')⟩
    rw [hnames', hmacros, hnames]
  obtain ⟨hresult, -, -, new, new', hfiles, hfiles', hnew⟩ := abreast_writeWorkflow w hground
  refine ⟨hresult, ?_⟩
  rw [newMarts, newMarts, hfiles, hfiles', List.drop_left, List.drop_left, hnew]

/-- A source with one column, and a result that reads it. -/
def passedOn (column : String) : Workflow :=
  { metadata := { name := "w", path := "w.yxmd" }
    tools := [
      { id := 1, name := "Input Data", category := .input, table := some "t",
        selected := [column] },
      { id := 2, name := "Output Data", category := .output, table := some "o" }]
    connections := [⟨1, "Output", 2, "Input"⟩] }

/-- A project without models, which keeps columns of a tool. -/
def projectKeeping (columns : List (Int × List String)) : Build :=
  { session := { files := ⟨⟨"/", []⟩, []⟩ }, dir := ⟨"/", ["d"]⟩, columns }

set_option maxRecDepth 100000 in
/-- Behind a workflow with the same numbers of tools and another column, and from a project that
keeps a third column for the tool, a result reads the column of its own source. -/
theorem marts_of_sameNumbers :
    let s := state ([passedOn "y"].forM writeWorkflow) (projectKeeping [])
    let s' := state (List.forM [] writeWorkflow) (projectKeeping [(1, ["z"])])
    newMarts (passedOn "x") s = newMarts (passedOn "x") s'
      ∧ (newMarts (passedOn "x") s').map (·.1) = ["dim_w_o"] := by
  intro s s'
  have hsame := @marts_of_histories (projectKeeping []) (projectKeeping [(1, ["z"])])
    (passedOn "x") [passedOn "y"] [] rfl rfl rfl
  refine ⟨hsame.2, ?_⟩
  unfold newMarts writeWorkflow writeGold
  simp only [noteOpenEnds_eq]
  decide +kernel

end Work

end Replatform.Project

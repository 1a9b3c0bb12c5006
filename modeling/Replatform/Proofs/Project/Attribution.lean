import Replatform.Proofs.Project.Integrity
/-!
# Where an item sends a developer

An item that is noted names the model that is written at that time, its layer and its file. It takes
them from the place that was entered last (`Signed`). The models of sources, of single tools and of
results enter their own place before they note anything. The model of a chain and the macros do not,
so that their items send a developer to whatever was entered before, or nowhere.

The work on a project is a sequence of parts (`generate_eq`), and the place of every part is known
from the parts before it (`placeAfter`). `todos_generate` says of each part where its items point
to, and when this is the file that the part writes.
-/

namespace Replatform.Project

open Stateful

variable {b : Build}

/-! ## Places -/

/-- The place of a model: its name and its layer. -/
structure Place where
  model : String
  layer : String
deriving DecidableEq, Repr

def Build.place (b : Build) : Place := ⟨b.model, b.layer⟩

def Place.file (p : Place) : String :=
  if p.model.isEmpty then ""
  else if p.layer.isEmpty then "macros/" ++ p.model ++ ".sql"
  else "models/" ++ p.layer ++ "/" ++ p.model ++ ".sql"

/-- The item sends a developer to the place. -/
structure Todo.At (t : Todo) (p : Place) : Prop where
  model : t.model = p.model
  layer : t.layer = if p.layer.isEmpty then "unknown" else p.layer
  file : t.file = p.file

/-- The place stays, and what is noted sends a developer there. -/
structure Signed (b b' : Build) : Prop where
  place : b'.place = b.place
  todos : ∃ new, b'.todos = b.todos ++ new ∧ ∀ t ∈ new, t.At b.place

theorem Signed.of_eq {b' : Build} (hplace : b'.place = b.place) (htodos : b'.todos = b.todos) :
    Signed b b' :=
  ⟨hplace, [], htodos.trans (List.append_nil _).symm, List.forall_mem_nil _⟩

theorem Signed.trans {b' b'' : Build} (h : Signed b b') (h' : Signed b' b'') : Signed b b'' := by
  obtain ⟨new, htodos, hat⟩ := h.todos
  obtain ⟨new', htodos', hat'⟩ := h'.todos
  refine ⟨h'.place.trans h.place, new ++ new', ?_, fun t ht => ?_⟩
  · rw [htodos', htodos, List.append_assoc]
  · rcases List.mem_append.mp ht with ht | ht
    · exact hat t ht
    · exact h.place ▸ hat' t ht

instance : IsPreorder Build Signed where
  refl _ := .of_eq rfl rfl
  trans _ _ _ := Signed.trans

instance : Muted Signed where
  printed _ _ := .of_eq rfl rfl
  noted _ _ _ _ _ := ⟨rfl, _, rfl, fun _ ht => List.mem_singleton.mp ht ▸ ⟨rfl, rfl, rfl⟩⟩

instance : Quiet Signed where
  columns _ _ := .of_eq rfl rfl

instance : Curious Signed where
  session _ _ _ := .of_eq rfl rfl
  answered _ _ := .of_eq rfl rfl

instance : Writing Signed where
  session _ _ := .of_eq rfl rfl

namespace Work

theorem signed_writeModel (f : ModelFile) : Within Signed (writeModel f) := by
  refine within_bind within_get fun b => within_bind (writing_writeText _ _) fun _ => ?_
  exact within_modify fun _ => .of_eq rfl rfl

end Work

/-! ## Products -/

/-- What is written under a name: the model of a layer, or a macro. -/
inductive Product
  | model (layer : Layer) (name : String)
  | macroFile (name : String)
deriving DecidableEq, Repr

variable {product : Product}

namespace Product

def file : Product → String
  | model layer name => "models/" ++ layer.name ++ "/" ++ name ++ ".sql"
  | macroFile name => "macros/" ++ name ++ ".sql"

/-- The item sends a developer to the file of the product. For a model it names the model and the
layer as well. -/
def Owns : Product → Todo → Prop
  | model layer name, t =>
    t.file = (model layer name).file ∧ t.model = name ∧ t.layer = layer.name
  | macroFile name, t => t.file = (macroFile name).file

def Fits : Product → Place → Prop
  | model layer name, p =>
    p.file = (model layer name).file ∧ p.model = name ∧ p.layer = layer.name
  | macroFile name, p => p.file = (macroFile name).file

/-- The product was written in between, and no other of its kind. -/
def Written : Product → Build → Build → Prop
  | model layer name, b, b' =>
    ∃ f, b'.files = b.files ++ [f] ∧ f.model.layer = layer ∧ f.model.name = name
  | macroFile name, b, b' => b'.macros = b.macros ++ [name]

instance : (product : Product) → (p : Place) → Decidable (product.Fits p)
  | model _ _, _ => inferInstanceAs (Decidable (_ ∧ _ ∧ _))
  | macroFile _, _ => inferInstanceAs (Decidable (_ = _))

theorem owns_iff_fits {t : Todo} {p : Place} (h : t.At p) : product.Owns t ↔ product.Fits p := by
  cases product with
  | macroFile name =>
    show t.file = _ ↔ p.file = _
    rw [h.file]
  | model layer name =>
    have hlayer : t.layer = layer.name ↔ p.layer = layer.name := by
      rw [h.layer]
      by_cases hempty : p.layer.isEmpty
      · rw [if_pos hempty, String.isEmpty_iff.mp hempty]
        cases layer <;> decide
      · rw [if_neg hempty]
    show t.file = _ ∧ t.model = _ ∧ _ ↔ p.file = _ ∧ p.model = _ ∧ _
    rw [h.file, h.model, hlayer]

theorem fits_model (layer : Layer) {name : String} (hname : name.isEmpty = false) :
    (model layer name).Fits ⟨name, layer.name⟩ := by
  have hlayer : layer.name.isEmpty = false := by cases layer <;> rfl
  refine ⟨?_, rfl, rfl⟩
  unfold Place.file
  rw [if_neg (by rw [hname]; decide), if_neg (by rw [hlayer]; decide)]
  rfl

end Product

/-- The macros that were written stay the same. -/
structure SameMacros (b b' : Build) : Prop where
  macros : b'.macros = b.macros

instance : IsPreorder Build SameMacros where
  refl _ := ⟨rfl⟩
  trans _ _ _ h h' := ⟨h'.macros.trans h.macros⟩

instance : Muted SameMacros where
  printed _ _ := ⟨rfl⟩
  noted _ _ _ _ _ := ⟨rfl⟩

instance : Writing SameMacros where
  session _ _ := ⟨rfl⟩

namespace Work

theorem macros_writeMacro {key : String} {info : MacroInfo}
    (h : result (writeMacro key info) b = .ok ()) :
    (state (writeMacro key info) b).macros = b.macros ++ [macroName key] := by
  unfold writeMacro at h ⊢
  obtain ⟨_, -, h, hname⟩ := bind_ok h
  obtain ⟨text, -, h, hquery⟩ := bind_ok h
  obtain ⟨now, -, h, hget⟩ := bind_ok h
  obtain ⟨_, -, -, hwrite⟩ := bind_ok h
  rw [hname, hquery, hget, hwrite]
  refine congrArg (· ++ [macroName key]) ?_
  rw [(writing_writeText (R := SameMacros) _ text _).macros]
  exact (within_macroText (R := SameMacros) info (macroName key) _).macros

theorem written_of_fulfils {x : Work Unit} {task : Task} (hx : Emits ModelFile.Meets x [task])
    (h : result x b = .ok ()) :
    (Product.model task.planned.layer task.planned.name).Written b (state x b) := by
  obtain ⟨new, hfiles, hmeets⟩ := hx.files h
  cases hmeets with
  | @cons f _ _ _ hf hrest =>
    cases hrest
    exact ⟨f, hfiles, congrArg Outline.layer hf.outline, congrArg Outline.name hf.outline⟩

end Work

/-! ## Parts of the work -/

inductive Part
  | directories (home : Path)
  | macroFile (key : String) (info : MacroInfo)
  | macroList (inv : MacroInventory)
  | sources (ws : List Workflow)
  | start
  | bronze (w : Workflow) (t : Tool)
  | silver (w : Workflow) (t : Tool)
  | chain (w : Workflow) (tools : List Tool)
  | gold (w : Workflow) (t : Tool)

variable {p : Part}

namespace Part

open Work

def run : Part → Work Unit
  | directories home => makeDirectories home
  | macroFile key info => writeMacro key info
  | macroList inv => do
    let b ← get
    if !b.macros.isEmpty then
      writeText (b.dir / "macros" / "_macros.yml") (Project.macroList b.macroNames inv)
  | sources ws => do
    collectSources ws
    writeSourceList
  | start => modify fun b => { b with columns := [] }
  | bronze w t => writeBronze (sanitize w.metadata.name) t
  | silver w t => writeSilver w (sanitize w.metadata.name) t
  | chain w tools => writeChain w (sanitize w.metadata.name) tools
  | gold w t => writeGold w (sanitize w.metadata.name) t

/-- What a part writes, if it is a model or a macro. -/
def product? : Part → Option Product
  | macroFile key _ => some (.macroFile (macroName key))
  | bronze w t =>
    some (.model .bronze ("stg_" ++ sanitize w.metadata.name ++ "_" ++ tableName t))
  | silver w t =>
    some (.model .silver ("int_" ++ sanitize w.metadata.name ++ "_" ++ sanitize t.displayName))
  | chain w (first :: second :: rest) =>
    some (.model .silver (chainName (sanitize w.metadata.name) (first :: second :: rest)))
  | gold w t => some (.model .gold (resultModelName t (sanitize w.metadata.name) w))
  | _ => none

def entered? : Part → Option Place
  | bronze w t => some ⟨"stg_" ++ sanitize w.metadata.name ++ "_" ++ tableName t, "bronze"⟩
  | silver w t =>
    some ⟨"int_" ++ sanitize w.metadata.name ++ "_" ++ sanitize t.displayName, "silver"⟩
  | gold w t => some ⟨resultModelName t (sanitize w.metadata.name) w, "gold"⟩
  | _ => none

/-- The place where a part does its work, when another was entered before. -/
def place (p : Part) (before : Place) : Place := p.entered?.getD before

/-- A part that comes to an end has written its product. -/
theorem written_run (hproduct : p.product? = some product) (h : result p.run b = .ok ()) :
    product.Written b (state p.run b) := by
  cases p with
  | macroFile key info =>
    cases hproduct
    exact macros_writeMacro h
  | bronze w t =>
    cases hproduct
    exact written_of_fulfils (fulfils_writeBronze _ t) h
  | silver w t =>
    cases hproduct
    exact written_of_fulfils (fulfils_writeSilver w _ t) h
  | chain w tools =>
    rcases tools with _ | ⟨first, _ | ⟨second, rest⟩⟩
    · cases hproduct
    · cases hproduct
    · cases hproduct
      exact written_of_fulfils (fulfils_writeChain w _ first second rest) h
  | gold w t =>
    cases hproduct
    exact written_of_fulfils (fulfils_writeGold w _ t) h
  | directories | macroList | sources | start => cases hproduct

/-- A part that enters no place leaves it as it is. -/
theorem signed_run (h : p.entered? = none) : Within Signed p.run := by
  cases p with
  | directories home => exact writing_makeDirectories home
  | macroFile key info => exact within_writeMacro (fun _ _ _ => .of_eq rfl rfl) key info
  | macroList inv =>
    refine within_bind within_get fun b => within_ite (writing_writeText _ _) (within_pure _)
  | sources ws =>
    refine within_bind (curious_collectSources (fun _ _ => ?_) ws) fun _ => writing_writeSourceList
    exact .of_eq rfl rfl
  | start => exact within_modify fun _ => .of_eq rfl rfl
  | chain w tools =>
    exact holds_writeChain (T := .within Signed) (fun f _ => signed_writeModel f)
      (isModelName_sanitize _) tools
  | bronze w t => cases h
  | silver w t => cases h
  | gold w t => cases h

/-- A part that enters a place does so first. -/
theorem enters_run {place : Place} (h : p.entered? = some place) :
    Enters (.within Signed) place.model place.layer p.run := by
  have hwrite : ∀ f : ModelFile, IsModelName f.model.name → Within Signed (writeModel f) :=
    fun f _ => signed_writeModel f
  cases p with
  | bronze w t =>
    cases h
    exact enters_writeBronze hwrite (isModelName_sanitize _) t
  | silver w t =>
    cases h
    exact enters_writeSilver hwrite (isModelName_sanitize _) t
  | gold w t =>
    cases h
    exact enters_writeGold hwrite (isModelName_sanitize _) t
  | directories | macroFile | macroList | sources | start | chain => cases h

/-- The items of a part point to its place, however the part ends. -/
theorem todos_run (p : Part) (b : Build) :
    (state p.run b).place = p.place b.place
      ∧ ∃ new, (state p.run b).todos = b.todos ++ new ∧ ∀ t ∈ new, t.At (p.place b.place) := by
  unfold place
  cases h : p.entered? with
  | none =>
    have hsigned := signed_run h b
    exact ⟨hsigned.place, hsigned.todos⟩
  | some place =>
    -- The rest starts where the place was entered, with nothing noted in between.
    obtain ⟨rest, hrun, hrest⟩ := enters_run h
    have hsigned := hrest { b with model := place.model, layer := place.layer }
    rw [hrun]
    exact ⟨hsigned.place, hsigned.todos⟩

theorem fits_entered {place : Place} (h : p.entered? = some place)
    (hproduct : p.product? = some product) : product.Fits place := by
  cases p with
  | bronze w t =>
    cases h
    cases hproduct
    exact Product.fits_model .bronze (by simp)
  | silver w t =>
    cases h
    cases hproduct
    exact Product.fits_model .silver (by simp)
  | gold w t =>
    cases h
    cases hproduct
    refine Product.fits_model .gold ?_
    unfold resultModelName
    dsimp only
    split <;> simp
  | directories | macroFile | macroList | sources | start | chain => cases h

end Part

def placeAfter (before : Place) (parts : List Part) : Place :=
  parts.foldl (fun place p => p.place place) before

/-- Parts that come to an end leave the place that was entered last. -/
theorem place_forM {parts : List Part} (h : result (parts.forM Part.run) b = .ok ()) :
    (state (parts.forM Part.run) b).place = placeAfter b.place parts := by
  induction parts generalizing b with
  | nil => rfl
  | cons p parts ih =>
    obtain ⟨_, -, hrest, hstate⟩ := bind_ok (f := fun _ => parts.forM Part.run) h
    have hplace := ih hrest
    rw [(p.todos_run b).1] at hplace
    exact (congrArg Build.place hstate).trans hplace

/-! ## The whole work -/

def macroSteps (inv : MacroInventory) : List Part :=
  (inv.macros.filter fun x => x.2.found && x.2.workflow.isSome).map (fun x => .macroFile x.1 x.2)
    ++ [.macroList inv]

def modelSteps (w : Workflow) : List Part :=
  .start :: ((w.inLayer .bronze).filter (·.category == .input)).map (.bronze w)
    ++ (chains w .silver).map (fun
      | [t] => .silver w t
      | tools => .chain w tools)
    ++ (w.inLayer .gold).map (.gold w)

/-- The parts of the work in order, up to what follows from all models. -/
def parts (home : Path) (ws : List Workflow) (inv : Option MacroInventory) : List Part :=
  .directories home :: (match inv with
    | some inv => macroSteps inv
    | none => [])
  ++ .sources ws :: ws.flatMap modelSteps

namespace Work

variable {α β : Type}

theorem forM_append (f : α → Work Unit) (xs ys : List α) :
    (xs ++ ys).forM f = xs.forM f >>= fun _ => ys.forM f := List.forM_append

theorem forM_map (f : β → Work Unit) (g : α → β) (xs : List α) :
    (xs.map g).forM f = xs.forM fun x => f (g x) := List.forM_map

theorem forM_filter (c : α → Bool) (f : α → Work Unit) (xs : List α) :
    (xs.filter c).forM f = xs.forM fun x => if c x then f x else pure () := by
  induction xs with
  | nil => rfl
  | cons x xs ih =>
    show _ = (if c x then f x else pure ()) >>= fun _ => xs.forM _
    cases hx : c x with
    | true =>
      rw [List.filter_cons_of_pos hx, if_pos rfl, ← ih]
      rfl
    | false =>
      rw [List.filter_cons_of_neg (by rw [hx]; decide), if_neg (by decide), pure_bind, ih]

theorem forM_flatMap (f : β → Work Unit) (g : α → List β) (xs : List α) :
    (xs.flatMap g).forM f = xs.forM fun x => (g x).forM f := by
  induction xs with
  | nil => rfl
  | cons x xs ih =>
    rw [List.flatMap_cons, forM_append, ih]
    rfl

theorem forM_cons (f : α → Work Unit) (x : α) (xs : List α) :
    (x :: xs).forM f = f x >>= fun _ => xs.forM f := rfl

theorem forM_singleton (f : α → Work Unit) (x : α) : [x].forM f = f x := bind_pure_unit

theorem writeMacros_eq (inv : MacroInventory) :
    writeMacros inv = (macroSteps inv).forM Part.run := by
  unfold macroSteps
  rw [forM_append, forM_map, forM_filter, forM_singleton]
  rfl

theorem writeWorkflow_eq (w : Workflow) : writeWorkflow w = (modelSteps w).forM Part.run := by
  unfold modelSteps
  rw [forM_append, forM_append, forM_cons, forM_map, forM_map, forM_map, bind_assoc, bind_assoc]
  refine bind_congr fun _ => bind_congr fun _ => ?_
  refine congrArg (· >>= fun _ => (w.inLayer .gold).forM _) ?_
  refine congrArg ((chains w .silver).forM ·) (funext fun tools => ?_)
  rcases tools with _ | ⟨t, _ | ⟨u, tools⟩⟩ <;> rfl

theorem generate_eq (home : Path) (ws : List Workflow) (inv : Option MacroInventory) :
    generate home ws inv = (parts home ws inv).forM Part.run >>= fun _ => finish := by
  have hmodels : ws.forM writeWorkflow = (ws.flatMap modelSteps).forM Part.run := by
    rw [forM_flatMap]
    exact congrArg (ws.forM ·) (funext writeWorkflow_eq)
  have hsources : ∀ rest : Work Unit, (Part.sources ws).run >>= (fun _ => rest)
      = collectSources ws >>= fun _ => writeSourceList >>= fun _ => rest := fun _ => bind_assoc ..
  unfold generate parts
  cases inv with
  | none =>
    rw [forM_append, forM_singleton, forM_cons, ← hmodels]
    simp only [bind_assoc, hsources]
    rfl
  | some inv =>
    dsimp only
    rw [forM_append, forM_cons, forM_cons, ← hmodels, ← writeMacros_eq]
    simp only [bind_assoc, hsources]
    rfl

/-- The work is a sequence of parts, and a part that comes to an end has written its product.
Whatever a part notes, also if it fails, sends a developer to the place that the part enters or
else to that which was entered last before it. So the items of a part that enters its place belong
to what the part writes, and those of any other part do just when the place happens to be that of
its own file. -/
theorem todos_generate (home : Path) (ws : List Workflow) (inv : Option MacroInventory)
    (b : Build) :
    generate home ws inv = ((parts home ws inv).forM Part.run >>= fun _ => finish)
      ∧ ∀ (front rest : List Part) (p : Part), parts home ws inv = front ++ p :: rest →
        result (front.forM Part.run) b = .ok () →
        let before := state (front.forM Part.run) b
        let place := p.place (placeAfter b.place front)
        ∃ new, (state p.run before).todos = before.todos ++ new ∧ (∀ t ∈ new, t.At place)
          ∧ ∀ product, p.product? = some product →
            (result p.run before = .ok () → product.Written before (state p.run before))
              ∧ (p.entered?.isSome → ∀ t ∈ new, product.Owns t)
              ∧ ((∀ t ∈ new, product.Owns t) ↔ new = [] ∨ product.Fits place) := by
  refine ⟨generate_eq home ws inv, fun front rest p _ hfront => ?_⟩
  obtain ⟨-, new, htodos, hat⟩ := p.todos_run (state (front.forM Part.run) b)
  rw [place_forM hfront] at hat
  have howns : ∀ product : Product, ∀ t ∈ new,
      (product.Owns t ↔ product.Fits (p.place (placeAfter b.place front))) :=
    fun _ t ht => Product.owns_iff_fits (hat t ht)
  refine ⟨new, htodos, hat, fun product hproduct => ⟨Part.written_run hproduct,
    fun hentered t ht => ?_, fun h => ?_, ?_⟩⟩
  · obtain ⟨place, hplace⟩ := Option.isSome_iff_exists.mp hentered
    have hfits := Part.fits_entered hplace hproduct
    rw [howns product t ht, Part.place, hplace]
    exact hfits
  · cases new with
    | nil => exact .inl rfl
    | cons t new =>
      have ht : t ∈ t :: new := List.mem_cons_self ..
      exact .inr ((howns product t ht).mp (h t ht))
  · rintro (rfl | hfits) t ht
    · exact absurd ht List.not_mem_nil
    · exact (howns product t ht).mpr hfits

def sortedThenFiltered : Workflow :=
  { metadata := { name := "w", path := "w.yxmd" }
    tools := [
      { id := 1, name := "Input Data", category := .input, table := some "t", selected := ["x"] },
      { id := 2, name := "Sort", category := .preparation,
        settings := [("sort_fields",
          .list [.record [("field", .text "x"), ("order", .text "Ascending")]])] },
      { id := 3, name := "Filter", category := .preparation, expression := some "[x] > 1" },
      { id := 4, name := "Output Data", category := .output, table := some "o" }]
    connections := [⟨1, "Output", 2, "Input"⟩, ⟨2, "Output", 3, "Input"⟩,
      ⟨3, "Output", 4, "Input"⟩] }

/-- The reminder to sort the model of the chain sends a developer to the model of the source. -/
theorem todos_sortedThenFiltered :
    let w := sortedThenFiltered
    let front : List Part := [.directories ⟨"/", ["h"]⟩, .sources [w], .start, .bronze w w.tools[0]]
    let p : Part := .chain w [w.tools[1], w.tools[2]]
    let before := state (front.forM Part.run) emptyProject
    parts ⟨"/", ["h"]⟩ [w] none = front ++ p :: [.gold w w.tools[3]]
      ∧ p.product? = some (.model .silver "int_w_sort_filter")
      ∧ ∃ new, (state p.run before).todos = before.todos ++ new
        ∧ (∀ t ∈ new, t.At ⟨"stg_w_t", "bronze"⟩)
        ∧ ¬∀ t ∈ new, (Product.model .silver "int_w_sort_filter").Owns t := by
  intro w front p before
  have hrun : result (front.forM Part.run) emptyProject = .ok ()
      ∧ (state p.run before).todos.length ≠ before.todos.length := by decide +kernel
  have hproduct : p.product? = some (.model .silver "int_w_sort_filter") := by decide +kernel
  have hplace : p.place (placeAfter emptyProject.place front) = ⟨"stg_w_t", "bronze"⟩ := by
    decide +kernel
  obtain ⟨new, htodos, hat, hnew⟩ :=
    (todos_generate ⟨"/", ["h"]⟩ [w] none emptyProject).2 front [.gold w w.tools[3]] p rfl hrun.1
  rw [hplace] at hat hnew
  refine ⟨rfl, hproduct, new, htodos, hat, fun h => ?_⟩
  rcases (hnew _ hproduct).2.2.mp h with rfl | hfits
  · exact hrun.2 (congrArg List.length (htodos.trans (List.append_nil _)))
  · exact absurd hfits (by decide)

end Work

end Replatform.Project

import Replatform.Project.Generate
import Replatform.Proofs.Project.Name
import Replatform.Proofs.Session
/-!
# What the parts of the work can change

To find a query, or to read the sources of a model, is quiet: it prints, notes what has to be looked
at and keeps columns that were found, and nothing else (`Quiet`). To find the columns of a source is
curious: it looks at files and asks the user (`Curious`). All of it is modest: it leaves the models
and all files as they are (`Modest`). Of the parts that write files, only `writeModel` adds to the
models, and the others leave models and sources as they are (`Outward`). The rest of the work on a
workflow is quiet, but for saying which model is written (`Discreet`), which comes first where it
comes at all (`Enters`). So what `writeModel` keeps is kept by the work on a whole workflow
(`within_writeWorkflow`).
-/

namespace Replatform.Project

open Stateful

/-- A relation that allows to print, and to note what has to be looked at. -/
class Muted (R : Build → Build → Prop) : Prop extends IsPreorder Build R where
  printed : ∀ b printed, R b { b with session := { b.session with printed } }
  noted : ∀ b kind description context priority,
    R b (state (Work.addTodo kind description context priority) b)

/-- A relation that allows as well to keep columns that were found. -/
class Quiet (R : Build → Build → Prop) : Prop extends Muted R where
  columns : ∀ b columns, R b { b with columns }

/-- A relation that allows as well to look at files and to ask the user. -/
class Curious (R : Build → Build → Prop) : Prop extends Muted R where
  session : ∀ b session, session.files = b.session.files → R b { b with session }
  answered : ∀ b answered, R b { b with answered }

/-- A relation that allows as well to say which model is written. -/
class Discreet (R : Build → Build → Prop) : Prop extends Quiet R where
  model : ∀ b model layer, R b { b with model, layer }

/-- Where the project is written, and whether it gets a validation, are the same. -/
def SameOptions (b b' : Build) : Prop := b'.dir = b.dir ∧ b'.validation = b.validation

/-- A relation that allows all changes but those of the options, the models and the files. -/
class Modest (R : Build → Build → Prop) : Prop extends IsPreorder Build R where
  of_eq : ∀ {b b' : Build}, SameOptions b b' → b'.files = b.files → b'.models = b.models →
    b'.session.files = b.session.files → R b b'

instance (R : Build → Build → Prop) [Modest R] : Discreet R where
  printed _ _ := Modest.of_eq ⟨rfl, rfl⟩ rfl rfl rfl
  noted _ _ _ _ _ := Modest.of_eq ⟨rfl, rfl⟩ rfl rfl rfl
  columns _ _ := Modest.of_eq ⟨rfl, rfl⟩ rfl rfl rfl
  model _ _ _ := Modest.of_eq ⟨rfl, rfl⟩ rfl rfl rfl

instance (R : Build → Build → Prop) [Modest R] : Curious R where
  session _ _ h := Modest.of_eq ⟨rfl, rfl⟩ rfl rfl h
  answered _ _ := Modest.of_eq ⟨rfl, rfl⟩ rfl rfl rfl

/-- A relation that allows all changes but those of the options, the models and the sources. -/
class Outward (R : Build → Build → Prop) : Prop extends IsPreorder Build R where
  of_eq : ∀ {b b' : Build}, SameOptions b b' → b'.files = b.files → b'.models = b.models →
    b'.sources = b.sources → R b b'

instance (R : Build → Build → Prop) [Outward R] : Discreet R where
  printed _ _ := Outward.of_eq ⟨rfl, rfl⟩ rfl rfl rfl
  noted _ _ _ _ _ := Outward.of_eq ⟨rfl, rfl⟩ rfl rfl rfl
  columns _ _ := Outward.of_eq ⟨rfl, rfl⟩ rfl rfl rfl
  model _ _ _ := Outward.of_eq ⟨rfl, rfl⟩ rfl rfl rfl

/-- A relation that allows to change the session in any way, so to write files. -/
class Writing (R : Build → Build → Prop) : Prop extends IsPreorder Build R where
  session : ∀ b session, R b { b with session }

instance (R : Build → Build → Prop) [Outward R] : Writing R where
  session _ _ := Outward.of_eq ⟨rfl, rfl⟩ rfl rfl rfl

namespace Work

variable {α : Type} (schema table : String) (source name : String) (info : MacroInfo)

/-- A run changes the session only. -/
theorem run_ofRun (r : Run α) (b : Build) : result (ofRun r) b = result r b.session
      ∧ state (ofRun r) b = { b with session := state r b.session } := by
  unfold ofRun
  rw [result_get_bind, state_get_bind]
  change _ = ((r.run b.session).run).1 ∧ _ = { b with session := ((r.run b.session).run).2 }
  rcases (r.run b.session).run with ⟨e | a, session⟩ <;> exact ⟨rfl, rfl⟩

def openEnds (t : Tool) (query columnTask columnContext : String) (b : Build) : List Todo :=
  (state (noteOpenEnds t query columnTask columnContext) { b with todos := [] }).todos

/-- What a query leaves to be done is noted behind what was noted before, and that is all. -/
theorem noteOpenEnds_eq (t : Tool) (query columnTask columnContext : String) :
    noteOpenEnds t query columnTask columnContext = modify fun b =>
      { b with todos := b.todos ++ openEnds t query columnTask columnContext b } := by
  funext b
  have hsame : ∀ {new new' : List Todo}, new = new' →
      ((.ok (), { b with todos := new }) : Except Failure Unit × Build)
        = (.ok (), { b with todos := new' }) := fun h => h ▸ rfl
  unfold openEnds noteOpenEnds
  dsimp only
  cases Text.has "-- TODO:".toList query.toList with
  | false => exact hsame (List.append_nil _).symm
  | true =>
    cases Text.has "specify columns".toList (Text.lower query.toList) with
    | false =>
      cases Text.has "implement".toList (Text.lower query.toList) with
      | false => exact hsame (List.append_nil _).symm
      | true => rfl
    | true =>
      cases Text.has "implement".toList (Text.lower query.toList) with
      | false => rfl
      | true => exact hsame (List.append_assoc ..)

@[grind ←] theorem within_say {R : Build → Build → Prop} [Muted R] (line : String) :
    Within R (say line) := by
  intro b
  rw [say, (run_ofRun _ b).2]
  exact Muted.printed b _

/-! ## Queries -/

/-- A trait of what is noted. -/
class Noting (T : Trait Build) : Prop where
  noted : ∀ kind description context priority, T.Holds (addTodo kind description context priority)

/-- A trait of what is asked about tools of a workflow, and about the names of macros. -/
class Inquiring (T : Trait Build) (w : Workflow) (A : outParam (Tool → Prop)) : Prop where
  columns : ∀ {t : Tool}, A t → T.Holds (toolColumns w t)
  upstream : ∀ (t : Tool), ∀ u ∈ w.upstream t.id, A u
  names : ∀ (t : Tool) (count : Nat) (source : String), T.Holds (do
    return macroReference (← get).macroNames t count source)

attribute [grind ←] Noting.noted Inquiring.columns

section Noting

variable {T : Trait Build} [Noting T]

omit [Noting T] in
@[grind ←] theorem holds_check (r : Except Failure α) : T.Holds (check r) := by
  cases r with
  | ok a => exact T.holds_pure a
  | error e => exact T.holds_throw e

@[grind ←] theorem holds_convertExpression (e : String) : T.Holds (convertExpression e) := by
  unfold convertExpression
  grind

@[grind ←] theorem holds_formulaColumns (t : Tool) : T.Holds (formulaColumns t) := by
  unfold formulaColumns
  grind

@[grind ←] theorem holds_condition (t : Tool) : T.Holds (condition t) := holds_convertExpression _

@[grind ←] theorem holds_noteOrder (o : String) : T.Holds (noteOrder o) := Noting.noted _ _ _ _

@[grind ←] theorem holds_stepBlock (style : BlockStyle) (t : Tool) (source name : String) :
    T.Holds (stepBlock style t source name) := by
  unfold stepBlock
  grind

@[grind ←] theorem holds_macroBlock (t : Tool) (source name : String) :
    T.Holds (macroBlock t source name) := by
  unfold macroBlock
  grind

@[grind ←] theorem holds_formulaArgument? (t : Tool) : T.Holds (formulaArgument? t) := by
  unfold formulaArgument?
  grind

@[grind ←] theorem holds_noteOpenEnds (t : Tool) (query columnTask columnContext : String) :
    T.Holds (noteOpenEnds t query columnTask columnContext) := by
  unfold noteOpenEnds
  have himplement : ∀ (c : Prop) [Decidable c] (description context : String), T.Holds
      (if c then addTodo "implement_transformation" description context "high" else pure ()) :=
    fun c _ _ _ => T.holds_ite (Noting.noted _ _ _ _) (T.holds_pure _)
  refine T.holds_ite ?_ (T.holds_pure _)
  exact T.holds_ite (T.holds_bind (Noting.noted _ _ _ _) fun _ => himplement _ _ _)
    (himplement _ _ _)

omit [Noting T] in
theorem holds_stepBlocks {write : Tool → String → String → Work String}
    (hwrite : ∀ t source name, T.Holds (write t source name)) (count i : Nat) (source : String)
    (tools : List Tool) : T.Holds (stepBlocks write count i source tools) := by
  fun_induction stepBlocks write count i source tools with grind

@[grind ←] theorem holds_macroText (name : String) : T.Holds (macroText info name) := by
  unfold macroText
  grind [holds_stepBlocks]

end Noting

section Inquiring

variable {T : Trait Build} {w : Workflow} {A : Tool → Prop} [Noting T] [Inquiring T w A]

include A

omit [Noting T] in
@[grind ←] theorem holds_enteringColumns (t : Tool) : T.Holds (enteringColumns w t) := by
  refine T.holds_foldlM (fun _ u hu => ?_) []
  have hasked : A u := Inquiring.upstream T t u hu
  exact T.holds_bind (Inquiring.columns hasked) fun _ => T.holds_pure _

@[grind ←] theorem holds_toolBlock (t : Tool) (source name : String) :
    T.Holds (toolBlock w t source name) := by
  unfold toolBlock
  grind

theorem holds_chainQuery {chain : List Tool} (hchain : ∀ t ∈ chain, A t) (sources : Nat) :
    T.Holds (chainQuery w chain sources) := by
  refine T.holds_bind (holds_stepBlocks holds_toolBlock _ _ _ _) fun blocks => ?_
  split
  · exact T.holds_throw _
  next last hlast =>
    exact T.holds_bind (Inquiring.columns (hchain last (List.mem_of_getLast? hlast))) fun _ =>
      T.holds_pure _

variable {t : Tool} (ht : A t) {upstream : List Tool} (hup : ∀ u ∈ upstream, A u)

include ht in
@[grind ←] theorem holds_argument? (detail : String) : T.Holds (argument? w t detail) := by
  unfold argument?
  grind

include ht in
@[grind ←] theorem holds_detailArguments (relations : List (String × Value))
    (parameters : List (String × String)) :
    T.Holds (detailArguments w t relations parameters) := by
  refine T.holds_foldlM (fun _ p _ => T.holds_bind (holds_argument? ht p.1) fun _ => ?_) relations
  split <;> exact T.holds_pure _

include ht in
@[grind ←] theorem holds_macroQuery? (count : Nat) : T.Holds (macroQuery? w t count) := by
  unfold macroQuery?
  split
  · exact T.holds_pure _
  · split
    · exact T.holds_pure _
    · exact T.holds_bind (holds_detailArguments ht _ _) fun _ => T.holds_pure _

omit [Noting T] in
include hup in
@[grind ←] theorem holds_unionQuery : T.Holds (unionQuery w upstream) := by
  refine T.holds_bind (T.holds_mapM fun p hp => ?_) fun _ => T.holds_pure _
  exact T.holds_bind (Inquiring.columns (hup p.1 (List.fst_mem_of_mem_zipIdx hp))) fun _ =>
    T.holds_pure _

include ht hup in
theorem holds_toolQuery : T.Holds (toolQuery w t upstream) := by
  unfold toolQuery plainQuery
  dsimp only
  split
  · exact Inquiring.names w t _ _
  · grind

end Inquiring

section Readings

variable {T : Trait Build} {w : Workflow} [Noting T] [Inquiring T w fun _ => True]

variable (workflow : String)

@[grind ←] theorem holds_readSources (noted : Bool) (upstream : List Tool) :
    T.Holds (readSources w workflow noted upstream) := by
  unfold readSources
  grind

@[grind ←] theorem holds_readSide (first : Bool) (side : String) (u : Tool) :
    T.Holds (readSide w workflow first side u) := by
  unfold readSide
  grind

@[grind ←] theorem holds_readSides (t : Tool) :
    T.Holds (readSides w workflow t) := by
  unfold readSides
  grind

end Readings

/-- What is done for a model before it is written has every trait of what is noted and asked. -/
structure Still (w : Workflow) (reads : Work (List Reading)) (query : Work String)
    (note : String → Work Unit) : Prop where
  holds : ∀ (T : Trait Build) [Noting T] [Inquiring T w fun _ => True],
    T.Holds reads ∧ T.Holds query ∧ ∀ text, T.Holds (note text)

variable (w : Workflow) (workflow : String)

theorem still_silver (t : Tool) (task context : String) :
    Still w (readInputs w workflow t) (toolQuery w t (w.upstream t.id))
      (noteOpenEnds t · task context) := by
  refine ⟨fun T => ⟨T.holds_ite ?_ ?_, holds_toolQuery trivial fun _ _ => trivial, fun _ => ?_⟩⟩
  · exact holds_readSides _ _
  · exact holds_readSources _ _ _
  · exact holds_noteOpenEnds _ _ _ _

theorem still_chain (chain upstream : List Tool) :
    Still w (readSources w workflow false upstream) (chainQuery w chain upstream.length)
      fun _ => pure () :=
  ⟨fun T => ⟨holds_readSources _ _ _, holds_chainQuery (fun _ _ => trivial) _,
    fun _ => T.holds_pure _⟩⟩

theorem still_gold (t : Tool) (task context : String) :
    Still w (readSources w workflow true (w.upstream t.id)) (toolQuery w t (w.upstream t.id))
      (noteOpenEnds t · task context) :=
  ⟨fun _ => ⟨holds_readSources _ _ _, holds_toolQuery trivial fun _ _ => trivial,
    fun _ => holds_noteOpenEnds _ _ _ _⟩⟩

theorem Still.holds_writeMart {T : Trait Build} {w : Workflow} [Noting T]
    [Inquiring T w fun _ => True] {model : Model} {head : List String} {reads : Work (List Reading)}
    {query : Work String} {note : String → Work Unit} (h : Still w reads query note)
    (hwrite : ∀ f : ModelFile, f.model = model → T.Holds (writeModel f)) :
    T.Holds (writeMart model head reads query note) := by
  obtain ⟨hreads, hquery, hnote⟩ := h.holds T
  refine T.holds_bind hreads fun _ => T.holds_bind hquery fun _ => ?_
  exact T.holds_bind (hnote _) fun _ => hwrite _ rfl

section Quiet

variable {R : Build → Build → Prop}

@[grind ←] theorem within_addTodo [Muted R] (kind description context priority : String) :
    Within R (addTodo kind description context priority) := fun b => Muted.noted b _ _ _ _

instance [Muted R] : Noting (.within R) where
  noted := within_addTodo

@[grind ←] theorem within_check [IsPreorder Build R] (r : Except Failure α) : Within R (check r) :=
  holds_check (T := .within R) r

@[grind ←] theorem within_macroText [Muted R] (name : String) : Within R (macroText info name) :=
  holds_macroText (T := .within R) info name

theorem within_toolColumns [Quiet R] (t : Tool) : Within R (toolColumns w t) := by
  refine within_bind within_get fun b => ?_
  refine within_bind (within_forM fun _ _ => within_say _) fun _ => ?_
  exact within_bind (within_modify fun b => Quiet.columns b _) fun _ => within_pure _

instance [Quiet R] (w : Workflow) : Inquiring (.within R) w fun _ => True where
  columns _ := within_toolColumns w _
  upstream _ _ _ := trivial
  names _ _ _ := within_bind (R := R) within_get fun _ => within_pure _

end Quiet

@[grind ←] theorem within_enter {R : Build → Build → Prop} [Discreet R] (model layer : String) :
    Within R (enter model layer) := within_modify fun b => Discreet.model b _ _

/-! ## Columns of sources -/

section Curious

variable {R : Build → Build → Prop} [Curious R]

@[grind ←] theorem within_ofRun {r : Run α} (hr : Within SameDisk r) : Within R (ofRun r) := by
  intro b
  rw [(run_ofRun r b).2]
  exact Curious.session b _ (hr b.session)

theorem within_report (find : Packages → Files → Finding) : Within R (report find) := by
  refine within_bind within_get fun b => ?_
  refine within_bind (within_ofRun (within_modify fun _ => rfl)) fun _ => ?_
  split
  · exact within_bind (within_addTodo _ _ _ _) fun _ => within_pure _
  · exact within_pure _

@[grind ←] theorem within_readColumns (file : String) : Within R (readColumns file) :=
  within_bind (within_ofRun (sameDisk_look _)) fun _ => within_ite (within_report _) (within_pure _)

@[grind ←] theorem within_noteAnswer (schema table file : String) :
    Within R (noteAnswer schema table file) := within_modify fun b => Curious.answered b _

omit [Curious R] in
@[grind ←] theorem within_stopAsking [Muted R] (reply : Reply) : Within R (stopAsking reply) := by
  cases reply with
  | interrupted => exact within_bind (within_say _) fun _ => within_pure _
  | line _ | ended => exact within_pure _

@[grind ←] theorem within_askDataFile : Within R (askDataFile schema table) := by
  refine within_bind (within_ofRun (sameDisk_ask _)) fun reply => ?_
  split
  · refine within_bind (within_ofRun (sameDisk_look _)) fun there => within_ite ?_ (by grind)
    refine within_bind (within_readColumns _) fun columns => ?_
    exact within_ite (by grind) (by grind)
  · exact within_stopAsking _

@[grind ←] theorem within_askNames : Within R askNames := by
  refine within_bind (within_ofRun (sameDisk_ask _)) fun reply => ?_
  split
  · split
    · exact within_bind (within_say _) fun _ => within_pure _
    · exact within_bind (within_say _) fun _ => within_pure _
  · exact within_stopAsking _

@[grind ←] theorem within_askColumnsOnce : Within R (askColumnsOnce schema table) := by
  refine within_bind (within_ofRun (sameDisk_ask _)) fun reply => ?_
  split
  · split
    · exact within_askDataFile schema table
    · exact within_askNames
    · refine within_bind (within_say _) fun _ => ?_
      exact within_bind (within_noteAnswer _ _ _) fun _ => within_pure _
    · exact within_bind (within_say _) fun _ => within_pure _
  · exact within_stopAsking _

@[grind ←] theorem within_askColumns (t : Tool) (schema table : String) :
    Within R (askColumns t schema table) := by
  have huntil : ∀ fuel, Within R (askColumnsUntilSettled schema table fuel) := by
    intro fuel
    induction fuel with
    | zero => exact within_pure _
    | succ fuel ih =>
      unfold askColumnsUntilSettled
      grind
  unfold askColumns
  repeat refine within_bind (within_say _) fun _ => ?_
  split
  all_goals
    repeat refine within_bind (within_say _) fun _ => ?_
    exact within_bind within_get fun b => huntil _

@[grind ←] theorem within_seekColumns (t : Tool) (schema table : String) :
    Within R (seekColumns t schema table) := by
  unfold seekColumns orAsk
  grind

theorem curious_collectSources (hsources : ∀ b sources, R b { b with sources })
    (ws : List Workflow) : Within R (collectSources ws) := by
  refine within_forM fun t _ => ?_
  have hadd : ∀ s, Within R
      (modify fun b => { b with sources := addSource b.sources s } : Work PUnit) :=
    fun s => within_modify fun b => hsources b _
  refine within_ite ?_ (within_bind (within_pure _) fun columns => hadd _)
  exact within_bind (within_seekColumns t _ _) fun columns => hadd _

end Curious

theorem within_collectSources {R : Build → Build → Prop} [Modest R] (ws : List Workflow) :
    Within R (collectSources ws) :=
  curious_collectSources (fun _ _ => Modest.of_eq ⟨rfl, rfl⟩ rfl rfl rfl) ws

/-! ## Models -/

/-- The step says first which model it writes, and has the trait from then on. -/
def Enters (T : Trait Build) (model layer : String) (x : Work Unit) : Prop :=
  ∃ rest : Work Unit, x = (enter model layer >>= fun _ => rest) ∧ T.Holds rest

theorem Enters.holds {T : Trait Build} {model layer : String} {x : Work Unit}
    (h : Enters T model layer x) (henter : T.Holds (enter model layer)) : T.Holds x := by
  obtain ⟨rest, rfl, hrest⟩ := h
  exact T.holds_bind henter fun _ => hrest

section Marts

variable {T : Trait Build} {w : Workflow} {workflow : String} [Noting T]
  [Inquiring T w fun _ => True]
  (hwrite : ∀ f : ModelFile, IsModelName f.model.name → T.Holds (writeModel f))
  (hworkflow : IsModelName workflow)

include hwrite hworkflow

theorem enters_writeSilver (t : Tool) :
    Enters T ("int_" ++ workflow ++ "_" ++ sanitize t.displayName) "silver"
      (writeSilver w workflow t) := by
  have hname := isModelName_joined "int_" (by decide) hworkflow (isModelName_sanitize t.displayName)
  exact ⟨_, rfl, (still_silver ..).holds_writeMart fun f hf => hwrite f (hf ▸ hname)⟩

theorem holds_writeChain (chain : List Tool) : T.Holds (writeChain w workflow chain) := by
  have hname := isModelName_chainName chain hworkflow
  cases chain with
  | nil => exact T.holds_pure _
  | cons first rest => exact (still_chain ..).holds_writeMart fun f hf => hwrite f (hf ▸ hname)

theorem enters_writeGold (t : Tool) :
    Enters T (resultModelName t workflow w) "gold" (writeGold w workflow t) := by
  have hname := isModelName_resultModelName t w hworkflow
  exact ⟨_, rfl, (still_gold ..).holds_writeMart fun f hf => hwrite f (hf ▸ hname)⟩

/-- The work on a workflow behind the first layer. -/
theorem holds_marts (henter : ∀ model layer, T.Holds (enter model layer)) : T.Holds (do
    (chains w .silver).forM fun chain => match chain with
      | [t] => writeSilver w workflow t
      | _ => writeChain w workflow chain
    (w.inLayer .gold).forM (writeGold w workflow)) := by
  refine T.holds_bind (T.holds_forM fun chain _ => ?_) fun _ => T.holds_forM fun t _ =>
    (enters_writeGold hwrite hworkflow t).holds (henter ..)
  split
  · exact (enters_writeSilver hwrite hworkflow _).holds (henter ..)
  · exact holds_writeChain hwrite hworkflow _

end Marts

section Models

variable {R : Build → Build → Prop} [Quiet R]
  (hwrite : ∀ f : ModelFile, IsModelName f.model.name → Within R (writeModel f))

include hwrite

theorem enters_writeBronze {workflow : String} (hworkflow : IsModelName workflow) (t : Tool) :
    Enters (.within R) ("stg_" ++ workflow ++ "_" ++ tableName t) "bronze"
      (writeBronze workflow t) := by
  have hname := isModelName_joined "stg_" (by decide) hworkflow (isModelName_tableName t)
  refine ⟨_, rfl, within_bind within_get fun b => ?_⟩
  dsimp only
  split
  · exact within_bind (within_addTodo _ _ _ _) fun _ => hwrite _ hname
  · exact hwrite _ hname

omit [Quiet R] in
/-- What is kept when a model is written is kept by the work on a workflow. -/
theorem within_writeWorkflow [Discreet R] (w : Workflow) : Within R (writeWorkflow w) := by
  have hworkflow := isModelName_sanitize w.metadata.name
  refine within_bind (within_modify fun b => Quiet.columns b _) fun _ => ?_
  refine within_bind (within_forM fun t _ =>
    (enters_writeBronze hwrite hworkflow t).holds (within_enter _ _)) fun _ => ?_
  exact holds_marts (T := .within R) hwrite hworkflow within_enter

end Models

/-! ## Parts that write no model -/

/-- The models and the options are the same. -/
structure SameModels (b b' : Build) : Prop where
  options : SameOptions b b'
  files : b'.files = b.files
  models : b'.models = b.models

instance : Modest SameModels where
  refl _ := ⟨⟨rfl, rfl⟩, rfl, rfl⟩
  trans _ _ _ h₁ h₂ := ⟨⟨h₂.options.1.trans h₁.options.1, h₂.options.2.trans h₁.options.2⟩,
    h₂.files.trans h₁.files, h₂.models.trans h₁.models⟩
  of_eq hoptions hfiles hmodels _ := ⟨hoptions, hfiles, hmodels⟩

instance : Outward SameModels where
  of_eq hoptions hfiles hmodels _ := ⟨hoptions, hfiles, hmodels⟩

section Writing

variable {R : Build → Build → Prop} [Writing R]

@[grind ←] theorem writing_ofRun (r : Run α) : Within R (ofRun r) := by
  intro b
  rw [(run_ofRun r b).2]
  exact Writing.session b _

@[grind ←] theorem writing_writeText (path : Path) (text : String) :
    Within R (writeText path text) := writing_ofRun _

@[grind ←] theorem writing_say (line : String) : Within R (say line) := writing_ofRun _

theorem within_writeMacro [Muted R]
    (hmacros : ∀ b macroNames macros, R b { b with macroNames, macros }) (key : String)
    (info : MacroInfo) : Within R (writeMacro key info) := by
  refine within_bind (within_modify fun b => hmacros b _ _) fun _ => ?_
  refine within_bind (within_macroText _ _) fun text => within_bind within_get fun b => ?_
  exact within_bind (writing_writeText _ _) fun _ => within_modify fun b => hmacros b _ _

@[grind ←] theorem writing_copyLibrary (home : Path) : Within R (copyLibrary home) := by
  unfold copyLibrary
  grind

@[grind ←] theorem writing_makeDirectories (home : Path) : Within R (makeDirectories home) := by
  unfold makeDirectories
  grind

@[grind ←] theorem writing_writeSourceList : Within R writeSourceList := by
  unfold writeSourceList
  grind

@[grind ←] theorem writing_writeModelLists : Within R writeModelLists := by
  unfold writeModelLists
  grind

@[grind ←] theorem writing_writeTests : Within R writeTests := by
  unfold writeTests
  grind

@[grind ←] theorem writing_writeProject : Within R writeProject := by
  unfold writeProject
  grind

@[grind ←] theorem writing_sayCounts : Within R sayCounts := by
  unfold sayCounts
  grind

end Writing

/-- To write a report adds to the tests, writes two files and notes something. -/
theorem within_writeReport {R : Build → Build → Prop} [IsPreorder Build R] {b : Build}
    (htests : ∀ b tests, R b { b with tests }) (hseed : Within R (ofRun (Validation.writeSeed b.dir)))
    (htext : ∀ text, Within R (writeText (b.dir / "docs" / "VALIDATION.md") text))
    (hnote : ∀ kind description context, Within R (do
      enter "validation" "tests"
      addTodo kind description context "high")) (files : List String) :
    Within R (writeReport b files) := by
  have hadd : ∀ files, Within R
      (modify fun b => { b with tests := b.tests ++ files } : Work PUnit) :=
    fun _ => within_modify fun b => htests b _
  refine within_bind (hadd _) fun _ => within_bind hseed fun seed => within_bind (hadd _) fun _ => ?_
  refine within_bind (within_check _) fun text => within_bind (htext text) fun _ => ?_
  exact within_bind (hadd _) fun _ => hnote _ _ _

section Outward

variable {R : Build → Build → Prop} [Outward R]

theorem outward_writeMacros (inv : MacroInventory) : Within R (writeMacros inv) := by
  have hmacro := within_writeMacro (R := R) fun _ _ _ => Outward.of_eq ⟨rfl, rfl⟩ rfl rfl rfl
  unfold writeMacros
  grind

@[grind ←] theorem outward_writeValidation : Within R writeValidation := by
  refine within_bind within_get fun b => within_bind (writing_ofRun _) fun files => ?_
  refine within_writeReport (fun _ _ => Outward.of_eq ⟨rfl, rfl⟩ rfl rfl rfl) (writing_ofRun _)
    (fun _ => writing_writeText _ _) (fun _ _ _ => ?_) files
  exact within_bind (within_enter _ _) fun _ => within_addTodo _ _ _ _

@[grind ←] theorem within_sayCounts {R : Build → Build → Prop} [Muted R] : Within R sayCounts := by
  unfold sayCounts
  grind

theorem outward_finish : Within R finish := by
  unfold finish
  grind

end Outward

/-- The work on the models comes behind work that leaves them alone, and is followed by such. -/
theorem exists_generate_eq (home : Path) (ws : List Workflow) (inv : Option MacroInventory) :
    ∃ before : Work Unit, Within SameModels before ∧ generate home ws inv
      = before >>= fun _ => ws.forM writeWorkflow >>= fun _ => finish := by
  have hsources : Within SameModels (do collectSources ws; writeSourceList) :=
    within_bind (within_collectSources ws) fun _ => writing_writeSourceList
  cases inv with
  | none =>
    refine ⟨do makeDirectories home; collectSources ws; writeSourceList,
      within_bind (writing_makeDirectories home) fun _ => hsources, ?_⟩
    simp only [bind_assoc]
    rfl
  | some inv =>
    refine ⟨do makeDirectories home; writeMacros inv; collectSources ws; writeSourceList,
      within_bind (writing_makeDirectories home) fun _ =>
        within_bind (outward_writeMacros inv) fun _ => hsources, ?_⟩
    simp only [bind_assoc]
    rfl

end Work

end Replatform.Project

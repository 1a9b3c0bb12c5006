import Replatform.Proofs.Project.Combined
/-!
# What a model reads from itself

The blocks that read the sources of a model get their names where the model is put together, and the
names that are read are chosen where its query is written. A clause is `Scoped` if every block that
it reads is defined before.

For one tool, the query is one of three (`ToolClause`): the call of the macro that the tool stands
for, the call of a project macro, or a block that is still to be written. Only tools with several
sources, macros and joins of the middle layer, read what is not defined (`scoped_writeWorkflow`).
-/

namespace Replatform.Project

open List Stateful

open Text (lines)

open Catalog

variable {t : Tool} {count : Nat} {f : ModelFile} {p : Planned}

/-! ## Scopes -/

/-- The definition reads a model or one of the blocks. -/
def Supply.Known (known : List String) : Supply → Prop
  | .model _ => True
  | .block name => name ∈ known

/-- Every block that is read is known, or defined before. -/
def ScopedFrom (known : List String) : List Definition → Ending → Prop
  | [], e => ∀ name ∈ e.reads, name ∈ known
  | d :: ds, e => d.supply.Known known ∧ ScopedFrom (known ++ [d.name]) ds e

/-- Every block that is read is defined before. -/
def Clause.Scoped (c : Clause) : Prop := ScopedFrom [] c.definitions c.ending

/-- Blocks that read models can be passed over. -/
theorem scoped_behind (reads : List Reading) (c : Clause) : (c.behind reads).Scoped
    ↔ ScopedFrom (reads.map (·.definition.name)) c.definitions c.ending := by
  have hfront : ∀ known : List String,
      ScopedFrom known (reads.map (·.definition) ++ c.definitions) c.ending
        ↔ ScopedFrom (known ++ reads.map (·.definition.name)) c.definitions c.ending := by
    induction reads with
    | nil =>
      intro known
      rw [map_nil, map_nil, nil_append, append_nil]
    | cons r reads ih =>
      intro known
      rw [map_cons, cons_append, ScopedFrom, ih, map_cons, append_assoc]
      exact and_iff_right trivial
  exact hfront []

/-- Stages that follow each other read what is defined before. -/
theorem scopedFrom_stages {known : List String} {previous : String} {stages : List Stage}
    (hfollow : Work.Follow previous stages) (hprevious : previous ∈ known) {e : Ending}
    (he : ∀ name ∈ e.reads, name ∈ known ++ stages.map (·.name)) :
    ScopedFrom known (stages.map (·.definition)) e := by
  induction stages generalizing known previous with
  | nil =>
    rw [map_nil, append_nil] at he
    exact he
  | cons s stages ih =>
    obtain ⟨rfl, hrest⟩ := hfollow
    refine ⟨hprevious, ih hrest (mem_append_right _ (mem_singleton_self _)) ?_⟩
    rw [append_assoc]
    exact he

/-! ## The query of one tool -/

def standsForMacro (t : Tool) : Bool := t.isMacro && (filled t.macroPath).isSome

def macroRelations (count : Nat) : List String :=
  if 1 < count then
    (range count).map fun i => Work.sourceBlock count ++ "_" ++ toString (i + 1)
  else [Work.sourceBlock count]

def projectRelations (m : ProjectMacro) (count : Nat) : List String :=
  relationsOf ((relationArguments? m count).getD [])

def macroComments (names : List (String × String)) (t : Tool) : List String :=
  ["-- Macro: " ++ t.displayName,
   "-- Original Alteryx macro: " ++ t.macroPath.getD "",
   "-- Using reusable DBT macro: " ++ macroNameOf names t,
   ""]

/-- The block of a tool whose work is still to be written. -/
def openDefinition (t : Tool) (entering : List String) (source : String) : Definition :=
  { opens := false
    name := "final"
    front := ["", "    select", "        -- TODO: Implement " ++ t.name ++ " transformation",
      "        " ++ columnsOrAll entering]
    supply := .block source
    back := [""]
    comma := false }

/-- The queries that a tool with `count` sources can have. -/
inductive ToolClause (t : Tool) (count : Nat) : Clause → Prop
  | reference (names : List (String × String)) : standsForMacro t →
      ToolClause t count
        ⟨[], .reference (macroComments names t) (macroNameOf names t) (macroRelations count)⟩
  | call (m : ProjectMacro) (arguments : List (String × Value)) : standsForMacro t = false →
      macroFor? t.name (variantSettings t) = some m →
      relationsOf arguments = projectRelations m count →
      ToolClause t count ⟨[], .call m.name arguments t.displayName⟩
  | unwritten (entering : List String) : standsForMacro t = false →
      macroFor? t.name (variantSettings t) = none →
      ToolClause t count
        ⟨[openDefinition t entering (Work.sourceBlock count)], .selection entering "final"⟩

theorem relationsOf_setField {arguments : List (String × Value)} {key : String} (v : Value)
    (h : key ∉ relationParameters) :
    relationsOf (setField arguments key v) = relationsOf arguments := by
  unfold relationsOf
  induction arguments with
  | nil => simp [setField, h]
  | cons a rest ih =>
    rw [setField]
    split
    next heq => simp [heq, h]
    next => rw [flatMap_cons, flatMap_cons, ih]

/-- No detail of a tool is handed over as a relation. -/
theorem parameters_notMem : ∀ m ∈ projectMacros, ∀ p ∈ m.parameters, p.2 ∉ relationParameters := by
  decide

/-- The macro of a tool is one of the table but for its name. -/
theorem mem_of_macroFor? {tool : String} {settings : List (String × String)} {m : ProjectMacro}
    (h : macroFor? tool settings = some m) :
    ∃ p ∈ projectMacros, p.tool = tool ∧ m = { p with name := m.name } := by
  obtain ⟨p, hp, hm⟩ := Option.map_eq_some_iff.mp h
  refine ⟨p, mem_of_find?_eq_some hp, by simpa using find?_some hp, ?_⟩
  subst hm
  split <;> rfl

theorem macroFor?_eq_none {tool : String} {settings : List (String × String)}
    (h : macroFor? tool settings = none) : tool ∉ projectMacros.map (·.tool) := by
  intro hmem
  obtain ⟨p, hp, rfl⟩ := mem_map.mp hmem
  have hnone := find?_eq_none.mp (Option.map_eq_none_iff.mp h) p hp
  simp at hnone

namespace Work

theorem gives_detailArguments (w : Workflow) (t : Tool) (relations : List (String × Value))
    {parameters : List (String × String)} (h : ∀ p ∈ parameters, p.2 ∉ relationParameters) :
    Gives (detailArguments w t relations parameters) fun arguments =>
      relationsOf arguments = relationsOf relations := by
  unfold detailArguments
  induction parameters generalizing relations with
  | nil => exact gives_pure rfl
  | cons p parameters ih =>
    rw [foldlM_cons]
    have hp := h p (.head _)
    refine gives_bind (Q := fun arguments => relationsOf arguments = relationsOf relations) ?_
      fun arguments harguments => ?_
    · refine gives_bind (gives_true _) fun v _ => ?_
      split
      · exact gives_pure rfl
      · exact gives_pure rfl
      · exact gives_pure (relationsOf_setField _ hp)
    · rw [← harguments]
      exact ih arguments (forall_mem_cons.mp h).2

theorem macroReference_eq (names : List (String × String)) (t : Tool) (count : Nat) :
    macroReference names t count (sourceBlock count) = Clause.text
      ⟨[], .reference (macroComments names t) (macroNameOf names t) (macroRelations count)⟩ := by
  have harguments : (if 1 < count then String.intercalate ", " ((range count).map fun i =>
        sourceBlock count ++ "_" ++ toString (i + 1)) else sourceBlock count)
      = String.intercalate ", " (macroRelations count) := by
    unfold macroRelations
    split
    next => rfl
    next => exact String.intercalate_singleton.symm
  unfold macroReference
  dsimp only
  rw [harguments, Clause.text_ending]
  rfl

theorem openQuery_eq (t : Tool) (entering : List String) (source : String) :
    openQuery t entering source
      = Clause.text ⟨[openDefinition t entering source], .selection entering "final"⟩ := by
  unfold openQuery finalQuery
  rw [finalSelect_eq]
  rfl

/-- Where a tool has no project macro, its query is still to be written. -/
theorem gives_plainQuery {w : Workflow} (upstream : List Tool) (source : String)
    (h : t.name ∉ projectMacros.map (·.tool)) : Gives (plainQuery w t upstream source) fun text =>
      ∃ entering, text = openQuery t entering source := by
  have hname : ∀ name ∈ projectMacros.map (·.tool), t.name ≠ name := fun name hmem heq =>
    h (heq ▸ hmem)
  unfold plainQuery
  refine gives_bind (gives_true _) fun entering _ => gives_bind (gives_true _) fun leaving _ => ?_
  dsimp only
  -- the tools with a query of their own all have a project macro
  split
  iterate 8 next heq => exact absurd heq (hname _ (by decide))
  exact gives_pure ⟨entering, rfl⟩

theorem relationArguments?_isSome (m : ProjectMacro) (hcount : count ≠ 0) :
    ∃ relations, relationArguments? m count = some relations := by
  unfold relationArguments?
  split
  next => exact ⟨_, rfl⟩
  next =>
    split
    next => exact absurd rfl hcount
    next => exact ⟨_, rfl⟩
    next =>
      split
      next => exact ⟨_, rfl⟩
      next => split <;> exact ⟨_, rfl⟩

/-- A tool with sources calls its project macro, if it has one. -/
theorem gives_macroQuery? (w : Workflow) {upstream : List Tool} (hne : upstream ≠ [])
    (hplain : standsForMacro t = false) :
    Gives (macroQuery? w t upstream.length) fun query =>
      (query = none → macroFor? t.name (variantSettings t) = none)
        ∧ ∀ text, query = some text → ∃ c, text = c.text ∧ ToolClause t upstream.length c := by
  unfold macroQuery?
  split
  next hnone => exact gives_pure ⟨fun _ => hnone, fun text h => absurd h (by simp)⟩
  next m hm =>
    obtain ⟨relations, hrelations⟩ := relationArguments?_isSome m (mt length_eq_zero_iff.mp hne)
    rw [hrelations]
    -- details are added behind the relations and do not replace them
    have hparameters : ∀ p ∈ m.parameters, p.2 ∉ relationParameters := by
      obtain ⟨p, hp, -, heq⟩ := mem_of_macroFor? hm
      rw [heq]
      exact parameters_notMem p hp
    refine gives_bind (gives_detailArguments w t relations hparameters)
      fun arguments harguments => gives_pure ⟨fun h => absurd h (by simp), fun text h => ?_⟩
    refine ⟨⟨[], .call m.name arguments t.displayName⟩, ?_, .call m arguments hplain hm ?_⟩
    · rw [Clause.text_ending]
      exact (Option.some.inj h).symm
    · rw [harguments, projectRelations, hrelations, Option.getD_some]

/-- The query of a tool with sources is one of three. -/
theorem gives_toolQuery (w : Workflow) (t : Tool) {upstream : List Tool} (hne : upstream ≠ []) :
    Gives (toolQuery w t upstream) fun text =>
      ∃ c, text = c.text ∧ ToolClause t upstream.length c := by
  unfold toolQuery
  dsimp only
  split
  next hmacro =>
    refine gives_bind (gives_true _) fun b _ => gives_pure ?_
    exact ⟨_, macroReference_eq b.macroNames t upstream.length, .reference _ hmacro⟩
  next hplain =>
    have hplain : standsForMacro t = false := by simpa [standsForMacro] using hplain
    refine gives_bind (gives_macroQuery? w hne hplain) fun query hquery => ?_
    obtain ⟨hnone, hsome⟩ := hquery
    cases query with
    | some text => exact gives_pure (hsome text rfl)
    | none =>
      intro b text h
      obtain ⟨entering, rfl⟩ := gives_plainQuery upstream _ (macroFor?_eq_none (hnone rfl)) b text h
      exact ⟨_, openQuery_eq t entering _, .unwritten entering hplain (hnone rfl)⟩

end Work

/-! ## Names that are read -/

def readNames (count : Nat) : List String := (range count).map (readName count)

theorem numbered_mem_readNames {i : Nat} (hcount : 1 < count) (hi : i < count) :
    "source_" ++ toString (i + 1) ∈ readNames count :=
  mem_map.mpr ⟨i, mem_range.mpr hi, if_pos hcount⟩

theorem sourceBlock_mem_readNames (hcount : count ≠ 0) :
    Work.sourceBlock count ∈ readNames count := by
  by_cases hmany : 1 < count
  · rw [Work.sourceBlock, if_neg (by omega)]
    exact numbered_mem_readNames (i := 0) hmany (by omega)
  · obtain rfl : count = 1 := by omega
    decide

/-- The relations of a project macro have the names of the blocks. -/
theorem projectRelations_subset (m : ProjectMacro) (hcount : count ≠ 0) :
    ∀ name ∈ projectRelations m count, name ∈ readNames count := by
  unfold projectRelations relationArguments?
  split
  next => exact forall_mem_nil _
  next =>
    split
    next => exact absurd rfl hcount
    next => decide
    next n =>
      have hnames : ∀ i < n + 2, "source_" ++ toString (i + 1) ∈ readNames (n + 2) :=
        fun i hi => numbered_mem_readNames (by omega) hi
      have hone : "source_1" ∈ readNames (n + 2) := hnames 0 (by omega)
      split
      next =>
        have htwo : "source_2" ∈ readNames (n + 2) := hnames 1 (by omega)
        intro name hname
        change name ∈ ["source_1", "source_2"] at hname
        rcases mem_cons.mp hname with rfl | hname
        · exact hone
        · exact mem_singleton.mp hname ▸ htwo
      next =>
        split
        next =>
          have hlist : relationsOf [("relations", .list ((sourceNames (n + 2)).map .text))]
              = sourceNames (n + 2) := by
            simp [relationsOf, textsOf, relationParameters, filterMap_map, Value.text?]
          intro name hname
          rw [Option.getD_some, hlist] at hname
          obtain ⟨i, hi, rfl⟩ := mem_map.mp hname
          exact hnames i (mem_range.mp hi)
        next =>
          intro name hname
          change name ∈ ["source_1"] at hname
          exact mem_singleton.mp hname ▸ hone

/-- A name with two numbers is none of the names of the blocks. -/
theorem twiceNumbered_notMem (count i : Nat) :
    "source_1" ++ "_" ++ toString (i + 1) ∉ readNames count := by
  intro h
  obtain ⟨j, -, hname⟩ := mem_map.mp h
  -- behind the first number there would be a sign that is no digit
  have hmem : '_' ∈ (readName count j).toList.drop 7 := by
    rw [hname, String.toList_append]
    exact .tail _ (.head _)
  unfold readName at hmem
  split at hmem
  next =>
    rw [String.toList_append] at hmem
    have hdigits : '_' ∈ (toString (j + 1)).toList := hmem
    rw [Nat.toString_eq_ofList_toDigits, String.toList_ofList] at hdigits
    have hdigit := Nat.isDigit_of_mem_toDigits (b := 10) (by decide) (by decide) hdigits
    exact absurd hdigit (by decide)
  next => exact absurd hmem (by decide)

theorem twiceNumbered_mem_macroRelations (h : 2 ≤ count) :
    "source_1" ++ "_" ++ toString (0 + 1) ∈ macroRelations count := by
  rw [macroRelations, if_pos (by omega), Work.sourceBlock, if_neg (by omega)]
  exact mem_map.mpr ⟨0, mem_range.mpr (by omega), rfl⟩

/-- Behind blocks with the names of their places, the query of a tool reads only those, unless the
tool stands for a macro and has several sources. -/
theorem ToolClause.scopedFrom_iff {c : Clause} (h : ToolClause t count c) (hcount : count ≠ 0) :
    ScopedFrom (readNames count) c.definitions c.ending ↔ ¬ (2 ≤ count ∧ standsForMacro t) := by
  have hsource := sourceBlock_mem_readNames hcount
  cases h with
  | reference names hmacro =>
    constructor
    · rintro hscoped ⟨hmany, -⟩
      exact twiceNumbered_notMem count 0 (hscoped _ (twiceNumbered_mem_macroRelations hmany))
    · intro hfew name hname
      have hone : ¬ 1 < count := fun hmany => hfew ⟨hmany, hmacro⟩
      change name ∈ macroRelations count at hname
      rw [macroRelations, if_neg hone, mem_singleton] at hname
      exact hname ▸ hsource
  | call m arguments hplain hm hrelations =>
    refine ⟨fun _ hmacro => absurd (hplain.symm.trans hmacro.2) (by decide), fun _ name hname => ?_⟩
    change name ∈ relationsOf arguments at hname
    rw [hrelations] at hname
    exact projectRelations_subset m hcount name hname
  | unwritten entering hplain hm =>
    refine ⟨fun _ hmacro => absurd (hplain.symm.trans hmacro.2) (by decide), fun _ => ?_⟩
    exact ⟨hsource, fun name hname => mem_append_right _ hname⟩

theorem relations_of_join : ∀ p ∈ projectMacros, p.tool = "Join" →
    p.relation ∧ p.rightRelation := by
  decide

/-- Behind blocks with the names of the sides, the query of a join reads others. -/
theorem ToolClause.not_scopedFrom_sides {c : Clause} (h : ToolClause t count c)
    (hjoin : t.name = "Join") (hcount : 2 ≤ count) {known : List String}
    (hknown : ∀ name ∈ known, name = "left_source" ∨ name = "right_source") :
    ¬ ScopedFrom known c.definitions c.ending := by
  -- the sides begin with other letters than the sources
  have hother : ∀ name : String, name.toList.head? = some 's' → name ∉ known := by
    intro name hhead hmem
    rcases hknown name hmem with rfl | rfl <;> exact absurd hhead (by decide)
  cases h with
  | reference names hmacro =>
    intro hscoped
    exact hother _ (by decide) (hscoped _ (twiceNumbered_mem_macroRelations hcount))
  | call m arguments hplain hm hrelations =>
    intro hscoped
    obtain ⟨p, hp, htool, heq⟩ := mem_of_macroFor? hm
    obtain ⟨hrelation, hright⟩ := relations_of_join p hp (htool.trans hjoin)
    obtain ⟨n, rfl⟩ : ∃ n, count = n + 2 := ⟨count - 2, by omega⟩
    have hsides : projectRelations m (n + 2) = ["source_1", "source_2"] := by
      rw [projectRelations, heq, relationArguments?]
      simp [hrelation, hright, relationsOf, textsOf, relationParameters]
    have hfirst : "source_1" ∈ relationsOf arguments := by
      rw [hrelations, hsides]
      exact .head _
    exact hother "source_1" (by decide) (hscoped _ hfirst)
  | unwritten entering hplain hm =>
    refine absurd ?_ (macroFor?_eq_none hm)
    rw [hjoin]
    decide

/-! ## Files -/

/-- The clauses that stand behind the sources in the model of a task. -/
def Task.Query (w : Workflow) (task : Task) (c : Clause) : Prop :=
  (∃ t, task.tools = [t] ∧ ToolClause t (w.upstream t.id).length c)
    ∨ 2 ≤ task.tools.length ∧ ∃ (stages : List Stage) (columns : List String),
      c = ⟨stages.map (·.definition), .selection columns "final"⟩
        ∧ stages.map (·.name)
          = (range task.tools.length).map (Work.blockName task.tools.length)

/-- The task is of one tool with several sources, which stands for a macro or is a join of the
middle layer. -/
def Task.Strays (w : Workflow) (task : Task) : Prop :=
  ∃ t, task.tools = [t] ∧ 2 ≤ (w.upstream t.id).length
    ∧ (standsForMacro t ∨ task.planned.layer = .silver ∧ t.name = "Join")

/-- If there are sources, the file has the clause of its task behind them, and all that it reads is
defined before unless the task strays. -/
def ModelFile.ScopedFor (w : Workflow) (f : ModelFile) (task : Task) : Prop :=
  task.planned.layer ≠ .bronze → ∀ t ∈ task.tools.head?, w.upstream t.id ≠ [] →
    ∃ c, task.Query w c ∧ f.text = lines (f.head ++ [(c.behind f.reads).text])
      ∧ ((c.behind f.reads).Scoped ↔ ¬ task.Strays w)

theorem scopedFor_of_names {w : Workflow}
    (hplace : p.layer ≠ .silver ∨ t.name ≠ "Join" ∨ (w.upstream t.id).length < 2)
    (hreads : f.reads.map (·.definition.name) = readNames (w.upstream t.id).length)
    (hbody : w.upstream t.id ≠ [] → ∃ c, f.body = [c.text]
      ∧ ToolClause t (w.upstream t.id).length c) : f.ScopedFor w ⟨p, [t]⟩ := by
  intro _ u hu hne
  obtain rfl := Option.some.inj hu
  obtain ⟨c, hbody, hc⟩ := hbody hne
  refine ⟨c, .inl ⟨t, rfl, hc⟩, ModelFile.text_eq hbody, ?_⟩
  rw [scoped_behind, hreads, hc.scopedFrom_iff (mt length_eq_zero_iff.mp hne)]
  refine not_congr ⟨fun h => ⟨t, rfl, h.1, .inl h.2⟩, ?_⟩
  rintro ⟨u, hu, hmany, hmacro | ⟨hlayer, hjoin⟩⟩
  · obtain rfl := singleton_inj.mp hu
    exact ⟨hmany, hmacro⟩
  · obtain rfl := singleton_inj.mp hu
    rcases hplace with h | h | h
    · exact absurd hlayer h
    · exact absurd hjoin h
    · omega

theorem scopedFor_of_sides {w : Workflow} (hlayer : p.layer = .silver) (hjoin : t.name = "Join")
    (hmany : 2 ≤ (w.upstream t.id).length)
    (hreads : ∀ r ∈ f.reads, r.definition.name = "left_source"
      ∨ r.definition.name = "right_source")
    (hbody : ∃ c, f.body = [c.text] ∧ ToolClause t (w.upstream t.id).length c) :
    f.ScopedFor w ⟨p, [t]⟩ := by
  intro _ u hu hne
  obtain ⟨c, hbody, hc⟩ := hbody
  refine ⟨c, .inl ⟨t, rfl, hc⟩, ModelFile.text_eq hbody, ?_⟩
  have hsides : ∀ name ∈ f.reads.map (·.definition.name),
      name = "left_source" ∨ name = "right_source" := by
    intro name hname
    obtain ⟨r, hr, rfl⟩ := mem_map.mp hname
    exact hreads r hr
  rw [scoped_behind]
  refine iff_of_false (hc.not_scopedFrom_sides hjoin hmany hsides) (not_not_intro ?_)
  exact ⟨t, rfl, hmany, .inr ⟨hlayer, hjoin⟩⟩

theorem scopedFor_of_combines {w : Workflow} {first second : Tool} {rest : List Tool}
    {stages : List Stage} {columns : List String}
    (h : f.Combines (w.upstream first.id).length (rest.length + 2) stages columns) :
    f.ScopedFor w ⟨p, first :: second :: rest⟩ := by
  intro _ u hu hne
  obtain rfl := Option.some.inj hu
  refine ⟨_, .inr ⟨by simp, stages, columns, rfl, h.names⟩, ModelFile.text_eq h.body, ?_⟩
  have hlong : ∀ t, first :: second :: rest ≠ [t] := by simp
  refine iff_of_true ?_ fun hstrays => ?_
  case refine_2 =>
    obtain ⟨t, ht, -⟩ := hstrays
    exact hlong t ht
  have hreads : f.reads.map (·.definition.name) = readNames (w.upstream first.id).length := by
    have hnames := congrArg (map Prod.snd) h.reads
    rw [map_map, map_map] at hnames
    exact hnames
  rw [scoped_behind, hreads]
  refine scopedFrom_stages h.follow
    (sourceBlock_mem_readNames (mt length_eq_zero_iff.mp hne)) fun name hname => ?_
  refine mem_append_right _ ?_
  rw [h.names, mem_singleton.mp hname]
  exact mem_map.mpr ⟨rest.length + 1, mem_range.mpr (by omega), if_neg (by omega)⟩

namespace Work

variable {w : Workflow} (w : Workflow) (workflow : String)

theorem gives_names_readSources (noted : Bool)
    (upstream : List Tool) : Gives (readSources w workflow noted upstream) fun reads =>
      reads.map (·.definition.name) = readNames upstream.length := by
  intro b reads h
  have hparts := gives_parts_readSources w workflow noted upstream b reads h
  have hnames := congrArg (map Prod.snd) hparts
  rw [map_map, map_map] at hnames
  exact hnames

theorem gives_body_toolQuery (t : Tool) :
    Gives (toolQuery w t (w.upstream t.id)) fun query => w.upstream t.id ≠ [] →
      ∃ c, [query] = [Clause.text c] ∧ ToolClause t (w.upstream t.id).length c := by
  intro b query h hne
  obtain ⟨c, htext, hc⟩ := gives_toolQuery w t hne b query h
  exact ⟨c, congrArg (fun text => [text]) htext, hc⟩

theorem emits_writeSilver (t : Tool) :
    Emits (ModelFile.ScopedFor w) (writeSilver w workflow t)
      ((silverPlan w workflow [t]).map (⟨·, [t]⟩)) := by
  have hstill := still_silver w workflow t "Specify explicit columns in transformation"
    ("Tool: " ++ t.name)
  refine emits_enter ?_
  by_cases hjoin : (t.name = "Join" && 2 ≤ (w.upstream t.id).length)
  · have hreads := gives_names_readSides w workflow t
    rw [← show readInputs w workflow t = _ from if_pos hjoin] at hreads
    refine emits_writeMart hstill hreads (gives_body_toolQuery w t) fun rs text hrs htext => ?_
    obtain ⟨hname, hmany⟩ : t.name = "Join" ∧ 2 ≤ (w.upstream t.id).length := by
      simpa using hjoin
    refine scopedFor_of_sides rfl hname hmany hrs (htext fun hnil => ?_)
    rw [hnil] at hmany
    exact absurd hmany (by decide)
  · have hreads := gives_names_readSources w workflow true (w.upstream t.id)
    rw [← show readInputs w workflow t = _ from if_neg hjoin] at hreads
    refine emits_writeMart hstill hreads (gives_body_toolQuery w t) fun rs text hrs htext => ?_
    rw [Bool.and_eq_true, decide_eq_true_eq, decide_eq_true_eq, not_and_or, not_le] at hjoin
    exact scopedFor_of_names (.inr hjoin) hrs htext

theorem emits_writeGold (t : Tool) :
    Emits (ModelFile.ScopedFor w) (writeGold w workflow t)
      [⟨goldPlan w workflow t, [t]⟩] :=
  emits_enter <| emits_writeMart (still_gold ..) (gives_names_readSources w workflow true _)
    (gives_body_toolQuery w t) fun _ _ hreads hquery =>
      scopedFor_of_names (.inl (by simp [goldPlan])) hreads hquery

theorem scopedFor_writeWorkflow :
    Emits (ModelFile.ScopedFor w) (writeWorkflow w) (tasks w) :=
  emits_workflow w (fun _ _ => emits_writeBronze fun _ h => absurd rfl h) (emits_writeSilver w)
    (fun _ _ _ _ => emits_writeChain fun _ _ _ hf => scopedFor_of_combines hf) (emits_writeGold w)

end Work

/-- Work on the models of a workflow that comes to its end has written a file for each task. A model
of the later layers with sources reads only blocks that are defined before in its file, and this
exactly if its task does not stray. -/
theorem scoped_writeWorkflow (w : Workflow) {b : Build}
    (hrun : result (Work.writeWorkflow w) b = .ok ()) :
    ∃ new, (state (Work.writeWorkflow w) b).files = b.files ++ new
      ∧ Forall₂ (fun f task => f.Meets task ∧ f.ScopedFor w task) new (tasks w) := by
  obtain ⟨new, hfiles, hmeets⟩ := Work.fulfils_writeWorkflow w b () hrun
  obtain ⟨new', hfiles', hscoped⟩ := (Work.scopedFor_writeWorkflow w).files hrun
  obtain rfl : new = new' := append_cancel_left (hfiles.symm.trans hfiles')
  exact ⟨new, hfiles, hmeets.mp (fun _ _ h h' => ⟨h, h'⟩) hscoped⟩

/-- Two sources that are joined, and the result. -/
def joined : Workflow :=
  { metadata := { name := "w", path := "w.yxmd" }
    tools := [
      { id := 1, name := "Input Data", category := .input, table := some "s" },
      { id := 2, name := "Input Data", category := .input, table := some "t" },
      { id := 3, name := "Join", category := .join },
      { id := 4, name := "Output Data", category := .output, table := some "u" }]
    connections := [⟨1, "Output", 3, "Left"⟩, ⟨2, "Output", 3, "Right"⟩,
      ⟨3, "Join", 4, "Input"⟩] }

/-- The work comes to its end. The model of the join reads blocks that it does not define, and that
of the result reads its own. -/
theorem scoped_joined : ∃ (s t f g : ModelFile) (c d : Clause),
    (Work.writeWorkflow joined).run.run emptyProject
      = (.ok (), state (Work.writeWorkflow joined) emptyProject)
    ∧ (state (Work.writeWorkflow joined) emptyProject).files = [s, t, f, g]
    ∧ f.text = lines (f.head ++ [c.text]) ∧ ¬ c.Scoped
    ∧ g.text = lines (g.head ++ [d.text]) ∧ d.Scoped := by
  have hrun : result (Work.writeWorkflow joined) emptyProject = .ok () := by
    -- so that the texts of the queries need not be searched
    unfold Work.writeWorkflow Work.writeSilver Work.writeGold
    simp only [Work.noteOpenEnds_eq]
    decide +kernel
  obtain ⟨new, hfiles, hall⟩ := scoped_writeWorkflow joined hrun
  have htasks : ∃ p q r u : Planned, tasks joined = [⟨p, [joined.tools[0]]⟩, ⟨q, [joined.tools[1]]⟩,
      ⟨r, [joined.tools[2]]⟩, ⟨u, [joined.tools[3]]⟩] ∧ r.layer = .silver ∧ u.layer = .gold :=
    ⟨_, _, _, _, rfl, rfl, rfl⟩
  obtain ⟨p, q, r, u, htasks, hr, hu⟩ := htasks
  rw [htasks] at hall
  obtain ⟨s, new₁, -, hall₁, rfl⟩ := forall₂_cons_right_iff.mp hall
  obtain ⟨t, new₂, -, hall₂, rfl⟩ := forall₂_cons_right_iff.mp hall₁
  obtain ⟨f, new₃, ⟨-, hf⟩, hall₃, rfl⟩ := forall₂_cons_right_iff.mp hall₂
  obtain ⟨g, new₄, ⟨-, hg⟩, hall₄, rfl⟩ := forall₂_cons_right_iff.mp hall₃
  obtain rfl := forall₂_nil_right_iff.mp hall₄
  obtain ⟨c, -, hc, hstrays⟩ := hf (by rw [hr]; decide) _ rfl (by decide)
  obtain ⟨d, -, hd, hscoped⟩ := hg (by rw [hu]; decide) _ rfl (by decide)
  refine ⟨s, t, f, g, _, _, run_eq_of_result hrun, hfiles, hc, fun h => ?_, hd, hscoped.mpr ?_⟩
  · exact hstrays.mp h ⟨_, rfl, by decide, .inr ⟨hr, rfl⟩⟩
  · rintro ⟨x, hx, hmany, -⟩
    obtain rfl := singleton_inj.mp hx
    exact absurd hmany (by decide)

end Replatform.Project

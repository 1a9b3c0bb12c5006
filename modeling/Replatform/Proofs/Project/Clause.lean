import Replatform.Proofs.Project.Plan
/-!
# The clauses of a model

A model reads other models in blocks, does its work in more blocks, and ends with a selection or
with the call of a macro. A `Clause` is all of this apart from its text: the definitions in their
order, each with the word before its name, what it reads and the mark behind it, and the ending.

What is written is the text of such a clause: the block of a tool (`Work.toolBlock_lists`), the query
of a chain (`Work.ensures_chainQuery`), and the file of a model (`ModelFile.text_eq`).
-/

namespace Replatform.Project

open List Stateful

open Text (lines)

open Catalog (jinja)

/-! ## Definitions -/

/-- What a definition reads: a model, or a block of the same file. -/
inductive Supply
  | model (name : String)
  | block (name : String)
deriving DecidableEq

def Supply.text : Supply → String
  | .model name => jinja ("ref('" ++ name ++ "')")
  | .block name => name

/-- A block of a query: whether the word `with` stands before its name, its lines before and behind
the one that says what it reads, and whether a comma stands behind it. -/
structure Definition where
  opens : Bool
  name : String
  front : List String
  supply : Supply
  back : List String
  comma : Bool
deriving DecidableEq

def Definition.opening (d : Definition) : String :=
  (if d.opens then "with " else "") ++ d.name ++ " as ("

def Definition.closing (d : Definition) : String := if d.comma then ")," else ")"

/-- The lines between the first and the last. -/
def Definition.inner (d : Definition) : List String :=
  d.front ++ ("    from " ++ d.supply.text) :: d.back

def Definition.lines (d : Definition) : List String := d.opening :: d.inner ++ [d.closing]

/-! ## Endings -/

/-- The parameters of a macro that take relations. -/
def relationParameters : List String := ["relation", "left_relation", "right_relation", "relations"]

def textsOf : Value → List String
  | .text s => [s]
  | .list vs => vs.filterMap (·.text?)
  | _ => []

def relationsOf (arguments : List (String × Value)) : List String :=
  arguments.flatMap fun a => if a.1 ∈ relationParameters then textsOf a.2 else []

/-- How a query ends: with a selection, with the call of a converted macro, or with the call of a
project macro. -/
inductive Ending
  | selection (columns : List String) (source : String)
  | reference (comments : List String) (name : String) (relations : List String)
  | call (name : String) (arguments : List (String × Value)) (comment : String)

def Ending.text : Ending → String
  | .selection columns source => Work.readAll columns source
  | .reference comments name relations =>
    lines (comments ++ [jinja (name ++ "(" ++ String.intercalate ", " relations ++ ")")])
  | .call name arguments comment => macroCall name arguments comment

def Ending.reads : Ending → List String
  | .selection _ source => [source]
  | .reference _ _ relations => relations
  | .call _ arguments _ => relationsOf arguments

/-! ## Clauses -/

/-- Definitions with what stands behind them. -/
structure Clause where
  definitions : List Definition
  ending : Ending

/-- The lines of definitions, each with an empty line behind it. -/
def definitionLines (ds : List Definition) : List String := ds.flatMap fun d => d.lines ++ [""]

def Clause.text (c : Clause) : String := lines (definitionLines c.definitions ++ [c.ending.text])

theorem lines_singleton (x : String) : lines [x] = x := String.intercalate_singleton

theorem Clause.text_ending (e : Ending) : Clause.text ⟨[], e⟩ = e.text := lines_singleton e.text

theorem definitionLines_cons (d : Definition) (ds : List Definition) :
    definitionLines (d :: ds) = d.lines ++ "" :: definitionLines ds := by
  rw [definitionLines, flatMap_cons, append_assoc]
  rfl

theorem definitionLines_append (ds es : List Definition) :
    definitionLines (ds ++ es) = definitionLines ds ++ definitionLines es := flatMap_append

theorem lines_cons (x : String) {xs : List String} (hne : xs ≠ []) :
    lines (x :: xs) = x ++ "\n" ++ lines xs := String.intercalate_cons_of_ne_nil hne

theorem lines_append (xs : List String) {ys : List String} (hx : xs ≠ []) (hy : ys ≠ []) :
    lines (xs ++ ys) = lines xs ++ "\n" ++ lines ys := String.intercalate_append_of_ne_nil hx hy

/-- A text of several lines can stand for them. -/
theorem lines_append_lines (xs : List String) {ys : List String} (hne : ys ≠ []) :
    lines (xs ++ [lines ys]) = lines (xs ++ ys) := by
  cases xs with
  | nil => exact lines_singleton _
  | cons x xs =>
    rw [lines_append _ (by simp) (by simp), lines_append _ (by simp) hne, lines_singleton]

/-- Blocks with empty lines between them are the text of a clause. -/
theorem intercalate_eq_text (ds : List Definition) (e : Ending) :
    String.intercalate "\n\n" (ds.map (fun d => lines d.lines) ++ [e.text])
      = Clause.text ⟨ds, e⟩ := by
  unfold Clause.text
  induction ds with
  | nil => rfl
  | cons d ds ih =>
    have hrest : definitionLines ds ++ [e.text] ≠ [] := by simp
    have hlines : d.lines ≠ [] := cons_ne_nil _ _
    rw [map_cons, cons_append, String.intercalate_cons_of_ne_nil (by simp), ih]
    dsimp only
    rw [definitionLines_cons, append_assoc, cons_append,
      lines_append _ hlines (cons_ne_nil _ _), lines_cons _ hrest]
    simp only [String.append_assoc, String.empty_append]
    rfl

/-! ## Reading models -/

/-- Whether an opening begins with the word, and the name in it. -/
def openingParts (opening : String) : Bool × String :=
  if "with ".toList.isPrefixOf opening.toList then (true, String.ofList (opening.toList.drop 5))
  else (false, opening)

theorem openingParts_with (name : String) : openingParts ("with " ++ name) = (true, name) := by
  have htext : ("with " ++ name).toList = "with ".toList ++ name.toList := String.toList_append
  rw [openingParts, htext, if_pos (List.isPrefixOf_iff_prefix.mpr (prefix_append _ _))]
  exact congrArg (Prod.mk true) String.ofList_toList

theorem eq_openingParts (opening : String) :
    (if (openingParts opening).1 then "with " else "") ++ (openingParts opening).2 = opening := by
  unfold openingParts
  split
  next h =>
    obtain ⟨rest, hrest⟩ := isPrefixOf_iff_prefix.mp h
    rw [← String.toList_inj, ← hrest]
    simp
  next => exact String.empty_append

def Reading.definition (r : Reading) : Definition :=
  { opens := (openingParts r.opening).1
    name := (openingParts r.opening).2
    front := "" :: if r.columns.isEmpty then ["    select *", "    /* TODO: specify columns */"]
      else ["    select", "        " ++ formatColumns r.columns]
    supply := .model r.model
    back := [""]
    comma := true }

theorem Reading.opening_definition (r : Reading) : r.definition.opening = r.opening ++ " as (" := by
  unfold Definition.opening Reading.definition
  dsimp only
  rw [eq_openingParts]

theorem Reading.block_eq (r : Reading) : r.block = r.definition.lines ++ [""] := by
  unfold Reading.block Reading.selection Definition.lines
  rw [r.opening_definition]
  unfold Definition.inner Reading.definition
  split <;> rfl

/-- A clause with blocks that read models in front of it. -/
def Clause.behind (reads : List Reading) (c : Clause) : Clause :=
  ⟨reads.map (·.definition) ++ c.definitions, c.ending⟩

/-- In a file, the blocks that read the sources stand in front of the others. -/
theorem ModelFile.text_eq {f : ModelFile} {c : Clause} (h : f.body = [c.text]) :
    f.text = lines (f.head ++ [(c.behind f.reads).text]) := by
  have hreads : f.reads.flatMap Reading.block = definitionLines (f.reads.map (·.definition)) := by
    rw [definitionLines, flatMap_map]
    exact flatMap_congr fun r _ => r.block_eq
  rw [ModelFile.text, h, hreads, Clause.text, lines_append_lines _ (by simp), Clause.text,
    lines_append_lines _ (by simp), Clause.behind, definitionLines_append]
  simp only [append_assoc]

/-! ## Blocks of tools -/

/-- What a selection lists: all columns with a note, a column, or an expression under a name. -/
inductive Item
  | all
  | column (name : String)
  | named (expression name : String)
deriving DecidableEq

def Item.text : Item → String
  | .all => allColumns
  | .column name => quoteColumn name
  | .named expression name => expression ++ " as " ++ quoteColumn name

/-- The name under which an item is read from the block. -/
def Item.name : Item → String
  | .all => "*"
  | .column name => name
  | .named _ name => name

/-- The block of a tool: comments, a list that may begin with an empty line, what is read, and a
condition. -/
structure Stage where
  name : String
  source : String
  notes : List String
  spread : Bool
  items : List Item
  condition : Option String

/-- Items one on a line. -/
def listing (items : List Item) : String :=
  "        " ++ String.intercalate ",\n        " (items.map (·.text))

def Stage.definition (s : Stage) : Definition :=
  { opens := false
    name := s.name
    front := s.notes.map ("    -- " ++ ·)
      ++ "    select" :: (if s.spread then ["        "] else []) ++ [listing s.items]
    supply := .block s.source
    back := (s.condition.map ("    where " ++ ·)).toList
    comma := true }

def passed (columns : List String) : List Item :=
  if columns.isEmpty then [.all] else columns.map .column

/-- The fields that formulas give. -/
def formulaNames (t : Tool) : List String :=
  (t.settingRecords "formulas").map fun f => (fieldText? f "field").getD "new_field"

/-- The name under which a kept field is selected. -/
def keptName (field : String) : String :=
  if isRenamed field then ((renamePieces field)[1]?).getD "" else (renamePieces field).headD ""

/-- The names that the block of a tool lists, when the columns enter it. -/
def shown (t : Tool) (columns : List String) : List String :=
  match t.name with
  | "Formula" | "Multi-Field Formula" => columns ++ formulaNames t
  | "Select" => if t.selected.isEmpty then columns else t.selected.map keptName
  | _ => columns

variable (columns : List String) (t : Tool)

theorem passed_ne_nil : passed columns ≠ [] := by
  unfold passed
  split
  next => exact cons_ne_nil _ _
  next h => simpa using h

theorem map_name_passed :
    (passed columns).map (·.name) = if columns.isEmpty then ["*"] else columns := by
  unfold passed
  split
  next => rfl
  next => rw [map_map]; exact map_id _

theorem map_text_passed : (passed columns).map (·.text)
    = if columns.isEmpty then [allColumns] else columns.map quoteColumn := by
  unfold passed
  split
  next => rfl
  next => rw [map_map]; rfl

theorem columnsOrAll_eq : "        " ++ columnsOrAll columns = listing (passed columns) := by
  unfold columnsOrAll listing formatColumns formatColumnsWith
  rw [map_text_passed]
  split <;> rfl

theorem lines_middle (xs ys : List String) {zs : List String} (hne : zs ≠ []) :
    lines (xs ++ lines zs :: ys) = lines (xs ++ zs ++ ys) := by
  cases ys with
  | nil => rw [append_nil, lines_append_lines _ hne]
  | cons y ys =>
    have hfront : xs ++ zs ≠ [] := append_ne_nil_of_right_ne_nil _ hne
    rw [append_cons, lines_append (xs ++ [lines zs]) (by simp) (cons_ne_nil y ys),
      lines_append_lines _ hne, ← lines_append _ hfront (cons_ne_nil y ys)]

theorem spreadColumns_eq {items : List Item} (hne : items ≠ []) :
    spreadColumns (items.map (·.text)) = lines ["        ", listing items] := by
  have hjoin : ∀ xs : List String, xs ≠ [] →
      String.intercalate "," (xs.map ("\n        " ++ ·))
        = "\n        " ++ String.intercalate ",\n        " xs := by
    intro xs
    induction xs with
    | nil => exact fun h => absurd rfl h
    | cons x xs ih =>
      intro _
      cases xs with
      | nil => rfl
      | cons y xs =>
        rw [map_cons, String.intercalate_cons_of_ne_nil (by simp), ih (by simp),
          String.intercalate_cons_cons]
        have hcomma : ∀ rest : String, "," ++ ("\n        " ++ rest) = ",\n        " ++ rest :=
          fun rest => String.append_assoc.symm
        simp only [String.append_assoc, hcomma]
  rw [spreadColumns, hjoin _ (by simp [hne]), lines_cons _ (by simp), listing]
  simp only [String.append_assoc]
  rfl

def Stage.text (s : Stage) : String := lines s.definition.lines

/-- A stage whose list begins at once. -/
theorem Stage.text_eq (name source : String) (notes : List String) (items : List Item)
    (condition : Option String) :
    Stage.text ⟨name, source, notes, false, items, condition⟩
      = block name (notes.map ("    -- " ++ ·) ++ ["    select", listing items,
        "    from " ++ source] ++ (condition.map ("    where " ++ ·)).toList) ")," := by
  unfold Stage.text block Definition.lines Definition.opening Definition.inner Stage.definition
  simp [Definition.closing, Supply.text]

/-- A stage whose list begins with an empty line. -/
theorem Stage.text_eq_of_spread (name source : String) (notes : List String) {items : List Item}
    (hne : items ≠ []) : Stage.text ⟨name, source, notes, true, items, none⟩
      = block name (notes.map ("    -- " ++ ·) ++ ["    select",
        spreadColumns (items.map (·.text)), "    from " ++ source]) ")," := by
  have hsplit := lines_middle ((name ++ " as (") :: notes.map ("    -- " ++ ·) ++ ["    select"])
    ["    from " ++ source, "),"] (cons_ne_nil "        " [listing items])
  rw [← spreadColumns_eq hne] at hsplit
  unfold Stage.text block Definition.lines Definition.opening Definition.inner Stage.definition
  simpa [Definition.closing, Supply.text] using hsplit.symm

/-- The comment on the tool of a block, without its mark. -/
def toolNote (t : Tool) : String := t.name ++ ": " ++ t.annotation.getD ""

theorem toolComment_eq : toolComment t = "    -- " ++ toolNote t := by
  simp only [toolComment, toolNote, String.append_assoc]

theorem openComment_eq : openComment t = "    -- " ++ (toolNote t ++ " (TODO: implement)") := by
  rw [openComment, toolComment_eq, String.append_assoc]

/-- The comments on an order, without their marks. -/
def orderNotes (t : Tool) (order : String) : List String :=
  [toolNote t, "IMPORTANT: SQL does not guarantee ordering from CTEs!",
   "Add this ORDER BY clause to your final SELECT statement:", "ORDER BY " ++ order]

theorem orderComments_eq (order : String) :
    Work.orderComments t order = (orderNotes t order).map ("    -- " ++ ·) := by
  have horder : "    -- ORDER BY " ++ order = "    -- " ++ ("ORDER BY " ++ order) := by
    rw [← String.append_assoc]
    rfl
  rw [Work.orderComments, toolComment_eq, horder]
  rfl

namespace Work

theorem gives_formulaColumns : Gives (formulaColumns t) fun columns =>
    ∃ items : List Item, columns = items.map (·.text) ∧ items.map (·.name) = formulaNames t := by
  unfold formulaColumns formulaNames
  induction t.settingRecords "formulas" with
  | nil => exact gives_pure ⟨[], rfl, rfl⟩
  | cons f fs ih =>
    rw [mapM_cons]
    have hcolumn : Gives (do
        let sql ← convertExpression ((fieldText? f "expression").getD "NULL")
        return sql ++ " as " ++ quoteColumn ((fieldText? f "field").getD "new_field") : Work String)
        fun column => ∃ sql, column
          = (Item.named sql ((fieldText? f "field").getD "new_field")).text :=
      gives_bind (gives_true _) fun sql _ => gives_pure ⟨sql, rfl⟩
    refine gives_bind hcolumn fun column hsql => ?_
    obtain ⟨sql, hsql⟩ := hsql
    refine gives_bind ih fun columns hcolumns => gives_pure ?_
    obtain ⟨items, hitems, hnames⟩ := hcolumns
    exact ⟨.named sql _ :: items, by rw [hsql, hitems]; rfl, by rw [map_cons, hnames]; rfl⟩

theorem keptField_item {field text : String} (h : keptField field = .ok text) :
    ∃ item : Item, text = item.text ∧ item.name = keptName field := by
  unfold keptField at h
  unfold keptName
  dsimp only at h
  split at h
  next hrenamed =>
    rw [if_pos hrenamed]
    split at h
    next new hnew =>
      rw [hnew]
      exact ⟨.named _ new, (Except.ok.inj h).symm, rfl⟩
    next => cases h
  next hplain =>
    rw [if_neg hplain]
    exact ⟨.column _, (Except.ok.inj h).symm, rfl⟩

theorem gives_check_keptFields : Gives (check (keptFields t)) fun fields =>
    ∃ items : List Item, "        " ++ fields = listing items
      ∧ items.map (·.name) = t.selected.map keptName := by
  unfold keptFields
  cases hfields : t.selected.mapM keptField with
  | error e => exact fun _ _ h => by cases h
  | ok texts =>
    have hitems : ∃ items : List Item, texts = items.map (·.text)
        ∧ items.map (·.name) = t.selected.map keptName := by
      rw [mapM_eq_ok] at hfields
      generalize t.selected = fields at hfields ⊢
      induction hfields with
      | nil => exact ⟨[], rfl, rfl⟩
      | cons hfield _ ih =>
        obtain ⟨item, htext, hname⟩ := keptField_item hfield
        obtain ⟨items, htexts, hnames⟩ := ih
        exact ⟨item :: items, by rw [htext, htexts]; rfl, by rw [map_cons, hname, hnames]; rfl⟩
    obtain ⟨items, rfl, hnames⟩ := hitems
    exact gives_pure ⟨items, rfl, hnames⟩

def Lists (name source : String) (names : List String) (text : String) : Prop :=
  ∃ s : Stage, text = s.text ∧ s.name = name ∧ s.source = source ∧ s.items.map (·.name) = names

/-- The block of a tool lists the columns that are known to enter it, with what the tool does to
them. -/
theorem toolBlock_lists {w : Workflow} {t : Tool} {source name text : String} {b : Build}
    {entering : List String} (hentering : result (enteringColumns w t) b = .ok entering)
    (h : result (toolBlock w t source name) b = .ok text) :
    Lists name source (shown t (if entering.isEmpty then ["*"] else entering)) text := by
  have hpassed := map_name_passed entering
  -- from here on it does not matter whether columns are known to enter
  generalize (if entering.isEmpty then ["*"] else entering) = columns at hpassed ⊢
  -- a tool without details of its own passes its columns on
  have hstandard : Lists name source columns (block name [openComment t, "    select",
      listing (passed entering), "    from " ++ source] "),") := by
    refine ⟨⟨name, source, [toolNote t ++ " (TODO: implement)"], false, passed entering, none⟩, ?_,
      rfl, rfl, hpassed⟩
    rw [Stage.text_eq, openComment_eq]
    rfl
  have hnone : (t.settingRecords "formulas").isEmpty → Lists name source
      (columns ++ formulaNames t) (block name [openComment t, "    select",
        listing (passed entering), "    from " ++ source] "),") := by
    intro hempty
    rwa [formulaNames, isEmpty_iff.mp hempty, map_nil, append_nil]
  have hformula : Gives (do
      let parts := (if entering.isEmpty then [allColumns] else entering.map quoteColumn)
        ++ (← formulaColumns t)
      return block name [toolComment t, "    select", spreadColumns parts, "    from " ++ source]
        ")," : Work String) (Lists name source (columns ++ formulaNames t)) := by
    refine gives_bind (gives_formulaColumns t) fun added hadded => gives_pure ?_
    obtain ⟨items, hadded, hnames⟩ := hadded
    refine ⟨⟨name, source, [toolNote t], true, passed entering ++ items, none⟩, ?_, rfl, rfl, ?_⟩
    · have hne := append_ne_nil_of_left_ne_nil (passed_ne_nil entering) items
      rw [Stage.text_eq_of_spread _ _ _ hne, toolComment_eq, map_append, map_text_passed, hadded]
      rfl
    · rw [map_append, hpassed, hnames]
  rw [toolBlock, result_bind_of_ok hentering] at h
  dsimp only [stepBlock, cons_append, nil_append] at h
  rw [columnsOrAll_eq] at h
  refine (?_ : Gives _ (Lists name source (shown t columns))) _ _ h
  unfold shown
  split
  next hname =>
    rw [hname]
    refine gives_bind (gives_true _) fun sql _ => gives_pure ?_
    refine ⟨⟨name, source, [toolNote t], false, passed entering, some sql⟩, ?_, rfl, rfl, hpassed⟩
    rw [Stage.text_eq, toolComment_eq]
    rfl
  next hname =>
    rw [hname]
    split
    next hempty => exact gives_pure (hnone hempty)
    next => exact hformula
  next hname =>
    rw [hname]
    split
    next hempty => exact gives_pure (hnone hempty)
    next => exact hformula
  next hname =>
    rw [hname]
    split
    next => exact gives_pure hstandard
    next =>
      refine gives_bind (gives_check_keptFields t) fun fields hfields => ?_
      obtain ⟨items, hfields, hnames⟩ := hfields
      refine gives_pure
        ⟨⟨name, source, [toolNote t], false, items, none⟩, ?_, rfl, rfl, hnames⟩
      rw [Stage.text_eq, toolComment_eq, hfields]
      rfl
  next hname =>
    rw [hname]
    split
    next => exact gives_pure hstandard
    next =>
      refine gives_bind (gives_true _) fun order _ => gives_bind (gives_true _) fun _ _ => ?_
      refine gives_pure ⟨⟨name, source, orderNotes t order, false, passed entering, none⟩, ?_, rfl,
        rfl, hpassed⟩
      rw [Stage.text_eq, orderComments_eq]
      rfl
  next hfilter hformula hmulti hselect hsort =>
    split
    next heq => exact absurd heq hformula
    next heq => exact absurd heq hmulti
    next heq => exact absurd heq hselect
    next => exact gives_pure hstandard

/-- Each stage reads from the one before it, the first from a block with the name. -/
def Follow : String → List Stage → Prop
  | _, [] => True
  | previous, s :: rest => s.source = previous ∧ Follow s.name rest

section Chain

variable {w : Workflow} {I : Build → Prop} {P : Stage → Tool → Prop}

/-- The blocks of tools are stages that follow each other, with the names of their places. What is
known of the block of each tool is known of its stage. -/
theorem ensures_stepBlocks {write : Tool → String → String → Work String} (count : Nat)
    {tools : List Tool} (hblock : ∀ t ∈ tools, ∀ source name,
      Ensures I (write t source name) fun text =>
        ∃ s : Stage, text = s.text ∧ s.name = name ∧ s.source = source ∧ P s t) (i : Nat)
    (previous : String) : Ensures I (stepBlocks write count i previous tools) fun texts =>
      ∃ stages : List Stage, texts = stages.map (·.text)
        ∧ stages.map (·.name) = (range' i tools.length).map (blockName count)
        ∧ Follow previous stages ∧ Forall₂ P stages tools := by
  induction tools generalizing i previous with
  | nil => exact ensures_pure ⟨[], rfl, rfl, trivial, .nil⟩
  | cons t ts ih =>
    unfold stepBlocks
    refine ensures_bind (hblock t (.head _) _ _) fun text hfirst => ?_
    refine ensures_bind (ih (forall_mem_cons.mp hblock).2 _ _) fun texts hrest => ?_
    obtain ⟨s, htext, hname, hsource, hs⟩ := hfirst
    obtain ⟨stages, htexts, hnames, hfollow, hall⟩ := hrest
    refine ensures_pure ⟨s :: stages, ?_, ?_, ⟨hsource, hname ▸ hfollow⟩, .cons hs hall⟩
    · rw [htext, htexts]
      rfl
    · rw [map_cons, hname, hnames]
      rfl

theorem finalSelect_eq : finalSelect columns = (Ending.selection columns "final").text := by
  change finalSelect columns = readAll columns "final"
  unfold finalSelect readAll
  split
  next => rfl
  next =>
    have hfinal : "\nfrom final" = "\nfrom " ++ "final" := rfl
    rw [hfinal, String.append_assoc, String.append_assoc, String.append_assoc]

/-- The query of a chain has a stage for each tool, and selects the columns of the last tool. -/
theorem ensures_chainQuery {Q : Tool → List String → Prop} {chain : List Tool} (sources : Nat)
    (hblock : ∀ t ∈ chain, ∀ source name, Ensures I (toolBlock w t source name) fun text =>
      ∃ s : Stage, text = s.text ∧ s.name = name ∧ s.source = source ∧ P s t)
    (hcolumns : ∀ t ∈ chain, Ensures I (toolColumns w t) (Q t)) :
    Ensures I (chainQuery w chain sources) fun text => ∃ (stages : List Stage) (last : Tool)
      (columns : List String),
      text = Clause.text ⟨stages.map (·.definition), .selection columns "final"⟩
        ∧ stages.map (·.name) = (range chain.length).map (blockName chain.length)
        ∧ Follow (sourceBlock sources) stages ∧ Forall₂ P stages chain
        ∧ chain.getLast? = some last ∧ Q last columns := by
  unfold chainQuery
  refine ensures_bind (ensures_stepBlocks _ hblock 0 _) fun texts htexts => ?_
  obtain ⟨stages, htexts, hnames, hfollow, hall⟩ := htexts
  split
  next => exact fun b hb => ⟨hb, fun _ h => by cases h⟩
  next last hlast =>
    refine ensures_bind (hcolumns last (mem_of_getLast? hlast)) fun columns hlisted => ?_
    refine ensures_pure ⟨stages, last, columns, ?_, ?_, hfollow, hall, hlast, hlisted⟩
    · rw [← intercalate_eq_text, htexts, finalSelect_eq, map_map]
      rfl
    · rw [hnames, range_eq_range']

end Chain

theorem gives_chainQuery (w : Workflow) (chain : List Tool) (sources : Nat) :
    Gives (chainQuery w chain sources) fun text => ∃ (stages : List Stage) (columns : List String),
      text = Clause.text ⟨stages.map (·.definition), .selection columns "final"⟩
        ∧ stages.map (·.name) = (range chain.length).map (blockName chain.length)
        ∧ Follow (sourceBlock sources) stages := by
  have hblock : ∀ t ∈ chain, ∀ source name, Ensures (fun _ => True) (toolBlock w t source name)
      fun text => ∃ s : Stage, text = s.text ∧ s.name = name ∧ s.source = source ∧ True := by
    refine fun t _ source name b _ => ⟨trivial, fun text h => ?_⟩
    obtain ⟨entering, hentering, -⟩ := bind_ok h
    obtain ⟨s, htext, hname, hsource, -⟩ := toolBlock_lists hentering h
    exact ⟨s, htext, hname, hsource, trivial⟩
  have hcolumns : ∀ t ∈ chain, Ensures (fun _ => True) (toolColumns w t) fun _ => True :=
    fun t _ b _ => ⟨trivial, fun _ _ => trivial⟩
  intro b text h
  obtain ⟨stages, last, columns, htext, hnames, hfollow, -⟩ :=
    (ensures_chainQuery sources hblock hcolumns b trivial).2 text h
  exact ⟨stages, columns, htext, hnames, hfollow⟩

/-! ## Names of what is read -/

/-- The sources are read in blocks with the names of their places, and the word stands before each
of them. -/
theorem gives_parts_readSources (w : Workflow) (workflow : String) (noted : Bool)
    (upstream : List Tool) : Gives (readSources w workflow noted upstream) fun rs =>
      rs.map (fun r => (r.definition.opens, r.definition.name))
        = (range upstream.length).map fun i => (true, readName upstream.length i) := by
  have hparts : ∀ (r : Reading) (name : String), r.opening = "with " ++ name →
      (r.definition.opens, r.definition.name) = (true, name) := by
    intro r name h
    rw [← openingParts_with, ← h]
    rfl
  have hplaces : (range upstream.length).map (fun i => (true, readName upstream.length i))
      = upstream.zipIdx.map fun p => (true, readName upstream.length p.2) := by
    rw [range_eq_range', ← zipIdx_map_snd 0 upstream, map_map]
    rfl
  rw [hplaces]
  refine gives_mapM fun p _ => gives_bind (gives_true _) fun columns _ => ?_
  dsimp only
  split
  · exact gives_bind (gives_true _) fun _ _ => gives_pure (hparts _ _ rfl)
  · exact gives_pure (hparts _ _ rfl)

/-- The sides of a join are read in blocks with the names of the sides. -/
theorem gives_names_readSides (w : Workflow) (workflow : String) (t : Tool) :
    Gives (readSides w workflow t) fun rs =>
      ∀ r ∈ rs, r.definition.name = "left_source" ∨ r.definition.name = "right_source" := by
  have hside : ∀ (first : Bool) (side : String) (u : Tool), openingParts (side ++ "_source")
      = (false, side ++ "_source") → Gives (readSide w workflow first side u) fun r =>
        r.definition.name = side ++ "_source" := by
    intro first side u hplain
    have hname : ∀ r : Reading,
        r.opening = (if first then "with " ++ (side ++ "_source") else side ++ "_source") →
        r.definition.name = side ++ "_source" := by
      intro r h
      change (openingParts r.opening).2 = _
      rw [h]
      split
      next => rw [openingParts_with]
      next => rw [hplain]
    refine gives_bind (gives_true _) fun columns _ => ?_
    dsimp only
    split
    · exact gives_bind (gives_true _) fun _ _ => gives_pure (hname _ rfl)
    · exact gives_pure (hname _ rfl)
  unfold readSides
  rcases joinSides t w with ⟨left, right⟩
  refine gives_bind (gives_mapM fun u _ => hside _ _ u (by decide)) fun ls hls => ?_
  refine gives_bind (gives_mapM fun u _ => hside _ _ u (by decide)) fun rs hrs => gives_pure ?_
  have hall : ∀ {xs : List Reading} {us : List Tool} {name : String},
      xs.map (·.definition.name) = us.map (fun _ => name) → ∀ r ∈ xs, r.definition.name = name := by
    intro xs us name h r hr
    have hmem : r.definition.name ∈ us.map fun _ => name := h ▸ mem_map_of_mem hr
    obtain ⟨-, -, heq⟩ := mem_map.mp hmem
    exact heq.symm
  intro r hr
  rcases mem_append.mp hr with hr | hr
  · exact .inl (hall hls r hr)
  · exact .inr (hall hrs r hr)

end Work

/-! ## Files -/

/-- The file reads `n` sources and then works in a chain of `m` stages: its parts behind four lines
of comments. -/
structure ModelFile.Combines (n m : Nat) (stages : List Stage) (columns : List String)
    (f : ModelFile) : Prop where
  head : f.head.drop 4 = configuration "table"
  body : f.body = [Clause.text ⟨stages.map (·.definition), .selection columns "final"⟩]
  reads : f.reads.map (fun r => (r.definition.opens, r.definition.name))
    = (range n).map fun i => (true, readName n i)
  names : stages.map (·.name) = (range m).map (Work.blockName m)
  follow : Work.Follow (Work.sourceBlock n) stages

namespace Work

variable {τ : Type} {R : ModelFile → τ → Prop}

theorem emits_writeChain {w : Workflow} {workflow : String} {first second : Tool} {rest : List Tool}
    {t : τ} (h : ∀ f stages columns,
      f.Combines (w.upstream first.id).length (rest.length + 2) stages columns → R f t) :
    Emits R (writeChain w workflow (first :: second :: rest)) [t] := by
  refine emits_writeMart (still_chain ..) (gives_parts_readSources w workflow false _)
    (gives_chainQuery w _ _) fun rs text hreads hquery => ?_
  obtain ⟨stages, columns, htext, hnames, hfollow⟩ := hquery
  exact h _ stages columns ⟨rfl, congrArg (fun text => [text]) htext, hreads, hnames, hfollow⟩

end Work

end Replatform.Project

import Replatform.Proofs.Project.Clause
import Replatform.Proofs.Project.Record
import Replatform.Proofs.Project.Selection
/-!
# What the block of a tool exposes

The columns of a tool are found twice: once as those that leave it, and once as the list of its
block. The list begins with what enters the tool. What leaves is found from the same columns, but
each once, and by the kind of the tool.

A block `Exposes` columns if they are what it lists and no two of them are written alike. A tool is
`Transparent` if its details make no difference between the two lists: a formula gives each column a
new name, a field that is kept is cut the same way twice, and a summary has no columns but those
that enter it. These are the tools whose blocks expose what leaves them (`exposes_iff_transparent`).
-/

namespace Replatform.Project

open List Stateful

variable {w : Workflow}

/-! ## Columns that enter -/

theorem distinct_append_congr {xs ys : List String} (h : distinct xs = distinct ys)
    (zs : List String) : distinct (xs ++ zs) = distinct (ys ++ zs) := by
  induction zs using reverseRecOn with
  | nil => rwa [append_nil, append_nil]
  | append_singleton zs z ih =>
    rw [← append_assoc, ← append_assoc, distinct_concat, distinct_concat, ih]

/-- Names that were there need not be left out. -/
theorem distinct_append_filter (xs ys : List String) :
    distinct (xs ++ ys.filter (!xs.contains ·)) = distinct (xs ++ ys) := by
  induction ys using reverseRecOn with
  | nil => rfl
  | append_singleton ys y ih =>
    rw [filter_append, ← append_assoc, ← append_assoc, distinct_concat, ← ih]
    by_cases hy : y ∈ xs
    · -- the name is left out on one side, and adds nothing on the other
      have hnone : [y].filter (!xs.contains ·) = [] := by simp [hy]
      have hmem : y ∈ distinct (xs ++ ys.filter (!xs.contains ·)) :=
        mem_distinct.mpr (mem_append_left _ hy)
      rw [hnone, append_nil, if_pos hmem]
    · have hone : [y].filter (!xs.contains ·) = [y] := by simp [hy]
      rw [hone, distinct_concat]

theorem distinct_foldl_filter (f : Tool → List String) (us : List Tool) :
    ∀ all, distinct (us.foldl (fun all u => all ++ (f u).filter (!all.contains ·)) all)
      = distinct (all ++ us.flatMap f) := by
  induction us with
  | nil =>
    intro all
    rw [flatMap_nil, append_nil, foldl_nil]
  | cons u us ih =>
    intro all
    rw [foldl_cons, ih, flatMap_cons, ← append_assoc]
    exact distinct_append_congr (distinct_append_filter all (f u)) _

/-- What leaves a tool is found from the columns that enter it, each once. -/
theorem plainColumns_eq_leaving (h : w.Acyclic) (t : Tool) :
    plainColumns w h t = leavingColumns t (distinct ((ColumnQuery.entering t).plain w h)) := by
  rw [plainColumns_eq]
  exact congrArg _ (distinct_foldl_filter (plainColumns w h) (w.upstream t.id) []).symm

/-! ## Lists that agree -/

/-- Columns as they are written. -/
def quoted (columns : List String) : List String := columns.map quoteColumn

def summaryColumns (t : Tool) : List String :=
  t.summaries.foldl (fun known s => addNew known (s.output.getD (s.field.getD ""))) t.groupBy

/-- The column that leaves a tool for a field that it keeps. -/
def leavingName (field : String) : String := if isRenamed field then aliasOf field else field

/-- What the tool does to the columns is no other for its block than for the columns that leave
it, and no two of them are written alike. -/
def Transparent (t : Tool) (entering : List String) : Prop :=
  match t.category, t.name with
  | .input, _ =>
    quoted (shown t entering) = quoted (mentionedColumns t) ∧ (quoted (mentionedColumns t)).Nodup
  | _, "Select" =>
    if t.selected.isEmpty then (quoted entering).Nodup
    else (∀ f ∈ t.selected, quoteColumn (keptName f) = quoteColumn (leavingName f))
      ∧ (quoted (t.selected.map leavingName)).Nodup
  | _, "Formula" | _, "Multi-Field Formula" =>
    (∀ f ∈ formulaFields t, f ≠ "") ∧ (quoted (entering ++ formulaFields t)).Nodup
  | _, "Summarize" => quoted entering = quoted (summaryColumns t) ∧ (quoted entering).Nodup
  | _, _ => (quoted entering).Nodup

section Agree

variable {t : Tool} {entering : List String}

theorem nodup_of_nodup_quoted {columns : List String} (h : (quoted columns).Nodup) :
    columns.Nodup := Nodup.of_map _ h

theorem length_addNew_le (known : List String) (f : String) :
    (addNew known f).length ≤ known.length + 1 := by
  unfold addNew
  split <;> simp

theorem length_foldl_addNew_le (fields : List String) :
    ∀ known, (fields.foldl addNew known).length ≤ known.length + fields.length := by
  induction fields with
  | nil => exact fun known => Nat.le_refl _
  | cons f fs ih =>
    intro known
    have hstep := length_addNew_le known f
    have hrest := ih (addNew known f)
    rw [foldl_cons, length_cons]
    omega

/-- If as many columns are added as there are fields, none of these is empty. -/
theorem ne_empty_of_length_foldl_addNew {fields : List String} : ∀ {known : List String},
    (fields.foldl addNew known).length = known.length + fields.length →
      ∀ f ∈ fields, f ≠ "" := by
  induction fields with
  | nil => exact fun _ f hf => absurd hf not_mem_nil
  | cons f fs ih =>
    intro known h
    have hstep := length_addNew_le known f
    have hrest := length_foldl_addNew_le fs (addNew known f)
    rw [foldl_cons, length_cons] at h
    have hfs : (fs.foldl addNew (addNew known f)).length
        = (addNew known f).length + fs.length := by omega
    refine forall_mem_cons.mpr ⟨fun hempty => ?_, ih hfs⟩
    have hsame : addNew known f = known := by
      rw [hempty]
      rfl
    rw [hsame] at hrest h
    omega

theorem foldl_addNew_eq {fields : List String} : ∀ {known : List String},
    (∀ f ∈ fields, f ≠ "") → (known ++ fields).Nodup →
      fields.foldl addNew known = known ++ fields := by
  induction fields with
  | nil =>
    intro known _ _
    rw [append_nil, foldl_nil]
  | cons f fs ih =>
    intro known hne hnodup
    have hnew : f ∉ known := fun hmem =>
      disjoint_of_nodup_append hnodup hmem (.head _)
    have hadd : addNew known f = known ++ [f] := by
      simp [addNew, hne f (.head _), hnew]
    rw [append_cons] at hnodup
    rw [foldl_cons, hadd, ih (forall_mem_cons.mp hne).2 hnodup, ← append_cons]

theorem formulaNames_eq (h : ∀ f ∈ formulaFields t, f ≠ "") : formulaNames t = formulaFields t := by
  unfold formulaNames formulaFields at *
  refine map_congr_left fun f hf => ?_
  have hfield := h _ (mem_map_of_mem hf)
  cases hvalue : fieldText? f "field" with
  | some field => rfl
  | none =>
    rw [hvalue] at hfield
    exact absurd rfl hfield

/-- A block of formulas lists what is computed behind what enters. -/
theorem formulas_agree_iff :
    (quoted (entering ++ formulaNames t)
        = quoted ((formulaFields t).foldl addNew (distinct entering))
      ∧ (quoted (entering ++ formulaNames t)).Nodup)
    ↔ (∀ f ∈ formulaFields t, f ≠ "") ∧ (quoted (entering ++ formulaFields t)).Nodup := by
  constructor
  · intro h
    obtain ⟨hsame, hnodup⟩ := h
    -- the block has a name for each formula, so no formula may be passed over by the other list
    have hentering : entering.Nodup := (nodup_of_nodup_quoted hnodup).of_append_left
    have hlength := congrArg length hsame
    rw [distinct_eq_self hentering] at hlength
    simp only [quoted, length_map, length_append] at hlength
    have hcount : (formulaNames t).length = (formulaFields t).length := by
      rw [formulaNames, formulaFields, length_map, length_map]
    rw [hcount] at hlength
    have hfields := ne_empty_of_length_foldl_addNew hlength.symm
    rw [formulaNames_eq hfields] at hnodup
    exact ⟨hfields, hnodup⟩
  · intro h
    obtain ⟨hfields, hnodup⟩ := h
    have hall := nodup_of_nodup_quoted hnodup
    rw [formulaNames_eq hfields, distinct_eq_self hall.of_append_left, foldl_addNew_eq hfields hall]
    exact ⟨rfl, hnodup⟩

/-- A block that passes its columns on lists them as often as they enter. -/
theorem passed_agree_iff : (quoted entering = quoted (distinct entering) ∧ (quoted entering).Nodup)
    ↔ (quoted entering).Nodup := by
  refine ⟨And.right, fun h => ⟨?_, h⟩⟩
  rw [distinct_eq_self (nodup_of_nodup_quoted h)]

end Agree

/-! ## The kinds of tools -/

section Kinds

variable {t : Tool} (hinput : t.category ≠ .input) (entering : List String)

include hinput

theorem leavingColumns_formula (hname : t.name = "Formula" ∨ t.name = "Multi-Field Formula") :
    leavingColumns t entering = (formulaFields t).foldl addNew entering := by
  unfold leavingColumns
  rcases hname with hname | hname
  all_goals
    rw [hname]
    cases hcategory : t.category
    case input => exact absurd hcategory hinput
    all_goals rfl

theorem leavingColumns_summarize (hname : t.name = "Summarize") :
    leavingColumns t entering = summaryColumns t := by
  unfold leavingColumns
  rw [hname]
  cases hcategory : t.category
  case input => exact absurd hcategory hinput
  all_goals rfl

theorem leavingColumns_select_empty (hname : t.name = "Select")
    (hselected : t.selected.isEmpty) : leavingColumns t entering = entering := by
  unfold leavingColumns
  rw [hname]
  cases hcategory : t.category
  case input => exact absurd hcategory hinput
  all_goals exact if_pos hselected

/-- All other tools pass on what enters them. -/
theorem leavingColumns_other (hselect : t.name ≠ "Select") (hformula : t.name ≠ "Formula")
    (hmulti : t.name ≠ "Multi-Field Formula") (hsummarize : t.name ≠ "Summarize")
    (hne : entering ≠ []) : leavingColumns t entering = entering := by
  unfold leavingColumns
  split
  next hcategory => exact absurd hcategory hinput
  next hname _ => exact absurd hname hselect
  next hname _ => exact absurd hname hformula
  next hname _ => exact absurd hname hmulti
  next hname _ => exact absurd hname hsummarize
  next => rfl
  next => rfl
  next => rfl
  next => rfl
  next => rw [if_neg (mt List.isEmpty_iff.mp hne)]

omit hinput

theorem shown_formula (hname : t.name = "Formula" ∨ t.name = "Multi-Field Formula") :
    shown t entering = entering ++ formulaNames t := by
  unfold shown
  rcases hname with hname | hname <;> rw [hname] <;> rfl

theorem shown_select (hname : t.name = "Select") :
    shown t entering = if t.selected.isEmpty then entering else t.selected.map keptName := by
  unfold shown
  rw [hname]
  rfl

theorem shown_other (hselect : t.name ≠ "Select") (hformula : t.name ≠ "Formula")
    (hmulti : t.name ≠ "Multi-Field Formula") : shown t entering = entering := by
  unfold shown
  split
  next hname => exact absurd hname hformula
  next hname => exact absurd hname hmulti
  next hname => exact absurd hname hselect
  next => rfl

end Kinds

theorem distinct_ne_nil {xs : List String} (h : xs ≠ []) : distinct xs ≠ [] := by
  obtain ⟨x, hx⟩ := exists_mem_of_ne_nil xs h
  exact ne_nil_of_mem (mem_distinct.mpr hx)

variable {t : Tool}

/-- The two lists agree for transparent tools and for no others. -/
theorem agree_iff_transparent {entering : List String} (hne : entering ≠ []) :
    (quoted (shown t entering) = quoted (leavingColumns t (distinct entering))
      ∧ (quoted (shown t entering)).Nodup) ↔ Transparent t entering := by
  unfold Transparent
  split
  next hcategory =>
    rw [leavingColumns_source hcategory]
    -- where the lists agree, either may be asked for repetitions
    refine and_congr_right fun hsame => ?_
    rw [hsame]
  next hname hinput =>
    rw [shown_select entering hname]
    split
    next hselected =>
      rw [leavingColumns_select_empty hinput _ hname hselected]
      exact passed_agree_iff
    next hselected =>
      have hleaving : leavingColumns t (distinct entering) = t.selected.map leavingName :=
        leavingColumns_select hname hinput (mt isEmpty_iff.mpr hselected) _
      have hsame : quoted (t.selected.map keptName) = quoted (t.selected.map leavingName)
          ↔ ∀ f ∈ t.selected, quoteColumn (keptName f) = quoteColumn (leavingName f) := by
        simp only [quoted, map_map, map_inj_left, Function.comp_apply]
      rw [hleaving, ← hsame]
      refine and_congr_right fun hsame => ?_
      rw [hsame]
  next hname hinput =>
    rw [shown_formula entering (.inl hname), leavingColumns_formula hinput _ (.inl hname)]
    exact formulas_agree_iff
  next hname hinput =>
    rw [shown_formula entering (.inr hname), leavingColumns_formula hinput _ (.inr hname)]
    exact formulas_agree_iff
  next hname hinput =>
    have hshown : shown t entering = entering := by
      unfold shown
      rw [hname]
      rfl
    rw [hshown, leavingColumns_summarize hinput _ hname]
  next hinput hselect hformula hmulti hsummarize =>
    -- what enters is not empty, so no other columns take its place
    rw [shown_other entering hselect hformula hmulti, leavingColumns_other hinput _ hselect
      hformula hmulti hsummarize (distinct_ne_nil hne)]
    exact passed_agree_iff

/-! ## Blocks that can be written -/

/-- The details of the tool can be read: a renamed field has the word in capitals, and a tool that
sorts names each field. -/
def Legible (t : Tool) : Prop :=
  match t.name with
  | "Select" => ∀ f ∈ t.selected, isRenamed f → Text.has asWord f.toList
  | "Sort" => ∀ r ∈ t.settingRecords "sort_fields", (fieldText? r "field").isSome
  | _ => True

theorem exists_keptFields_iff : (∃ fields, keptFields t = .ok fields)
    ↔ ∀ f ∈ t.selected, isRenamed f → Text.has asWord f.toList := by
  rw [keptFields, exists_map_eq_ok, exists_mapM_eq_ok]
  refine forall₂_congr fun f _ => ?_
  -- the text of a field that keeps its name is the field
  have hcut := Choice.exists_keptField_iff (c := ⟨f, true, ""⟩)
  have htorn : ¬ Choice.Torn ⟨f, true, ""⟩ ↔ (isRenamed f → Text.has asWord f.toList) := by
    simp [Choice.Torn]
  exact hcut.trans htorn

theorem exists_sortClause_iff : (∃ order, sortClause t = .ok order)
    ↔ ∀ r ∈ t.settingRecords "sort_fields", (fieldText? r "field").isSome := by
  have hfield : ∀ r, (∃ field, sortField r = .ok field) ↔ (fieldText? r "field").isSome := by
    intro r
    unfold sortField
    cases fieldText? r "field" with
    | some field => exact iff_of_true ⟨_, rfl⟩ rfl
    | none => exact iff_of_false (fun h => by obtain ⟨_, h⟩ := h; cases h) (by simp)
  have hmap : (∃ order, sortClause t = .ok order)
      ↔ ∃ fields, (t.settingRecords "sort_fields").mapM sortField = .ok fields := by
    unfold sortClause
    constructor
    · intro h
      obtain ⟨order, h⟩ := h
      obtain ⟨fields, hfields, -⟩ := bind_eq_ok.mp h
      exact ⟨fields, hfields⟩
    · intro h
      obtain ⟨fields, hfields⟩ := h
      exact ⟨_, bind_eq_ok.mpr ⟨fields, hfields, rfl⟩⟩
  rw [hmap, exists_mapM_eq_ok]
  exact forall₂_congr fun r _ => hfield r

namespace Work

/-- Every formula becomes some SQL. -/
theorem yields_convertExpression (e : String) : Yields (fun _ => True) (convertExpression e)
    (if e.isEmpty then "NULL" else (Formula.convert e).sql) := by
  have hnotes : ∀ (notes : List Formula.Note) (b : Build), result (notes.forM fun note =>
      addTodo "expression" ("Review formula conversion: " ++ note.message)
        (String.ofList (e.toList.take 100)) "medium") b = .ok () := by
    intro notes
    induction notes with
    | nil => exact fun b => rfl
    | cons note notes ih => exact fun b => ih _
  intro b _
  refine ⟨?_, trivial⟩
  unfold convertExpression
  split
  next => rfl
  next => exact result_bind_of_ok (hnotes _ b)

theorem yields_formulaColumns (t : Tool) : ∃ columns,
    Yields (fun _ => True) (formulaColumns t) columns :=
  ⟨_, yields_mapM fun _ _ => yields_bind (yields_convertExpression _) (yields_pure _)⟩

theorem exists_check_iff {α : Type} {r : Except Failure α} {f : α → Work String} {b : Build}
    (hf : ∀ a, ∃ text, result (f a) b = .ok text) :
    (∃ text, result (check r >>= f) b = .ok text) ↔ ∃ a, r = .ok a := by
  cases r with
  | ok a => exact iff_of_true (hf a) ⟨a, rfl⟩
  | error e =>
    refine iff_of_false (fun h => ?_) fun h => ?_
    · obtain ⟨text, h⟩ := h
      cases h
    · obtain ⟨a, h⟩ := h
      cases h

/-- The block of a tool can be written exactly if its details can be read. -/
theorem exists_stepBlock_iff (style : BlockStyle) (t : Tool) (source name : String) (b : Build) :
    (∃ text, result (stepBlock style t source name) b = .ok text) ↔ Legible t := by
  have hformula : ∀ (standard : String) (f : List String → String) (b' : Build), ∃ text,
      result (if (t.settingRecords "formulas").isEmpty then pure standard
        else formulaColumns t >>= fun columns => pure (f columns) : Work String) b' = .ok text := by
    intro standard f b'
    split
    next => exact ⟨_, rfl⟩
    next =>
      obtain ⟨columns, hcolumns⟩ := yields_formulaColumns t
      exact ⟨_, result_bind_of_ok (hcolumns b' trivial).1⟩
  unfold stepBlock
  dsimp only
  split
  next hname =>
    refine iff_of_true ⟨_, result_bind_of_ok (yields_convertExpression _ _ trivial).1⟩ ?_
    rw [Legible, hname]
    trivial
  next hname =>
    refine iff_of_true (hformula ..) ?_
    rw [Legible, hname]
    trivial
  next hname =>
    refine iff_of_true (hformula ..) ?_
    rw [Legible, hname]
    trivial
  next hname =>
    rw [Legible, hname]
    split
    next hselected => exact iff_of_true ⟨_, rfl⟩ (by simp [isEmpty_iff.mp hselected])
    next => exact (exists_check_iff fun _ => ⟨_, rfl⟩).trans exists_keptFields_iff
  next hname =>
    rw [Legible, hname]
    split
    next hfields => exact iff_of_true ⟨_, rfl⟩ (by simp [isEmpty_iff.mp hfields])
    next => exact (exists_check_iff fun _ => ⟨_, rfl⟩).trans exists_sortClause_iff
  next hselect hsort =>
    refine iff_of_true ⟨_, rfl⟩ ?_
    unfold Legible
    split
    next hname => exact absurd hname hselect
    next hname => exact absurd hname hsort
    next => trivial

theorem exists_toolBlock_iff (ht : t ∈ w.tools) (source name : String) (b : Build) :
    (∃ text, result (toolBlock w t source name) b = .ok text) ↔ Legible t := by
  obtain ⟨entering, hentering, -⟩ := ColumnQuery.ends_ask (q := .entering t) ht b
  have hentering : result (enteringColumns w t) b = .ok entering := hentering
  rw [toolBlock, result_bind_of_ok hentering]
  exact exists_stepBlock_iff ..

theorem exists_stepBlocks_iff {write : Tool → String → String → Work String} (count : Nat)
    {tools : List Tool} (hwrite : ∀ t ∈ tools, ∀ source name (b : Build),
      (∃ text, result (write t source name) b = .ok text) ↔ Legible t) :
    ∀ (i : Nat) (previous : String) (b : Build),
      (∃ texts, result (stepBlocks write count i previous tools) b = .ok texts)
        ↔ ∀ t ∈ tools, Legible t := by
  induction tools with
  | nil => exact fun _ _ _ => iff_of_true ⟨[], rfl⟩ (forall_mem_nil _)
  | cons t ts ih =>
    intro i previous b
    obtain ⟨ht, hts⟩ := forall_mem_cons.mp hwrite
    rw [stepBlocks, forall_mem_cons, ← ht previous (blockName count i) b,
      ← ih hts (i + 1) (blockName count i) (state (write t previous (blockName count i)) b)]
    constructor
    · intro h
      obtain ⟨texts, h⟩ := h
      obtain ⟨text, htext, hrest, -⟩ := bind_ok h
      obtain ⟨rest, hrest, -⟩ := bind_ok hrest
      exact ⟨⟨text, htext⟩, rest, hrest⟩
    · intro h
      obtain ⟨⟨text, htext⟩, rest, hrest⟩ := h
      refine ⟨text :: rest, ?_⟩
      rw [result_bind_of_ok htext, result_bind_of_ok hrest]
      rfl

/-- The query of a chain can be written exactly if the details of its tools can be read. -/
theorem exists_chainQuery_iff {chain : List Tool} (hchain : ∀ t ∈ chain, t ∈ w.tools)
    (hne : chain ≠ []) (sources : Nat) (b : Build) :
    (∃ text, result (chainQuery w chain sources) b = .ok text) ↔ ∀ t ∈ chain, Legible t := by
  have hwrite := fun t ht => exists_toolBlock_iff (hchain t ht)
  rw [← exists_stepBlocks_iff chain.length hwrite 0 (sourceBlock sources) b]
  unfold chainQuery
  constructor
  · intro h
    obtain ⟨text, h⟩ := h
    obtain ⟨texts, htexts, -⟩ := bind_ok h
    exact ⟨texts, htexts⟩
  · intro h
    obtain ⟨texts, htexts⟩ := h
    rw [result_bind_of_ok htexts, getLast?_eq_some_getLast hne]
    exact ⟨_, result_bind_of_ok (run_toolColumns w _ _).1⟩

end Work

/-! ## What is kept -/

/-- What is kept stays what would be found anew. -/
def Recalls (w : Workflow) (h : w.Acyclic) (b b' : Build) : Prop :=
  Kept w h b.columns → Kept w h b'.columns

instance {h : w.Acyclic} : Muted (Recalls w h) where
  refl _ := id
  trans _ _ _ h₁ h₂ := h₂ ∘ h₁
  printed _ _ := id
  noted _ _ _ _ _ := id

/-- The columns that a block lists, as they are written. -/
def Stage.columns (s : Stage) : List String := quoted (s.items.map (·.name))

/-- The block lists the columns and nothing else, and no two of them are written alike. -/
def Stage.Exposes (s : Stage) (columns : List String) : Prop :=
  s.columns = quoted columns ∧ s.columns.Nodup

/-- Each of the columns is one that the block lists, and not two. -/
def Stage.Serves (s : Stage) (columns : List String) : Prop :=
  ∀ c ∈ quoted columns, s.columns.count c = 1

theorem Stage.Exposes.serves {s : Stage} {columns : List String} (h : s.Exposes columns) :
    s.Serves columns := by
  intro c hc
  rw [← h.1] at hc
  exact count_eq_one_of_mem h.2 hc

/-- Where columns are known to enter, the block lists them with what the tool does to them, and it
exposes what leaves the tool exactly if the tool is transparent. -/
def Stage.Shows (w : Workflow) (h : w.Acyclic) (s : Stage) (t : Tool) : Prop :=
  let entering := (ColumnQuery.entering t).plain w h
  entering ≠ [] → s.columns = quoted (shown t entering)
    ∧ (s.Exposes (plainColumns w h t) ↔ Transparent t entering)

section Kept

variable (hids : w.Distinct) (h : w.Acyclic)

include hids

theorem recalls_toolBlock (t : Tool) (source name : String) :
    Within (Recalls w h) (Work.toolBlock w t source name) := by
  have : Work.Inquiring (.within (Recalls w h)) w (· ∈ w.tools) :=
    { columns := fun ht b hb => (ColumnQuery.yields_plain hids h (q := .leaving _) ht b hb).2
      upstream := fun _ _ hu => (Workflow.mem_upstream.mp hu).1
      names := fun _ _ _ => within_bind (R := Recalls w h) within_get fun _ => within_pure _ }
  exact Work.holds_toolBlock (T := .within (Recalls w h)) t source name

theorem ensures_shows (ht : t ∈ w.tools) (source name : String) :
    Ensures (fun b => Kept w h b.columns) (Work.toolBlock w t source name) fun text =>
      ∃ s : Stage, text = s.text ∧ s.name = name ∧ s.source = source ∧ s.Shows w h t := by
  intro b hb
  refine ⟨recalls_toolBlock hids h t source name b hb, fun text htext => ?_⟩
  have hentering := (ColumnQuery.yields_plain hids h (q := .entering t) ht b hb).1
  obtain ⟨s, hs, hname, hsource, hitems⟩ := Work.toolBlock_lists hentering htext
  refine ⟨s, hs, hname, hsource, fun hne => ?_⟩
  rw [if_neg (mt List.isEmpty_iff.mp hne)] at hitems
  refine ⟨congrArg quoted hitems, ?_⟩
  rw [← agree_iff_transparent hne, ← plainColumns_eq_leaving, ← hitems]
  exact Iff.rfl

end Kept

theorem exists_last_of_forall₂ {α β : Type} {R : α → β → Prop} {xs : List α} {ys : List β} {y : β}
    (h : Forall₂ R xs (ys ++ [y])) : ∃ front x, xs = front ++ [x] ∧ R x y := by
  rw [← forall₂_reverse_iff, reverse_append] at h
  obtain ⟨x, front, hx, -, hxs⟩ := forall₂_cons_right_iff.mp h
  exact ⟨front.reverse, x, by simpa using congrArg reverse hxs, hx⟩

/-- What is asked of a workflow without circles, while what is kept is what would be found anew. The
block of a tool can be written exactly if its details can be read, and what is kept stays so. Where
columns are known to enter, the block exposes those that leave the tool exactly if the tool is
transparent. So does each block in the query of a chain. The selection behind them lists the columns
that leave the last tool, and the last block serves it if this tool is transparent. -/
theorem exposes_iff_transparent (hids : w.Distinct) (h : w.Acyclic) {b : Build}
    (hb : Kept w h b.columns) :
    (∀ t ∈ w.tools, ∀ source name,
      ((∃ text, result (Work.toolBlock w t source name) b = .ok text) ↔ Legible t)
      ∧ Kept w h (state (Work.toolBlock w t source name) b).columns
      ∧ ∀ text, result (Work.toolBlock w t source name) b = .ok text →
        ∃ s : Stage, text = s.text ∧ s.name = name ∧ s.source = source ∧ s.Shows w h t)
    ∧ ∀ chain : List Tool, (∀ t ∈ chain, t ∈ w.tools) → chain ≠ [] → ∀ sources,
      ((∃ text, result (Work.chainQuery w chain sources) b = .ok text) ↔ ∀ t ∈ chain, Legible t)
      ∧ Kept w h (state (Work.chainQuery w chain sources) b).columns
      ∧ ∀ text, result (Work.chainQuery w chain sources) b = .ok text →
        ∃ (front : List Stage) (s : Stage) (before : List Tool) (last : Tool),
          chain = before ++ [last] ∧ s.name = "final"
          ∧ text = Clause.text
            ⟨(front ++ [s]).map (·.definition), .selection (plainColumns w h last) "final"⟩
          ∧ Work.Follow (Work.sourceBlock sources) (front ++ [s])
          ∧ Forall₂ (Stage.Shows w h) (front ++ [s]) chain
          ∧ ((ColumnQuery.entering last).plain w h ≠ [] →
            Transparent last ((ColumnQuery.entering last).plain w h) →
              s.Serves (plainColumns w h last)) := by
  constructor
  · intro t ht source name
    obtain ⟨hkept, htext⟩ := ensures_shows hids h ht source name b hb
    exact ⟨Work.exists_toolBlock_iff ht source name b, hkept, htext⟩
  · intro chain hchain hne sources
    have hcolumns : ∀ t ∈ chain, Ensures (fun b => Kept w h b.columns) (Work.toolColumns w t)
        fun columns => columns = plainColumns w h t := by
      intro t ht b hb
      obtain ⟨hresult, hkept⟩ :=
        ColumnQuery.yields_plain hids h (q := .leaving t) (hchain t ht) b hb
      exact ⟨hkept, fun columns hc => Except.ok.inj (hc.symm.trans hresult)⟩
    obtain ⟨hkept, hquery⟩ := Work.ensures_chainQuery sources
      (fun t ht source name => ensures_shows hids h (hchain t ht) source name) hcolumns b hb
    refine ⟨Work.exists_chainQuery_iff hchain hne sources b, hkept, fun text htext => ?_⟩
    obtain ⟨stages, last, columns, htext, hnames, hfollow, hall, hlast, rfl⟩ := hquery text htext
    -- the last tool of the chain has the last block, which is the one that is selected from
    obtain ⟨before, rfl⟩ := getLast?_eq_some_iff.mp hlast
    obtain ⟨front, s, rfl, hs⟩ := exists_last_of_forall₂ hall
    have hname : s.name = "final" := by
      have hnames := congrArg getLast? hnames
      simpa [range_succ, Work.blockName] using hnames
    refine ⟨front, s, before, last, rfl, hname, htext, hfollow, hall, fun hentering hlast => ?_⟩
    exact ((hs hentering).2.mpr hlast).serves

/-- Computes a column that enters it anew. -/
def recompute : Tool :=
  { id := 2, name := "Formula"
    settings := [("formulas", .list [.record [("field", .text "x"), ("expression", .text "1")]])] }

def keepAll : Tool := { id := 3, name := "Filter" }

def recomputed : Workflow :=
  { metadata := { name := "w", path := "w.yxmd" }
    tools := [{ id := 1, name := "Input Data", category := .input, selected := ["x", "y"] },
      recompute, keepAll]
    connections := [⟨1, "Output", 2, "Input"⟩, ⟨2, "Output", 3, "Input"⟩] }

/-- The block of the formula lists the column twice, and the block of the filter behind it serves
the selection. -/
theorem exposes_recomputed : ∃ (s s' : Stage) (front : List Stage),
    result (Work.toolBlock recomputed recompute "source" "final") unasked = .ok s.text
      ∧ result (Work.toolColumns recomputed recompute) unasked = .ok ["x", "y"]
      ∧ s.columns = quoted ["x", "y", "x"] ∧ ¬ s.Exposes ["x", "y"]
      ∧ result (Work.chainQuery recomputed [recompute, keepAll] 1) unasked = .ok (Clause.text
        ⟨(front ++ [s']).map (·.definition), .selection ["x", "y"] "final"⟩)
      ∧ s'.Serves ["x", "y"] := by
  have hids : recomputed.Distinct := by decide
  have hacyclic : recomputed.Acyclic := Workflow.acyclic_of_ascending (by decide)
  have htools : recompute ∈ recomputed.tools ∧ keepAll ∈ recomputed.tools := by
    simp [recomputed]
  have hkept : Kept recomputed hacyclic unasked.columns := by
    intro t _ columns hcolumns
    cases hcolumns
  have hplain : ∀ q : ColumnQuery, q.tool ∈ recomputed.tools → ∀ columns,
      result (q.ask recomputed) unasked = .ok columns → q.plain recomputed hacyclic = columns := by
    intro q hq columns hcolumns
    have hyields := (q.yields_plain hids hacyclic hq unasked hkept).1
    exact Except.ok.inj (hyields.symm.trans hcolumns)
  have hanswers : result (Work.toolColumns recomputed recompute) unasked = .ok ["x", "y"]
      ∧ result (Work.enteringColumns recomputed recompute) unasked = .ok ["x", "y"]
      ∧ result (Work.toolColumns recomputed keepAll) unasked = .ok ["x", "y"]
      ∧ result (Work.enteringColumns recomputed keepAll) unasked = .ok ["x", "y"] := by
    decide +kernel
  have hleaving : plainColumns recomputed hacyclic recompute = ["x", "y"] :=
    hplain (.leaving recompute) htools.1 _ hanswers.1
  have hentering := hplain (.entering recompute) htools.1 _ hanswers.2.1
  have hleaving' : plainColumns recomputed hacyclic keepAll = ["x", "y"] :=
    hplain (.leaving keepAll) htools.2 _ hanswers.2.2.1
  have hentering' := hplain (.entering keepAll) htools.2 _ hanswers.2.2.2
  obtain ⟨hblocks, hchains⟩ := exposes_iff_transparent hids hacyclic hkept
  obtain ⟨hlegible, -, hblock⟩ := hblocks recompute htools.1 "source" "final"
  obtain ⟨text, htext⟩ := hlegible.mpr trivial
  obtain ⟨s, rfl, -, -, hshows⟩ := hblock text htext
  obtain ⟨hlegible', -, hchain⟩ := hchains [recompute, keepAll]
    (by simpa using htools) (by simp) 1
  obtain ⟨text', htext'⟩ := hlegible'.mpr (by simp [Legible, recompute, keepAll])
  obtain ⟨front, s', before, last, hlast, -, hclause, -, -, hserves⟩ := hchain text' htext'
  obtain rfl : keepAll = last := by
    have hlast := congrArg getLast? hlast
    simpa using hlast
  rw [Stage.Shows, hentering, hleaving] at hshows
  rw [hentering', hleaving'] at hserves
  rw [hclause, hleaving'] at htext'
  obtain ⟨hlisted, hexposes⟩ := hshows (by simp)
  refine ⟨s, s', front, htext, hanswers.1, hlisted, fun h => ?_, htext', hserves (by simp) ?_⟩
  · exact absurd (hexposes.mp h).2 (by decide)
  · show (quoted ["x", "y"]).Nodup
    decide

end Replatform.Project

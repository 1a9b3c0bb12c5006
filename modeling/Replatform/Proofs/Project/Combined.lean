import Replatform.Proofs.Project.Clause
import Replatform.Proofs.Project.Integrity
import Replatform.Proofs.Project.Listing
import Replatform.Proofs.Words
/-!
# Models of several tools

The clause of a model of several tools is put together from the blocks that read its sources, the
blocks of its tools and a selection. The word `with` and the commas are written with each block, by
rules that look at the block alone. A clause is `WellFormed` if the word stands once, before the
first block, and a comma behind each block but the last.

A text can be the text of two clauses, as its blocks may have any lines. In a `Plain` clause the
lines inside blocks are empty or begin with a blank, and then a text shows where its blocks begin
and end (`shapes_eq`).
The clause that is written is never well-formed (`clause_of_writeChain`).
-/

namespace Replatform.Project

open List Stateful

open Text (lines)

/-! ## Rows -/

/-- The row is empty or begins with a blank. -/
def Indented (row : List Char) : Prop := row.headD ' ' = ' '

instance (row : List Char) : Decidable (Indented row) := inferInstanceAs (Decidable (_ = _))

/-- All rows of the text are empty or begin with a blank. -/
def Tidy (text : String) : Prop := ∀ row ∈ rowsOf text, Indented row

variable {s : String} (d : Definition) (count i : Nat)

theorem tidy_of_blank (h : '\n' ∉ s.toList) (hblank : Indented s.toList) : Tidy s := by
  intro row hrow
  rw [rowsOf_of_notMem h, mem_singleton] at hrow
  exact hrow ▸ hblank

theorem tidy_append {front s : String} (hfront : front.toList.head? = some ' ')
    (hbreak : '\n' ∉ front.toList) (hs : '\n' ∉ s.toList) : Tidy (front ++ s) := by
  refine tidy_of_blank ?_ ?_
  · rw [String.toList_append, mem_append, not_or]
    exact ⟨hbreak, hs⟩
  · rw [String.toList_append]
    cases hlist : front.toList with
    | nil => simp [hlist] at hfront
    | cons c cs =>
      rw [hlist] at hfront
      exact Option.some.inj hfront

/-- A list with each of its items on a line of its own is tidy if the items have no line breaks. -/
theorem tidy_spread {xs : List String} (h : ∀ x ∈ xs, '\n' ∉ x.toList) :
    Tidy ("        " ++ String.intercalate ",\n        " xs) := by
  have hindent : ∀ s : String, '\n' ∉ s.toList → Tidy ("        " ++ s) := fun s hs =>
    tidy_append rfl (by decide) hs
  induction xs with
  | nil => exact hindent "" (by simp)
  | cons x xs ih =>
    have hx := h x (.head _)
    cases xs with
    | nil => exact hindent x hx
    | cons y xs =>
      have hjoin : "        " ++ String.intercalate ",\n        " (x :: y :: xs)
          = "        " ++ (x ++ ",") ++ "\n"
            ++ ("        " ++ String.intercalate ",\n        " (y :: xs)) := by
        have hcomma : ",\n        " = "," ++ "\n" ++ "        " := rfl
        rw [String.intercalate_cons_cons]
        generalize String.intercalate ",\n        " (y :: xs) = rest
        rw [hcomma]
        simp only [String.append_assoc]
      intro row hrow
      rw [hjoin, rowsOf_break, mem_append] at hrow
      rcases hrow with hrow | hrow
      · refine hindent (x ++ ",") ?_ row hrow
        rw [String.toList_append, mem_append, not_or]
        exact ⟨hx, by decide⟩
      · exact ih (forall_mem_cons.mp h).2 row hrow

/-! ## Shapes -/

/-- What can be seen of a definition from outside: the word before it, its name, and its comma. -/
def Definition.shape (d : Definition) : Bool × String × Bool := (d.opens, d.name, d.comma)

/-- The word stands before the first definition and no other, a comma behind all but the last, no
name is given twice, and a selection follows. -/
structure Clause.WellFormed (c : Clause) : Prop where
  opens : c.definitions.map (·.opens) = true :: replicate (c.definitions.length - 1) false
  commas : c.definitions.map (·.comma) = replicate (c.definitions.length - 1) true ++ [false]
  names : (c.definitions.map (·.name)).Nodup
  selects : ∃ columns source, c.ending = .selection columns source

/-- The name has no blanks and no line breaks, and the lines inside are tidy. -/
structure Definition.Plain (d : Definition) : Prop where
  name : ' ' ∉ d.name.toList ∧ '\n' ∉ d.name.toList
  inner : ∀ line ∈ d.inner, Tidy line

/-- The definitions are plain, and a selection follows. -/
structure Clause.Plain (c : Clause) : Prop where
  definitions : ∀ d ∈ c.definitions, d.Plain
  selects : ∃ columns source, c.ending = .selection columns source

/-- The rows of a plain definition with the empty one behind it. -/
def Definition.rows (d : Definition) : List (List Char) :=
  d.opening.toList :: d.inner.flatMap rowsOf ++ [d.closing.toList, []]

theorem toList_opening : d.opening.toList
    = (if d.opens then "with ".toList else []) ++ d.name.toList ++ " as (".toList := by
  unfold Definition.opening
  split <;> simp

theorem rowsOf_opening {d : Definition} (h : d.Plain) : rowsOf d.opening = [d.opening.toList] := by
  refine rowsOf_of_notMem ?_
  rw [toList_opening, mem_append, mem_append, not_or, not_or]
  refine ⟨⟨?_, h.name.2⟩, by decide⟩
  split <;> decide

theorem rowsOf_text {c : Clause} (h : ∀ d ∈ c.definitions, d.Plain) :
    rowsOf c.text = c.definitions.flatMap (·.rows) ++ rowsOf c.ending.text := by
  have hclosing : ∀ d : Definition, rowsOf d.closing = [d.closing.toList] := by
    intro d
    refine rowsOf_of_notMem ?_
    unfold Definition.closing
    split <;> decide
  have hdefinitions : ∀ ds : List Definition, (∀ d ∈ ds, d.Plain) →
      (definitionLines ds).flatMap rowsOf = ds.flatMap (·.rows) := by
    intro ds hds
    induction ds with
    | nil => rfl
    | cons d ds ih =>
      have hd := hds d (.head _)
      rw [definitionLines_cons, flatMap_append, flatMap_cons, Definition.lines, cons_append,
        flatMap_cons, flatMap_append, flatMap_singleton, rowsOf_opening hd, hclosing,
        ih (forall_mem_cons.mp hds).2, flatMap_cons, Definition.rows]
      simp [rowsOf, Text.splitWhen]
  rw [Clause.text, rowsOf_lines (by simp), flatMap_append, hdefinitions _ h, flatMap_singleton]

/-- The first row that is not indented can be told from the rows before it. -/
theorem indented_unique {front front' back back' : List (List Char)} {row row' : List Char}
    (hfront : ∀ r ∈ front, Indented r) (hfront' : ∀ r ∈ front', Indented r) (hrow : ¬ Indented row)
    (hrow' : ¬ Indented row') (h : front ++ row :: back = front' ++ row' :: back') :
    front = front' ∧ row = row' ∧ back = back' := by
  induction front generalizing front' with
  | nil =>
    cases front' with
    | nil => exact ⟨rfl, cons.inj h⟩
    | cons r front' =>
      obtain ⟨rfl, -⟩ := cons.inj h
      exact absurd (hfront' row (.head _)) hrow
  | cons r front ih =>
    cases front' with
    | nil =>
      obtain ⟨rfl, -⟩ := cons.inj h
      exact absurd (hfront r (.head _)) hrow'
    | cons r' front' =>
      obtain ⟨rfl, hrest⟩ := cons.inj h
      obtain ⟨rfl, hrows⟩ := ih (forall_mem_cons.mp hfront).2
        (forall_mem_cons.mp hfront').2 hrest
      exact ⟨rfl, hrows⟩

/-- An opening shows whether the word stands before the name, and the name. -/
theorem opening_inj {d e : Definition} (hd : d.Plain) (he : e.Plain)
    (h : d.opening.toList = e.opening.toList) : d.opens = e.opens ∧ d.name = e.name := by
  rw [toList_opening, toList_opening] at h
  have hfront := append_cancel_right h
  cases hopens : d.opens <;> cases hopens' : e.opens <;> rw [hopens, hopens'] at hfront
  · exact ⟨rfl, String.toList_inj.mp hfront⟩
  · have hname : d.name.toList = "with ".toList ++ e.name.toList := hfront
    refine absurd ?_ hd.name.1
    rw [hname]
    exact mem_append_left _ (by decide)
  · have hname : "with ".toList ++ d.name.toList = e.name.toList := hfront
    refine absurd ?_ he.name.1
    rw [← hname]
    exact mem_append_left _ (by decide)
  · exact ⟨rfl, String.toList_inj.mp (append_cancel_left hfront)⟩

/-- No selection begins with a row like an opening. -/
theorem rowsOf_selection (columns : List String) (source : String) :
    ∃ row rest, rowsOf (Ending.selection columns source).text = row :: rest ∧ '(' ∉ row := by
  have hfirst : ∀ (first rest text : String), '\n' ∉ first.toList → '(' ∉ first.toList →
      text = first ++ "\n" ++ rest → ∃ row rows, rowsOf text = row :: rows ∧ '(' ∉ row := by
    rintro first rest text hbreak hbracket rfl
    exact ⟨first.toList, rowsOf rest, by rw [rowsOf_break, rowsOf_of_notMem hbreak]; rfl, hbracket⟩
  change ∃ row rest, rowsOf (Work.readAll columns source) = row :: rest ∧ '(' ∉ row
  unfold Work.readAll
  split
  next =>
    refine hfirst "select *" ("/* TODO: specify columns */\nfrom " ++ source) _ (by decide)
      (by decide) ?_
    rw [← String.append_assoc]
    rfl
  next =>
    refine hfirst "select" ("    " ++ formatColumns columns ++ "\nfrom " ++ source) _ (by decide)
      (by decide) ?_
    simp only [← String.append_assoc]
    rfl

theorem closing_inj {d e : Definition} (h : d.closing.toList = e.closing.toList) :
    d.comma = e.comma := by
  unfold Definition.closing at h
  cases hd : d.comma <;> cases he : e.comma
  · rfl
  · exact absurd (hd ▸ he ▸ h) (by decide)
  · exact absurd (hd ▸ he ▸ h) (by decide)
  · rfl

theorem bracket_mem_opening : '(' ∈ d.opening.toList := by
  rw [toList_opening]
  exact mem_append_right _ (by decide)

theorem not_indented_closing : ¬ Indented d.closing.toList := by
  unfold Definition.closing
  split <;> decide

theorem Definition.Plain.indented {d : Definition} (h : d.Plain) :
    ∀ row ∈ d.inner.flatMap rowsOf, Indented row := by
  intro row hrow
  obtain ⟨line, hline, hrow⟩ := mem_flatMap.mp hrow
  exact h.inner line hline row hrow

/-- The rows of plain definitions show their shapes, if what follows does not look like an
opening. -/
theorem shapes_of_rows {ds : List Definition} : ∀ {es : List Definition} {row row' : List Char}
    {rest rest' : List (List Char)}, (∀ d ∈ ds, d.Plain) → (∀ e ∈ es, e.Plain) → '(' ∉ row →
      '(' ∉ row' → ds.flatMap (·.rows) ++ row :: rest = es.flatMap (·.rows) ++ row' :: rest' →
        ds.map (·.shape) = es.map (·.shape) := by
  induction ds with
  | nil =>
    intro es row row' rest rest' _ _ hbracket _ hrows
    cases es with
    | nil => rfl
    | cons e es =>
      obtain ⟨rfl, -⟩ := cons.inj hrows
      exact absurd (bracket_mem_opening e) hbracket
  | cons d ds ih =>
    intro es row row' rest rest' hplain hplain' hbracket hbracket' hrows
    cases es with
    | nil =>
      obtain ⟨heq, -⟩ := cons.inj hrows
      exact absurd (heq ▸ bracket_mem_opening d) hbracket'
    | cons e es =>
      obtain ⟨hd, hds⟩ := forall_mem_cons.mp hplain
      obtain ⟨he, hes⟩ := forall_mem_cons.mp hplain'
      simp only [flatMap_cons, Definition.rows, append_assoc, cons_append, nil_append] at hrows
      obtain ⟨hfirst, hbehind⟩ := cons.inj hrows
      obtain ⟨-, hlast, hlater⟩ := indented_unique hd.indented he.indented
        (not_indented_closing d) (not_indented_closing e) hbehind
      obtain ⟨hopens, hname⟩ := opening_inj hd he hfirst
      have hshape : d.shape = e.shape := by
        rw [Definition.shape, Definition.shape, hopens, hname, closing_inj hlast]
      rw [map_cons, map_cons, hshape, ih hds hes hbracket hbracket' (cons.inj hlater).2]

/-- The text of a plain clause shows the shapes of its definitions. -/
theorem shapes_eq {c e : Clause} (hc : c.Plain) (he : e.Plain) (h : c.text = e.text) :
    c.definitions.map (·.shape) = e.definitions.map (·.shape) := by
  obtain ⟨columns, source, hselects⟩ := hc.selects
  obtain ⟨columns', source', hselects'⟩ := he.selects
  obtain ⟨row, rest, hrow, hbracket⟩ := rowsOf_selection columns source
  obtain ⟨row', rest', hrow', hbracket'⟩ := rowsOf_selection columns' source'
  have hrows := congrArg rowsOf h
  rw [rowsOf_text hc.definitions, rowsOf_text he.definitions, hselects, hselects', hrow, hrow']
    at hrows
  exact shapes_of_rows hc.definitions he.definitions hbracket hbracket' hrows

/-! ## Names of blocks -/

theorem isModelName_readName : IsModelName (readName count i) := by
  unfold readName
  split
  next => exact IsModelName.append (s := "source_") (by decide) (isModelName_natRepr _)
  next => decide

theorem isModelName_blockName : IsModelName (Work.blockName count i) := by
  unfold Work.blockName
  split
  next => exact IsModelName.append (s := "step_") (by decide) (isModelName_natRepr _)
  next => decide

theorem take_readName : (readName count i).toList.take 2 = ['s', 'o'] := by
  unfold readName
  split
  next =>
    rw [String.toList_append]
    rfl
  next => rfl

theorem take_blockName : (Work.blockName count i).toList.take 2 ≠ ['s', 'o'] := by
  unfold Work.blockName
  split
  next =>
    rw [String.toList_append]
    exact fun h => absurd (show ['s', 't'] = ['s', 'o'] from h) (by decide)
  next => decide

/-- Numbers behind the same text can be told apart. -/
theorem numbered_inj (stem : String) {i j : Nat} (h : stem ++ toString i = stem ++ toString j) :
    i = j := by
  have hdigits := congrArg String.toList ((String.append_right_inj stem).mp h)
  have hvalue := congrArg (fun digits => Nat.ofDigitChars 10 digits 0) hdigits
  simpa [Nat.toString_eq_ofList_toDigits] using hvalue

theorem nodup_readNames (count : Nat) : ((range count).map (readName count)).Nodup := by
  refine Nodup.map_on (fun i hi j hj h => ?_) nodup_range
  rw [mem_range] at hi hj
  unfold readName at h
  split at h
  next => exact Nat.succ.inj (numbered_inj _ h)
  next => omega

theorem nodup_blockNames (count : Nat) : ((range count).map (Work.blockName count)).Nodup := by
  have hstep : ∀ s : String, "step_" ++ s ≠ "final" := by
    intro s h
    have htake := congrArg (fun t : String => t.toList.take 1) h
    simp only [String.toList_append] at htake
    exact absurd (show ['s'] = ['f'] from htake) (by decide)
  refine Nodup.map_on (fun i hi j hj h => ?_) nodup_range
  rw [mem_range] at hi hj
  unfold Work.blockName at h
  split at h <;> split at h
  · exact Nat.succ.inj (numbered_inj _ h)
  · exact absurd h (hstep _)
  · exact absurd h.symm (hstep _)
  · omega

/-- No source has the name of a step. -/
theorem nodup_names (n m : Nat) : ((range n).map (readName n)
    ++ (range m).map (Work.blockName m)).Nodup := by
  refine (nodup_readNames n).append (nodup_blockNames m) fun name hread hblock => ?_
  obtain ⟨i, -, rfl⟩ := mem_map.mp hread
  obtain ⟨j, -, hname⟩ := mem_map.mp hblock
  exact take_blockName m j (hname ▸ take_readName n i)

/-! ## Texts without line breaks -/

/-- No name that is read has a line break. -/
structure Reading.OneLine (r : Reading) : Prop where
  model : '\n' ∉ r.model.toList
  columns : ∀ c ∈ r.columns, '\n' ∉ c.toList

/-- No comment, no item and no condition has a line break. -/
structure Stage.OneLine (s : Stage) : Prop where
  notes : ∀ note ∈ s.notes, '\n' ∉ note.toList
  items : ∀ item ∈ s.items, '\n' ∉ item.text.toList
  condition : ∀ sql ∈ s.condition, '\n' ∉ sql.toList

theorem break_notMem_quoteColumn {c : String} (h : '\n' ∉ c.toList) :
    '\n' ∉ (quoteColumn c).toList := by
  unfold quoteColumn
  split
  next => exact h
  next => simp [h]

theorem Reading.tidy {r : Reading} (h : r.OneLine) : ∀ line ∈ r.definition.inner, Tidy line := by
  have hempty : Tidy "" := tidy_of_blank (by decide) (by decide)
  have hsupply : Tidy ("    from " ++ (Supply.model r.model).text) := by
    refine tidy_append rfl (by decide) ?_
    simp [Supply.text, Catalog.jinja, h.model]
  intro line hline
  unfold Definition.inner Reading.definition at hline
  dsimp only at hline
  split at hline
  next =>
    simp only [mem_append, mem_cons, not_mem_nil, or_false] at hline
    rcases hline with (rfl | rfl | rfl) | rfl | rfl
    · exact hempty
    · exact tidy_of_blank (by decide) (by decide)
    · exact tidy_of_blank (by decide) (by decide)
    · exact hsupply
    · exact hempty
  next hcolumns =>
    simp only [mem_append, mem_cons, not_mem_nil, or_false] at hline
    rcases hline with (rfl | rfl | rfl) | rfl | rfl
    · exact hempty
    · exact tidy_of_blank (by decide) (by decide)
    · unfold formatColumns formatColumnsWith
      rw [if_neg hcolumns]
      refine tidy_spread fun x hx => ?_
      obtain ⟨c, hc, rfl⟩ := mem_map.mp hx
      exact break_notMem_quoteColumn (h.columns c hc)
    · exact hsupply
    · exact hempty

theorem Stage.tidy {s : Stage} (h : s.OneLine) (hsource : '\n' ∉ s.source.toList) :
    ∀ line ∈ s.definition.inner, Tidy line := by
  intro line hline
  unfold Definition.inner Stage.definition at hline
  simp only [mem_append, mem_cons, mem_map, not_mem_nil, or_false,
    Option.mem_toList, Option.map_eq_some_iff, Supply.text] at hline
  rcases hline with ((⟨note, hnote, rfl⟩ | rfl | hspread) | rfl) | rfl | ⟨sql, hsql, rfl⟩
  · exact tidy_append rfl (by decide) (h.notes note hnote)
  · exact tidy_of_blank (by decide) (by decide)
  · split at hspread
    next =>
      rw [mem_singleton.mp hspread]
      exact tidy_of_blank (by decide) (by decide)
    next => exact absurd hspread not_mem_nil
  · refine tidy_spread fun x hx => ?_
    obtain ⟨item, hitem, rfl⟩ := mem_map.mp hx
    exact h.items item hitem
  · exact tidy_append rfl (by decide) hsource
  · exact tidy_append rfl (by decide) (h.condition sql hsql)

/-! ## The clause of a chain -/

/-- The clause with the word before its first definition only, and no comma behind the last. -/
def Clause.mended (c : Clause) : Clause :=
  { c with definitions := c.definitions.zipIdx.map fun p =>
      { p.1 with opens := p.2 == 0, comma := p.2 + 1 < c.definitions.length } }

/-- A clause is mended if it has definitions with different names and a selection. -/
theorem Clause.wellFormed_mended {c : Clause} (hne : c.definitions ≠ [])
    (hnames : (c.definitions.map (·.name)).Nodup)
    (hselects : ∃ columns source, c.ending = .selection columns source) :
    c.mended.WellFormed := by
  obtain ⟨k, hlength⟩ : ∃ k, c.definitions.length = k + 1 :=
    Nat.exists_eq_succ_of_ne_zero (mt length_eq_zero_iff.mp hne)
  have hplaces : ∀ {α : Type} (g : Nat → α),
      c.definitions.zipIdx.map (fun p => g p.2) = (range (k + 1)).map g := by
    intro α g
    rw [range_eq_range', ← hlength, ← zipIdx_map_snd 0 c.definitions, map_map]
    rfl
  have hlength' : c.mended.definitions.length - 1 = k := by
    simp [Clause.mended, hlength]
  refine ⟨?_, ?_, ?_, hselects⟩
  · rw [hlength', Clause.mended, map_map]
    refine (hplaces (· == 0)).trans ?_
    rw [range_succ_eq_map, map_cons, map_map]
    refine congrArg _ (eq_replicate_iff.mpr ⟨by simp, fun x hx => ?_⟩)
    obtain ⟨i, -, rfl⟩ := mem_map.mp hx
    rfl
  · rw [hlength', Clause.mended, map_map]
    refine (hplaces fun i => decide (i + 1 < c.definitions.length)).trans ?_
    rw [range_succ, map_append, hlength]
    congr 1
    · refine eq_replicate_iff.mpr ⟨by simp, fun x hx => ?_⟩
      obtain ⟨i, hi, rfl⟩ := mem_map.mp hx
      simpa using hi
    · simp
  · have hsame : c.mended.definitions.map (·.name) = c.definitions.map (·.name) := by
      have hnames := map_map (l := c.definitions.zipIdx) (f := Prod.fst) (g := Definition.name)
      rw [zipIdx_map_fst] at hnames
      rw [hnames, Clause.mended, map_map]
      rfl
    rwa [hsame]

/-- Stages read from blocks with names like their own. -/
theorem Work.Follow.isModelName {previous : String} {stages : List Stage}
    (h : Work.Follow previous stages) (hprevious : IsModelName previous)
    (hnames : ∀ s ∈ stages, IsModelName s.name) : ∀ s ∈ stages, IsModelName s.source := by
  induction stages generalizing previous with
  | nil => exact forall_mem_nil _
  | cons first stages ih =>
    obtain ⟨hfirst, hrest⟩ := h
    intro s hs
    rcases mem_cons.mp hs with rfl | hs
    · exact hfirst ▸ hprevious
    · exact ih hrest (hnames first (.head _))
        (forall_mem_cons.mp hnames).2 s hs

theorem plain_of_isModelName (h : IsModelName s) : ' ' ∉ s.toList ∧ '\n' ∉ s.toList :=
  ⟨fun hc => absurd (h _ hc) (by decide), fun hc => absurd (h _ hc) (by decide)⟩

/-- The shapes of the definitions of a chain of `m` tools behind `n` sources: the word stands before
each of the sources, and a comma behind every definition. -/
def chainShapes (n m : Nat) : List (Bool × String × Bool) :=
  (range n).map (fun i => (true, readName n i, true))
    ++ (range m).map (fun i => (false, Work.blockName m i, true))

section Shapes

variable {c : Clause} {n m : Nat} (h : c.definitions.map (·.shape) = chainShapes n m)

include h

theorem names_of_shapes : c.definitions.map (·.name)
    = (range n).map (readName n) ++ (range m).map (Work.blockName m) := by
  have hnames := congrArg (map fun s : Bool × String × Bool => s.2.1) h
  simpa [chainShapes, Definition.shape, Function.comp_def] using hnames

theorem isModelName_of_shapes : ∀ d ∈ c.definitions, IsModelName d.name := by
  intro d hd
  have hmem : d.name ∈ c.definitions.map (·.name) := mem_map_of_mem hd
  rw [names_of_shapes h] at hmem
  rcases mem_append.mp hmem with hmem | hmem
  · obtain ⟨i, -, hname⟩ := mem_map.mp hmem
    exact hname ▸ isModelName_readName n i
  · obtain ⟨i, -, hname⟩ := mem_map.mp hmem
    exact hname ▸ isModelName_blockName m i

/-- The last comma is one too many. -/
theorem not_wellFormed_of_shapes : ¬ c.WellFormed := by
  intro hwell
  have hcommas := congrArg (map fun s : Bool × String × Bool => s.2.2) h
  rw [map_map, show ((fun s : Bool × String × Bool => s.2.2) ∘ fun d : Definition => d.shape)
    = fun d => d.comma from rfl, hwell.commas] at hcommas
  have hlast : false ∈ (chainShapes n m).map fun s => s.2.2 := hcommas ▸ by simp
  simp [chainShapes] at hlast

end Shapes

namespace ModelFile.Combines

variable {f : ModelFile} {n m : Nat} {stages : List Stage} {columns : List String}
  (hf : f.Combines n m stages columns)

include hf

theorem shapes : (f.reads.map (·.definition) ++ stages.map (·.definition)).map (·.shape)
    = chainShapes n m := by
  have hsources := congrArg (map fun p : Bool × String => (p.1, p.2, true)) hf.reads
  have hsteps := congrArg (map fun name : String => (false, name, true)) hf.names
  rw [map_map, map_map] at hsources hsteps
  rw [map_append, map_map, map_map]
  exact congrArg₂ (· ++ ·) hsources hsteps

/-- If no text in it has a line break, the clause of a chain is plain. -/
theorem plain (hreads : ∀ r ∈ f.reads, r.OneLine) (hstages : ∀ s ∈ stages, s.OneLine) :
    Clause.Plain ⟨f.reads.map (·.definition) ++ stages.map (·.definition),
      .selection columns "final"⟩ := by
  have hnames := isModelName_of_shapes hf.shapes
    (c := ⟨f.reads.map (·.definition) ++ stages.map (·.definition), .selection columns "final"⟩)
  refine ⟨fun d hd => ⟨plain_of_isModelName (hnames d hd), ?_⟩, columns, "final", rfl⟩
  rcases mem_append.mp hd with hd | hd
  · obtain ⟨r, hr, rfl⟩ := mem_map.mp hd
    exact Reading.tidy (hreads r hr)
  · obtain ⟨s, hs, rfl⟩ := mem_map.mp hd
    have hsource : IsModelName s.source := by
      refine hf.follow.isModelName ?_ (fun t ht => ?_) s hs
      · unfold Work.sourceBlock
        split <;> decide
      · exact hnames t.definition (mem_append_right _ (mem_map_of_mem ht))
    exact Stage.tidy (hstages s hs) (plain_of_isModelName hsource).2

end ModelFile.Combines

/-- The text of a model of several tools is that of a clause, behind comments and settings. Its
definitions read the sources and then stand for the tools, under different names. The word stands
before each of the sources, and a comma behind every definition. So the clause is never well-formed,
and it is when all words but the first and the last comma are dropped. If no text in it has a line
break, no other clause that could be well-formed has the same text. -/
theorem clause_of_writeChain (w : Workflow) (workflow : String) {first second : Tool}
    {rest : List Tool} {b : Build}
    (hrun : result (Work.writeChain w workflow (first :: second :: rest)) b = .ok ()) :
    ∃ (f : ModelFile) (stages : List Stage) (columns : List String),
      let c : Clause :=
        ⟨f.reads.map (·.definition) ++ stages.map (·.definition), .selection columns "final"⟩
      (state (Work.writeChain w workflow (first :: second :: rest)) b).files = b.files ++ [f]
      ∧ f.head.drop 4 = configuration "table" ∧ f.text = lines (f.head ++ [c.text])
      ∧ c.definitions.map (·.shape)
        = chainShapes (w.upstream first.id).length (rest.length + 2)
      ∧ (c.definitions.map (·.name)).Nodup
      ∧ ¬ c.WellFormed ∧ c.mended.WellFormed
      ∧ ((∀ r ∈ f.reads, r.OneLine) → (∀ s ∈ stages, s.OneLine) →
        ∀ e : Clause, e.Plain → e.text = c.text → ¬ e.WellFormed) := by
  have hemits : Work.Emits (fun f (_ : Unit) => ∃ stages columns,
      f.Combines (w.upstream first.id).length (rest.length + 2) stages columns)
      (Work.writeChain w workflow (first :: second :: rest)) [()] :=
    Work.emits_writeChain fun f stages columns hf => ⟨stages, columns, hf⟩
  obtain ⟨new, hfiles, hnew⟩ := hemits.files hrun
  obtain ⟨f, others, ⟨stages, columns, hf⟩, hnone, rfl⟩ := forall₂_cons_right_iff.mp hnew
  obtain rfl := forall₂_nil_right_iff.mp hnone
  refine ⟨f, stages, columns, ?_⟩
  intro c
  have hshapes : c.definitions.map (·.shape)
      = chainShapes (w.upstream first.id).length (rest.length + 2) := hf.shapes
  have hnodup : (c.definitions.map (·.name)).Nodup := by
    rw [names_of_shapes hshapes]
    exact nodup_names _ _
  have hselects : ∃ columns source, c.ending = .selection columns source := ⟨columns, "final", rfl⟩
  have hne : c.definitions ≠ [] := by
    intro hnil
    rw [hnil] at hshapes
    simp [chainShapes, range_succ] at hshapes
  refine ⟨hfiles, hf.head, ModelFile.text_eq hf.body, hshapes, hnodup,
    not_wellFormed_of_shapes hshapes, Clause.wellFormed_mended hne hnodup hselects,
    fun hone hone' e he htext => ?_⟩
  have hsame : e.definitions.map (·.shape) = _ :=
    (shapes_eq he (hf.plain hone hone') htext).trans hshapes
  exact not_wellFormed_of_shapes hsame

/-- Two sources that are stacked and then filtered. -/
def stacked : Workflow :=
  { metadata := { name := "w", path := "w.yxmd" }
    tools := [
      { id := 1, name := "Input Data", category := .input, table := some "s" },
      { id := 2, name := "Input Data", category := .input, table := some "t" },
      { id := 3, name := "Union", category := .join },
      { id := 4, name := "Filter", category := .preparation, expression := some "[x] > 1" }]
    connections := [⟨1, "Output", 3, "Input"⟩, ⟨2, "Output", 3, "Input"⟩,
      ⟨3, "Output", 4, "Input"⟩] }

/-- The work on the chain comes to an end. Its clause has the word twice, and a comma before the
selection. -/
theorem clause_stacked : ∃ (f : ModelFile) (stages : List Stage) (columns : List String),
    let x := Work.writeChain stacked "w" [stacked.tools[2], stacked.tools[3]]
    let c : Clause :=
      ⟨f.reads.map (·.definition) ++ stages.map (·.definition), .selection columns "final"⟩
    x.run.run emptyProject = (.ok (), state x emptyProject)
    ∧ (state x emptyProject).files = [f] ∧ f.text = lines (f.head ++ [c.text])
    ∧ c.definitions.map (·.shape) = [(true, "source_1", true), (true, "source_2", true),
      (false, "step_1", true), (false, "final", true)]
    ∧ ¬ c.WellFormed := by
  have hrun : result (Work.writeChain stacked "w" [stacked.tools[2], stacked.tools[3]]) emptyProject
      = .ok () := by decide +kernel
  obtain ⟨f, stages, columns, hfiles, -, htext, hshapes, -, hill, -⟩ :=
    clause_of_writeChain stacked "w" hrun
  exact ⟨f, stages, columns, run_eq_of_result hrun, hfiles, htext,
    hshapes.trans (by decide +kernel), hill⟩

end Replatform.Project

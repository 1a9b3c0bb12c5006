import Replatform.Proofs.Project.Declaration
import Replatform.Proofs.Quotation
/-!
# Texts in the lists of a project

The lists of sources and of models have texts in double quotes: descriptions, and the names of
columns. Nothing in them is escaped. A reader that knows the escapes of the format finds one text
for each of those that were written (`scalars_entries`), and it is the same text if and only if
there are no quotes, backslashes and control characters in it (`denoted_iff`).
-/

namespace Replatform.Project

open List

/-! ## Texts in double quotes -/

def scalarEscapes : List (Char × List Char) :=
  [('0', ['\x00']), ('a', ['\x07']), ('b', ['\x08']), ('t', ['\t']), ('\t', ['\t']), ('n', ['\n']),
   ('v', ['\x0b']), ('f', ['\x0c']), ('r', ['\r']), ('e', ['\x1b']), (' ', [' ']),
   ('\x22', ['\x22']), ('/', ['/']), ('\\', ['\\']), ('N', ['\u0085']), ('_', ['\u00a0']),
   ('L', ['\u2028']), ('P', ['\u2029'])]

/-- What a character stands for. There are no control characters but the tabulator. -/
def scalarUnit? (c : Char) (s : List Char) : Option (List Char × Nat) :=
  if c = '\\' then Text.Quotation.escape? scalarEscapes s
  else if c = '\t' ∨ 32 ≤ c.toNat then some ([c], 0)
  else none

def scalarQuotation : Text.Quotation := ⟨'\x22', scalarUnit?⟩

theorem scalarQuotation_regular : scalarQuotation.Regular where
  quote_ne := by decide
  escaped_quote _ := rfl
  escaped_backslash _ := rfl
  fits := by
    intro c s out n h hhead
    change scalarUnit? c s = _ at h
    rw [scalarUnit?] at h
    split at h
    next hc =>
      exact Text.Quotation.escape?_fits (by decide) (by decide) (hhead hc) h
    next =>
      split at h
      next =>
        cases h
        exact ⟨Nat.zero_le _, forall_mem_nil _, Nat.le_refl _⟩
      next => cases h

/-- A text without quotes, backslashes and control characters. -/
def IsBare (s : List Char) : Prop := ∀ c ∈ s, c ≠ '\x22' ∧ c ≠ '\\' ∧ (c = '\t' ∨ 32 ≤ c.toNat)

theorem scalar_keeps_iff {k s : List Char} : scalarQuotation.Keeps false k s ↔ IsBare s := by
  induction s with
  | nil => simp [Text.Quotation.Keeps, IsBare]
  | cons c s ih =>
    have hself : ∀ t, scalarUnit? c t = some ([c], 0) ↔ c ≠ '\\' ∧ (c = '\t' ∨ 32 ≤ c.toNat) := by
      intro t
      rw [scalarUnit?]
      split
      next hc =>
        refine iff_of_false (fun h => ?_) fun h => h.1 hc
        exact absurd (Text.Quotation.escape?_pos h) (Nat.lt_irrefl 0)
      next hc => simp [hc, or_iff_not_imp_left]
    rw [Text.Quotation.Keeps, ih, IsBare, IsBare, forall_mem_cons]
    refine and_congr_left fun _ => ?_
    by_cases hc : c = '\x22'
    · simp [hc, scalarQuotation]
    · have hquote : c ≠ scalarQuotation.quote := hc
      rw [if_neg hquote]
      exact (hself _).trans (and_iff_right hc).symm

/-- The text behind an opening quote, if nothing follows the closing one. -/
def quotedText? (s : List Char) : Option (List Char) :=
  (scalarQuotation.read? s).bind fun r => if r.2 = [] then some r.1 else none

/-- What a text denotes when it is put in quotes as it is. -/
def denoted (text : String) : Option (List Char) := quotedText? (text.toList ++ ['\x22'])

theorem denoted_iff (text : String) : denoted text = some text.toList ↔ IsBare text.toList := by
  have hclosed : text.toList ++ ['\x22'] = scalarQuotation.closed false [] text.toList :=
    (Text.Quotation.closed_false (q := scalarQuotation) [] text.toList).symm
  rw [denoted, hclosed, quotedText?, Option.bind_eq_some_iff]
  constructor
  · rintro ⟨⟨t, rest⟩, hr, h⟩
    split at h
    next =>
      obtain rfl : t = text.toList := Option.some.inj h
      exact scalar_keeps_iff.mp (scalarQuotation_regular.read?_closed_iff.mp hr).1
    next => cases h
  · intro h
    exact ⟨_, (scalar_keeps_iff.mpr h).read? scalarQuotation_regular, if_pos rfl⟩

/-! ## Lists of sources and models -/

/-- What stands in front of the texts in a list of sources, and in a list of models. -/
def sourceFronts : List String :=
  ["    description: \"", "        description: \"", "          - name: \"",
   "            description: \""]

def modelFronts : List String :=
  ["    description: \"", "      - name: \"", "        description: \""]

/-- The text in quotes on a line, if there is one. -/
def scalar? (fronts : List String) (line : List Char) : Option (Option (List Char)) :=
  fronts.findSome? fun front => (Text.after? front.toList line).map quotedText?

/-- The texts in quotes, line by line. -/
def scalars (fronts : List String) (text : String) : List (Option (List Char)) :=
  (Text.splitWhen (· == '\n') text.toList).filterMap (scalar? fronts)

/-- The texts that the lines of entries have in quotes are those of each entry. -/
theorem scalars_entries {α : Type} {fronts : List String} (header : List String)
    {entry texts : α → List String} {es : List α} (hne : header ≠ [])
    (hheader : ∀ line ∈ header, '\n' ∉ line.toList ∧ scalar? fronts line.toList = none)
    (hlines : ∀ e ∈ es, ∀ line ∈ entry e, '\n' ∉ line.toList)
    (htexts : ∀ e, (entry e).filterMap (fun x => scalar? fronts x.toList) = (texts e).map denoted) :
    scalars fronts (Text.lines (header ++ es.flatMap entry)) = (es.flatMap texts).map denoted := by
  have hbreak : ∀ line ∈ header ++ es.flatMap entry, '\n' ∉ line.toList := by
    intro line hline
    rcases mem_append.mp hline with hline | hline
    · exact (hheader line hline).1
    · obtain ⟨e, he, hline⟩ := mem_flatMap.mp hline
      exact hlines e he line hline
  have hnone : header.filterMap (scalar? fronts ∘ String.toList) = [] :=
    filterMap_eq_nil_iff.mpr fun line hline => (hheader line hline).2
  rw [scalars, splitWhen_lines (by simp [hne]) hbreak, filterMap_map, filterMap_append,
    hnone, nil_append, filterMap_flatMap, map_flatMap]
  exact flatMap_congr fun e _ => htexts e

/-- The texts of columns. -/
def columnTexts (note : String) (columns : List String) : List String :=
  columns.flatMap fun c => [c, "Column " ++ c ++ note]

theorem filterMap_columnEntries (fronts : List String) (indent note : String)
    (hname : ∀ x, scalar? fronts (indent ++ "- name: \"" ++ x ++ "\"").toList = some (denoted x))
    (hdescription : ∀ x,
      scalar? fronts (indent ++ "  description: \"" ++ x ++ "\"").toList = some (denoted x))
    (columns : List String) :
    (columnEntries indent note columns).filterMap (fun x => scalar? fronts x.toList)
      = (columnTexts note columns).map denoted := by
  rw [columnEntries, columnTexts, filterMap_flatMap, map_flatMap]
  refine flatMap_congr fun c _ => ?_
  have hcolumn : indent ++ "  description: \"Column " ++ c ++ note ++ "\""
      = indent ++ "  description: \"" ++ ("Column " ++ c ++ note) ++ "\"" := by
    rw [← String.toList_inj]
    simp
  simp only [filterMap_cons, hcolumn, hname, hdescription]
  rfl

/-- The texts in quotes of the entry of a schema. -/
def schemaTexts (x : String × List (String × Source)) : List String :=
  ("Source data from " ++ x.1)
    :: (byName x.2).flatMap fun y => y.2.description :: columnTexts " from source" y.2.columns

/-- The texts in quotes of the entry of a model. -/
def modelTexts (m : String × Model) : List String := m.2.description :: columnTexts "" m.2.columns

theorem filterMap_sourceEntry (table : String) (s : Source) :
    (sourceEntry table s).filterMap (fun x => scalar? sourceFronts x.toList)
      = (s.description :: columnTexts " from source" s.columns).map denoted := by
  have hname : scalar? sourceFronts ("      - name: " ++ table).toList = none := by
    simp [scalar?, sourceFronts, Text.after?]
  have hdescription : scalar? sourceFronts
      ("        description: \"" ++ s.description ++ "\"").toList
        = some (denoted s.description) := by
    simp [scalar?, sourceFronts, Text.after?, denoted]
  have hcolumns := filterMap_columnEntries sourceFronts "          " " from source"
    (fun x => by simp [scalar?, sourceFronts, Text.after?, denoted])
    (fun x => by simp [scalar?, sourceFronts, Text.after?, denoted]) s.columns
  rw [sourceEntry, filterMap_append]
  simp only [filterMap_cons, hname, hdescription, filterMap_nil]
  split
  next hempty =>
    rw [isEmpty_iff.mp hempty]
    rfl
  next =>
    rw [filterMap_cons, hcolumns]
    rfl

theorem filterMap_schemaEntry (x : String × List (String × Source)) :
    (schemaEntry x).filterMap (fun x => scalar? sourceFronts x.toList)
      = (schemaTexts x).map denoted := by
  have hname : scalar? sourceFronts ("  - name: " ++ x.1).toList = none := by
    simp [scalar?, sourceFronts, Text.after?]
  have hdescription : scalar? sourceFronts
      ("    description: \"Source data from " ++ x.1 ++ "\"").toList
        = some (denoted ("Source data from " ++ x.1)) := by
    simp [scalar?, sourceFronts, Text.after?, denoted]
  have htables : scalar? sourceFronts "    tables:".toList = none := by decide
  rw [schemaEntry, filterMap_append, filterMap_flatMap, schemaTexts, map_cons, map_flatMap]
  simp only [filterMap_cons, hname, hdescription, htables, filterMap_nil, filterMap_sourceEntry]
  rfl

theorem filterMap_modelTexts (m : String × Model) :
    (modelEntry m.1 m.2).filterMap (fun x => scalar? modelFronts x.toList)
      = (modelTexts m).map denoted := by
  have hname : scalar? modelFronts ("  - name: " ++ m.1).toList = none := by
    simp [scalar?, modelFronts, Text.after?]
  have hdescription : scalar? modelFronts ("    description: \"" ++ m.2.description ++ "\"").toList
      = some (denoted m.2.description) := by
    simp [scalar?, modelFronts, Text.after?, denoted]
  have hcolumns := filterMap_columnEntries modelFronts "      " ""
    (fun x => by simp [scalar?, modelFronts, Text.after?, denoted])
    (fun x => by simp [scalar?, modelFronts, Text.after?, denoted]) m.2.columns
  have hrest : scalar? modelFronts "    columns:".toList = none
      ∧ scalar? modelFronts "".toList = none := by decide
  rw [modelEntry, filterMap_append, filterMap_append]
  simp only [filterMap_cons, hname, hdescription, hrest, filterMap_nil, append_nil]
  split
  next hempty =>
    rw [modelTexts, isEmpty_iff.mp hempty]
    rfl
  next =>
    rw [hcolumns]
    rfl

/-- The texts that the lists have in quotes are those that were written, each as what it denotes
when nothing in it is escaped. It denotes itself if and only if it is bare. -/
theorem scalars_denote {sources : Sources} {models : List (String × Model)}
    (hsources : OneLine sources) (hnames : ∀ m ∈ models, '\n' ∉ m.1.toList)
    (hmodels : ∀ m ∈ models, m.2.OneLine) :
    scalars sourceFronts (sourceList sources)
        = ((byName sources).flatMap schemaTexts).map denoted
      ∧ scalars modelFronts (modelList models) = ((byName models).flatMap modelTexts).map denoted
      ∧ ∀ text, denoted text = some text.toList ↔ IsBare text.toList := by
  refine ⟨?_, ?_, denoted_iff⟩
  · refine scalars_entries ["version: 2", "", "sources:"] (cons_ne_nil _ _)
      (by decide) (fun x hx => ?_) filterMap_schemaEntry
    exact hsources.newline_notMem ((byName_perm sources).mem_iff.mp hx)
  · refine scalars_entries ["version: 2", "", "models:"] (cons_ne_nil _ _)
      (by decide) (fun m hm => ?_) filterMap_modelTexts
    have hm := (byName_perm models).mem_iff.mp hm
    exact newline_notMem_modelEntry (hnames m hm) (hmodels m hm)

/-- A model whose description has a path with backslashes. -/
def windowsModel : String × Model :=
  ("dim_out", ⟨"dim_out", .gold, [], "Gold model: Output Data -> C:\\data\\out.csv", 4⟩)

/-- The path makes the description unreadable. -/
theorem scalars_windowsModel : '\n' ∉ windowsModel.1.toList ∧ windowsModel.2.OneLine
    ∧ scalars modelFronts (modelList [windowsModel]) = [none] := by
  have hname : '\n' ∉ windowsModel.1.toList := by decide
  have hline : windowsModel.2.OneLine := ⟨by decide, by decide⟩
  have hscalars := (@scalars_denote [] [windowsModel]
    ⟨by simp, by simp, by simp, by simp⟩ (fun m hm => mem_singleton.mp hm ▸ hname)
    fun m hm => mem_singleton.mp hm ▸ hline).2.1
  refine ⟨hname, hline, hscalars.trans ?_⟩
  rw [byName, List.mergeSort_singleton]
  decide

end Replatform.Project

import Replatform.Project.Sources
import Replatform.Proofs.Project.Listing
import Replatform.Proofs.Value
/-!
# What the list of the sources declares

The list of the sources has an entry for each schema, and in it one for each table with its columns.
Tables are kept by schema and name, so that none is declared twice (`declared_once`). What is told
of a table may have line breaks in it; where it has none, the declarations can be read from the
lines (`declarations_sourceList`).
-/

namespace Replatform.Project

open List

/-- Tables by schema and name. -/
abbrev Sources := List (String × List (String × Source))

/-- A table with its columns, as the list declares it. -/
structure Declaration where
  schema : String
  table : String
  columns : List String
deriving DecidableEq, Repr

def declared (sources : Sources) : List Declaration :=
  (byName sources).flatMap fun x => (byName x.2).map fun y => ⟨x.1, y.1, y.2.columns⟩

def found? (sources : Sources) (schema table : String) : Option Source :=
  (sources.lookup schema).bind (·.lookup table)

/-! ## One declaration for each table -/

/-- No schema occurs twice, and in no schema a table. -/
structure KeyedOnce (sources : Sources) : Prop where
  schemas : (sources.map (·.1)).Nodup
  tables : ∀ x ∈ sources, (x.2.map (·.1)).Nodup

theorem filter_eq_singleton {α κ : Type} [DecidableEq κ] {key : α → κ} {x : α} {xs : List α}
    (hkeys : (xs.map key).Nodup) (hx : x ∈ xs) : xs.filter (fun y => key y = key x) = [x] := by
  obtain ⟨front, back, rfl⟩ := append_of_mem hx
  rw [map_append, map_cons, nodup_middle, nodup_cons, mem_append, not_or] at hkeys
  have hnone : ∀ ys : List α, key x ∉ ys.map key → ys.filter (fun y => key y = key x) = [] := by
    intro ys hys
    refine filter_eq_nil_iff.mpr fun y hy he => hys ?_
    rw [← of_decide_eq_true he]
    exact mem_map_of_mem hy
  rw [filter_append, filter_cons_of_pos (by simp), hnone _ hkeys.1.1, hnone _ hkeys.1.2, nil_append]

variable {sources : Sources} (schema : String) (ds : List Declaration)

theorem KeyedOnce.nodup_declared (h : KeyedOnce sources) :
    ((declared sources).map fun d => (d.schema, d.table)).Nodup := by
  have hschemas : ((byName sources).map (·.1)).Nodup :=
    ((byName_perm sources).map _).nodup_iff.mpr h.schemas
  have hkeys : (declared sources).map (fun d => (d.schema, d.table))
      = (byName sources).flatMap fun x => ((byName x.2).map (·.1)).map (Prod.mk x.1) := by
    simp [declared, map_flatMap, Function.comp_def]
  rw [hkeys, nodup_flatMap]
  constructor
  · intro x hx
    refine Nodup.map (fun _ _ h => (Prod.mk.inj h).2) ?_
    rw [((byName_perm x.2).map _).nodup_iff]
    exact h.tables x ((byName_perm sources).mem_iff.mp hx)
  · refine (pairwise_map.mp hschemas).imp fun {x y} hne => ?_
    -- the schema stands in front of each table
    intro key hx hy
    obtain ⟨_, -, rfl⟩ := mem_map.mp hx
    obtain ⟨_, -, hkey⟩ := mem_map.mp hy
    exact hne (congrArg Prod.fst hkey).symm

/-- A table that is known is declared once, with its columns. -/
theorem declared_once (h : KeyedOnce sources) {schema table : String}
    {s : Source} (hs : found? sources schema table = some s) :
    (declared sources).filter (fun d => (d.schema, d.table) = (schema, table))
      = [⟨schema, table, s.columns⟩] := by
  obtain ⟨tables, htables, hs⟩ := Option.bind_eq_some_iff.mp hs
  refine filter_eq_singleton h.nodup_declared (x := ⟨schema, table, s.columns⟩) ?_
  refine mem_flatMap.mpr ⟨(schema, tables), ?_, mem_map.mpr ⟨(table, s), ?_, rfl⟩⟩
  · exact (byName_perm sources).mem_iff.mpr (mem_of_lookup htables)
  · exact (byName_perm tables).mem_iff.mpr (mem_of_lookup hs)

/-! ## Reading the lines -/

/-- The name of a table, behind a dash at its indent. -/
def tableLine? (line : List Char) : Option String :=
  (Text.after? "      - name: ".toList line).map String.ofList

/-- The name of a column in quotes, behind a dash at its indent. -/
def columnLine? (line : List Char) : Option String :=
  (Text.after? "          - name: \"".toList line).map fun s => String.ofList s.dropLast

def addColumn (ds : List Declaration) (column : String) : List Declaration :=
  match ds.getLast? with
  | some d => ds.dropLast ++ [{ d with columns := d.columns ++ [column] }]
  | none => ds

/-- Goes on with a line: what is known so far is the schema that the line belongs to, and the
declarations before it. -/
def readLine (known : String × List Declaration) (line : List Char) : String × List Declaration :=
  match listedName? line, tableLine? line, columnLine? line with
  | some schema, _, _ => (schema, known.2)
  | none, some table, _ => (known.1, known.2 ++ [⟨known.1, table, []⟩])
  | none, none, some column => (known.1, addColumn known.2 column)
  | none, none, none => known

def declarations (text : String) : List Declaration :=
  ((Text.splitWhen (· == '\n') text.toList).foldl readLine ("", [])).2

section Lines

variable (known : String × List Declaration)

theorem readLine_schema : readLine known ("  - name: " ++ schema).toList = (schema, known.2) := by
  rw [readLine, listedName?_name]

theorem readLine_table (table : String) :
    readLine known ("      - name: " ++ table).toList
      = (known.1, known.2 ++ [⟨known.1, table, []⟩]) := by
  simp [readLine, listedName?, tableLine?, Text.after?]

theorem readLine_column (column : String) :
    readLine known ("          " ++ "- name: \"" ++ column ++ "\"").toList
      = (known.1, addColumn known.2 column) := by
  simp [readLine, listedName?, tableLine?, columnLine?, Text.after?]

/-- A line without a name declares nothing. -/
theorem readLine_other {line : List Char}
    (h : listedName? line = none ∧ tableLine? line = none ∧ columnLine? line = none) :
    readLine known line = known := by
  rw [readLine, h.1, h.2.1, h.2.2]

end Lines

/-- Goes on with lines one after the other. -/
def readLines (known : String × List Declaration) (lines : List String) :
    String × List Declaration := lines.foldl (fun known line => readLine known line.toList) known

theorem readLines_append (known : String × List Declaration) (lines lines' : List String) :
    readLines known (lines ++ lines') = readLines (readLines known lines) lines' :=
  foldl_append

/-- The columns of an entry go to the last declaration. -/
theorem readLines_columnEntries (d : Declaration) (columns : List String) :
    readLines (schema, ds ++ [d]) (columnEntries "          " " from source" columns)
      = (schema, ds ++ [{ d with columns := d.columns ++ columns }]) := by
  induction columns generalizing d with
  | nil => simp [columnEntries, readLines]
  | cons c columns ih =>
    let description := "          " ++ "  description: \"Column " ++ c ++ " from source" ++ "\""
    have hdescription : ∀ known, readLine known description.toList = known := fun known =>
      readLine_other known
        (by simp [description, listedName?, tableLine?, columnLine?, Text.after?])
    have hfirst : readLines (schema, ds ++ [d])
          ["          " ++ "- name: \"" ++ c ++ "\"", description]
        = (schema, ds ++ [{ d with columns := d.columns ++ [c] }]) := by
      rw [readLines, foldl_cons, foldl_cons, foldl_nil, readLine_column, hdescription]
      simp [addColumn]
    rw [columnEntries, flatMap_cons, readLines_append, hfirst]
    refine (ih _).trans ?_
    simp

theorem readLines_sourceEntry (table : String) (s : Source) :
    readLines (schema, ds) (sourceEntry table s)
      = (schema, ds ++ [⟨schema, table, s.columns⟩]) := by
  have hdescription : ∀ known,
      readLine known ("        description: \"" ++ s.description ++ "\"").toList = known :=
    fun known => readLine_other known (by simp [listedName?, tableLine?, columnLine?, Text.after?])
  have hfirst : readLines (schema, ds)
        ["      - name: " ++ table, "        description: \"" ++ s.description ++ "\""]
      = (schema, ds ++ [⟨schema, table, []⟩]) := by
    rw [readLines, foldl_cons, foldl_cons, foldl_nil, readLine_table, hdescription]
  rw [sourceEntry, readLines_append, hfirst]
  split
  next hempty =>
    rw [isEmpty_iff.mp hempty]
    rfl
  next =>
    have hcolumns : readLine (schema, ds ++ [⟨schema, table, []⟩]) "        columns:".toList
        = (schema, ds ++ [⟨schema, table, []⟩]) := rfl
    rw [readLines, foldl_cons, hcolumns]
    exact readLines_columnEntries schema ds _ s.columns

theorem readLines_tables (tables : List (String × Source)) :
    readLines (schema, ds) (tables.flatMap fun y => sourceEntry y.1 y.2)
      = (schema, ds ++ tables.map fun y => ⟨schema, y.1, y.2.columns⟩) := by
  induction tables generalizing ds with
  | nil => simp [readLines]
  | cons y tables ih =>
    rw [flatMap_cons, readLines_append, readLines_sourceEntry, ih]
    simp

def schemaEntry (x : String × List (String × Source)) : List String :=
  ["  - name: " ++ x.1, "    description: \"Source data from " ++ x.1 ++ "\"", "    tables:"]
    ++ (byName x.2).flatMap fun y => sourceEntry y.1 y.2

theorem sourceList_eq (sources : Sources) :
    sourceList sources
      = Text.lines (["version: 2", "", "sources:"] ++ (byName sources).flatMap schemaEntry) := rfl

theorem readLines_schemaEntry (x : String × List (String × Source)) :
    readLines (schema, ds) (schemaEntry x)
      = (x.1, ds ++ (byName x.2).map fun y => ⟨x.1, y.1, y.2.columns⟩) := by
  have hdescription : ∀ known,
      readLine known ("    description: \"Source data from " ++ x.1 ++ "\"").toList = known :=
    fun known => readLine_other known (by simp [listedName?, tableLine?, columnLine?, Text.after?])
  have htables : readLine (x.1, ds) "    tables:".toList = (x.1, ds) := rfl
  have hfirst : readLines (schema, ds) ["  - name: " ++ x.1,
        "    description: \"Source data from " ++ x.1 ++ "\"", "    tables:"] = (x.1, ds) := by
    rw [readLines, foldl_cons, foldl_cons, foldl_cons, foldl_nil, readLine_schema, hdescription,
      htables]
  rw [schemaEntry, readLines_append, hfirst, readLines_tables]

/-- Neither the names nor what is told of the tables has line breaks. -/
structure OneLine (sources : Sources) : Prop where
  schemas : ∀ x ∈ sources, '\n' ∉ x.1.toList
  tables : ∀ x ∈ sources, ∀ y ∈ x.2, '\n' ∉ y.1.toList
  descriptions : ∀ x ∈ sources, ∀ y ∈ x.2, '\n' ∉ y.2.description.toList
  columns : ∀ x ∈ sources, ∀ y ∈ x.2, ∀ c ∈ y.2.columns, '\n' ∉ c.toList

theorem newline_notMem_sourceEntry {table : String} {s : Source} (htable : '\n' ∉ table.toList)
    (hdescription : '\n' ∉ s.description.toList) (hcolumns : ∀ c ∈ s.columns, '\n' ∉ c.toList) :
    ∀ line ∈ sourceEntry table s, '\n' ∉ line.toList := by
  intro line hline
  simp only [sourceEntry, mem_append, mem_cons, not_mem_nil, or_false] at hline
  rcases hline with (rfl | rfl) | hline
  · simp [htable]
  · simp [hdescription]
  · split at hline
    · exact nomatch hline
    · rcases mem_cons.mp hline with rfl | hline
      · decide
      · exact newline_notMem_columnEntries (by decide) (by decide) hcolumns line hline

theorem OneLine.newline_notMem (h : OneLine sources)
    {x : String × List (String × Source)} (hx : x ∈ sources) :
    ∀ line ∈ schemaEntry x, '\n' ∉ line.toList := by
  intro line hline
  simp only [schemaEntry, mem_append, mem_cons, not_mem_nil, or_false] at hline
  rcases hline with (rfl | rfl | rfl) | hline
  · simp [h.schemas x hx]
  · simp [h.schemas x hx]
  · decide
  · obtain ⟨y, hy, hline⟩ := mem_flatMap.mp hline
    have hy := (byName_perm x.2).mem_iff.mp hy
    exact newline_notMem_sourceEntry (h.tables x hx y hy) (h.descriptions x hx y hy)
      (h.columns x hx y hy) line hline

/-- What the list declares can be read from its lines. -/
theorem declarations_sourceList (h : OneLine sources) :
    declarations (sourceList sources) = declared sources := by
  let header := ["version: 2", "", "sources:"]
  have hlines : ∀ line ∈ header ++ (byName sources).flatMap schemaEntry, '\n' ∉ line.toList := by
    intro line hline
    rcases mem_append.mp hline with hline | hline
    · simp only [header, mem_cons, not_mem_nil, or_false] at hline
      rcases hline with rfl | rfl | rfl <;> decide
    · obtain ⟨x, hx, hline⟩ := mem_flatMap.mp hline
      exact h.newline_notMem ((byName_perm sources).mem_iff.mp hx) line hline
  have hentries : ∀ (xs : Sources) (known : String × List Declaration),
      (readLines known (xs.flatMap schemaEntry)).2
        = known.2 ++ xs.flatMap fun x => (byName x.2).map fun y => ⟨x.1, y.1, y.2.columns⟩ := by
    intro xs
    induction xs with
    | nil => simp [readLines]
    | cons x xs ih =>
      intro known
      rw [flatMap_cons, readLines_append, readLines_schemaEntry, ih]
      simp
  have hheader : readLines ("", []) header = ("", []) := rfl
  have hread : declarations (sourceList sources)
      = (readLines ("", []) (header ++ (byName sources).flatMap schemaEntry)).2 := by
    rw [declarations, sourceList_eq, splitWhen_lines (by simp) hlines, foldl_map]
    rfl
  rw [hread, readLines_append, hheader, hentries, nil_append, declared]

end Replatform.Project

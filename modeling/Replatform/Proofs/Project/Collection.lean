import Replatform.Proofs.Project.Declaration
import Replatform.Proofs.Project.Record
/-!
# Sources that are collected

Every source of a workflow is added to those that are known. A table that is known already gets the
new columns and loses none, so that the columns that a tool mentions stay with its table, whatever
other tools read it (`covered_collectSources`).
-/

namespace Replatform.Project

open List Stateful

variable {sources : Sources} {t : Tool}

/-! ## One more source -/

/-- What is known of the table of a source, with the source added. -/
def merged (sources : Sources) (s : Source) : Source :=
  match found? sources s.schema s.table with
  | some old => { old with columns := distinct (old.columns ++ s.columns) }
  | none => s

theorem addSource_eq (sources : Sources) (s : Source) :
    addSource sources s = setField sources s.schema
      (setField ((sources.lookup s.schema).getD []) s.table (merged sources s)) := by
  unfold addSource merged found?
  cases sources.lookup s.schema <;> rfl

theorem found?_addSource (sources : Sources) (s : Source) (schema table : String) :
    found? (addSource sources s) schema table
      = if schema = s.schema ∧ table = s.table then some (merged sources s)
        else found? sources schema table := by
  rw [addSource_eq, found?, lookup_setField]
  by_cases hschema : schema = s.schema
  · rw [if_pos hschema, Option.bind_some, lookup_setField]
    by_cases htable : table = s.table
    · rw [if_pos htable, if_pos ⟨hschema, htable⟩]
    · rw [if_neg htable, if_neg fun h => htable h.2, found?, hschema]
      cases sources.lookup s.schema <;> rfl
  · rw [if_neg hschema, if_neg fun h => hschema h.1, found?]

/-- Tables are kept under names of models, each once. -/
structure Collected (sources : Sources) : Prop where
  once : KeyedOnce sources
  schemas : ∀ x ∈ sources, IsModelName x.1
  tables : ∀ x ∈ sources, ∀ y ∈ x.2, IsModelName y.1

theorem Collected.nil : Collected [] := ⟨⟨nodup_nil, nofun⟩, nofun, nofun⟩

theorem nodup_fst_setField {α : Type} {fields : List (String × α)} (h : (fields.map (·.1)).Nodup)
    (key : String) (v : α) : ((setField fields key v).map (·.1)).Nodup := by
  rw [map_fst_setField]
  split
  · exact h
  next hkey =>
    rw [← concat_eq_append]
    exact Nodup.concat hkey h

theorem Collected.addSource (h : Collected sources) {s : Source} (hschema : IsModelName s.schema)
    (htable : IsModelName s.table) : Collected (addSource sources s) := by
  have hold : (sources.lookup s.schema).getD [] = []
      ∨ (s.schema, (sources.lookup s.schema).getD []) ∈ sources := by
    cases hlookup : sources.lookup s.schema with
    | none => exact .inl rfl
    | some tables => exact .inr (mem_of_lookup hlookup)
  rw [addSource_eq]
  generalize (sources.lookup s.schema).getD [] = tables at hold
  refine ⟨⟨nodup_fst_setField h.once.schemas _ _, fun x hx => ?_⟩, fun x hx => ?_, fun x hx => ?_⟩
  · rcases mem_of_mem_setField hx with rfl | hx
    · refine nodup_fst_setField ?_ _ _
      rcases hold with rfl | hold
      · exact nodup_nil
      · exact h.once.tables _ hold
    · exact h.once.tables x hx
  · rcases mem_of_mem_setField hx with rfl | hx
    · exact hschema
    · exact h.schemas x hx
  · intro y hy
    rcases mem_of_mem_setField hx with rfl | hx
    · rcases mem_of_mem_setField hy with rfl | hy
      · exact htable
      · rcases hold with rfl | hold
        · exact nomatch hy
        · exact h.tables _ hold y hy
    · exact h.tables x hx y hy

/-! ## Tools and their tables -/

/-- The columns that are known of the source of a tool. -/
def columnsOf (sources : Sources) (t : Tool) : List String :=
  ((found? sources (schemaName t) (tableName t)).map (·.columns)).getD []

/-- The table of a tool is known, with all columns that the tool mentions. -/
def Covered (sources : Sources) (t : Tool) : Prop :=
  ∃ s, found? sources (schemaName t) (tableName t) = some s ∧ mentionedColumns t ⊆ s.columns

theorem Covered.declared_once (h : Covered sources t) (honce : KeyedOnce sources) :
    (declared sources).filter (fun d => (d.schema, d.table) = (schemaName t, tableName t))
      = [⟨schemaName t, tableName t, columnsOf sources t⟩] := by
  obtain ⟨s, hs, -⟩ := h
  rw [Project.declared_once honce hs, columnsOf, hs]
  rfl

theorem Covered.subset (h : Covered sources t) : mentionedColumns t ⊆ columnsOf sources t := by
  obtain ⟨s, hs, hsubset⟩ := h
  rw [columnsOf, hs]
  exact hsubset

def sourceOf (t : Tool) (columns : List String) : Source where
  schema := schemaName t
  table := tableName t
  columns := columns
  description := (filled t.annotation).getD t.displayName
  path := ((filled t.sourcePath).or (filled t.table)).getD ""

theorem columns_subset_merged (sources : Sources) (s : Source) :
    s.columns ⊆ (merged sources s).columns := by
  unfold merged
  split
  · intro c hc
    rw [mem_distinct]
    exact mem_append_right _ hc
  · exact Subset.refl _

theorem covered_addSource {columns : List String} (h : mentionedColumns t ⊆ columns) :
    Covered (addSource sources (sourceOf t columns)) t := by
  refine ⟨merged sources (sourceOf t columns), ?_, ?_⟩
  · rw [found?_addSource, if_pos ⟨rfl, rfl⟩]
  · exact Subset.trans h (columns_subset_merged sources (sourceOf t columns))

/-- Tables lose no columns. -/
theorem Covered.addSource (h : Covered sources t) (s : Source) :
    Covered (addSource sources s) t := by
  obtain ⟨old, hold, hsubset⟩ := h
  unfold Covered
  rw [found?_addSource]
  split
  next hsame =>
    refine ⟨_, rfl, fun c hc => ?_⟩
    rw [hsame.1, hsame.2] at hold
    rw [merged, hold, mem_distinct]
    exact mem_append_left _ (hsubset hc)
  next => exact ⟨old, hold, hsubset⟩

/-! ## The steps -/

def SameSources (b b' : Build) : Prop := b'.sources = b.sources

instance : Curious SameSources where
  refl _ := rfl
  trans _ _ _ h₁ h₂ := h₂.trans h₁
  printed _ _ := rfl
  noted _ _ _ _ _ := rfl
  session _ _ _ := rfl
  answered _ _ := rfl

instance : Outward SameSources where
  of_eq _ _ _ h := h

theorem isModelName_schemaName (t : Tool) : IsModelName (schemaName t) := by
  unfold schemaName
  split
  · exact isModelName_sanitize _
  · decide

namespace Work

/-- A step that answers has added the source of the tool. -/
theorem run_collectSource {b : Build} (h : result (collectSource t) b = .ok ()) :
    ∃ columns, mentionedColumns t ⊆ columns
      ∧ (state (collectSource t) b).sources = addSource b.sources (sourceOf t columns) := by
  unfold collectSource at h ⊢
  dsimp only at h ⊢
  split at h
  next hempty =>
    rw [if_pos hempty]
    obtain ⟨columns, -, -, hstate⟩ := bind_ok h
    have hsame : Within SameSources (seekColumns t (schemaName t) (tableName t)) :=
      within_seekColumns _ _ _
    refine ⟨columns, ?_, ?_⟩
    · rw [isEmpty_iff.mp hempty]
      exact nil_subset _
    · rw [hstate]
      exact congrArg (addSource · _) (hsame b)
  next hempty =>
    rw [if_neg hempty]
    exact ⟨mentionedColumns t, Subset.refl _, rfl⟩

/-- When the sources are collected, the table of each tool is known with all columns that the tool
mentions. -/
theorem covered_forM (ts : List Tool) : ∀ b : Build, Collected b.sources →
    result (ts.forM collectSource) b = .ok () →
      Collected (state (ts.forM collectSource) b).sources
        ∧ (∀ u, Covered b.sources u → Covered (state (ts.forM collectSource) b).sources u)
        ∧ ∀ t ∈ ts, Covered (state (ts.forM collectSource) b).sources t := by
  induction ts with
  | nil => exact fun b hb _ => ⟨hb, fun _ h => h, forall_mem_nil _⟩
  | cons t ts ih =>
    intro b hb h
    have hcons : (t :: ts).forM collectSource
        = collectSource t >>= fun _ => ts.forM collectSource := rfl
    rw [hcons] at h ⊢
    obtain ⟨_, hfirst, hrest, hstate⟩ := bind_ok h
    obtain ⟨columns, hcolumns, hsources⟩ := run_collectSource hfirst
    have hb' : Collected (state (collectSource t) b).sources := by
      rw [hsources]
      exact hb.addSource (isModelName_schemaName t) (isModelName_tableName t)
    obtain ⟨hcollected, hkept, hcovered⟩ := ih _ hb' hrest
    rw [hstate]
    refine ⟨hcollected, fun u hu => hkept u ?_, fun u hu => ?_⟩
    · rw [hsources]
      exact hu.addSource _
    · rcases mem_cons.mp hu with rfl | hu
      · refine hkept u ?_
        rw [hsources]
        exact covered_addSource hcolumns
      · exact hcovered u hu

theorem covered_collectSources {ws : List Workflow} {b : Build} (hb : b.sources = [])
    (h : result (collectSources ws) b = .ok ()) :
    Collected (state (collectSources ws) b).sources
      ∧ ∀ w ∈ ws, ∀ t ∈ w.sources, Covered (state (collectSources ws) b).sources t := by
  obtain ⟨hcollected, -, hcovered⟩ := covered_forM _ b (hb ▸ .nil) h
  exact ⟨hcollected, fun w hw t ht => hcovered t (mem_flatMap.mpr ⟨w, hw, ht⟩)⟩

end Work

end Replatform.Project

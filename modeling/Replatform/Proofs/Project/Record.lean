import Mathlib.Data.List.Induction
import Replatform.Proofs.Project.Stored
/-!
# What is known about the models

A model that is written gets an entry under its name, in the place of an older one. So there is one
entry for each name (`map_fst_models`), and it tells of the model that was written last under this
name (`lookup_models`).
-/

namespace Replatform.Project

open List Stateful

/-! ## Names without repetition -/

variable (xs : List String)

theorem distinct_concat (x : String) :
    distinct (xs ++ [x]) = if x ∈ distinct xs then distinct xs else distinct xs ++ [x] := by
  unfold distinct
  rw [foldl_append, foldl_cons, foldl_nil]
  simp only [contains_iff_mem]

@[simp] theorem mem_distinct {xs : List String} {x : String} : x ∈ distinct xs ↔ x ∈ xs := by
  induction xs using reverseRecOn with
  | nil => rfl
  | append_singleton xs y ih =>
    rw [distinct_concat, mem_append, mem_singleton, ← ih]
    split
    next hy => exact ⟨.inl, fun h => h.elim id fun he => he ▸ hy⟩
    next => rw [mem_append, mem_singleton]

theorem nodup_distinct : (distinct xs).Nodup := by
  induction xs using reverseRecOn with
  | nil => exact .nil
  | append_singleton xs x ih =>
    rw [distinct_concat]
    split
    next => exact ih
    next hx => exact concat_eq_append ▸ ih.concat hx

theorem distinct_sublist : (distinct xs).Sublist xs := by
  induction xs using reverseRecOn with
  | nil => exact .slnil
  | append_singleton xs x ih =>
    rw [distinct_concat]
    split
    next => exact ih.trans (sublist_append_left ..)
    next => exact ih.append_right _

theorem distinct_eq_self {xs : List String} (h : xs.Nodup) : distinct xs = xs := by
  induction xs using reverseRecOn with
  | nil => rfl
  | append_singleton xs x ih =>
    rw [← concat_eq_append, nodup_concat] at h
    rw [distinct_concat, ih h.2, if_neg h.1]

/-- Names occur once each just when none is left out. -/
theorem length_distinct_eq_iff {xs : List String} :
    (distinct xs).length = xs.length ↔ xs.Nodup := by
  constructor
  · intro h
    rw [← (distinct_sublist xs).eq_of_length h]
    exact nodup_distinct xs
  · intro h
    rw [distinct_eq_self h]

/-! ## Entries -/

/-- The entries of models that are written one after the other. -/
def record (files : List ModelFile) : List (String × Model) :=
  files.foldl (fun models f => setField models f.model.name f.model) []

theorem record_concat (files : List ModelFile) (f : ModelFile) :
    record (files ++ [f]) = setField (record files) f.model.name f.model := by
  unfold record
  rw [foldl_append, foldl_cons, foldl_nil]

theorem map_fst_record (files : List ModelFile) :
    (record files).map (·.1) = distinct (files.map (·.model.name)) := by
  induction files using reverseRecOn with
  | nil => rfl
  | append_singleton files f ih =>
    rw [record_concat, map_fst_setField, ih, map_append]
    exact (distinct_concat _ _).symm

theorem lookup_record {files : List ModelFile} {f : ModelFile}
    (hf : f ∈ lastByName (·.model.name) files) :
    (record files).lookup f.model.name = some f.model := by
  induction files using reverseRecOn with
  | nil => exact nomatch hf
  | append_singleton files g ih =>
    rw [record_concat, lookup_setField]
    rcases mem_lastByName_concat hf with rfl | ⟨hf, hne⟩
    · rw [if_pos rfl]
    · rw [if_neg hne, ih hf]

/-! ## The work -/

def Build.Recorded (b : Build) : Prop := b.models = record b.files

/-- Work that began with the models of its files ends so. -/
def Records (b b' : Build) : Prop := b.Recorded → b'.Recorded

theorem records_of_eq {b b' : Build} (hfiles : b'.files = b.files)
    (hmodels : b'.models = b.models) :
    Records b b' := by
  intro h
  rw [Build.Recorded, hfiles, hmodels]
  exact h

instance : Modest Records where
  refl _ h := h
  trans _ _ _ h₁ h₂ h := h₂ (h₁ h)
  of_eq _ hfiles hmodels _ := records_of_eq hfiles hmodels

namespace Work

theorem records_of_sameModels {α : Type} {x : Work α} (hx : Within SameModels x) :
    Within Records x := fun b => records_of_eq (hx b).files (hx b).models

theorem records_writeModel (f : ModelFile) : Within Records (writeModel f) := by
  refine within_bind within_get fun b => ?_
  refine within_bind (records_of_sameModels (writing_writeText _ _)) fun _ => ?_
  refine within_modify fun b h => ?_
  show setField b.models f.model.name f.model = record (b.files ++ [f])
  rw [record_concat, ← h]

theorem records_generate (home : Path) (ws : List Workflow) (inv : Option MacroInventory) :
    Within Records (generate home ws inv) := by
  obtain ⟨before, hbefore, hgenerate⟩ := exists_generate_eq home ws inv
  rw [hgenerate]
  refine within_bind (records_of_sameModels hbefore) fun _ => ?_
  refine within_bind (within_forM fun w _ => ?_) fun _ => records_of_sameModels outward_finish
  exact within_writeWorkflow (fun f _ => records_writeModel f) w

end Work

theorem Build.Fresh.recorded {b : Build} (h : b.Fresh) : b.Recorded := by
  rw [Build.Recorded, h.1, h.2]
  rfl

section Recorded

variable {b : Build}

variable (h : b.Recorded)
include h

/-- There is one entry for each name. -/
theorem map_fst_models : b.models.map (·.1) = distinct b.written := by
  rw [h, map_fst_record]
  rfl

theorem nodup_keys : (b.models.map (·.1)).Nodup := by
  rw [map_fst_models h]
  exact nodup_distinct _

/-- The entry tells of the model that was written last. -/
theorem lookup_models {f : ModelFile} (hf : f ∈ b.current) :
    b.models.lookup f.model.name = some f.model := by
  rw [h]
  exact lookup_record hf

theorem mem_models_iff {name : String} {m : Model} :
    (name, m) ∈ b.models ↔ ∃ f ∈ b.current, f.model.name = name ∧ f.model = m := by
  constructor
  · intro hm
    have hname : name ∈ b.written := by
      rw [← mem_distinct, ← map_fst_models h]
      exact mem_map_of_mem hm
    obtain ⟨f, hf, hname⟩ := mem_map.mp hname
    obtain ⟨g, hg, hsame⟩ := exists_mem_lastByName hf
    refine ⟨g, hg, hsame.trans hname, ?_⟩
    have hlookup := lookup_models h hg
    rw [hsame.trans hname, lookup_of_mem (nodup_keys h) hm, Option.some.injEq] at hlookup
    exact hlookup.symm
  · rintro ⟨f, hf, rfl, rfl⟩
    exact mem_of_lookup (lookup_models h hf)

end Recorded

end Replatform.Project

import Mathlib.Data.List.Nodup
import Replatform.Project.Settings
import Replatform.Proofs.Path
/-!
# What a list of models lists

A list of models has an entry for each of them, in the order of their names. A reader of the list
takes the names that stand behind a dash at the front of a line. What is told of a model is written
as it is, so that a line break in it may be followed by what looks like an entry. The names of such
entries are read with that of the model (`lists_modelList`), and no others.
-/

namespace Replatform.Project

open List

/-! ## The order of the entries -/

theorem byName_perm {α : Type} (fields : List (String × α)) : (byName fields).Perm fields :=
  mergeSort_perm fields _

/-- Where no name occurs twice, the names increase. -/
theorem pairwise_byName {α : Type} {fields : List (String × α)} (h : (fields.map (·.1)).Nodup) :
    (byName fields).Pairwise (·.1 < ·.1) := by
  have hsorted : (byName fields).Pairwise fun a b => decide (a.1 ≤ b.1) := by
    refine pairwise_mergeSort (fun a b c hab hbc => ?_) (fun a b => ?_) fields
    · rw [decide_eq_true_eq] at hab hbc ⊢
      exact String.le_trans hab hbc
    · rw [Bool.or_eq_true, decide_eq_true_eq, decide_eq_true_eq]
      exact String.le_total a.1 b.1
  have hnames : ((byName fields).map (·.1)).Nodup := ((byName_perm fields).map _).nodup_iff.mpr h
  refine (hsorted.and (pairwise_map.mp hnames)).imp fun {a b} hab => ?_
  exact Std.lt_of_le_of_ne (decide_eq_true_eq.mp hab.1) hab.2

/-! ## Lines -/

theorem after?_append (pat s : List Char) : Text.after? pat (pat ++ s) = some s := by
  induction pat with
  | nil => rfl
  | cons p pat ih => rw [cons_append, Text.after?, if_pos rfl, ih]

/-- The lines of a text. -/
def rowsOf (text : String) : List (List Char) := Text.splitWhen (· == '\n') text.toList

variable {s : String}

theorem rowsOf_of_notMem (h : '\n' ∉ s.toList) : rowsOf s = [s.toList] := Text.splitWhen_of_notMem h

theorem rowsOf_break (s t : String) : rowsOf (s ++ "\n" ++ t) = rowsOf s ++ rowsOf t := by
  rw [rowsOf, String.toList_append, String.toList_append, append_assoc]
  exact Text.splitWhen_append_cons (by decide) s.toList t.toList

variable {xs : List String}

theorem rowsOf_lines (hne : xs ≠ []) :
    rowsOf (Text.lines xs) = xs.flatMap rowsOf := by
  rw [rowsOf, Text.lines, String.toList_intercalate]
  exact (Text.splitWhen_intercalate (by decide) (by simpa using hne)).trans (flatMap_map ..)

/-- What stands in front of a text and has no line break belongs to its first line. -/
theorem rowsOf_append {front rest : List Char} (hs : s.toList = front ++ rest)
    (hfront : '\n' ∉ front) :
    ∃ row rows, Text.splitWhen (· == '\n') rest = row :: rows
      ∧ rowsOf s = (front ++ row) :: rows := by
  obtain ⟨row, rows, hrows⟩ := exists_cons_of_ne_nil (Text.splitWhen_ne_nil (· == '\n') rest)
  refine ⟨row, rows, hrows, ?_⟩
  rw [rowsOf, hs]
  exact Text.splitWhen_append_of_all
    (fun c hc => beq_eq_false_iff_ne.mpr fun he => hfront (he ▸ hc)) hrows

/-- Lines without breaks are found again. -/
theorem splitWhen_lines (hne : xs ≠ []) (h : ∀ x ∈ xs, '\n' ∉ x.toList) :
    Text.splitWhen (· == '\n') (Text.lines xs).toList = xs.map String.toList := by
  rw [map_eq_flatMap]
  exact (rowsOf_lines hne).trans (flatMap_congr fun x hx => rowsOf_of_notMem (h x hx))

/-- The name that stands behind a dash at the front of a line. -/
def listedName? (line : List Char) : Option String :=
  (Text.after? "  - name: ".toList line).map String.ofList

/-- The names that a reader takes from a text. -/
def listedNames (text : String) : List String := (rowsOf text).filterMap listedName?

/-- The names that a text spells behind its line breaks. -/
def spelledNames (text : String) : List String := (rowsOf text).tail.filterMap listedName?

theorem listedNames_lines (hne : xs ≠ []) :
    listedNames (Text.lines xs) = xs.flatMap listedNames := by
  rw [listedNames, rowsOf_lines hne, filterMap_flatMap]
  rfl

/-- Where no name stands in front of a quoted text, there are those that it spells. -/
theorem listedNames_quoted (front : String) (hbreak : '\n' ∉ front.toList)
    (hfront : ∀ row, listedName? (front.toList ++ row) = none) (s : String) :
    listedNames (front ++ s ++ "\"") = spelledNames (s ++ "\"") := by
  obtain ⟨row, rows, hrows, hwhole⟩ := rowsOf_append (s := front ++ s ++ "\"")
    (by rw [String.append_assoc, String.toList_append]) hbreak
  rw [listedNames, spelledNames, hwhole, filterMap_cons, hfront, rowsOf, hrows]
  rfl

theorem spelledNames_of_notMem (h : '\n' ∉ s.toList) : spelledNames s = [] := by
  rw [spelledNames, rowsOf_of_notMem h]
  rfl

/-! ## Entries -/

/-- What is told of the model has no line breaks. -/
def Model.OneLine (m : Model) : Prop :=
  '\n' ∉ m.description.toList ∧ ∀ c ∈ m.columns, '\n' ∉ c.toList

instance (m : Model) : Decidable m.OneLine := inferInstanceAs (Decidable (_ ∧ _))

/-- The names that are spelled by what is told of a model. Its columns are told of twice. -/
def Model.strayNames (m : Model) : List String :=
  spelledNames (m.description ++ "\"")
    ++ m.columns.flatMap fun c => spelledNames (c ++ "\"") ++ spelledNames (c ++ "\"")

theorem Model.OneLine.strayNames {m : Model} (h : m.OneLine) : m.strayNames = [] := by
  have hquoted : ∀ s : String, '\n' ∉ s.toList → spelledNames (s ++ "\"") = [] :=
    fun s hs => spelledNames_of_notMem (by simp [hs])
  rw [Model.strayNames, hquoted _ h.1, nil_append, flatMap_eq_nil_iff]
  intro c hc
  rw [hquoted c (h.2 c hc), append_nil]

theorem listedNames_columnEntries (columns : List String) :
    (columnEntries "      " "" columns).flatMap listedNames
      = columns.flatMap fun c => spelledNames (c ++ "\"") ++ spelledNames (c ++ "\"") := by
  rw [columnEntries, flatMap_assoc]
  refine flatMap_congr fun c _ => ?_
  have hname := listedNames_quoted ("      " ++ "- name: \"") (by decide)
    (fun row => by simp [listedName?, Text.after?]) c
  have hdescription := listedNames_quoted ("      " ++ "  description: \"Column ") (by decide)
    (fun row => by simp [listedName?, Text.after?]) c
  rw [flatMap_cons, flatMap_cons, flatMap_nil, append_nil, String.append_empty, hname, hdescription]

theorem listedName?_name (name : String) :
    listedName? ("  - name: " ++ name).toList = some name := by
  rw [listedName?, String.toList_append, after?_append, Option.map_some, String.ofList_toList]

theorem listedNames_name {name : String} (hname : '\n' ∉ name.toList) :
    listedNames ("  - name: " ++ name) = [name] := by
  have hbreak : '\n' ∉ ("  - name: " ++ name).toList := by simp [hname]
  rw [listedNames, rowsOf_of_notMem hbreak, filterMap_cons, listedName?_name]
  rfl

/-- An entry has the name of its model, and those that are spelled. -/
theorem listedNames_modelEntry {name : String} (hname : '\n' ∉ name.toList) (m : Model) :
    (modelEntry name m).flatMap listedNames = name :: m.strayNames := by
  have hdescription := listedNames_quoted "    description: \"" (by decide)
    (fun row => by simp [listedName?, Text.after?]) m.description
  have hcolumns : listedNames "    columns:" = [] := by decide
  have hblank : listedNames "" = [] := by decide
  rw [modelEntry, flatMap_append, flatMap_append, flatMap_singleton, hblank, append_nil,
    flatMap_cons, flatMap_cons, flatMap_singleton, listedNames_name hname, hdescription, hcolumns,
    append_nil, Model.strayNames, singleton_append, cons_append]
  congr 2
  split
  next hempty =>
    rw [isEmpty_iff.mp hempty]
    decide
  next => exact listedNames_columnEntries m.columns

theorem newline_notMem_columnEntries {indent note : String} (hindent : '\n' ∉ indent.toList)
    (hnote : '\n' ∉ note.toList) {columns : List String} (h : ∀ c ∈ columns, '\n' ∉ c.toList) :
    ∀ line ∈ columnEntries indent note columns, '\n' ∉ line.toList := by
  intro line hline
  obtain ⟨c, hc, hline⟩ := mem_flatMap.mp hline
  have hc := h c hc
  simp only [mem_cons, not_mem_nil, or_false] at hline
  rcases hline with rfl | rfl <;> simp [hindent, hnote, hc]

theorem newline_notMem_modelEntry {name : String} {m : Model} (hname : '\n' ∉ name.toList)
    (hm : m.OneLine) : ∀ line ∈ modelEntry name m, '\n' ∉ line.toList := by
  intro line hline
  simp only [modelEntry, mem_append, mem_cons, not_mem_nil, or_false] at hline
  rcases hline with ((rfl | rfl | rfl) | hline) | rfl
  · simp [hname]
  · simp [hm.1]
  · decide
  · split at hline
    · simp only [mem_cons, not_mem_nil, or_false] at hline
      rcases hline with rfl | rfl | rfl <;> decide
    · exact newline_notMem_columnEntries (by decide) (by decide) hm.2 line hline
  · decide

/-- The text has an entry for each of the models, in the order of their names. A reader takes their
names from it, each with those that are spelled by what is told of the model. -/
def Lists (text : String) (models : List (String × Model)) : Prop :=
  ∃ entries : List (String × Model), entries.Perm models ∧ entries.Pairwise (·.1 < ·.1)
    ∧ text = Text.lines (["version: 2", "", "models:"]
      ++ entries.flatMap fun m => modelEntry m.1 m.2)
    ∧ listedNames text = entries.flatMap fun m => m.1 :: m.2.strayNames

theorem lists_modelList {models : List (String × Model)} (hkeys : (models.map (·.1)).Nodup)
    (hnames : ∀ m ∈ models, '\n' ∉ m.1.toList) : Lists (modelList models) models := by
  refine ⟨byName models, byName_perm models, pairwise_byName hkeys, rfl, ?_⟩
  have hheader : ["version: 2", "", "models:"].flatMap listedNames = [] := by decide
  rw [modelList, listedNames_lines (by simp), flatMap_append, hheader, nil_append, flatMap_assoc]
  refine flatMap_congr fun m hm => listedNames_modelEntry (hnames m ?_) m.2
  exact (byName_perm models).mem_iff.mp hm

/-- Where what is told of the models has no line breaks, a reader takes their names, each once and
in order. -/
theorem Lists.names {text : String} {models : List (String × Model)} (h : Lists text models)
    (hlines : ∀ m ∈ models, m.2.OneLine) : (listedNames text).Pairwise (· < ·)
      ∧ ∀ name, name ∈ listedNames text ↔ name ∈ models.map (·.1) := by
  obtain ⟨entries, hperm, hsorted, -, hnames⟩ := h
  have hmap : listedNames text = entries.map (·.1) := by
    rw [hnames, map_eq_flatMap]
    refine flatMap_congr fun m hm => ?_
    rw [(hlines m (hperm.mem_iff.mp hm)).strayNames]
  rw [hmap]
  exact ⟨pairwise_map.mpr hsorted, fun name => (hperm.map _).mem_iff⟩

end Replatform.Project

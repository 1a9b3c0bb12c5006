import Replatform.Proofs.Path
import Replatform.Proofs.Value
/-!
# What stands below a directory

A log says which files were written below a directory, and with what texts. `Holds` says that this
is what there is, as far as a region of names goes: a file stands under each name of the log, with
the text that was written there last, and there are no other files in the region. Directories that
are made do not matter, and a file that is written is one entry more, or none if it lies outside the
region.
-/

namespace Replatform

open List Replatform.Path

/-- Files that were written below a directory, one after the other: the names that lead to each, and
its text. -/
abbrev Log := List (List String × String)

/-- The text that was written last under the names. -/
def Log.text? (log : Log) (names : List String) : Option String := log.reverse.lookup names

section Log

variable {log : Log} {names : List String} {text : String}

theorem Log.text?_append_of_notMem {log' : Log} (h : names ∉ log'.map (·.1)) :
    (log ++ log').text? names = log.text? names := by
  have hnone : log'.reverse.lookup names = none := by
    refine lookup_eq_none_iff.mpr fun x hx => bne_iff_ne.mpr ?_
    rintro rfl
    exact h (mem_map_of_mem (mem_reverse.mp hx))
  rw [Log.text?, reverse_append, lookup_append, hnone, Option.none_or, Log.text?]

theorem Log.text?_concat_self : (log ++ [(names, text)]).text? names = some text := by
  rw [Log.text?, reverse_append, reverse_singleton, singleton_append, lookup_cons_self]

/-- The last entry for the names counts. -/
theorem Log.text?_of_last {log' : Log} (h : names ∉ log'.map (·.1)) :
    (log ++ (names, text) :: log').text? names = some text := by
  rw [append_cons, Log.text?_append_of_notMem h, Log.text?_concat_self]

theorem Log.isSome_text? : (log.text? names).isSome ↔ names ∈ log.map (·.1) := by
  rw [Log.text?, lookup_isSome_iff, mem_map]
  constructor
  · rintro ⟨x, hx, hnames⟩
    exact ⟨x, mem_reverse.mp hx, (beq_iff_eq.mp hnames).symm⟩
  · rintro ⟨x, hx, rfl⟩
    exact ⟨x, mem_reverse.mpr hx, beq_self_eq_true _⟩

end Log

namespace Files

variable {fs fs' : Files} {p : Path}

/-- The path leads to a file with the text, or there is no file at its place. -/
def Shows (fs : Files) (p : Path) : Option String → Prop
  | some text => fs.read p = .ok (.text text)
  | none => ∀ c, fs.at? (fs.placeOf p) ≠ some (.file c)

/-- The name of every file is a single part of a path. -/
def Named (fs : Files) : Prop :=
  ∀ front name c, fs.at? (front ++ [name]) = some (.file c) → IsPart name

theorem mem_entries {place : List String} {c : Content} (h : fs.at? place = some (.file c)) :
    (place, .file c) ∈ fs.entries := by
  unfold at? at h
  split at h
  · exact nomatch h
  · exact mem_of_lookup h

theorem at?_of_read {c : Content} (h : fs.read p = .ok c) :
    fs.at? (fs.placeOf p) = some (.file c) := by
  have hlocate := read_eq_ok.mp h
  rcases locate_cases fs.cwd p with hwalk | herror
  · exact (walk_eq_ok (hwalk fs rfl ▸ hlocate)).2
  · rcases herror fs with herror | herror <;> exact nomatch herror.symm.trans hlocate

/-- A path can be read just when it shows a text. -/
theorem Shows.read_iff {text? : Option String} (h : fs.Shows p text?) {c : Content} :
    fs.read p = .ok c ↔ text?.map .text = some c := by
  cases text? with
  | none => exact ⟨fun hread => absurd (at?_of_read hread) (h c), fun hc => nomatch hc⟩
  | some text =>
    have hread : fs.read p = .ok (.text text) := h
    rw [hread, Option.map_some, Except.ok.injEq, Option.some.injEq]

/-- What a path shows stays if its place is spared and gets no file. -/
theorem Shows.of_spares {text? : Option String} (h : fs.Shows p text?)
    (hspares : Spares (fs.placeOf p) fs fs')
    (hfile : ∀ c, fs'.at? (fs.placeOf p) = some (.file c) →
      fs.at? (fs.placeOf p) = some (.file c)) :
    fs'.Shows p text? := by
  cases text? with
  | some text => exact read_of_spares hspares h
  | none =>
    intro c hc
    rw [placeOf, hspares.cwd] at hc
    exact h c (hfile c hc)

/-- Below the directory, the files of the region are those of the log. -/
structure Holds (dir : Path) (region : List String → Prop) (log : Log) (fs : Files) : Prop where
  named : fs.Named
  shows : ∀ names, region names → ".." ∉ names → fs.Shows (dir.below names) (log.text? names)

section Holds

variable {dir : Path} {region : List String → Prop} {log : Log}

theorem Holds.makeDirectory (hfs : fs.Holds dir region log) (h : fs.makeDirectory p = .ok fs') :
    fs'.Holds dir region log := by
  refine ⟨fun front name c hc => hfs.named front name c (file_of_makeFrom h hc), ?_⟩
  intro names hnames hup
  exact (hfs.shows names hnames hup).of_spares
    (spares_of_makeDirectory (dots_notMem_placeOf _ _) h) fun c hc => file_of_makeFrom h hc

section Write

variable {names : List String} {last : String} {c : Content} (hpart : IsPart last)
  (hup : ".." ∉ names ++ [last]) (h : fs.write (dir.below (names ++ [last])) c = .ok fs')

include hup h

theorem write_below : fs' = fs.put (fs.placeOf dir ++ (names ++ [last])) (.file c)
    ∧ (∀ place, place ≠ fs.placeOf dir ++ (names ++ [last]) → Spares place fs fs')
    ∧ fs'.read (dir.below (names ++ [last])) = .ok c := by
  have hparts : (dir.below (names ++ [last])).parts = (dir.parts ++ names) ++ [last] := by
    simp [Path.below]
  have hlast : last ≠ ".." := by
    rintro rfl
    exact hup (mem_append_right _ (mem_singleton.mpr rfl))
  have hplace := placeOf_below fs dir hup
  refine ⟨?_, fun place hne => ?_, read_of_write hparts hlast h⟩
  · rw [← hplace]
    exact (write_eq_ok hparts hlast h).1
  · exact spares_of_write hparts hlast h (hplace ▸ hne)

/-- Other names show what they showed. -/
theorem Holds.shows_write (hfs : fs.Holds dir region log) {names' : List String}
    (hregion : region names') (hup' : ".." ∉ names') (hne : names' ≠ names ++ [last]) :
    fs'.Shows (dir.below names') (log.text? names') := by
  obtain ⟨hput, hspares, -⟩ := write_below hup h
  have hplace : fs.placeOf (dir.below names') ≠ fs.placeOf dir ++ (names ++ [last]) := by
    rw [placeOf_below fs dir hup']
    exact fun he => hne (append_cancel_left he)
  refine (hfs.shows names' hregion hup').of_spares (hspares _ hplace) fun c' hc' => ?_
  rwa [hput, at?_put_of_ne _ hplace] at hc'

include hpart

theorem Named.write (hfs : fs.Named) : fs'.Named := by
  intro front name c' hc'
  obtain ⟨rfl, -, -⟩ := write_below hup h
  by_cases hplace : front ++ [name] = fs.placeOf dir ++ (names ++ [last])
  · rw [← append_assoc] at hplace
    rwa [(append_inj' hplace rfl).2 |> singleton_inj.mp]
  · rw [at?_put_of_ne _ hplace] at hc'
    exact hfs front name c' hc'

/-- A file outside the region does not matter. -/
theorem Holds.write_outside (hfs : fs.Holds dir region log) (hout : ¬ region (names ++ [last])) :
    fs'.Holds dir region log := by
  refine ⟨hfs.named.write hpart hup h, fun names' hregion hup' => ?_⟩
  refine hfs.shows_write hup h hregion hup' ?_
  rintro rfl
  exact hout hregion

end Write

/-- A text that is written is one entry more. -/
theorem Holds.write (hfs : fs.Holds dir region log) {names : List String} {last text : String}
    (hpart : IsPart last) (hup : ".." ∉ names ++ [last])
    (h : fs.write (dir.below (names ++ [last])) (.text text) = .ok fs') :
    fs'.Holds dir region (log ++ [(names ++ [last], text)]) := by
  refine ⟨hfs.named.write hpart hup h, fun names' hregion hup' => ?_⟩
  by_cases hnames : names' = names ++ [last]
  · subst hnames
    rw [Log.text?_concat_self]
    exact (write_below hup h).2.2
  · rw [Log.text?_append_of_notMem (by simpa using hnames)]
    exact hfs.shows_write hup h hregion hup' hnames

end Holds

end Files

end Replatform

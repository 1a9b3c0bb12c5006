import Mathlib.Data.List.Basic
import Replatform.Files
import Replatform.Proofs.Failure
/-!
# What a change of the files leaves as it was

A file is written at one place, and directories are made where nothing was. So all directories stay,
and what stands at another place stays too: `Spares place` says this of two states of the files.
Paths are found again in a state that spares their places (`read_of_spares`), and what was written
is what is read (`write_spec`). To look at the files fails only where a name is too long
(`find?_eq_error`).
-/

namespace Replatform

open List

variable {q parts front : List String} {e : Failure} {name name' : String} {p : Path} {c : Content}

namespace Files

variable {fs fs' fs'' : Files} {place : List String}

def placeOf (fs : Files) (p : Path) : List String := (Path.resolve fs.cwd p).parts

/-! ## Entries -/

theorem lookup_map_replace {place : List String} (entry : Entry)
    (entries : List (List String × Entry)) :
    (entries.map fun (r, e) => if r = place then (r, entry) else (r, e)).lookup q
      = if q = place then (entries.lookup q).map fun _ => entry else entries.lookup q := by
  induction entries with
  | nil => simp
  | cons x xs ih =>
    obtain ⟨r, e⟩ := x
    by_cases hq : q = r
    · subst hq
      by_cases hplace : q = place <;> simp [hplace]
    · have hkey : (q == r) = false := beq_eq_false_iff_ne.mpr hq
      have hfront : (if r = place then (r, entry) else (r, e)).1 = r := by split <;> rfl
      have hskip : ((r, e) :: xs).lookup q = xs.lookup q := by rw [lookup_cons, hkey]
      rw [hskip, ← ih, map_cons, lookup_cons, hfront, hkey]

theorem at?_put_of_ne (entry : Entry) (h : q ≠ place) : (fs.put place entry).at? q = fs.at? q := by
  unfold put at?
  split
  · rfl
  · split
    next => rw [lookup_map_replace, if_neg h]
    next =>
      rw [lookup_append]
      simp [lookup_cons, beq_eq_false_iff_ne.mpr h]

theorem at?_put_self (entry : Entry) (h : place ≠ []) :
    (fs.put place entry).at? place = some entry := by
  unfold put at?
  rw [if_neg (by simpa using h)]
  split
  next hsome =>
    rw [lookup_map_replace, if_pos rfl]
    obtain ⟨e, he⟩ := Option.isSome_iff_exists.mp hsome
    rw [he]
    rfl
  next hnone =>
    rw [lookup_append, Option.not_isSome_iff_eq_none.mp hnone]
    simp

@[simp] theorem cwd_put (place : List String) (entry : Entry) :
    (fs.put place entry).cwd = fs.cwd := by
  unfold put
  split <;> rfl

/-! ## Paths -/

theorem walk_eq_ok {e : Entry} (h : fs.walk place parts = .ok (q, e)) :
    q = parts.foldl Path.climb place ∧ fs.at? q = some e := by
  induction parts generalizing place with
  | nil =>
    unfold walk at h
    split at h
    next entry hentry =>
      cases h
      exact ⟨rfl, hentry⟩
    next => exact nomatch h
  | cons part parts ih =>
    unfold walk at h
    split at h
    next =>
      split at h
      · exact nomatch h
      · exact ih h
    next => exact nomatch h
    next => exact nomatch h

/-- The way to a place is found again, when all directories are still there. -/
theorem walk_of_directories {e e' : Entry}
    (hdirs : ∀ r, fs.at? r = some .directory → fs'.at? r = some .directory)
    (h : fs.walk place parts = .ok (q, e)) (hq : fs'.at? q = some e') :
    fs'.walk place parts = .ok (q, e') := by
  induction parts generalizing place with
  | nil =>
    have hplace : q = place := (walk_eq_ok h).1
    unfold walk
    rw [← hplace, hq]
  | cons part parts ih =>
    unfold walk at h ⊢
    split at h
    next hdir =>
      rw [hdirs _ hdir]
      split at h
      · exact nomatch h
      next hsize =>
        dsimp only
        rw [if_neg hsize]
        exact ih h
    next => exact nomatch h
    next => exact nomatch h

/-- A way goes on from the place that it leads to. -/
theorem walk_append {more : List String} {e : Entry} (h : fs.walk place parts = .ok (q, e)) :
    fs.walk place (parts ++ more) = fs.walk q more := by
  induction parts generalizing place with
  | nil => rw [(walk_eq_ok h).1, nil_append, foldl_nil]
  | cons part parts ih =>
    rw [cons_append]
    unfold walk at h
    rw [walk]
    split at h
    next hdir =>
      split at h
      · exact nomatch h
      next hsize =>
        rw [if_neg hsize]
        exact ih h
    next => exact nomatch h
    next => exact nomatch h

/-- From a directory, a way goes on to a name there. -/
theorem walk_append_name (h : fs.walk place parts = .ok (q, .directory))
    (hname : name.utf8ByteSize ≤ nameLimit) (hup : name ≠ "..") :
    fs.walk place (parts ++ [name])
      = match fs.at? (q ++ [name]) with
        | some entry => .ok (q ++ [name], entry)
        | none => .error .noFile := by
  have hclimb : Path.climb q name = q ++ [name] := if_neg hup
  rw [walk_append h, walk, (walk_eq_ok h).2]
  dsimp only
  rw [if_neg (Nat.not_lt.mpr hname), hclimb]
  rfl

/-- Whether a path is looked up at all depends on the path only. -/
theorem locate_cases (cwd p : Path) :
    (∀ fs : Files, fs.cwd = cwd → fs.locate p = fs.walk [] (cwd.append p).parts)
      ∨ ∀ fs : Files, fs.locate p = .error .nulByte ∨ fs.locate p = .error .longName := by
  unfold locate
  by_cases hnul : p.toString.toList.any (· == Char.ofNat 0)
  · exact .inr fun fs => .inl (if_pos hnul)
  · by_cases hlong : pathLimit < p.toString.utf8ByteSize
    · exact .inr fun fs => .inr (by rw [if_neg hnul, if_pos hlong])
    · exact .inl fun fs hcwd => by rw [if_neg hnul, if_neg hlong, hcwd]

/-- A path that is looked up once is always looked up from the same directory. -/
theorem locate_eq_walk (h : ∀ {e}, fs.locate p = .error e → e = .noFile) (hcwd : fs'.cwd = fs.cwd) :
    fs'.locate p = fs'.walk [] (fs.cwd.append p).parts := by
  rcases locate_cases fs.cwd p with hwalk | herror
  · exact hwalk fs' hcwd
  · rcases herror fs with herror | herror <;> exact nomatch h herror

theorem walk_of_locate {found : List String × Entry} (h : fs.locate p = .ok found) :
    fs.walk [] (fs.cwd.append p).parts = .ok found :=
  (locate_eq_walk (fun herror => nomatch h.symm.trans herror) rfl).symm.trans h

/-- A path leads to the same place as long as the directories are there. -/
theorem locate_again {entry entry' : Entry} (h : fs.locate p = .ok (q, entry))
    (hcwd : fs'.cwd = fs.cwd)
    (hdir : ∀ r, fs.at? r = some .directory → fs'.at? r = some .directory)
    (hentry : fs'.at? q = some entry') : fs'.locate p = .ok (q, entry') := by
  rw [locate_eq_walk (fun herror => nomatch h.symm.trans herror) hcwd]
  exact walk_of_directories hdir (walk_of_locate h) hentry

/-! ## Failures -/

theorem walk_eq_error (h : fs.walk place parts = .error e) :
    e = .noFile ∨ e = .notDirectory ∨ e = .longName := by
  induction parts generalizing place with
  | nil =>
    unfold walk at h
    split at h
    · cases h
    · cases h
      exact .inl rfl
  | cons part parts ih =>
    unfold walk at h
    split at h
    · split at h
      · cases h
        exact .inr (.inr rfl)
      · exact ih h
    · cases h
      exact .inr (.inl rfl)
    · cases h
      exact .inl rfl

/-- To see what stands at a path can fail only if a name is too long. -/
theorem find?_eq_error (h : fs.find? p = .error e) : e = .longName := by
  have hlocate : ∀ e', fs.locate p = .error e' →
      e' = .nulByte ∨ e' = .noFile ∨ e' = .notDirectory ∨ e' = .longName := by
    intro e' h'
    rcases locate_cases fs.cwd p with hwalk | hnever
    · rw [hwalk fs rfl] at h'
      exact .inr (walk_eq_error h')
    · rcases hnever fs with hnul | hlong
      · rw [hnul] at h'
        exact .inl (Except.error.inj h').symm
      · rw [hlong] at h'
        exact .inr (.inr (.inr (Except.error.inj h').symm))
  unfold find? at h
  split at h
  case h_5 e' hnoFile hnotDirectory hnulByte hlocated =>
    cases h
    rcases hlocate e hlocated with he | he | he | he
    · exact absurd he hnulByte
    · exact absurd he hnoFile
    · exact absurd he hnotDirectory
    · exact he
  all_goals cases h

theorem exists?_eq_error (h : fs.exists? p = .error e) : e = .longName :=
  find?_eq_error (map_eq_error.mp h)

theorem isFile_eq_error (h : fs.isFile p = .error e) : e = .longName :=
  find?_eq_error (map_eq_error.mp h)

theorem isDirectory_eq_error (h : fs.isDirectory p = .error e) :
    e = .longName := find?_eq_error (map_eq_error.mp h)

theorem directories_eq_error (h : fs.directories p = .error e) : e = .longName := by
  unfold directories at h
  split at h
  next hfind =>
    cases h
    exact find?_eq_error hfind
  all_goals cases h

/-! ## Changes -/

/-- What stood at the place still stands there, and all directories are still there. -/
structure Spares (place : List String) (fs fs' : Files) : Prop where
  cwd : fs'.cwd = fs.cwd
  entry : ∀ e, fs.at? place = some e → fs'.at? place = some e
  directory : ∀ q, fs.at? q = some .directory → fs'.at? q = some .directory

theorem Spares.refl (place : List String) (fs : Files) : Spares place fs fs :=
  ⟨rfl, fun _ h => h, fun _ h => h⟩

theorem Spares.trans (h₁ : Spares place fs fs') (h₂ : Spares place fs' fs'') :
    Spares place fs fs'' :=
  ⟨h₂.cwd.trans h₁.cwd, fun e h => h₂.entry e (h₁.entry e h),
    fun q h => h₂.directory q (h₁.directory q h)⟩

theorem read_eq_ok : fs.read p = .ok c ↔ fs.locate p = .ok (fs.placeOf p, .file c) := by
  unfold read
  constructor
  · intro h
    rcases hlocate : fs.locate p with e | ⟨q, e | _⟩
    · rw [hlocate] at h
      exact nomatch h
    · have hplace : q = fs.placeOf p := (walk_eq_ok (walk_of_locate hlocate)).1
      rw [hlocate] at h
      cases h
      rw [hplace]
    · rw [hlocate] at h
      exact nomatch h
  · intro h
    rw [h]
    rfl

/-- A file is read again in a state that spares its place. -/
theorem read_of_spares (hspares : Spares (fs.placeOf p) fs fs') (h : fs.read p = .ok c) :
    fs'.read p = .ok c := by
  have hlocate := read_eq_ok.mp h
  rw [read_eq_ok, show fs'.placeOf p = fs.placeOf p by rw [placeOf, hspares.cwd, placeOf]]
  exact locate_again hlocate hspares.cwd hspares.directory
    (hspares.entry _ (walk_eq_ok (walk_of_locate hlocate)).2)

theorem directory_put {r : List String} {entry : Entry} (hq : fs.at? q ≠ some .directory)
    (hr : fs.at? r = some .directory) : (fs.put q entry).at? r = some .directory := by
  have hne : r ≠ q := by
    rintro rfl
    exact hq hr
  rw [at?_put_of_ne entry hne, hr]

theorem ne_nil_of_at? (hq : fs.at? q ≠ some .directory) : q ≠ [] := by
  rintro rfl
  exact hq rfl

theorem parts_append_parent (cwd : Path) (hp : p.parts = front ++ [name]) :
    (cwd.append p).parts = (cwd.append p.parent).parts ++ [name] := by
  unfold Path.append Path.parent Path.isAbsolute
  dsimp only
  split
  · rw [hp, dropLast_concat]
  · rw [hp, dropLast_concat, append_assoc]

section Child

variable (hp : p.parts = front ++ [name])
include hp

theorem placeOf_child {entry : Entry} (hup : name ≠ "..")
    (h : fs.walk [] (fs.cwd.append p.parent).parts = .ok (q, entry)) :
    fs.placeOf p = q ++ [name] := by
  show (fs.cwd.append p).parts.foldl Path.climb [] = _
  rw [parts_append_parent fs.cwd hp, foldl_append, ← (walk_eq_ok h).1]
  show Path.climb q name = _
  rw [Path.climb, if_neg hup]

theorem locateParent_eq_ok (h : fs.locateParent p = .ok (q, name')) :
    name' = name ∧ name.utf8ByteSize ≤ nameLimit
      ∧ fs.walk [] (fs.cwd.append p.parent).parts = .ok (q, .directory) := by
  have hname : p.name = name := by
    rw [Path.name, hp]
    simp
  unfold locateParent at h
  split at h
  next =>
    cases hparent : fs.locate p.parent with
    | error e =>
      rw [hparent] at h
      exact nomatch h
    | ok found =>
      rw [hparent] at h
      exact nomatch h
  next hsize =>
    rcases hparent : fs.locate p.parent with e | ⟨r, c | _⟩
    · rw [hparent] at h
      exact nomatch h
    · rw [hparent] at h
      exact nomatch h
    · rw [hparent] at h
      cases h
      exact ⟨hname, hname ▸ Nat.le_of_not_lt hsize, walk_of_locate hparent⟩

section New

variable (hup : name ≠ "..") (hfile : fs.locate p = .error .noFile)
  (hparent : fs.locateParent p = .ok (q, name'))
include hup hfile hparent

/-- Where no file is found in a directory that is there, there is nothing. -/
theorem at?_eq_none_of_noFile : fs.at? (q ++ [name']) = none := by
  obtain ⟨rfl, hsize, hwalk⟩ := locateParent_eq_ok hp hparent
  rw [locate_eq_walk (by simp [hfile]) rfl, parts_append_parent fs.cwd hp,
    walk_append_name hwalk hsize hup] at hfile
  cases hat : fs.at? (q ++ [name']) with
  | none => rfl
  | some e =>
    rw [hat] at hfile
    exact nomatch hfile

/-- What is put there is found then. -/
theorem locate_put (entry : Entry) :
    (fs.put (q ++ [name']) entry).locate p = .ok (q ++ [name'], entry) := by
  have hnone := at?_eq_none_of_noFile hp hup hfile hparent
  obtain ⟨rfl, hsize, hwalk⟩ := locateParent_eq_ok hp hparent
  have hdir : fs.at? (q ++ [name']) ≠ some .directory := by simp [hnone]
  have hcwd : (fs.put (q ++ [name']) entry).cwd = fs.cwd := cwd_put ..
  rw [locate_eq_walk (by simp [hfile]) hcwd, parts_append_parent fs.cwd hp]
  rw [walk_append_name (walk_of_directories (fun r => directory_put hdir) hwalk
    (directory_put hdir (walk_eq_ok hwalk).2)) hsize hup, at?_put_self _ (by simp)]

end New

/-- What is written is put at the place of the path, where no directory was, and is found there. -/
theorem write_eq_ok (hup : name ≠ "..") (h : fs.write p c = .ok fs') :
    fs' = fs.put (fs.placeOf p) (.file c) ∧ fs.at? (fs.placeOf p) ≠ some .directory
      ∧ fs'.locate p = .ok (fs.placeOf p, .file c) := by
  unfold write at h
  rcases hfound : fs.locate p with e | ⟨q, old | _⟩
  · rw [hfound] at h
    cases e
    case noFile =>
      -- The file is new: its directory is there, and nothing stands at its name.
      rcases hparent : fs.locateParent p with e | ⟨q, name'⟩
      · rw [hparent] at h
        exact nomatch h
      · rw [hparent] at h
        obtain ⟨rfl, -, hwalk⟩ := locateParent_eq_ok hp hparent
        have hnone := at?_eq_none_of_noFile hp hup hfound hparent
        cases h
        rw [placeOf_child hp hup hwalk]
        exact ⟨rfl, by simp [hnone], locate_put hp hup hfound hparent _⟩
    all_goals exact nomatch h
  · -- The file was there.
    have hwalk := walk_eq_ok (walk_of_locate hfound)
    have hplace : q = fs.placeOf p := hwalk.1
    have hdir : fs.at? q ≠ some .directory := by simp [hwalk.2]
    rw [hfound] at h
    cases h
    rw [← hplace]
    exact ⟨rfl, hdir, locate_again hfound (cwd_put ..) (fun r => directory_put hdir)
      (at?_put_self _ (ne_nil_of_at? hdir))⟩
  · rw [hfound] at h
    exact nomatch h

/-- A file that is written is read, and all other places are spared. -/
theorem read_of_write (hup : name ≠ "..") (h : fs.write p c = .ok fs') : fs'.read p = .ok c := by
  obtain ⟨rfl, -, hlocate⟩ := write_eq_ok hp hup h
  rw [read_eq_ok, hlocate]
  simp [placeOf]

theorem spares_of_write (hup : name ≠ "..")
    (h : fs.write p c = .ok fs') (hplace : place ≠ fs.placeOf p) : Spares place fs fs' := by
  obtain ⟨rfl, hdir, -⟩ := write_eq_ok hp hup h
  exact ⟨cwd_put .., fun e he => (at?_put_of_ne _ hplace).trans he, fun q => directory_put hdir⟩

theorem spares_put_directory (hplace : ".." ∉ place)
    (hfile : fs.locate p = .error .noFile) (hparent : fs.locateParent p = .ok (q, name')) :
    Spares place fs (fs.put (q ++ [name']) .directory) := by
  refine ⟨cwd_put .., fun e he => ?_, fun r hr => ?_⟩
  · have hne : place ≠ q ++ [name'] := by
      rintro rfl
      have hname : name' = name := (locateParent_eq_ok hp hparent).1
      have hup : name ≠ ".." := by
        rintro rfl
        exact hplace (hname ▸ mem_append_right _ (mem_singleton.mpr rfl))
      exact nomatch (at?_eq_none_of_noFile hp hup hfile hparent).symm.trans he
    rw [at?_put_of_ne _ hne, he]
  · by_cases hne : r = q ++ [name']
    · rw [hne, at?_put_self _ (by simp)]
    · rw [at?_put_of_ne _ hne, hr]

end Child

/-- The first directory is there, or it is made. Then the others are made. -/
theorem makeFrom_cons_cases {part : String} (h : fs.makeFrom p front (part :: parts) = .ok fs') :
    (∃ q, fs.locate { p with parts := front ++ [part] } = .ok (q, .directory)
      ∧ fs.makeFrom p (front ++ [part]) parts = .ok fs')
    ∨ ∃ q name, fs.locate { p with parts := front ++ [part] } = .error .noFile
      ∧ fs.locateParent { p with parts := front ++ [part] } = .ok (q, name)
      ∧ (fs.put (q ++ [name]) .directory).makeFrom p (front ++ [part]) parts = .ok fs' := by
  unfold makeFrom at h
  dsimp only at h
  rcases hfound : fs.locate { p with parts := front ++ [part] } with e | ⟨q, old | _⟩
  · rw [hfound] at h
    cases e
    case noFile =>
      rcases hparent : fs.locateParent { p with parts := front ++ [part] } with e | ⟨q, name⟩
      · rw [hparent] at h
        cases h
      · rw [hparent] at h
        exact .inr ⟨q, name, rfl, rfl, h⟩
    all_goals cases h
  · rw [hfound] at h
    cases h
  · rw [hfound] at h
    exact .inl ⟨q, rfl, h⟩

/-- New directories spare all places without dots. -/
theorem spares_of_makeFrom (hplace : ".." ∉ place) (h : fs.makeFrom p front parts = .ok fs') :
    Spares place fs fs' := by
  induction parts generalizing fs front with
  | nil =>
    cases h
    exact .refl ..
  | cons part parts ih =>
    rcases makeFrom_cons_cases h with ⟨q, -, h⟩ | ⟨q, name, hfound, hparent, h⟩
    · exact ih h
    · exact (spares_put_directory rfl hplace hfound hparent).trans (ih h)

theorem spares_of_makeDirectory (hplace : ".." ∉ place) (h : fs.makeDirectory p = .ok fs') :
    Spares place fs fs' :=
  spares_of_makeFrom hplace h

/-- No file comes into being with a directory. -/
theorem file_of_makeFrom (h : fs.makeFrom p front parts = .ok fs')
    (hfile : fs'.at? place = some (.file c)) : fs.at? place = some (.file c) := by
  induction parts generalizing fs front with
  | nil =>
    cases h
    exact hfile
  | cons part parts ih =>
    rcases makeFrom_cons_cases h with ⟨q, -, h⟩ | ⟨q, name, -, -, h⟩
    · exact ih h
    · have hput := ih h
      by_cases hplace : place = q ++ [name]
      · rw [hplace, at?_put_self _ (by simp)] at hput
        exact nomatch hput
      · rwa [at?_put_of_ne _ hplace] at hput

/-- No place that a path leads to has dots in it. -/
theorem dots_notMem_placeOf (fs : Files) (p : Path) : ".." ∉ fs.placeOf p := by
  have hclimb : ∀ (parts place : List String), ".." ∉ place →
      ".." ∉ parts.foldl Path.climb place := by
    intro parts
    induction parts with
    | nil => exact fun place h => h
    | cons part parts ih =>
      intro place h
      refine ih _ ?_
      unfold Path.climb
      split
      · exact fun hmem => h (dropLast_subset _ hmem)
      next hup =>
        rw [mem_append, mem_singleton, not_or]
        exact ⟨h, fun he => hup he.symm⟩
  exact hclimb _ _ (not_mem_nil)

end Files

end Replatform

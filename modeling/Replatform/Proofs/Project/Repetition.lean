import Replatform.Project.Build
import Replatform.Proofs.Formula.Marking
/-!
# How often a call is converted

A formula is converted call by call. As long as no next call is left as it is, each conversion makes
at most one note (`Passes.notes`). Once one is, all conversions that the limit still allows are
spent on it, so that it has as many remarks, and as many notes if it was given too few arguments
(`exists_passes`). For a formula of a project, each note becomes something to look at
(`convertExpression_repeats`).
-/

namespace Replatform.Formula

open List
open Text (isWord allCapital)

variable {f : Function} {c : Call} {s : List Char}

/-! ## Markers -/

/-- The beginning of a remark on something to be done. -/
def markerText : List Char := "/* TODO".toList

/-- How many remarks on something to be done begin in a text. -/
def markers : List Char → Nat
  | [] => 0
  | c :: s => (if Text.startsWith markerText (c :: s) then 1 else 0) + markers s

/-- No marker runs into a text that begins with a slash. -/
theorem markers_append_slash (x y : List Char) :
    markers (x ++ '/' :: y) = markers x + markers ('/' :: y) := by
  have hslash : '/' ∉ markerText.tail := by decide
  induction x with
  | nil => exact (Nat.zero_add _).symm
  | cons c x ih =>
    have hsame : Text.startsWith markerText (c :: (x ++ '/' :: y))
        = Text.startsWith markerText (c :: x) := by
      rw [Bool.eq_iff_iff, startsWith_iff, startsWith_iff]
      refine ⟨fun h => ?_, fun h => h.trans (prefix_append (c :: x) ('/' :: y))⟩
      rcases prefix_or_prefix_of_prefix h (prefix_append (c :: x) ('/' :: y))
        with h' | ⟨r, hr⟩
      · exact h'
      · cases r with
        | nil => rw [← hr, append_nil]
        | cons d r =>
          -- the slash would stand in the marker behind its first character
          rw [← hr, ← cons_append, prefix_append_right_inj] at h
          rw [← hr, (cons_prefix_cons.mp h).1] at hslash
          exact absurd (mem_append_right x (.head _)) hslash
    rw [cons_append, markers, markers, ih, hsame, Nat.add_assoc]

/-- Where no slash is, no marker begins. -/
theorem markers_append_of_notMem {x : List Char} (h : '/' ∉ x) (y : List Char) :
    markers (x ++ y) = markers y := by
  induction x with
  | nil => rfl
  | cons c x ih =>
    have hc : ¬Text.startsWith markerText (c :: (x ++ y)) := fun hstart =>
      h ((cons_prefix_cons.mp (startsWith_iff.mp hstart)).1 ▸ mem_cons_self ..)
    rw [cons_append, markers, if_neg hc, Nat.zero_add, ih fun hx => h (.tail _ hx)]

/-- A remark on a call that is left is one marker. -/
theorem Function.markers_remark (hf : f ∈ functions) (y : List Char) :
    (∃ r, f.remark = '/' :: r) ∧ markers (f.remark ++ y) = 1 + markers y := by
  have hname : '/' ∉ f.name.toList := fun h => absurd ((name_of_mem hf).2 _ h).1 (by decide)
  obtain ⟨u, hu, hplain, hmark⟩ : ∃ u, f.remark = '/' :: (u ++ (f.name.toList ++ " *".toList)
      ++ ['/', ' ']) ∧ '/' ∉ u ∧ markerText <+: '/' :: u := by
    unfold Function.remark
    split
    · exact ⟨"* TODO: Convert ".toList, by simp, by decide, by decide⟩
    · exact ⟨"* TODO: Fix ".toList, by simp, by decide, by decide⟩
  refine ⟨⟨_, hu⟩, ?_⟩
  have hbegin : Text.startsWith markerText ('/' :: (u ++ (f.name.toList ++ " *".toList)
      ++ ['/', ' '] ++ y)) := by
    refine startsWith_iff.mpr (hmark.trans ?_)
    simp only [append_assoc]
    exact prefix_append ('/' :: u) _
  have hrest : '/' ∉ u ++ (f.name.toList ++ " *".toList) := by
    simp only [mem_append, not_or]
    exact ⟨hplain, hname, by decide⟩
  have hend : ¬Text.startsWith markerText ('/' :: ' ' :: y) := fun h => by
    have hstar := (cons_prefix_cons.mp (cons_prefix_cons.mp (startsWith_iff.mp h)).2).1
    exact absurd hstar (by decide)
  rw [hu, cons_append, markers, if_pos hbegin, append_assoc, markers_append_of_notMem hrest]
  show 1 + markers ('/' :: ' ' :: y) = _
  have hspace : markers ([' '] ++ y) = markers y := markers_append_of_notMem (by decide) y
  rw [markers, if_neg hend, Nat.zero_add, ← hspace]
  rfl

/-- A call that is left has a marker for each time. -/
theorem markers_marked (hf : c.function ∈ functions) (n : Nat) (s : List Char) :
    markers (c.marked (n + 1) s) = markers (s.take c.start) + (n + 1)
      + markers (c.function.written [] (c.remaining n s) (s.drop (c.closing + 1))) := by
  have hmany : ∀ (n : Nat) (y : List Char),
      markers ((replicate n c.function.remark).flatten ++ y) = n + markers y := by
    intro n y
    induction n with
    | zero => exact (Nat.zero_add _).symm
    | succ n ih =>
      rw [replicate_succ, flatten_cons, append_assoc, (Function.markers_remark hf _).2, ih]
      omega
  obtain ⟨r, hr⟩ := (Function.markers_remark hf []).1
  rw [Call.marked, Function.written, Nat.add_sub_cancel, append_assoc]
  generalize hy : c.function.name.toList ++ '(' :: (joinArgs (c.remaining n s)
    ++ ')' :: s.drop (c.closing + 1)) = y
  have hslash : (replicate (n + 1) c.function.remark).flatten ++ y
      = '/' :: (r ++ (replicate n c.function.remark).flatten ++ y) := by
    rw [replicate_succ, flatten_cons, hr]
    rfl
  rw [hslash, markers_append_slash, ← hslash, hmany, Function.written, nil_append, hy]
  omega

theorem length_complaints (c : Call) (n : Nat) (s : List Char) :
    (c.complaints n s).length = if c.function.target = .manual then 0 else n := by
  rw [Call.complaints, length_flatMap]
  unfold Function.complaint
  split
  · simp
  · simp

/-! ## Conversions that go on -/

/-- The notes on a call that is not left. -/
theorem Function.notes_of_not_leaves {args : List (List Char)} (h : f.leaves args.length = false) :
    (f.convert f.name.toList args).2 = [] ∨ (f.convert f.name.toList args).2 = [.oddSwitch] := by
  unfold Function.leaves at h
  unfold Function.convert
  cases htarget : f.target with
  | constant sql => exact .inl rfl
  | call sql => exact .inl rfl
  | pattern ps =>
    rw [htarget] at h
    dsimp only
    rw [instantiate_eq, if_pos ((Bool.not_eq_false' _).mp h)]
    exact .inl rfl
  | manual =>
    rw [htarget] at h
    dsimp only
    unfold convertManual
    rw [if_pos (of_decide_eq_true ((Bool.not_eq_false' _).mp h))]
    split
    · split
      · exact .inl rfl
      · exact .inr rfl
    · exact .inl rfl

/-- The notes on a call that is left, in the words of its function. -/
theorem Call.notes_of_leaves (h : c.function.leaves (splitArgs (c.inside s)).length) :
    c.notes s = c.function.complaint (splitArgs (c.inside s)).length := by
  rw [Call.notes, Function.convert_of_leaves h]

/-- A function that is spelled in capitals and can be left. -/
theorem Function.eq_iif (hf : f ∈ functions) {n : Nat} (hleaves : f.leaves n)
    (hcapital : allCapital f.name.toList) : f.name = "IIF" ∧ f.arity = some 3 := by
  have hchecked := all_eq_true.mp functions_cased f hf
  rw [if_pos hcapital, Bool.and_eq_true] at hchecked
  rcases Bool.or_eq_true_iff.mp hchecked.2 with htotal | hiif
  · unfold Function.leaves at hleaves
    unfold Target.isTotal at htotal
    split at htotal
    next heq =>
      rw [heq] at hleaves
      cases hleaves
    next heq =>
      rw [heq] at hleaves
      cases hleaves
    next => cases htotal
    next => cases htotal
  · simpa using hiif

/-- A conversion that is not repeated makes at most one note: on a `Switch`, or on an `IIF` that was
not written in capitals. -/
theorem Call.notes_of_not_sticks (hf : c.function ∈ functions) (h : ¬c.Sticks s) :
    (c.notes s).length ≤ 1
      ∧ ∀ note ∈ c.notes s, note = .oddSwitch ∨ ∃ n, note = .wrongArity "IIF" (some 3) n := by
  cases hleaves : c.function.leaves (splitArgs (c.inside s)).length with
  | false =>
    rcases Function.notes_of_not_leaves hleaves with hnotes | hnotes
    · rw [Call.notes, hnotes]
      exact ⟨Nat.zero_le _, forall_mem_nil _⟩
    · rw [Call.notes, hnotes]
      exact ⟨Nat.le_refl _, fun note hnote => .inl (mem_singleton.mp hnote)⟩
  | true =>
    have hcapital : allCapital c.function.name.toList := by
      by_contra hsmall
      exact h ⟨hleaves, fun hcapital => absurd hcapital hsmall⟩
    obtain ⟨hname, harity⟩ := Function.eq_iif hf hleaves hcapital
    rw [Call.notes_of_leaves hleaves, Function.complaint]
    split
    · exact ⟨Nat.zero_le _, forall_mem_nil _⟩
    · refine ⟨Nat.le_refl _, fun note hnote => .inr ⟨(splitArgs (c.inside s)).length, ?_⟩⟩
      rw [mem_singleton.mp hnote, hname, harity]

/-- `k` conversions of calls that are not repeated lead from one text to another, and make notes. -/
inductive Passes : Nat → List Char → List Note → List Char → Prop
  | done {s : List Char} : Passes 0 s [] s
  | step {k : Nat} {s t : List Char} {notes : List Note} {c : Call} :
    nextCall? s = some c → ¬c.Sticks s → c.converted s ≠ s → Passes k (c.converted s) notes t →
    Passes (k + 1) s (c.notes s ++ notes) t

theorem listed_of_nextCall? (h : nextCall? s = some c) : c.function ∈ functions := by
  obtain ⟨_, _, _, _, _, -, hnamed⟩ := mem_openCalls_iff.mp (mem_openCalls_of_nextCall? h)
  exact hnamed.listed

/-- There are no more notes than conversions. -/
theorem Passes.notes {k : Nat} {t : List Char} {seen : List Note} (h : Passes k s seen t) :
    seen.length ≤ k
      ∧ ∀ note ∈ seen, note = .oddSwitch ∨ ∃ n, note = .wrongArity "IIF" (some 3) n := by
  induction h with
  | done => exact ⟨Nat.le_refl _, forall_mem_nil _⟩
  | step hc hsticks _ _ ih =>
    obtain ⟨hlength, hkind⟩ := Call.notes_of_not_sticks (listed_of_nextCall? hc) hsticks
    refine ⟨?_, fun note hnote => ?_⟩
    · rw [length_append]
      omega
    · rcases mem_append.mp hnote with hnote | hnote
      · exact hkind note hnote
      · exact ih.2 note hnote

theorem convertCalls_eq_of_ended {t : List Char} (h : Ended t) (limit : Nat) :
    convertCalls limit t = (t, []) := by
  cases limit with
  | zero => rfl
  | succ limit =>
    cases hc : nextCall? t with
    | none => exact convertCalls_of_none hc _
    | some c =>
      have hmem := mem_openCalls_of_nextCall? hc
      have hsame := h c hc
      obtain ⟨front, word, gap, inside, back, hs, hnamed⟩ := mem_openCalls_iff.mp hmem
      have hsettled := (converted_eq_self_iff hmem).mp hsame
      rw [convertCalls_of_some hc, if_pos hsame, Call.notes, hs.convert_of_settled hnamed hsettled]

/-- Either no conversion is repeated, or from some point on all are the same. -/
theorem exists_passes (limit : Nat) : ∀ s : List Char, ∃ k seen t, Passes k s seen t
    ∧ (((k = limit ∨ k < limit ∧ Ended t) ∧ convertCalls limit s = (t, seen))
      ∨ ∃ c n, k + (n + 1) = limit ∧ nextCall? t = some c ∧ c.Sticks t
        ∧ convertCalls limit s = (c.marked (n + 1) t, seen ++ c.complaints (n + 1) t)) := by
  induction limit with
  | zero => exact fun s => ⟨0, [], s, .done, .inl ⟨.inl rfl, rfl⟩⟩
  | succ limit ih =>
    intro s
    -- the next call ends the run, is repeated to its end, or makes way for the one after it
    by_cases hended : Ended s
    · exact ⟨0, [], s, .done,
        .inl ⟨.inr ⟨Nat.succ_pos _, hended⟩, convertCalls_eq_of_ended hended _⟩⟩
    · unfold Ended at hended
      push Not at hended
      obtain ⟨c, hc, hchanged⟩ := hended
      by_cases hsticks : c.Sticks s
      · exact ⟨0, [], s, .done,
          .inr ⟨c, limit, Nat.zero_add _, hc, hsticks, convertCalls_of_sticks hc hsticks limit⟩⟩
      · obtain ⟨k, seen, t, hpasses, hrun⟩ := ih (c.converted s)
        refine ⟨k + 1, c.notes s ++ seen, t, .step hc hsticks hchanged hpasses, ?_⟩
        rw [convertCalls_of_some hc, if_neg hchanged]
        rcases hrun with ⟨hend, hrun⟩ | ⟨d, n, hlimit, hd, hsticks, hrun⟩
        · rw [hrun]
          exact .inl ⟨hend.imp (congrArg (· + 1)) fun h => ⟨Nat.succ_lt_succ h.1, h.2⟩, rfl⟩
        · rw [hrun]
          refine .inr ⟨d, n, by omega, hd, hsticks, ?_⟩
          rw [append_assoc]

end Replatform.Formula

namespace Replatform.Project

open Formula (Note Passes Ended markers callLimit prepare nextCall?)

/-- What there is to look at for a note on a formula. -/
def review (b : Build) (e : String) (note : Note) : Todo :=
  { file := Work.currentFile b
    model := b.model
    layer := if b.layer.isEmpty then "unknown" else b.layer
    kind := "expression"
    description := "Review formula conversion: " ++ note.message
    context := String.ofList (e.toList.take 100)
    priority := "medium" }

namespace Work

/-- A formula is converted whatever there is to note, and each note is put on the list. -/
theorem run_convertExpression {e : String} (he : e.isEmpty = false) (b : Build) :
    (convertExpression e).run.run b
      = (.ok (Formula.convert e).sql,
        { b with todos := b.todos ++ (Formula.convert e).notes.map (review b e) }) := by
  have hnotes : ∀ (notes : List Note) (b : Build), (notes.forM fun note =>
      addTodo "expression" ("Review formula conversion: " ++ note.message)
        (String.ofList (e.toList.take 100)) "medium").run.run b
      = (.ok (), { b with todos := b.todos ++ notes.map (review b e) }) := by
    intro notes
    induction notes with
    | nil =>
      intro b
      rw [List.map_nil, List.append_nil]
      rfl
    | cons note notes ih =>
      intro b
      refine (ih { b with todos := b.todos ++ [review b e note] }).trans ?_
      rw [List.map_cons, List.append_cons b.todos (review b e note) (notes.map (review b e))]
      rfl
  unfold convertExpression
  rw [if_neg (by rw [he]; decide)]
  have hrun := hnotes (Formula.convert e).notes b
  simp only [ExceptT.run, StateT.run] at hrun ⊢
  simp only [bind, ExceptT.bind, ExceptT.mk, StateT.bind, hrun]
  rfl

/-- A formula of a project is converted, and each note on it becomes something to look at. First
come conversions that are not repeated and make at most one note each, on a `Switch` or an `IIF`.
Either these are all, or then comes a call that is left as it is. It takes all conversions that the
limit still allows: it has a marker for each of them, and a note for each if its function has SQL
for more arguments. -/
theorem convertExpression_repeats {e : String} (he : e.isEmpty = false) (b : Build) :
    let made := Formula.convert e
    (convertExpression e).run.run b
        = (.ok made.sql, { b with todos := b.todos ++ made.notes.map (review b e) })
      ∧ ∃ k seen t, Passes k (prepare e.toList) seen t ∧ seen.length ≤ k
        ∧ (∀ note ∈ seen, note = .oddSwitch ∨ ∃ n, note = .wrongArity "IIF" (some 3) n)
        ∧ ((k = callLimit ∨ k < callLimit ∧ Ended t) ∧ made.sql.toList = t ∧ made.notes = seen
          ∨ ∃ c n, k + (n + 1) = callLimit ∧ nextCall? t = some c ∧ c.Sticks t
            ∧ made.sql.toList = c.marked (n + 1) t
            ∧ made.notes = seen ++ c.complaints (n + 1) t
            ∧ made.notes.length
              = seen.length + (if c.function.target = .manual then 0 else n + 1)
            ∧ markers made.sql.toList = markers (t.take c.start) + (n + 1)
              + markers (c.function.written [] (c.remaining n t) (t.drop (c.closing + 1)))) := by
  intro made
  have hfilled : ¬e.isEmpty := by
    rw [he]
    decide
  obtain ⟨hsql, hnotes⟩ := Formula.convert_of_not_empty hfilled
  obtain ⟨k, seen, t, hpasses, hrun⟩ := Formula.exists_passes callLimit (prepare e.toList)
  refine ⟨run_convertExpression he b, k, seen, t, hpasses, hpasses.notes.1, hpasses.notes.2, ?_⟩
  rcases hrun with ⟨hend, hrun⟩ | ⟨c, n, hlimit, hc, hsticks, hrun⟩
  · rw [hrun] at hsql hnotes
    exact .inl ⟨hend, hsql, hnotes⟩
  · rw [hrun] at hsql hnotes
    refine .inr ⟨c, n, hlimit, hc, hsticks, hsql, hnotes, ?_, ?_⟩
    · rw [show made.notes = _ from hnotes, List.length_append, Formula.length_complaints]
    · rw [show made.sql.toList = _ from hsql]
      exact Formula.markers_marked (Formula.listed_of_nextCall? hc) n t

/-- A single call with an argument too few is noted and marked a hundred times. -/
theorem convertExpression_repeats_left :
    "Left([x])".isEmpty = false ∧ (Formula.sites none 0 "Left([x])".toList).length = 1
      ∧ (Formula.convert "Left([x])").notes.length = 100
      ∧ markers (Formula.convert "Left([x])").sql.toList = 100
      ∧ ((convertExpression "Left([x])").run.run
        { session := { files := ⟨⟨"/", []⟩, []⟩ }, dir := ⟨"/", []⟩ }).2.todos.length = 100 := by
  have hfilled : "Left([x])".isEmpty = false := by decide
  have hfirst : (nextCall? (prepare "Left([x])".toList)).map (fun c =>
      (c.function, c.start, c.inside (prepare "Left([x])".toList),
        (prepare "Left([x])".toList).drop (c.closing + 1)))
      = some (⟨"Left", some 2, .pattern ["SUBSTR(", 0, ", 1, ", 1, ")"]⟩, 0, "\"x\"".toList,
        []) := by decide +kernel
  obtain ⟨hrun, k, seen, t, hpasses, -, -, hend⟩ := convertExpression_repeats hfilled
    { session := { files := ⟨⟨"/", []⟩, []⟩ }, dir := ⟨"/", []⟩ }
  generalize prepare "Left([x])".toList = s at hfirst hpasses
  obtain ⟨d, hd, hparts⟩ := Option.map_eq_some_iff.mp hfirst
  simp only [Prod.mk.injEq] at hparts
  obtain ⟨hfunction, hstart, hinside, hback⟩ := hparts
  have hsticks : d.Sticks s := by
    refine ⟨?_, fun hcapital => ?_⟩
    · rw [hfunction, hinside]
      decide
    · rw [hfunction] at hcapital
      exact absurd hcapital (by decide)
  have hrest : ∀ n, d.remaining n s = ["\"x\"".toList] := by
    intro n
    rw [Formula.Call.remaining, hinside]
    exact Function.iterate_fixed (by decide) n
  -- the first call is the one that is repeated, so no other conversion goes before
  cases hpasses with
  | step hc hnot _ _ =>
    rw [hd, Option.some.injEq] at hc
    exact absurd (hc ▸ hsticks) hnot
  | done =>
    rcases hend with ⟨hlimit | ⟨-, hended⟩, -⟩ | ⟨c, n, hlimit, hc, -, -, -, hlength, hmarkers⟩
    · exact absurd hlimit (by decide)
    · exact absurd (hended d hd) (hsticks.converted_ne hd)
    · rw [hd, Option.some.injEq] at hc
      subst hc
      have hn : n + 1 = 100 := (Nat.zero_add _).symm.trans hlimit
      rw [hfunction, hn, if_neg (by decide)] at hlength
      rw [hn, hstart, hrest, hback, hfunction] at hmarkers
      refine ⟨hfilled, by decide, hlength, hmarkers, ?_⟩
      rw [hrun]
      dsimp only
      rw [List.nil_append, List.length_map, hlength]
      rfl

end Work

end Replatform.Project

import Replatform.Proofs.Graph.Order
import Replatform.Proofs.Project.Frame
import Replatform.Proofs.Value
import Replatform.Proofs.Workflow.Connections
/-!
# Columns that are kept and columns that are found anew

The columns that leave a tool are kept once they are found, and a search never goes twice through
the same tool. `Finds` is this search without a bound on its depth.

* `finds_searchColumns`: every search comes to an end, and the bound does not cut it off. Each step
  upstream meets a tool that was not met, so the tools that are left to meet bound the depth.
* `Finds.plain`: in a workflow without circles, a search finds what would be found without keeping
  anything (`plainColumns`). A tool that is met again is known by then: from a tool that is met and
  not known yet, the search has come along connections, and none leads back to it.
-/

namespace Replatform.Project

open List Relation Stateful

open Replatform.Graph (unmet length_unmet_cons length_unmet_le)

variable {t : Tool} {ts : List Tool} {s s' : Search} {columns columns' : List String}
  {known : List (Int × List String)}

variable {w : Workflow}

/-! ## The search without a bound -/

/-- The search finds the columns that leave some tools, one after the other. -/
inductive Finds (w : Workflow) : List Tool → Search → List String → Search → Prop
  | nil {s : Search} : Finds w [] s [] s
  | known {t : Tool} {ts : List Tool} {s s' : Search} {columns more : List String} :
      s.known.lookup t.id = some columns → Finds w ts s more s' →
      Finds w (t :: ts) s (columns ++ more) s'
  | circle {t : Tool} {ts : List Tool} {s s' : Search} {more : List String} :
      s.known.lookup t.id = none → t.id ∈ s.visiting →
      Finds w ts { s with warnings := s.warnings ++ [circleWarning t] } more s' →
      Finds w (t :: ts) s more s'
  | seek {t : Tool} {ts : List Tool} {s s₁ s' : Search} {entering more : List String} :
      s.known.lookup t.id = none → t.id ∉ s.visiting →
      Finds w (w.upstream t.id) { s with visiting := t.id :: s.visiting } entering s₁ →
      Finds w ts
        { s₁ with known := setField s₁.known t.id (leavingColumns t (distinct entering)) } more s' →
      Finds w (t :: ts) s (leavingColumns t (distinct entering) ++ more) s'

theorem Finds.cons {s₁ : Search} {more : List String} (ht : Finds w [t] s columns s₁)
    (hts : Finds w ts s₁ more s') : Finds w (t :: ts) s (columns ++ more) s' := by
  cases ht with
  | known hknown hnil =>
    cases hnil
    rw [append_nil]
    exact .known hknown hts
  | circle hnone hmet hnil =>
    cases hnil
    exact .circle hnone hmet hts
  | seek hnone hnew hup hnil =>
    cases hnil
    rw [append_nil]
    exact .seek hnone hnew hup hts

/-- There is one outcome. -/
theorem Finds.unique {s'' : Search} (h : Finds w ts s columns s') (h' : Finds w ts s columns' s'') :
    columns = columns' ∧ s' = s'' := by
  induction h generalizing columns' s'' with
  | nil =>
    cases h'
    exact ⟨rfl, rfl⟩
  | known hknown _ ih =>
    cases h' with
    | known hknown' h' =>
      obtain ⟨rfl, rfl⟩ := ih h'
      cases hknown.symm.trans hknown'
      exact ⟨rfl, rfl⟩
    | circle hnone | seek hnone => exact nomatch hknown.symm.trans hnone
  | circle hnone hmet _ ih =>
    cases h' with
    | known hknown => exact nomatch hnone.symm.trans hknown
    | circle _ _ h' => exact ih h'
    | seek _ hnew => exact absurd hmet hnew
  | seek hnone hnew _ _ ihup ih =>
    cases h' with
    | known hknown => exact nomatch hnone.symm.trans hknown
    | circle _ hmet => exact absurd hmet hnew
    | seek _ _ hup' h' =>
      obtain ⟨rfl, rfl⟩ := ihup hup'
      obtain ⟨rfl, rfl⟩ := ih h'
      exact ⟨rfl, rfl⟩

/-- A row of searches, each of which comes to an end and forgets no tool that it met. -/
theorem finds_foldl {f : Search → Tool → List String × Search} {P : Search → Prop}
    (hP : ∀ s s' : Search, P s → s.visiting ⊆ s'.visiting → P s') (hf : ∀ u ∈ ts, ∀ s, P s →
      Finds w [u] s (f s u).1 (f s u).2 ∧ s.visiting ⊆ (f s u).2.visiting) :
    ∀ (columns : List String) (s : Search), P s → ∃ more s',
      ts.foldl (fun (columns, s) u => let (more, s) := f s u; (columns ++ more, s)) (columns, s)
        = (columns ++ more, s') ∧ Finds w ts s more s' ∧ s.visiting ⊆ s'.visiting := by
  induction ts with
  | nil =>
    intro columns s _
    exact ⟨[], s, by simp, .nil, Subset.refl _⟩
  | cons t ts ih =>
    intro columns s hs
    obtain ⟨hfirst, hmet⟩ := hf t (.head _) s hs
    obtain ⟨more, s', hfold, hrest, hmet'⟩ := ih (forall_mem_cons.mp hf).2
      (columns ++ (f s t).1) (f s t).2 (hP _ _ hs hmet)
    refine ⟨(f s t).1 ++ more, s', ?_, hfirst.cons hrest, Subset.trans hmet hmet'⟩
    rw [foldl_cons, ← append_assoc]
    exact hfold

/-- The bound does not cut off a search, if it is greater than the number of tools not met. -/
theorem finds_searchColumns (fuel : Nat) : ∀ (s : Search) (t : Tool), t ∈ w.tools →
    (unmet (w.tools.map (·.id)) s.visiting).length < fuel →
    Finds w [t] s (searchColumns w fuel s t).1 (searchColumns w fuel s t).2
      ∧ s.visiting ⊆ (searchColumns w fuel s t).2.visiting := by
  induction fuel with
  | zero => exact fun s t _ h => absurd h (Nat.not_lt_zero _)
  | succ fuel ih =>
    intro s t ht hfuel
    rw [searchColumns]
    split
    next columns hknown =>
      refine ⟨?_, Subset.refl _⟩
      have := Finds.known (w := w) hknown .nil
      rwa [append_nil] at this
    next hnone =>
      split
      next hmet =>
        exact ⟨.circle hnone (contains_iff_mem.mp hmet) .nil, Subset.refl _⟩
      next hnew =>
        have hnew : t.id ∉ s.visiting := fun h => hnew (contains_iff_mem.mpr h)
        -- one tool less is left to meet, which is what the bound loses
        have hleft := length_unmet_cons (mem_map_of_mem (f := (·.id)) ht) hnew
        obtain ⟨entering, s₁, hfold, hup, hmet⟩ := finds_foldl (w := w)
          (P := fun s => (unmet (w.tools.map (·.id)) s.visiting).length < fuel)
          (fun s s' hs hmet => Nat.lt_of_le_of_lt (length_unmet_le hmet) hs)
          (fun u hu s hs => ih s u (Workflow.mem_upstream.mp hu).1 hs)
          [] { s with visiting := t.id :: s.visiting }
          (Nat.lt_of_lt_of_le hleft (Nat.le_of_lt_succ hfuel))
        rw [hfold]
        refine ⟨?_, Subset.trans (subset_cons_self ..) hmet⟩
        have := Finds.seek hnone hnew hup .nil
        rwa [append_nil] at this

/-- Fresh searches need as many steps as there are tools, and one to see that nothing is left. -/
theorem finds_of_mem (ht : t ∈ w.tools) (known : List (Int × List String)) :
    Finds w [t] ⟨known, [], []⟩ (searchColumns w (w.tools.length + 1) ⟨known, [], []⟩ t).1
      (searchColumns w (w.tools.length + 1) ⟨known, [], []⟩ t).2 := by
  refine (finds_searchColumns _ _ t ht ?_).1
  have hlength := length_filter_le (· ∉ ([] : List Int)) (w.tools.map (·.id))
  rw [length_map] at hlength
  exact Nat.lt_succ_of_le hlength

/-! ## Workflows without circles -/

/-- The columns that leave a tool, where nothing is kept. -/
def plainColumns (w : Workflow) (h : w.Acyclic) (t : Tool) : List String :=
  leavingColumns t
    (distinct ((w.upstream t.id).attach.flatMap fun u => plainColumns w h u.1))
termination_by w.rank t.id
decreasing_by exact h.rank_lt (Workflow.mem_upstream.mp u.2).2

theorem plainColumns_eq (h : w.Acyclic) (t : Tool) :
    plainColumns w h t
      = leavingColumns t (distinct ((w.upstream t.id).flatMap (plainColumns w h))) := by
  rw [plainColumns]
  congr 2
  conv_rhs => rw [← attach_map_subtype_val (w.upstream t.id), flatMap_map]

/-- What is kept is what would be found anew. -/
def Kept (w : Workflow) (h : w.Acyclic) (known : List (Int × List String)) : Prop :=
  ∀ t ∈ w.tools, ∀ columns, known.lookup t.id = some columns → columns = plainColumns w h t

theorem Kept.setField (hids : w.Distinct) {h : w.Acyclic} (hkept : Kept w h known)
    (ht : t ∈ w.tools) : Kept w h (setField known t.id (plainColumns w h t)) := by
  intro u hu columns hcolumns
  rw [lookup_setField] at hcolumns
  split at hcolumns
  next hid =>
    rw [inj_on_of_nodup_map hids hu ht hid]
    exact (Option.some.inj hcolumns).symm
  next => exact hkept u hu columns hcolumns

/-- A tool is met, and its columns are not known yet. -/
def Search.Pending (s : Search) (id : Int) : Prop := id ∈ s.visiting ∧ s.known.lookup id = none

/-- Without circles a search finds what would be found anew, keeps nothing else, and leaves no tool
unknown that it met. -/
theorem Finds.plain (hids : w.Distinct) (h : w.Acyclic) (hfinds : Finds w ts s columns s')
    (hts : ∀ t ∈ ts, t ∈ w.tools) (hkept : Kept w h s.known)
    (hpending : ∀ t ∈ ts, ∀ id, s.Pending id → TransGen w.Feeds t.id id) :
    columns = ts.flatMap (plainColumns w h) ∧ Kept w h s'.known
      ∧ ∀ id, s'.Pending id → s.Pending id := by
  induction hfinds with
  | nil => exact ⟨rfl, hkept, fun _ h => h⟩
  | @known t ts s s' columns more hknown _ ih =>
    obtain ⟨hmore, hkept', hback⟩ := ih (forall_mem_cons.mp hts).2 hkept
      (forall_mem_cons.mp hpending).2
    refine ⟨?_, hkept', hback⟩
    rw [flatMap_cons, hmore, hkept t (hts t (.head _)) columns hknown]
  | @circle t ts s s' more hnone hmet _ _ =>
    -- The tool would be on a way to itself.
    exact absurd (hpending t (.head _) t.id ⟨hmet, hnone⟩) (h t.id)
  | @seek t ts s s₁ s' entering more hnone hnew _ _ ihup ih =>
    have ht : t ∈ w.tools := hts t (.head _)
    -- Pending behind the tool is the tool itself or what was pending, and the way to it leads on.
    have hback₀ : ∀ id, Search.Pending { s with visiting := t.id :: s.visiting } id →
        id = t.id ∨ s.Pending id := fun id hid =>
      (mem_cons.mp hid.1).imp_right fun hmem => ⟨hmem, hid.2⟩
    have hup : ∀ u ∈ w.upstream t.id, ∀ id,
        Search.Pending { s with visiting := t.id :: s.visiting } id → TransGen w.Feeds u.id id := by
      intro u hu id hid
      have hfeeds := (Workflow.mem_upstream.mp hu).2
      rcases hback₀ id hid with rfl | hid
      · exact .single hfeeds
      · exact .head hfeeds (hpending t (.head _) id hid)
    obtain ⟨hentering, hkept₁, hback₁⟩ :=
      ihup (fun u hu => (Workflow.mem_upstream.mp hu).1) hkept hup
    rw [hentering, ← plainColumns_eq] at ih ⊢
    have hback₂ : ∀ id, Search.Pending
        { s₁ with known := setField s₁.known t.id (plainColumns w h t) } id → s.Pending id := by
      rintro id ⟨hmem, hlookup⟩
      rw [lookup_setField] at hlookup
      split at hlookup
      next => exact nomatch hlookup
      next hne => exact (hback₀ id (hback₁ id ⟨hmem, hlookup⟩)).resolve_left hne
    obtain ⟨hmore, hkept', hback⟩ := ih (forall_mem_cons.mp hts).2
      (hkept₁.setField hids ht)
      fun u hu id hid => hpending u (.tail _ hu) id (hback₂ id hid)
    exact ⟨by rw [flatMap_cons, hmore], hkept', fun id hid => hback₂ id (hback id hid)⟩

/-! ## Questions for columns -/

namespace Work

theorem run_say (lines : List String) (b : Build) :
    result (lines.forM say) b = .ok () ∧ (state (lines.forM say) b).columns = b.columns := by
  induction lines generalizing b with
  | nil => exact ⟨rfl, rfl⟩
  | cons line lines ih =>
    obtain ⟨hresult, hstate⟩ := run_ofRun (Run.say line) b
    have hsay : result (Run.say line) b.session = .ok () := rfl
    rw [hsay] at hresult
    rw [show (line :: lines).forM say = ofRun (Run.say line) >>= fun _ => lines.forM say from rfl,
      result_bind_of_ok hresult, state_bind_of_ok hresult, hstate]
    exact ih _

/-- The columns of a tool are sought with what is kept, and what was found is kept. -/
theorem run_toolColumns (w : Workflow) (t : Tool) (b : Build) :
    result (toolColumns w t) b
        = .ok (searchColumns w (w.tools.length + 1) ⟨b.columns, [], []⟩ t).1
      ∧ (state (toolColumns w t) b).columns
        = (searchColumns w (w.tools.length + 1) ⟨b.columns, [], []⟩ t).2.known := by
  unfold toolColumns
  rw [result_get_bind, state_get_bind]
  generalize searchColumns w (w.tools.length + 1) ⟨b.columns, [], []⟩ t = found
  obtain ⟨columns, s⟩ := found
  have hsaid := (run_say s.warnings b).1
  exact ⟨result_bind_of_ok hsaid, congrArg Build.columns (state_bind_of_ok hsaid)⟩

theorem run_addColumns (w : Workflow) (all : List String) (u : Tool) (b : Build) :
    result (addColumns w all u) b
        = .ok (all ++ (searchColumns w (w.tools.length + 1) ⟨b.columns, [], []⟩ u).1.filter
          (!all.contains ·))
      ∧ (state (addColumns w all u) b).columns
        = (searchColumns w (w.tools.length + 1) ⟨b.columns, [], []⟩ u).2.known := by
  obtain ⟨hresult, hstate⟩ := run_toolColumns w u b
  exact ⟨result_bind_of_ok hresult,
    (congrArg Build.columns (state_bind_of_ok hresult)).trans hstate⟩

end Work

/-- A question for the columns that leave a tool, or for those that enter it. -/
inductive ColumnQuery
  | leaving (t : Tool)
  | entering (t : Tool)

variable {q : ColumnQuery}

namespace ColumnQuery

def tool : ColumnQuery → Tool
  | leaving t | entering t => t

def ask (w : Workflow) : ColumnQuery → Work (List String)
  | leaving t => Work.toolColumns w t
  | entering t => Work.enteringColumns w t

/-- The answer where nothing is kept. -/
def plain (w : Workflow) (h : w.Acyclic) : ColumnQuery → List String
  | leaving t => plainColumns w h t
  | entering t => (w.upstream t.id).foldl
      (fun all u => all ++ (plainColumns w h u).filter (!all.contains ·)) []

end ColumnQuery

/-- The columns of some tools are collected, each once: every tool is sought without a bound. -/
inductive Collects (w : Workflow) : List Tool → List String → List (Int × List String) →
    List String → List (Int × List String) → Prop
  | nil {all : List String} {known : List (Int × List String)} : Collects w [] all known all known
  | cons {u : Tool} {us : List Tool} {all columns all' : List String}
      {known known' : List (Int × List String)} {s : Search} :
      Finds w [u] ⟨known, [], []⟩ columns s →
      Collects w us (all ++ columns.filter (!all.contains ·)) s.known all' known' →
      Collects w (u :: us) all known all' known'

/-- The question comes to an end with an answer, and with what is kept then, if nothing bounds the
search. -/
def ColumnQuery.Ends (w : Workflow) (known : List (Int × List String)) :
    ColumnQuery → List String → List (Int × List String) → Prop
  | leaving t, columns, known' => ∃ s, Finds w [t] ⟨known, [], []⟩ columns s ∧ s.known = known'
  | entering t, columns, known' => Collects w (w.upstream t.id) [] known columns known'

theorem collects_foldlM {us : List Tool} (hus : ∀ u ∈ us, u ∈ w.tools) :
    ∀ (all : List String) (b : Build), ∃ columns,
      result (us.foldlM (Work.addColumns w) all) b = .ok columns
        ∧ Collects w us all b.columns columns
          (state (us.foldlM (Work.addColumns w) all) b).columns := by
  induction us with
  | nil => exact fun all b => ⟨all, rfl, .nil⟩
  | cons u us ih =>
    intro all b
    obtain ⟨hresult, hstate⟩ := Work.run_addColumns w all u b
    obtain ⟨columns, hcolumns, hcollects⟩ := ih (forall_mem_cons.mp hus).2 _
      (state (Work.addColumns w all u) b)
    rw [foldlM_cons, result_bind_of_ok hresult, state_bind_of_ok hresult]
    refine ⟨columns, hcolumns, .cons (finds_of_mem (hus u (.head _)) b.columns) ?_⟩
    rwa [hstate] at hcollects

theorem Collects.unique {us : List Tool} {all : List String}
    {known' known'' : List (Int × List String)} (h : Collects w us all known columns known')
    (h' : Collects w us all known columns' known'') : columns = columns' ∧ known' = known'' := by
  induction h with
  | nil =>
    cases h'
    exact ⟨rfl, rfl⟩
  | cons hfinds _ ih =>
    cases h' with
    | cons hfinds' h' =>
      obtain ⟨rfl, rfl⟩ := hfinds.unique hfinds'
      exact ih h'

namespace ColumnQuery

theorem Ends.unique {known' known'' : List (Int × List String)} (h : q.Ends w known columns known')
    (h' : q.Ends w known columns' known'') : columns = columns' ∧ known' = known'' := by
  cases q with
  | leaving t =>
    obtain ⟨s, hfinds, rfl⟩ := h
    obtain ⟨s', hfinds', rfl⟩ := h'
    obtain ⟨rfl, rfl⟩ := hfinds.unique hfinds'
    exact ⟨rfl, rfl⟩
  | entering t => exact Collects.unique h h'

/-- Every question about a tool of the workflow comes to an end. -/
theorem ends_ask (hq : q.tool ∈ w.tools) (b : Build) :
    ∃ columns, result (q.ask w) b = .ok columns
      ∧ q.Ends w b.columns columns (state (q.ask w) b).columns := by
  cases q with
  | leaving t =>
    obtain ⟨hresult, hstate⟩ := Work.run_toolColumns w t b
    exact ⟨_, hresult, _, finds_of_mem hq b.columns, hstate.symm⟩
  | entering t => exact collects_foldlM (fun u hu => (Workflow.mem_upstream.mp hu).1) [] b

/-- Without circles every question gets the answer that it would get if nothing were kept. -/
theorem yields_plain (hids : w.Distinct) (h : w.Acyclic) (hq : q.tool ∈ w.tools) :
    Yields (fun b => Kept w h b.columns) (q.ask w) (q.plain w h) := by
  have hsearch : ∀ t ∈ w.tools, ∀ known, Kept w h known →
      (searchColumns w (w.tools.length + 1) ⟨known, [], []⟩ t).1 = plainColumns w h t
        ∧ Kept w h (searchColumns w (w.tools.length + 1) ⟨known, [], []⟩ t).2.known := by
    intro t ht known hkept
    -- No tool is met before the search starts.
    obtain ⟨hcolumns, hkept', -⟩ := (finds_of_mem ht known).plain hids h
      (fun u hu => mem_singleton.mp hu ▸ ht) hkept fun _ _ _ hid => nomatch hid.1
    exact ⟨by simpa using hcolumns, hkept'⟩
  cases q with
  | leaving t =>
    intro b hkept
    obtain ⟨hcolumns, hkept'⟩ := hsearch t hq b.columns hkept
    obtain ⟨hresult, hstate⟩ := Work.run_toolColumns w t b
    rw [hcolumns] at hresult
    rw [← hstate] at hkept'
    exact ⟨hresult, hkept'⟩
  | entering t =>
    refine yields_foldlM (fun all u hu b hkept => ?_) []
    obtain ⟨hcolumns, hkept'⟩ := hsearch u (Workflow.mem_upstream.mp hu).1 b.columns hkept
    obtain ⟨hresult, hstate⟩ := Work.run_addColumns w all u b
    rw [hcolumns] at hresult
    rw [← hstate] at hkept'
    exact ⟨hresult, hkept'⟩

end ColumnQuery

/-- Without circles, questions for columns get the answers that they would get if nothing were kept,
whatever was asked before. In every workflow each question comes to an end, with the one outcome
that it has if nothing bounds the search. -/
theorem ask_eq_plain (w : Workflow) :
    (∀ (hacyclic : w.Acyclic), w.Distinct → ∀ qs : List ColumnQuery, (∀ q ∈ qs, q.tool ∈ w.tools) →
      ∀ b : Build, b.columns = [] →
        result (qs.mapM (·.ask w)) b = .ok (qs.map (·.plain w hacyclic)))
    ∧ ∀ q : ColumnQuery, q.tool ∈ w.tools → ∀ b : Build, ∃ columns,
        result (q.ask w) b = .ok columns
          ∧ ∀ columns' known, q.Ends w b.columns columns' known
            ↔ columns' = columns ∧ known = (state (q.ask w) b).columns := by
  refine ⟨fun hacyclic hids qs hqs b hb => ?_, fun q hq b => ?_⟩
  · have hyields := yields_mapM fun q hq => ColumnQuery.yields_plain hids hacyclic (hqs q hq)
    have hkept : Kept w hacyclic b.columns := hb ▸ fun t _ columns hcolumns => nomatch hcolumns
    exact (hyields b hkept).1
  · obtain ⟨columns, hresult, hends⟩ := ColumnQuery.ends_ask hq b
    refine ⟨columns, hresult, fun columns' known => ⟨fun h => h.unique hends, ?_⟩⟩
    rintro ⟨rfl, rfl⟩
    exact hends

/-- A tool that joins the two tools between a source and itself. -/
def joinTool : Tool := { id := 4, name := "Join" }

def diamond : Workflow :=
  { metadata := { name := "diamond", path := "diamond.yxmd" }
    tools := [
      { id := 1, name := "Input Data", category := .input, selected := ["id", "price"] },
      { id := 2, name := "Filter" },
      { id := 3, name := "Select", selected := ["id", "price AS cost"] },
      joinTool]
    connections := [⟨1, "Output", 2, "Input"⟩, ⟨1, "Output", 3, "Input"⟩, ⟨2, "True", 4, "Left"⟩,
      ⟨3, "Output", 4, "Right"⟩] }

/-- The join feeds itself. -/
def selfJoin : Workflow :=
  { metadata := { name := "loop", path := "loop.yxmd" }
    tools := [joinTool]
    connections := [⟨4, "Join", 4, "Left"⟩] }

/-- A project for which no columns were sought. -/
def unasked : Build := { session := { files := ⟨⟨"/", []⟩, []⟩ }, dir := ⟨"/", []⟩ }

theorem ask_join :
    (∃ h : diamond.Acyclic,
      [ColumnQuery.entering joinTool, .leaving joinTool].map (·.plain diamond h)
        = [["id", "price", "cost"], ["id", "price", "cost"]])
    ∧ ColumnQuery.Ends selfJoin [] (.leaving joinTool) [] [(4, [])] := by
  have hacyclic : diamond.Acyclic := Workflow.acyclic_of_ascending (by decide)
  have hjoin : joinTool ∈ diamond.tools := by simp [diamond]
  constructor
  · have hplain := (ask_eq_plain diamond).1 hacyclic (by decide)
      [.entering joinTool, .leaving joinTool] (by simpa [ColumnQuery.tool] using hjoin) unasked rfl
    have hanswers :
        result ([ColumnQuery.entering joinTool, .leaving joinTool].mapM (·.ask diamond)) unasked
          = .ok [["id", "price", "cost"], ["id", "price", "cost"]] := by decide +kernel
    exact ⟨hacyclic, Except.ok.inj (hplain.symm.trans hanswers)⟩
  · obtain ⟨columns, hcolumns, hends⟩ :=
      (ask_eq_plain selfJoin).2 (.leaving joinTool) (mem_singleton.mpr rfl) unasked
    have hanswer : result (ColumnQuery.ask selfJoin (.leaving joinTool)) unasked = .ok [] := by
      decide +kernel
    refine (hends [] _).mpr ⟨Except.ok.inj (hanswer.symm.trans hcolumns), ?_⟩
    decide +kernel

end Replatform.Project

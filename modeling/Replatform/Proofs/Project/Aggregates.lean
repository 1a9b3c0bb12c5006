import Replatform.Formula.Aggregation
import Replatform.Proofs.Project.Columns
/-!
# Aggregations in queries

A summary is written in two places: as a block of a converted macro, and as a query of its own. Both
list the same columns. Formulas have a table of aggregations of their own, and the two tables agree
on ten ways to add up a field and on no other (`sumCall_eq_iff`).
-/

namespace Replatform.Project

open List Formula Stateful

variable {action : String} {r : List Char} {t : Tool}

/-! ## What stands around the field -/

/-- The text before and behind a field. -/
abbrev Surround := List Char × List Char

/-- What a query puts around the field that it adds up. -/
def sumSurround (action : String) : Surround :=
  let function := (Catalog.sumFunction action).toList
  if Text.endsWith "(DISTINCT".toList function then (function ++ [' '], [')'])
  else (function ++ ['('], [')'])

/-- What an aggregation of formulas puts around its field, if no more arguments are given. -/
def surround? : Target → Option Surround
  | .call name => some (name.toList ++ ['('], [')'])
  | .pattern [.text front, .arg 0, .text back] => some (front.toList, back.toList)
  | .pattern (.text front :: .arg 0 :: .text _ :: .arg 1 :: _) =>
    some (front.toList.takeWhile (· != '(') ++ ['('], [')'])
  | _ => none

theorem toList_sumCall (action field : String) : (Catalog.sumCall action field).toList
    = (sumSurround action).1 ++ field.toList ++ (sumSurround action).2 := by
  unfold Catalog.sumCall sumSurround
  dsimp only
  split <;> simp [String.toList_append]

theorem toList_convertAggregation {target : Target} {x : Surround}
    (h : aggregations.lookup action = some target) (hx : surround? target = some x)
    (field : String) :
    (convertAggregation action field []).toList = x.1 ++ field.toList ++ x.2 := by
  unfold convertAggregation
  rw [h]
  unfold surround? at hx
  split at hx
  case h_4 => cases hx
  all_goals
    cases hx
    simp [instantiate, writeCall, joinArgs, patternHead, Text.join]

/-- The ways to add up a field that both tables write alike. -/
def sharedActions : List String :=
  ["Sum", "Count", "CountDistinct", "CountNonNull", "Min", "Max", "Avg", "StdDev", "Variance",
   "Histogram"]

theorem surround_iff {e : String × Target} (he : e ∈ aggregations) :
    ∃ x, surround? e.2 = some x ∧ '\x22' ∉ x.1 ∧ '\x22' ∉ (sumSurround e.1).1
      ∧ (sumSurround e.1 = x ↔ e.1 ∈ sharedActions) := by
  have hall : (aggregations.all fun e => (surround? e.2).any fun x => decide ('\x22' ∉ x.1
      ∧ '\x22' ∉ (sumSurround e.1).1 ∧ (sumSurround e.1 = x ↔ e.1 ∈ sharedActions))) := by
    decide +kernel
  have h := all_eq_true.mp hall e he
  cases hx : surround? e.2 with
  | none =>
    rw [hx] at h
    cases h
  | some x =>
    rw [hx] at h
    exact ⟨x, rfl, of_decide_eq_true h⟩

/-- What stands around a field ends where the quote of the field is. -/
theorem surround_inj {x y : Surround} (hx : '\x22' ∉ x.1) (hy : '\x22' ∉ y.1) :
    x.1 ++ '\x22' :: r ++ x.2 = y.1 ++ '\x22' :: r ++ y.2 ↔ x = y := by
  have hcut : ∀ {z : Surround}, '\x22' ∉ z.1 →
      (z.1 ++ '\x22' :: r ++ z.2).takeWhile (· != '\x22') = z.1 := by
    intro z hz
    rw [append_assoc, takeWhile_append_of_pos fun c hc => by simp; grind]
    exact append_nil _
  refine ⟨fun h => ?_, fun h => by rw [h]⟩
  have hfront : x.1 = y.1 := by rw [← hcut hx, h, hcut hy]
  rw [hfront] at h
  exact Prod.ext hfront (append_cancel_left h)

/-- An aggregation that formulas do not know is only marked, and no call looks like this. -/
theorem sumCall_ne_of_unknown {field : String} (hfield : field.toList = '\x22' :: r)
    (h : aggregations.lookup action = none) :
    Catalog.sumCall action field ≠ convertAggregation action field [] := by
  intro heq
  have hconvert : convertAggregation action field []
      = "/* TODO: " ++ action ++ " */ " ++ field := by rw [convertAggregation, h]
  have hclose : (sumSurround action).2 = [')'] := by
    unfold sumSurround
    dsimp only
    split <;> rfl
  have hlist := congrArg String.toList heq
  rw [toList_sumCall, hconvert, hclose, String.toList_append, hfield, append_assoc,
    cons_append, append_cons] at hlist
  -- behind the quote of the field, the call has one character more
  have hend : r ++ [')'] = '\x22' :: r := append_inj_right' hlist (by simp)
  have hcount := congrArg (count ')') hend
  simp at hcount

/-- The tables agree on the ways to add up that they share. -/
theorem sumCall_eq_iff {field : String} (hfield : field.toList = '\x22' :: r) :
    Catalog.sumCall action field = convertAggregation action field [] ↔ action ∈ sharedActions := by
  cases h : aggregations.lookup action with
  | none =>
    refine iff_of_false (sumCall_ne_of_unknown hfield h) fun hshared => ?_
    have hknown : ∀ a ∈ sharedActions, (aggregations.lookup a).isSome := by decide
    have hsome := hknown _ hshared
    rw [h] at hsome
    cases hsome
  | some target =>
    obtain ⟨x, hx, hfront, hsum, hiff⟩ := surround_iff (mem_of_lookup h)
    rw [← hiff, ← surround_inj (r := r) hsum hfront, ← hfield, ← toList_sumCall,
      ← toList_convertAggregation h hx, String.toList_inj]

/-! ## Both queries -/

def sumList (t : Tool) : String := String.intercalate ",\n        " (t.summaries.map sumColumn)

/-- The sums of the tool are the last columns that the query selects from the source. -/
def SelectsSums (t : Tool) (source text : String) : Prop := ∃ front back,
  text = front ++ "\n        " ++ sumList t ++ "\n    from " ++ source ++ back

theorem selectsSums_of_lines (xs ys : List String) {source z : String} (hxs : xs ≠ [])
    (hys : ys ≠ [])
    (hz : z = "        " ++ sumList t ∨ ∃ x, z = "        " ++ x ++ ",\n        " ++ sumList t) :
    SelectsSums t source (Text.lines (xs ++ z :: ("    from " ++ source) :: ys)) := by
  have hlines : Text.lines (xs ++ z :: ("    from " ++ source) :: ys)
      = Text.lines xs ++ "\n" ++ z ++ "\n    from " ++ source ++ ("\n" ++ Text.lines ys) := by
    rw [Text.lines, String.intercalate_append_of_ne_nil hxs (cons_ne_nil _ _),
      String.intercalate_cons_of_ne_nil (cons_ne_nil _ _),
      String.intercalate_cons_of_ne_nil hys, ← String.toList_inj]
    simp [Text.lines]
  rw [hlines]
  rcases hz with rfl | ⟨x, rfl⟩
  · refine ⟨Text.lines xs, "\n" ++ Text.lines ys, ?_⟩
    rw [← String.toList_inj]
    simp
  · refine ⟨Text.lines xs ++ "\n        " ++ x ++ ",", "\n" ++ Text.lines ys, ?_⟩
    rw [← String.toList_inj]
    simp

namespace Work

theorem exists_enteringColumns (w : Workflow) (t : Tool) (b : Build) :
    ∃ columns, result (enteringColumns w t) b = .ok columns := by
  have hfold : ∀ (us : List Tool) (all : List String) (b : Build),
      ∃ columns, result (us.foldlM (addColumns w) all) b = .ok columns := by
    intro us
    induction us with
    | nil => exact fun all b => ⟨all, rfl⟩
    | cons u us ih =>
      intro all b
      rw [foldlM_cons, result_bind_of_ok (run_addColumns w all u b).1]
      exact ih _ _
  exact hfold _ [] b

theorem selectsSums_macroBlock (htool : t.name = "Summarize") (hsums : t.summaries ≠ [])
    (source name : String) (b : Build) :
    ∃ text, result (macroBlock t source name) b = .ok text ∧ SelectsSums t source text := by
  refine ⟨_, by rw [macroBlock, htool]; rfl, ?_⟩
  rw [if_neg (by simp [hsums])]
  refine selectsSums_of_lines [name ++ " as (", toolComment t, "    select"]
    ["    group by " ++ groupClause t, ")"] (cons_ne_nil _ _) (cons_ne_nil _ _) ?_
  by_cases hgroups : t.groupBy.map quoteColumn = []
  · exact .inl (by rw [hgroups]; rfl)
  · refine .inr ⟨String.intercalate ",\n        " (t.groupBy.map quoteColumn), ?_⟩
    rw [String.intercalate_append_of_ne_nil hgroups (mt map_eq_nil_iff.mp hsums),
      ← String.append_assoc, ← String.append_assoc]
    rfl

theorem selectsSums_plainQuery (htool : t.name = "Summarize") (hsums : t.summaries ≠ [])
    (w : Workflow) (upstream : List Tool) (source : String) (b : Build) :
    ∃ text, result (plainQuery w t upstream source) b = .ok text ∧ SelectsSums t source text := by
  obtain ⟨entering, hentering⟩ := exists_enteringColumns w t b
  have hleaving := (run_toolColumns w t (state (enteringColumns w t) b)).1
  refine ⟨_, by
    rw [plainQuery, result_bind_of_ok hentering, result_bind_of_ok hleaving, htool]; rfl, ?_⟩
  have hempty : t.summaries.isEmpty = false := by simp [hsums]
  rw [summaryQuery, finalQuery]
  refine selectsSums_of_lines ["final as (", "", "    select"] (_ :: _) (cons_ne_nil _ _)
    (cons_ne_nil _ _) ?_
  rw [hempty, Bool.or_false, if_neg Bool.false_ne_true]
  split
  next hgroups => exact .inl (by rw [String.isEmpty_iff.mp hgroups]; rfl)
  next => exact .inr ⟨_, rfl⟩

end Work

theorem exists_quoteColumn {f : String} (hf : f ≠ "*") :
    ∃ r, (quoteColumn f).toList = '\x22' :: r := by
  rcases toList_quoteColumn f with ⟨hquoted, hhead⟩ | ⟨hquoted, -⟩
  · obtain ⟨r, hr⟩ := head?_eq_some_iff.mp (hhead.resolve_right hf)
    exact ⟨r, hquoted.trans hr⟩
  · exact ⟨_, hquoted⟩

/-- Both queries of a summary list its sums, and the sum of a field is the aggregation of formulas
if and only if the two tables share the way to add up. -/
theorem sums_agree_iff (htool : t.name = "Summarize") (hsums : t.summaries ≠ []) (w : Workflow)
    (upstream : List Tool) (source name : String) (b : Build) :
    (∃ text, result (Work.macroBlock t source name) b = .ok text ∧ SelectsSums t source text)
      ∧ (∃ text, result (Work.plainQuery w t upstream source) b = .ok text
        ∧ SelectsSums t source text)
      ∧ ∀ s ∈ t.summaries, ∀ f, s.field = some f → f ≠ "*" →
        (sumColumn s = convertAggregation (s.action.getD "COUNT") (quoteColumn f) [] ++ " as "
            ++ quoteColumn (s.output.getD f)
          ↔ s.action.getD "COUNT" ∈ sharedActions) := by
  refine ⟨Work.selectsSums_macroBlock htool hsums source name b,
    Work.selectsSums_plainQuery htool hsums w upstream source b, fun s _ f hfield hf => ?_⟩
  obtain ⟨r, hr⟩ := exists_quoteColumn hf
  rw [← sumCall_eq_iff hr, sumColumn, hfield, Option.getD_some, if_neg hf, String.append_left_inj,
    String.append_left_inj]

/-- A tool that adds up a field in a way that is shared, and another in one that is not. -/
def mixedSums : Tool :=
  { id := 1, name := "Summarize"
    summaries := [⟨some "a", some "Sum", none⟩, ⟨some "b", some "CountNull", none⟩] }

/-- Nulls are counted with the name of a place in the pattern where the field should be. -/
theorem sums_agree_mixed : mixedSums.name = "Summarize" ∧ mixedSums.summaries ≠ []
    ∧ sumColumn ⟨some "a", some "Sum", none⟩ = convertAggregation "Sum" "\"a\"" [] ++ " as \"a\""
    ∧ sumColumn ⟨some "b", some "CountNull", none⟩
      ≠ convertAggregation "CountNull" "\"b\"" [] ++ " as \"b\"" := by
  obtain ⟨-, -, hiff⟩ := sums_agree_iff (t := mixedSums) rfl (by decide)
    { metadata := { name := "w", path := "w.yxmd" } } [] "source" "final" unasked
  exact ⟨rfl, by decide, (hiff _ (by decide) "a" rfl (by decide)).mpr (by decide),
    fun h => absurd ((hiff _ (by decide) "b" rfl (by decide)).mp h) (by decide)⟩

end Replatform.Project

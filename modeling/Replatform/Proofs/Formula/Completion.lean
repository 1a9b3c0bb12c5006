import Replatform.Proofs.Formula.Standing
/-!
# When conversion comes to an end

Calls are converted one at a time, and a conversion that changes nothing is the last. The only calls
that are converted to themselves are `PI()` and `UUID()` (`converted_eq_self_iff`): the SQL of all
other functions begins with another word, or in capitals. So a formula is converted to the end, but
for a call of these two that comes first (`openCalls_convertCalls`).
-/

namespace Replatform.Formula

open List
open Text (isWord isBlank atWordStart allCapital afterName?)

variable {c : Call} {s front word gap inside back t : List Char} {f : Function}

/-! ## Calls that are converted to themselves -/

/-- The calls that are SQL as they are, although conversion takes them on. -/
def settledTexts : List (List Char) := ["PI()".toList, "UUID()".toList]

/-- A call is converted to itself if its SQL is its text. -/
theorem Call.Stands.converted_eq_iff (h : c.Stands s front word gap inside back) :
    c.converted s = s
      ↔ (c.function.convert c.function.name.toList (splitArgs inside)).1 = c.text s := by
  have hs : s = front ++ (c.text s ++ back) := by
    rw [h.text_eq]
    conv_lhs => rw [h.text]
    simp
  rw [Call.converted, h.inside_eq, h.replace_eq]
  conv_lhs => rw [hs]
  rw [append_cancel_left_eq, append_cancel_right_eq]

/-- Whether a fixed text begins with a word that is no name of the function, or counts as SQL. -/
def leadsAway (f : Function) (t : List Char) : Bool :=
  let word := t.takeWhile isWord
  t.any (!isWord ·)
    && !(afterName? f.name.toList word == some [] && (!allCapital word || word == f.name.toList))

/-- Whether the SQL of a function begins otherwise than a call of it that can be converted, but for
the constants that are such calls. -/
def Function.leadsAway (f : Function) : Bool :=
  match f.target with
  | .manual => Formula.leadsAway f "CASE ".toList
  | .constant sql =>
    !sql.toList.contains '(' || settledTexts.contains sql.toList || Formula.leadsAway f sql.toList
  | .call sql => Formula.leadsAway f (sql ++ "(").toList
  | .pattern (.text t :: _) => Formula.leadsAway f t.toList
  | .pattern _ => false

theorem functions_leadAway : functions.all Function.leadsAway := by decide +kernel

/-- A text that leads away is not the beginning of a call of the function. -/
theorem append_ne_of_leadsAway (h : Formula.leadsAway f t) (hnamed : f.Named word)
    (hword : ∀ c ∈ word, isWord c) (hgap : ∀ c ∈ gap, isBlank c)
    (more rest : List Char) : t ++ more ≠ word ++ (gap ++ '(' :: rest) := by
  intro heq
  unfold Formula.leadsAway at h
  dsimp only at h
  obtain ⟨hany, haway⟩ := Bool.and_eq_true_iff.mp h
  have hfirst : (t ++ more).takeWhile isWord = t.takeWhile isWord := by
    rw [takeWhile_append, if_neg]
    intro hlength
    obtain ⟨c, hc, hplain⟩ := any_eq_true.mp hany
    have hfront : t.takeWhile isWord <+: t := takeWhile_prefix isWord
    rw [← hfront.eq_of_length hlength] at hc
    rw [mem_takeWhile_imp hc] at hplain
    cases hplain
  have hsame : t.takeWhile isWord = word := by
    rw [← hfirst, heq, (span_word hword hgap rest).1]
  have hopen : (!allCapital word || word == f.name.toList) := by
    cases hcapital : allCapital word with
    | false => rfl
    | true => exact beq_iff_eq.mpr (hnamed.spelled hcapital)
  rw [hsame, hnamed.named, hopen] at haway
  cases haway

/-- What begins with a slash leads away. -/
theorem leadsAway_slash (hf : f ∈ functions) (t : List Char) :
    Formula.leadsAway f ('/' :: t) := by
  obtain ⟨c, cs, hname⟩ := exists_cons_of_ne_nil (name_of_mem hf).1
  unfold Formula.leadsAway
  rw [takeWhile_cons_of_neg (by decide), hname]
  rfl

/-- The SQL of a call is no call of the same function that can be converted, but for two. -/
theorem mem_settledTexts_of_convert {args : List (List Char)} {rest : List Char}
    (hnamed : f.Named word) (hword : ∀ c ∈ word, isWord c)
    (hgap : ∀ c ∈ gap, isBlank c)
    (h : (f.convert f.name.toList args).1 = word ++ (gap ++ '(' :: rest)) :
    (f.convert f.name.toList args).1 ∈ settledTexts := by
  have haway := all_eq_true.mp functions_leadAway f hnamed.listed
  have hslash := leadsAway_slash hnamed.listed
  have hne : ∀ {t : List Char} {more}, Formula.leadsAway f t →
      t ++ more ≠ word ++ (gap ++ '(' :: rest) :=
    fun ht => append_ne_of_leadsAway ht hnamed hword hgap _ rest
  have hmarked : ∀ {front : String} {n : Nat}, Formula.leadsAway f front.toList →
      spread (callPieces (front ++ f.name ++ " */ " ++ f.name) n) (args.getD · [])
        ≠ word ++ (gap ++ '(' :: rest) := by
    intro front n hfront
    rw [callPieces, spread_text]
    simp only [String.toList_append, append_assoc]
    exact hne hfront
  rw [f.convert_eq] at h ⊢
  unfold Function.sqlPieces at h ⊢
  unfold Function.leadsAway at haway
  cases htarget : f.target with
  | constant sql =>
    rw [htarget] at haway h
    dsimp only at haway h ⊢
    rw [spread_text, spread_nil, append_nil] at h ⊢
    rcases Bool.or_eq_true_iff.mp haway with haway | haway
    · rcases Bool.or_eq_true_iff.mp haway with hnone | hsettled
      · rw [h] at hnone
        simp at hnone
      · exact contains_iff_mem.mp hsettled
    · exact absurd h (by rw [← append_nil sql.toList]; exact hne haway)
  | call sql =>
    rw [htarget] at haway h
    exact absurd h (hne haway)
  | pattern ps =>
    rw [htarget] at haway h
    dsimp only at h
    split at h
    next =>
      cases ps with
      | nil => cases haway
      | cons p ps =>
        cases p with
        | arg i => cases haway
        | text t => exact absurd h (hne haway)
    next => exact absurd h (hmarked (hslash _))
  | manual =>
    rw [htarget] at haway h
    dsimp only at haway h
    split at h
    next =>
      split at h
      next => exact absurd h (hne (hslash _))
      next =>
        split at h
        next => exact absurd h (hne haway)
        next => exact absurd h (hne (hslash _))
    next => exact absurd h (hmarked (hslash _))

/-- A call of a constant by its name becomes the constant. -/
theorem convert_of_constant {name sql : String} (hlisted : constant name sql ∈ functions)
    (hnamed : f.Named name.toList) (args : List (List Char)) :
    f.convert f.name.toList args = (sql.toList, []) := by
  have hf : f = constant name sql := eq_of_afterName? hlisted hnamed.listed hnamed.named
  rw [hf]
  rfl

theorem Call.Stands.convert_of_settled (h : c.Stands s front word gap inside back)
    (hnamed : c.function.Named word) (hsettled : c.text s ∈ settledTexts)
    (args : List (List Char)) :
    c.function.convert c.function.name.toList args = (c.text s, []) := by
  have hpi : constant "PI" "PI()" ∈ functions := mem_of_getElem? (i := 47) rfl
  have huuid : constant "UUID" "UUID()" ∈ functions := mem_of_getElem? (i := 110) rfl
  have hword := (span_word h.letters h.blanks (inside ++ [')'])).1
  rw [← h.text_eq] at hword
  rcases mem_pair.mp hsettled with htext | htext
  · rw [htext] at hword ⊢
    rw [← hword] at hnamed
    exact convert_of_constant hpi hnamed _
  · rw [htext] at hword ⊢
    rw [← hword] at hnamed
    exact convert_of_constant huuid hnamed _

/-- The calls that are converted to themselves. -/
theorem converted_eq_self_iff (h : c ∈ openCalls s) :
    c.converted s = s ↔ c.text s ∈ settledTexts := by
  obtain ⟨front, word, gap, inside, back, hstands, hnamed⟩ := mem_openCalls_iff.mp h
  rw [hstands.converted_eq_iff]
  constructor
  · intro heq
    rw [← heq]
    rw [hstands.text_eq] at heq
    exact mem_settledTexts_of_convert hnamed hstands.letters hstands.blanks heq
  · intro hmem
    rw [hstands.convert_of_settled hnamed hmem]

/-- A call that is converted to itself has no arguments, so it waits for no other. -/
theorem waits_of_settled (h : c ∈ openCalls s) (hsettled : c.text s ∈ settledTexts) :
    c.waits s = false := by
  have hempty : ∀ t ∈ settledTexts, t.dropWhile isWord = ['(', ')'] :=
    forall_mem_cons.mpr ⟨by decide, forall_mem_singleton.mpr (by decide)⟩
  obtain ⟨front, word, gap, inside, back, hstands, -⟩ := mem_openCalls_iff.mp h
  have hrest : gap ++ '(' :: (inside ++ [')']) = ['(', ')'] := by
    rw [← (span_word hstands.letters hstands.blanks (inside ++ [')'])).2, ← hstands.text_eq]
    exact hempty _ hsettled
  have hinside : inside = [] := by
    cases gap with
    | nil =>
      rw [nil_append, cons.injEq] at hrest
      exact append_left_eq_self.mp hrest.2
    | cons d gap =>
      have hblank := hstands.blanks d (.head _)
      rw [(cons.inj hrest).1] at hblank
      exact absurd hblank (by decide)
  rw [Call.waits, hstands.inside_eq, hinside]
  simp [sites]

/-! ## Runs -/

/-- How many calls are replaced in at most `limit` conversions. -/
def replacements : Nat → List Char → Nat
  | 0, _ => 0
  | limit + 1, s =>
    match nextCall? s with
    | none => 0
    | some c => if c.converted s = s then 0 else replacements limit (c.converted s) + 1

/-- Conversion has come to its end in the text: there is no next call, or it changes nothing. -/
def Ended (t : List Char) : Prop := ∀ c, nextCall? t = some c → c.converted t = t

theorem convertCalls_of_ended (h : Ended t) (limit : Nat) : (convertCalls limit t).1 = t := by
  cases limit with
  | zero => rfl
  | succ limit =>
    rw [fst_convertCalls]
    cases hc : nextCall? t with
    | none => rfl
    | some c => exact if_pos (h c hc)

/-- Below the limit, conversions end by themselves, and a higher limit makes no difference. -/
theorem ended_convertCalls (limit : Nat) : ∀ {s : List Char}, replacements limit s < limit →
    Ended (convertCalls limit s).1
      ∧ ∀ more, (convertCalls (limit + more) s).1 = (convertCalls limit s).1 := by
  induction limit with
  | zero => exact fun h => absurd h (Nat.not_lt_zero _)
  | succ limit ih =>
    intro s h
    by_cases hended : Ended s
    · rw [convertCalls_of_ended hended]
      exact ⟨hended, fun more => convertCalls_of_ended hended _⟩
    · unfold Ended at hended
      push Not at hended
      obtain ⟨c, hc, hchanged⟩ := hended
      rw [replacements, hc] at h
      dsimp only at h
      rw [if_neg hchanged] at h
      obtain ⟨hend, hmore⟩ := ih (Nat.lt_of_succ_lt_succ h)
      have hstep : ∀ n, (convertCalls (n + 1) s).1 = (convertCalls n (c.converted s)).1 := by
        intro n
        rw [fst_convertCalls, hc]
        exact if_neg hchanged
      rw [hstep]
      refine ⟨hend, fun more => ?_⟩
      rw [Nat.add_right_comm, hstep, hmore]

/-- The calls that are left where conversion has come to its end. -/
theorem openCalls_of_ended (h : Ended t) :
    openCalls t = [] ∨ ∃ c before behind, nextCall? t = some c
      ∧ openCalls t = before ++ c :: behind ∧ c.text t ∈ settledTexts
      ∧ ∀ d ∈ before, d.waits t := by
  cases hc : nextCall? t with
  | none => exact .inl (openCalls_eq_nil_of_nextCall? hc)
  | some c =>
    have hmem := mem_openCalls_of_nextCall? hc
    have hsettled := (converted_eq_self_iff hmem).mp (h c hc)
    have hfree := waits_of_settled hmem hsettled
    rcases nextCall?_eq_some hc with ⟨-, before, behind, hsplit, hwait⟩ | ⟨-, hall⟩
    · exact .inr ⟨c, before, behind, rfl, hsplit, hsettled, hwait⟩
    · rw [hall c hmem] at hfree
      cases hfree

/-- If fewer calls are replaced than the limit allows, conversion has come to its end: a higher
limit makes no difference. Of the calls that are left, `PI()` and `UUID()` are those that are
converted to themselves. Either no call is left, or one of these two is the next. Then those before
it in the order of the table wait for others, and those behind it are left whatever they are. -/
theorem openCalls_convertCalls (s : List Char) (h : replacements callLimit s < callLimit) :
    let t := (convertCalls callLimit s).1
    (∀ limit, callLimit ≤ limit → (convertCalls limit s).1 = t)
      ∧ (∀ c ∈ openCalls t, c.converted t = t ↔ c.text t ∈ settledTexts)
      ∧ (openCalls t = [] ∨ ∃ c before behind, nextCall? t = some c
        ∧ openCalls t = before ++ c :: behind ∧ c.text t ∈ settledTexts
        ∧ ∀ d ∈ before, d.waits t) := by
  intro t
  obtain ⟨hended, hmore⟩ := ended_convertCalls callLimit h
  refine ⟨fun limit hlimit => ?_, fun c hc => converted_eq_self_iff hc, openCalls_of_ended hended⟩
  obtain ⟨more, rfl⟩ := Nat.exists_eq_add_of_le hlimit
  exact hmore more

/-- In a sum of `PI()` and a maximum, the maximum is left although it could be converted. -/
theorem openCalls_convertCalls_pi :
    let s := "PI() + Max(\"a\", \"b\")".toList
    replacements callLimit s < callLimit ∧ (convertCalls callLimit s).1 = s
      ∧ ∃ c ∈ openCalls s, c.function.name = "Max" ∧ c.converted s ≠ s
        ∧ c.converted s = "PI() + GREATEST(\"a\", \"b\")".toList := by
  intro s
  -- both take a pass through the table, so they are evaluated together
  obtain ⟨hnext, hcalls⟩ : (nextCall? s).map (·.converted s) = some s
      ∧ (openCalls s).map (fun c => (c.function.name, c.text s, c.converted s))
        = [("PI", "PI()".toList, s), ("Max", "Max(\"a\", \"b\")".toList,
          "PI() + GREATEST(\"a\", \"b\")".toList)] := by decide +kernel
  obtain ⟨first, hfirst, hfixed⟩ := Option.map_eq_some_iff.mp hnext
  have hended : Ended s := by
    intro c hc
    rw [hfirst, Option.some.injEq] at hc
    rw [← hc, hfixed]
  have hfew : replacements callLimit s < callLimit := by
    rw [callLimit, replacements, hfirst]
    dsimp only
    rw [if_pos hfixed]
    decide
  obtain ⟨c, hc, heq⟩ := mem_map.mp
    (hcalls ▸ mem_cons_of_mem _ (mem_singleton.mpr rfl))
  rw [Prod.mk.injEq, Prod.mk.injEq] at heq
  obtain ⟨-, hself, -⟩ := openCalls_convertCalls s hfew
  rw [convertCalls_of_ended hended] at hself ⊢
  refine ⟨hfew, rfl, c, hc, heq.1, fun h => ?_, heq.2.2⟩
  have hsettled := (hself c hc).mp h
  rw [heq.2.1] at hsettled
  exact absurd hsettled (by decide)

end Replatform.Formula

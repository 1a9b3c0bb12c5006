import Replatform.Project.Models
import Replatform.Proofs.Path
/-!
# Names of models

The names of models consist of letters, digits, underscores and, where the number of a tool is
negative, a minus sign. So a name can stand between quotes on a line, and is a single part of a
path.
-/

namespace Replatform.Project

open List

variable {c : Char} {s : List Char} {workflow name : String}

/-- The text has the characters of the names of models only. -/
def IsModelName (s : String) : Prop := ∀ c ∈ s.toList, isPlain c ∨ c = '-'

instance (s : String) : Decidable (IsModelName s) :=
  List.decidableBAll (fun c => isPlain c ∨ c = '-') s.toList

theorem IsModelName.append {s t : String} (hs : IsModelName s) (ht : IsModelName t) :
    IsModelName (s ++ t) := by
  intro c hc
  rw [String.toList_append, mem_append] at hc
  exact hc.elim (hs c) (ht c)

/-! ## Parts of names -/

/-- A small letter, a digit or an underscore. -/
def IsNameChar (c : Char) : Prop := c.isLower ∨ c.isDigit ∨ c = '_'

instance (c : Char) : Decidable (IsNameChar c) :=
  inferInstanceAs (Decidable (c.isLower ∨ c.isDigit ∨ c = '_'))

theorem ascii_of_isPlain (h : isPlain c) : c.toNat < 128 := by
  have hupto : ∀ {last : UInt32}, c.val ≤ last → last.toNat < 128 → c.toNat < 128 :=
    fun h hlast => Nat.lt_of_le_of_lt (UInt32.le_iff_toNat_le.mp h) hlast
  rcases Bool.or_eq_true_iff.mp h with halnum | hunder
  · rcases Bool.or_eq_true_iff.mp halnum with halpha | hdigit
    · rcases Bool.or_eq_true_iff.mp halpha with hupper | hlower
      · exact hupto (of_decide_eq_true hupper).2 (by decide)
      · exact hupto (of_decide_eq_true (Bool.and_eq_true_iff.mp hlower).2) (by decide)
    · exact hupto (of_decide_eq_true (Bool.and_eq_true_iff.mp hdigit).2) (by decide)
  · rw [eq_of_beq hunder]
    decide

/-- The small forms of plain characters are the characters of names, which are plain themselves. -/
theorem toLower_plain (h : isPlain c) : IsNameChar c.toLower
    ∧ (c.toLower = '_' → c = '_') ∧ (IsNameChar c → c.toLower = c) := by
  have hall : ∀ n < 128, isPlain (Char.ofNat n) → IsNameChar (Char.ofNat n).toLower
      ∧ ((Char.ofNat n).toLower = '_' → Char.ofNat n = '_')
      ∧ (IsNameChar (Char.ofNat n) → (Char.ofNat n).toLower = Char.ofNat n) := by decide +kernel
  have hc := hall c.toNat (ascii_of_isPlain h)
  rw [Char.ofNat_toNat] at hc
  exact hc h

theorem IsNameChar.isPlain (h : IsNameChar c) : isPlain c := by
  rcases h with hsmall | hdigit | rfl
  · have halpha : c.isAlpha := Bool.or_eq_true_iff.mpr (.inr hsmall)
    simp [Project.isPlain, Char.isAlphanum, halpha]
  · simp [Project.isPlain, Char.isAlphanum, hdigit]
  · decide

theorem mem_of_mem_squeeze (h : c ∈ squeeze s) : c ∈ s := by
  fun_induction squeeze s with
  | case1 s ih => exact .tail _ (ih h)
  | case2 d s hd ih =>
    rcases mem_cons.mp h with rfl | h
    · exact .head _
    · exact .tail _ (ih h)
  | case3 => exact h

theorem mem_of_mem_trimWhile {p : Char → Bool} (h : c ∈ Text.trimWhile p s) : c ∈ s := by
  have hback : c ∈ (s.dropWhile p).reverse.dropWhile p := mem_reverse.mp h
  have hfront := mem_reverse.mp ((dropWhile_sublist p).subset hback)
  exact (dropWhile_sublist p).subset hfront

/-- The characters of a name before they are made small. -/
def trimmed (s : List Char) : List Char :=
  Text.trimWhile (· == '_') (squeeze (s.map fun c => if isPlain c then c else '_'))

theorem isPlain_of_mem_trimmed (h : c ∈ trimmed s) : isPlain c := by
  obtain ⟨d, -, rfl⟩ := mem_map.mp (mem_of_mem_squeeze (mem_of_mem_trimWhile h))
  split
  · assumption
  · decide

theorem isNameChar_of_mem_plainName (h : c ∈ plainName s) : IsNameChar c := by
  obtain ⟨d, hd, rfl⟩ := mem_map.mp h
  exact (toLower_plain (isPlain_of_mem_trimmed hd)).1

/-- A page proposes the name that the model gets. -/
theorem proposedName_eq (s : String) : proposedName s = sanitize s := by
  unfold sanitize
  split
  next hempty =>
    rw [String.isEmpty_iff.mp hempty]
    rfl
  next => rfl

theorem isModelName_sanitize (s : String) : IsModelName (sanitize s) := by
  intro c hc
  rw [← proposedName_eq] at hc
  unfold proposedName at hc
  split at hc
  next => exact .inl (all_eq_true.mp (by decide : "unknown".toList.all isPlain) c hc)
  next =>
    rw [String.toList_ofList] at hc
    exact .inl (isNameChar_of_mem_plainName (mem_of_mem_take hc)).isPlain

theorem isModelName_natRepr (n : Nat) : IsModelName n.repr := by
  intro c hc
  have hdigit : c.isDigit :=
    Nat.isDigit_of_mem_toDigits (b := 10) (by decide) (by decide) (by simpa [Nat.repr] using hc)
  exact .inl (by simp [isPlain, Char.isAlphanum, hdigit])

theorem isModelName_toString (i : Int) : IsModelName (toString i) := by
  cases i with
  | ofNat n => exact isModelName_natRepr n
  | negSucc n => exact IsModelName.append (s := "-") (by decide) (isModelName_natRepr _)

theorem isModelName_underscore : IsModelName "_" := by decide

/-- Three parts of a name with an underscore between the last two. -/
theorem isModelName_joined (layer : String) {rest : String} (hlayer : IsModelName layer)
    (hworkflow : IsModelName workflow) (hrest : IsModelName rest) :
    IsModelName (layer ++ workflow ++ "_" ++ rest) :=
  ((hlayer.append hworkflow).append isModelName_underscore).append hrest

/-! ## Names of models -/

variable (t : Tool)

theorem isModelName_tableName : IsModelName (tableName t) := by
  unfold tableName
  split
  · exact isModelName_sanitize _
  · exact isModelName_sanitize _
  · exact isModelName_sanitize _
  · exact isModelName_sanitize _
  · exact ((isModelName_sanitize _).append isModelName_underscore).append (isModelName_toString _)

theorem isModelName_modelReference (h : IsModelName workflow) :
    IsModelName (modelReference t workflow) := by
  unfold modelReference
  split
  · exact isModelName_joined "stg_" (by decide) h (isModelName_tableName t)
  · exact isModelName_joined "int_" (by decide) h (isModelName_sanitize _)

theorem isModelName_chainName (chain : List Tool) (h : IsModelName workflow) :
    IsModelName (chainName workflow chain) :=
  isModelName_joined "int_" (by decide) h (isModelName_sanitize _)

theorem isModelName_summaryName (groups : List String) : IsModelName (summaryName groups) :=
  IsModelName.append (s := "summary_by_") (by decide) (isModelName_sanitize _)

theorem isModelName_of_targetName? {t : Tool} (h : targetName? t = some name) :
    IsModelName name := by
  unfold targetName? at h
  split at h
  · exact Option.some.inj h ▸ isModelName_sanitize _
  · exact Option.some.inj h ▸ isModelName_sanitize _
  · exact Option.some.inj h ▸ isModelName_sanitize _
  · exact nomatch h

theorem isModelName_containerName (w : Workflow) : IsModelName (containerName t w) := by
  unfold containerName
  split
  · exact isModelName_sanitize _
  · dsimp only
    split
    next hname =>
      obtain ⟨m, -, hm⟩ := exists_of_findSome?_eq_some hname
      exact isModelName_of_targetName? hm
    next => exact isModelName_summaryName _
    next => exact (isModelName_sanitize _).append (by decide)

theorem isModelName_resultName (w : Workflow) : IsModelName (resultName t w) := by
  unfold resultName
  split
  · exact isModelName_containerName t w
  · split
    next name hname => exact isModelName_of_targetName? hname
    next =>
      split
      · exact isModelName_summaryName _
      · split
        · exact isModelName_sanitize _
        · split
          · exact (isModelName_sanitize _).append (by decide)
          · split
            · exact (isModelName_sanitize _).append (by decide)
            · exact isModelName_sanitize _

theorem isModelName_resultModelName (w : Workflow) (h : IsModelName workflow) :
    IsModelName (resultModelName t workflow w) := by
  have hkind : IsModelName
      (if t.name = "Summarize" || !t.summaries.isEmpty then "fct" else "dim") := by
    split <;> decide
  exact ((((hkind.append isModelName_underscore).append h).append isModelName_underscore)).append
    (isModelName_resultName t w)

/-! ## Parts of paths -/

open Replatform.Path

theorem isPart_of_isModelName (h : IsModelName name) (front back : String)
    (hfront : '/' ∉ front.toList) (hback : '/' ∉ back.toList) (hlength : 2 ≤ back.toList.length) :
    IsPart (front ++ name ++ back) := by
  have hlist : (front ++ name ++ back).toList = front.toList ++ name.toList ++ back.toList := by
    simp
  refine isPart_of_notMem ?_ ?_ ?_
  · rw [hlist, mem_append, mem_append, not_or, not_or]
    refine ⟨⟨hfront, fun hc => ?_⟩, hback⟩
    exact absurd (h _ hc) (by decide)
  · intro he
    have := congrArg length (hlist.symm.trans he)
    simp only [length_append, length_nil] at this
    omega
  · intro he
    have := congrArg length (hlist.symm.trans he)
    simp only [length_append, length_singleton] at this
    omega

theorem isPart_sql (h : IsModelName name) : IsPart (name ++ ".sql") := by
  have := isPart_of_isModelName h "" ".sql" (by decide) (by decide) (by decide)
  rwa [String.empty_append] at this

theorem isPart_layer (layer : Layer) : IsPart layer.name := by
  cases layer <;> decide

theorem ne_dots (front name back : String) (h : 3 ≤ back.toList.length) :
    ".." ≠ front ++ name ++ back := by
  intro he
  have hlength := congrArg (fun s : String => s.toList.length) he
  simp only [String.toList_append, length_append] at hlength
  have : "..".toList.length = 2 := rfl
  omega

/-- A column is quoted, unless it begins with a quote or stands for all columns. -/
theorem toList_quoteColumn (s : String) :
    (quoteColumn s).toList = s.toList ∧ (s.toList.head? = some '\x22' ∨ s = "*")
    ∨ (quoteColumn s).toList = '\x22' :: (s.toList ++ ['\x22'])
      ∧ s.toList.head? ≠ some '\x22' ∧ s ≠ "*" := by
  have hhead : Text.startsWith ['\x22'] s.toList ↔ s.toList.head? = some '\x22' := by
    cases s.toList with
    | nil => simp [Text.startsWith, Text.after?]
    | cons c x => simp [Text.startsWith, Text.after?, eq_comm (a := c)]
  unfold quoteColumn
  by_cases h : s.toList.head? = some '\x22' ∨ s = "*"
  · rw [if_pos (by simpa [hhead] using h)]
    exact .inl ⟨rfl, h⟩
  · rw [if_neg (by simpa [hhead] using h)]
    refine .inr ⟨?_, not_or.mp h⟩
    rw [String.toList_append, String.toList_append]
    rfl

end Replatform.Project

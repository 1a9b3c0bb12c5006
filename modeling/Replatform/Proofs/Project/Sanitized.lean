import Mathlib.Data.List.Chain
import Mathlib.Data.List.TakeWhile
import Replatform.Proofs.Project.Name
/-!
# Names that are made from texts

A name has small letters, digits and underscores, of which no two stand side by side and none comes
first (`IsName`). Every text becomes such a name (`sanitized_names`). A text that is one already
loses at most an underscore at its end. The end of a name is trimmed before it is cut at the limit,
so a cut can leave an underscore there (`sanitize_again_iff`).
-/

namespace Replatform.Project

open List Text

variable {s x y : List Char}

/-- Two characters are not both underscores. -/
def NotBoth (c d : Char) : Prop := c = '_' → d ≠ '_'

/-- Small letters, digits and single underscores, of which none comes first. -/
structure IsName (x : List Char) : Prop where
  chars : ∀ c ∈ x, IsNameChar c
  single : x.IsChain NotBoth
  first : x.head? ≠ some '_'

/-- A text begins like any part at its front. -/
theorem head?_front {c : Char} (hy : y <+: x) (h : y.head? = some c) : x.head? = some c := by
  obtain ⟨z, rfl⟩ := hy
  rw [head?_append, h, Option.some_or]

/-- What stands at the front of a name is a name. -/
theorem IsName.front (h : IsName x) (hy : y <+: x) : IsName y where
  chars c hc := h.chars c (hy.subset hc)
  single := IsChain.infix h.single hy.isInfix
  first hfirst := h.first (head?_front hy hfirst)

/-! ## Underscores -/

/-- No underscore is left at the front. -/
theorem head?_dropWhile_ne (x : List Char) : (x.dropWhile (· == '_')).head? ≠ some '_' := by
  intro h
  have hnot := head?_dropWhile_not (· == '_') x
  rw [h] at hnot
  simp at hnot

theorem dropEndWhile_front (p : Char → Bool) (x : List Char) : dropEndWhile p x <+: x := by
  rw [← reverse_suffix, dropEndWhile, reverse_reverse]
  exact dropWhile_suffix p

/-- No underscore is left at the end. -/
theorem getLast?_dropEndWhile_ne (x : List Char) :
    (dropEndWhile (· == '_') x).getLast? ≠ some '_' := by
  rw [dropEndWhile, getLast?_reverse]
  exact head?_dropWhile_ne _

/-- Nothing is dropped from the end of a text without an underscore there. -/
theorem dropEndWhile_eq_self_iff : dropEndWhile (· == '_') x = x ↔ x.getLast? ≠ some '_' := by
  constructor
  · intro h
    rw [← h]
    exact getLast?_dropEndWhile_ne x
  · intro h
    rw [dropEndWhile, dropWhile_beq_eq_self_of_head?_ne (by rwa [head?_reverse]), reverse_reverse]

/-- A text that begins with something else does not consist of underscores. -/
theorem dropEndWhile_ne_nil (hx : x ≠ []) (h : x.head? ≠ some '_') :
    dropEndWhile (· == '_') x ≠ [] := by
  obtain ⟨c, x, rfl⟩ := exists_cons_of_ne_nil hx
  intro hnil
  rw [dropEndWhile, reverse_eq_nil_iff, dropWhile_eq_nil_iff] at hnil
  exact h (congrArg some (beq_iff_eq.mp (hnil c (mem_reverse.mpr (.head _)))))

/-- What is squeezed begins as before and has no two underscores side by side. -/
theorem squeeze_spec (s : List Char) :
    (squeeze s).head? = s.head? ∧ (squeeze s).IsChain NotBoth := by
  fun_induction squeeze s with
  | case1 s ih => exact ih
  | case2 c s hne ih =>
    refine ⟨rfl, isChain_cons.mpr ⟨fun d hd hc => ?_, ih.2⟩⟩
    rintro rfl
    rw [ih.1, Option.mem_def, head?_eq_some_iff] at hd
    exact hne _ hc hd.choose_spec
  | case3 => exact ⟨rfl, .nil⟩

/-- Single underscores stay. -/
theorem squeeze_eq_self (h : s.IsChain NotBoth) : squeeze s = s := by
  fun_induction squeeze s with
  | case1 s => exact absurd rfl ((isChain_cons_cons.mp h).1 rfl)
  | case2 c s _ ih => rw [ih (isChain_cons.mp h).2]
  | case3 => rfl

/-! ## Names -/

/-- Trimming leaves single underscores. -/
theorem isChain_trimmed (s : List Char) : (trimmed s).IsChain NotBoth := by
  refine IsChain.infix (squeeze_spec (s.map fun c => if isPlain c then c else '_')).2 ?_
  exact (dropEndWhile_front _ _).isInfix.trans (dropWhile_suffix _).isInfix

/-- No other character that is kept has the underscore as its small letter. -/
theorem underscore_of_toLower {c : Char} (hc : c ∈ trimmed s) (h : c.toLower = '_') : c = '_' :=
  (toLower_plain (isPlain_of_mem_trimmed hc)).2.1 h

/-- Every text becomes a name, if only an empty one. -/
theorem isName_plainName (s : List Char) : IsName (plainName s) where
  chars _ := isNameChar_of_mem_plainName
  single := by
    show ((trimmed s).map Char.toLower).IsChain NotBoth
    rw [isChain_map]
    refine (isChain_trimmed s).imp_of_mem_imp fun c d hc hd h hlower hlower' => ?_
    exact h (underscore_of_toLower hc hlower) (underscore_of_toLower hd hlower')
  first h := by
    obtain ⟨c, hc, hlower⟩ := Option.map_eq_some_iff.mp (head?_map.symm.trans h)
    rw [underscore_of_toLower (mem_of_head? hc) hlower] at hc
    exact head?_dropWhile_ne _ (head?_front (dropEndWhile_front _ _) hc)

/-- Before it is cut, a name does not end with an underscore. -/
theorem getLast?_plainName_ne (s : List Char) : (plainName s).getLast? ≠ some '_' := by
  intro h
  obtain ⟨c, hc, hlower⟩ := Option.map_eq_some_iff.mp (getLast?_map.symm.trans h)
  rw [underscore_of_toLower (mem_of_getLast? hc) hlower] at hc
  exact getLast?_dropEndWhile_ne _ hc

/-- A name that is made into a name again loses the underscores at its end. -/
theorem plainName_of_isName (h : IsName x) : plainName x = dropEndWhile (· == '_') x := by
  have hmap : (x.map fun c => if isPlain c then c else '_') = x :=
    (map_congr_left fun c hc => if_pos (h.chars c hc).isPlain).trans (map_id x)
  have htrimmed : trimmed x = dropEndWhile (· == '_') x := by
    rw [trimmed, hmap, squeeze_eq_self h.single, trimWhile,
      dropWhile_beq_eq_self_of_head?_ne h.first]
  show (trimmed x).map Char.toLower = _
  rw [htrimmed]
  refine (map_congr_left fun c hc => ?_).trans (map_id _)
  have hname := h.chars c ((dropEndWhile_front _ x).subset hc)
  exact (toLower_plain hname.isPlain).2.2 hname

variable (s : String)

/-- A name that is not empty is cut at the limit. -/
theorem toList_sanitize (h : plainName s.toList ≠ []) :
    (sanitize s).toList = (plainName s.toList).take nameLimit := by
  rw [← proposedName_eq]
  unfold proposedName
  split
  next hnil => exact absurd ((take_eq_nil_iff.mp hnil).resolve_left (by decide)) h
  next => exact String.toList_ofList

/-- A text without letters and digits has a name that stands for none. -/
theorem sanitize_of_nil {s : String} (h : plainName s.toList = []) : sanitize s = "unknown" := by
  rw [← proposedName_eq, proposedName, h]
  rfl

/-- What is cut at the limit is still a name, and there is something left of it. -/
theorem isName_sanitize : IsName (sanitize s).toList
    ∧ (sanitize s).toList ≠ [] ∧ (sanitize s).toList.length ≤ nameLimit := by
  by_cases h : plainName s.toList = []
  · have hsame : plainName "unknown".toList = "unknown".toList := by decide
    rw [sanitize_of_nil h]
    exact ⟨hsame ▸ isName_plainName "unknown".toList, by decide, by decide⟩
  · rw [toList_sanitize s h]
    refine ⟨(isName_plainName _).front <| take_prefix .., ?_, length_take_le ..⟩
    exact fun hnil => h ((take_eq_nil_iff.mp hnil).resolve_left (by decide))

/-- Pages and models agree on sanitized names. They are not empty and not longer than 50 characters,
which are small letters, digits and single underscores; the first is no underscore. -/
theorem sanitized_names : proposedName = sanitize ∧ ∀ s : String,
    sanitize s ≠ "" ∧ (sanitize s).length ≤ 50
      ∧ (∀ c ∈ (sanitize s).toList, c.isLower ∨ c.isDigit ∨ c = '_')
      ∧ ¬['_', '_'] <:+: (sanitize s).toList ∧ ¬['_'] <+: (sanitize s).toList := by
  refine ⟨funext proposedName_eq, fun s => ?_⟩
  obtain ⟨hname, hne, hlength⟩ := isName_sanitize s
  refine ⟨fun h => hne (by rw [h]; rfl), ?_, hname.chars, fun h => ?_, fun h => ?_⟩
  · rwa [← String.length_toList]
  · have hpair := IsChain.infix hname.single h
    exact (isChain_cons_cons.mp hpair).1 rfl rfl
  · exact hname.first (head?_front h rfl)

/-- The second time, only the underscore that a cut has left is lost. -/
theorem toList_sanitize_sanitize :
    (sanitize (sanitize s)).toList = dropEndWhile (· == '_') (sanitize s).toList := by
  obtain ⟨hname, hne, hlength⟩ := isName_sanitize s
  have hplain := plainName_of_isName hname
  rw [toList_sanitize _ (hplain ▸ dropEndWhile_ne_nil hne hname.first), hplain]
  exact take_of_length_le ((dropEndWhile_front _ _).length_le.trans hlength)

/-- The second time changes nothing if no underscore is at the end. -/
theorem sanitize_sanitize_eq_iff :
    sanitize (sanitize s) = sanitize s ↔ (sanitize s).toList.getLast? ≠ some '_' := by
  rw [← dropEndWhile_eq_self_iff, ← toList_sanitize_sanitize, String.toList_inj]

/-- A name that is made into a name again stays as it is unless it is cut at the limit behind an
underscore. Otherwise it loses the underscore, and from then on it stays as it is. -/
theorem sanitize_again_iff (s : String) :
    (sanitize (sanitize s) = sanitize s ↔ (plainName s.toList)[nameLimit - 1]? ≠ some '_')
      ∧ (sanitize (sanitize s)).toList = dropEndWhile (· == '_') (sanitize s).toList
      ∧ sanitize (sanitize (sanitize s)) = sanitize (sanitize s) := by
  refine ⟨?_, toList_sanitize_sanitize s, ?_⟩
  · rw [sanitize_sanitize_eq_iff]
    by_cases h : plainName s.toList = []
    · rw [sanitize_of_nil h, h]
      decide
    · -- behind the limit there is nothing to cut, and a name does not end with an underscore
      have hend := getLast?_plainName_ne s.toList
      rw [toList_sanitize s h, getLast?_take, if_neg (by decide)]
      cases (plainName s.toList)[nameLimit - 1]? with
      | none => simpa using hend
      | some c => rfl
  · rw [sanitize_sanitize_eq_iff, toList_sanitize_sanitize]
    exact getLast?_dropEndWhile_ne _

end Replatform.Project

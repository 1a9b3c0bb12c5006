import Replatform.Proofs.Formula.Parts
/-!
# What preparation leaves alone

A text is `Inert` if neither a reference to a field nor an operator stands in it, and these are the
texts that stay as they are when fields are put in quotes and operators are replaced
(`prepare_quoted_eq_iff`).

That nothing else stays is a matter of counting. A field in quotes has a bracket less, an operator
of SQL has fewer of the characters `=`, `&`, `|` and `!`, and no step brings them back.
-/

namespace Replatform.Formula

open List

variable {s : List Char}

/-- Neither a reference to a field nor an operator stands in the text. -/
structure Inert (s : List Char) : Prop where
  field : ∀ name, name ≠ [] → ']' ∉ name → ¬ '[' :: (name ++ [']']) <:+: s
  operator : ∀ op ∈ operators, ¬ op.1.toList <:+: s

/-! ## Fields -/

theorem quoteFields_eq_self_iff :
    quoteFields false s = s ↔ ∀ name, name ≠ [] → ']' ∉ name → ¬ '[' :: (name ++ [']']) <:+: s := by
  induction s with
  | nil => simp [quoteFields]
  | cons c s ih =>
    rw [quoteFields, if_neg (by simp)]
    by_cases hfield : (c == '[' && endsField s)
    · rw [if_pos hfield]
      rw [Bool.and_eq_true, beq_iff_eq, endsField, Bool.and_eq_true, contains_iff_mem]
        at hfield
      obtain ⟨rfl, hhead, hmem⟩ := hfield
      obtain ⟨name, rest, rfl, hname⟩ := eq_append_cons_of_mem hmem
      have hne : name ≠ [] := by
        rintro rfl
        exact absurd hhead (by simp)
      have hin : '[' :: (name ++ [']']) <:+: '[' :: (name ++ ']' :: rest) := ⟨[], rest, by simp⟩
      exact ⟨fun h => absurd (cons.inj h).1 (by decide), fun h => absurd hin (h name hne hname)⟩
    · rw [if_neg hfield, cons.injEq, ih]
      refine ⟨fun h name hne hname hin => ?_, fun h => ⟨rfl, fun name hne hname hin => ?_⟩⟩
      · rcases infix_cons_iff.mp hin with ⟨rest, hrest⟩ | hin
        · -- the reference would begin here
          rw [cons_append, append_assoc, singleton_append, cons.injEq] at hrest
          obtain ⟨rfl, rfl⟩ := hrest
          exact hfield (by rw [endsField_name hne hname]; rfl)
        · exact h.2 name hne hname hin
      · exact h name hne hname (infix_cons hin)

theorem count_quoteFields_le (s : List Char) :
    ∀ inside, (quoteFields inside s).count '[' ≤ s.count '[' := by
  induction s with
  | nil => exact fun _ => Nat.le_refl _
  | cons c s ih =>
    have hquote : ∀ inside, ('\x22' :: quoteFields inside s).count '[' ≤ (c :: s).count '[' := by
      intro inside
      rw [count_cons_of_ne (by decide)]
      exact (ih inside).trans (count_le_count_cons ..)
    have hsame : ∀ inside, (c :: quoteFields inside s).count '[' ≤ (c :: s).count '[' := by
      intro inside
      rw [count_cons, count_cons]
      exact Nat.add_le_add_right (ih inside) _
    intro inside
    rw [quoteFields]
    split
    · split
      · exact hquote false
      · exact hsame true
    · split
      · exact hquote true
      · exact hsame false

/-- A field in quotes has a bracket less. -/
theorem quoteFields_eq_self_of_count (h : s.count '[' ≤ (quoteFields false s).count '[') :
    quoteFields false s = s := by
  induction s with
  | nil => rfl
  | cons c s ih =>
    rw [quoteFields, if_neg (by simp)] at h ⊢
    split
    next hfield =>
      have hc : c = '[' := by simpa using (Bool.and_eq_true_iff.mp hfield).1
      have hle := count_quoteFields_le s true
      rw [if_pos hfield, hc, count_cons_self, count_cons_of_ne (by decide)] at h
      omega
    next hfield =>
      rw [if_neg hfield, count_cons, count_cons] at h
      rw [ih (Nat.le_of_add_le_add_right h)]

/-! ## Operators -/

theorem replaceAll_of_absent {pat new : List Char} (h : ¬ pat <:+: s) :
    Text.replaceAll pat new s = s := by
  unfold Text.replaceAll
  split
  · rfl
  · induction s with
    | nil => rfl
    | cons c s ih =>
      have hstart : ¬ Text.startsWith pat (c :: s) := fun hstart =>
        h (startsWith_iff.mp hstart).isInfix
      rw [Text.replaceGo, if_neg hstart, ih fun hin => h (infix_cons hin)]

section Count

variable {p : Char → Bool} {pat new : List Char}

theorem drop_of_startsWith {c : Char} (hne : pat ≠ []) (h : Text.startsWith pat (c :: s)) :
    c :: s = pat ++ s.drop (pat.length - 1) := by
  obtain ⟨rest, hrest⟩ := startsWith_iff.mp h
  obtain ⟨d, pat, rfl⟩ := exists_cons_of_ne_nil hne
  rw [cons_append, cons.injEq] at hrest
  obtain ⟨rfl, rfl⟩ := hrest
  rw [length_cons, Nat.add_sub_cancel, drop_left, cons_append]

theorem countP_replaceGo_le (hne : pat ≠ []) (hle : new.countP p ≤ pat.countP p) (s : List Char) :
    ∀ skip, (Text.replaceGo pat new skip s).countP p ≤ (s.drop skip).countP p := by
  induction s with
  | nil =>
    rintro (_ | skip) <;> exact Nat.zero_le _
  | cons c s ih =>
    rintro (_ | skip)
    · rw [Text.replaceGo, drop_zero]
      split
      next hstart =>
        rw [drop_of_startsWith hne hstart, countP_append, countP_append]
        exact Nat.add_le_add hle (ih _)
      next =>
        rw [countP_cons, countP_cons]
        exact Nat.add_le_add_right (ih 0) _
    · exact ih skip

theorem countP_replaceAll_le (hle : new.countP p ≤ pat.countP p) (s : List Char) :
    (Text.replaceAll pat new s).countP p ≤ s.countP p := by
  unfold Text.replaceAll
  split
  · exact Nat.le_refl _
  next hne => exact countP_replaceGo_le hne hle s 0

theorem countP_replaceAll_lt (hlt : new.countP p < pat.countP p) (h : pat <:+: s) :
    (Text.replaceAll pat new s).countP p < s.countP p := by
  have hne : pat ≠ [] := by
    rintro rfl
    exact absurd hlt (Nat.not_lt_zero _)
  rw [Text.replaceAll, if_neg hne]
  induction s with
  | nil => exact absurd (infix_nil.mp h) hne
  | cons c s ih =>
    rw [Text.replaceGo]
    split
    next hstart =>
      rw [drop_of_startsWith hne hstart, countP_append, countP_append]
      exact Nat.add_lt_add_of_lt_of_le hlt (countP_replaceGo_le hne hlt.le s _)
    next hstart =>
      have hin := (infix_cons_iff.mp h).resolve_left fun hpre =>
        hstart (startsWith_iff.mpr hpre)
      rw [countP_cons, countP_cons]
      exact Nat.add_lt_add_right (ih hin) _

/-- No replacement brings back characters that the operators do not have. -/
theorem countP_foldl_replaceAll_le {ops : List (String × String)}
    (h : ∀ op ∈ ops, op.2.toList.countP p ≤ op.1.toList.countP p) (s : List Char) :
    (ops.foldl (fun s (op, sql) => Text.replaceAll op.toList sql.toList s) s).countP p
      ≤ s.countP p := by
  induction ops generalizing s with
  | nil => exact Nat.le_refl _
  | cons op ops ih =>
    rw [foldl_cons]
    exact (ih (forall_mem_cons.mp h).2 _).trans
      (countP_replaceAll_le (h op (.head _)) s)

end Count

theorem replaceOperators_eq_self_iff :
    replaceOperators s = s ↔ ∀ op ∈ operators, ¬ op.1.toList <:+: s := by
  have hshrinks : ∀ op ∈ operators,
      op.2.toList.countP beginsOperator < op.1.toList.countP beginsOperator := by decide
  unfold replaceOperators
  generalize operators = ops at hshrinks ⊢
  induction ops with
  | nil => exact ⟨fun _ _ => nofun, fun _ => rfl⟩
  | cons op ops ih =>
    have hrest := (forall_mem_cons.mp hshrinks).2
    rw [foldl_cons, forall_mem_cons]
    by_cases hin : op.1.toList <:+: s
    · -- the first replacement lowers the count, and those that follow do not raise it
      refine ⟨fun h => ?_, fun h => absurd hin h.1⟩
      have hlt := countP_replaceAll_lt (hshrinks op (.head _)) hin
      have hle := countP_foldl_replaceAll_le (fun op' hop' => (hrest op' hop').le)
        (Text.replaceAll op.1.toList op.2.toList s)
      rw [h] at hle
      exact absurd hlt (Nat.not_lt.mpr hle)
    · dsimp only
      rw [replaceAll_of_absent hin]
      exact (ih hrest).trans ⟨fun h => ⟨hin, h⟩, And.right⟩

/-! ## Both -/

theorem inert_iff : replaceOperators (quoteFields false s) = s ↔ Inert s := by
  constructor
  · intro h
    have hnone : ∀ op ∈ operators,
        op.2.toList.countP (· == '[') ≤ op.1.toList.countP (· == '[') := by decide
    have hcount : s.count '[' ≤ (quoteFields false s).count '[' :=
      (congrArg (count '[') h).ge.trans (countP_foldl_replaceAll_le hnone _)
    have hfields := quoteFields_eq_self_of_count hcount
    rw [hfields] at h
    exact ⟨quoteFields_eq_self_iff.mp hfields, replaceOperators_eq_self_iff.mp h⟩
  · intro h
    rw [quoteFields_eq_self_iff.mpr h.field, replaceOperators_eq_self_iff.mpr h.operator]

/-- A literal stays as it is if and only if neither a reference nor an operator stands in it. -/
theorem prepare_quoted_eq_iff {q : Char} (hq : isQuote q) {body : List Char} :
    prepare (quoted q body) = quoted q body ↔ Inert (quoted q body) := by
  rw [prepare, strip_quoted hq, inert_iff]

end Replatform.Formula

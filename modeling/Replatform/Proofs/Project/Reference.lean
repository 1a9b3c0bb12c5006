import Mathlib.Data.List.Infix
import Replatform.Proofs.Project.Name
/-!
# References in the text of a model

A text refers to a model where the name of the model stands between quotes and parentheses behind
the word `ref`. The lines that read the sources of a model refer to one model each; all other lines
are remarks of the file, which come from the descriptions, columns and formulas of the tools, and
these can refer to models too (`refers_text_iff`).
-/

namespace Replatform.Project

open List

/-- The name can stand between quotes on a line. -/
def Quotable (m : String) : Prop := ∀ c ∈ m.toList, c ≠ '\x27' ∧ c ≠ '\n'

theorem IsModelName.quotable {s : String} (h : IsModelName s) : Quotable s := by
  intro c hc
  constructor
  · rintro rfl
    exact absurd (h _ hc) (by decide)
  · rintro rfl
    exact absurd (h _ hc) (by decide)

def Refers (text m : String) : Prop := ("ref('" ++ m ++ "')").toList <:+: text.toList

/-- The lines of a file but those that refer to the models that it reads. -/
def ModelFile.remarks (f : ModelFile) : List String :=
  f.head ++ f.reads.flatMap (fun r => r.selection ++ ["", "),", ""]) ++ f.body

/-! ## Lines -/

theorem eq_nil_of_prefix_cons {α : Type} {a : α} {pat ys : List α} (ha : a ∉ pat)
    (h : pat <+: a :: ys) : pat = [] := by
  cases pat with
  | nil => rfl
  | cons p pat =>
    have hp : p = a := (cons_prefix_cons.mp h).1
    exact absurd (hp ▸ mem_cons_self ..) ha

/-- What has no separator in it lies on one side of each separator. -/
theorem infix_append_cons_iff {α : Type} {a : α} {pat xs ys : List α} (ha : a ∉ pat) :
    pat <:+: xs ++ a :: ys ↔ pat <:+: xs ∨ pat <:+: ys := by
  constructor
  · intro h
    rcases infix_append_iff.mp h with h | h | ⟨l₁, l₂, rfl, hl₁, hl₂⟩
    · exact .inl h
    · rcases infix_cons_iff.mp h with h | h
      · exact .inl (eq_nil_of_prefix_cons ha h ▸ nil_infix)
      · exact .inr h
    · have hl₂' := eq_nil_of_prefix_cons (fun h => ha (mem_append_right _ h)) hl₂
      rw [hl₂', append_nil]
      exact .inl hl₁.isInfix
  · rintro (h | h)
    · exact h.trans (prefix_append xs _).isInfix
    · exact h.trans ((suffix_cons a ys).trans (suffix_append xs _)).isInfix

theorem infix_intercalate_iff {α : Type} {a : α} {pat : List α} (ha : a ∉ pat) (hpat : pat ≠ [])
    (xs : List (List α)) : pat <:+: [a].intercalate xs ↔ ∃ x ∈ xs, pat <:+: x := by
  induction xs with
  | nil => simpa using hpat
  | cons x xs ih =>
    cases xs with
    | nil => simp
    | cons y ys =>
      rw [intercalate_cons_cons, append_assoc, singleton_append, infix_append_cons_iff ha, ih]
      simp

theorem refers_lines_iff {m : String} (hm : Quotable m) (xs : List String) :
    Refers (Text.lines xs) m ↔ ∃ x ∈ xs, Refers x m := by
  have hline : '\n' ∉ ("ref('" ++ m ++ "')").toList := by
    simp only [String.toList_append, mem_append, not_or]
    exact ⟨⟨by decide, fun h => (hm _ h).2 rfl⟩, by decide⟩
  have hfilled : ("ref('" ++ m ++ "')").toList ≠ [] := by simp
  unfold Refers Text.lines
  rw [String.toList_intercalate, show "\n".toList = ['\n'] from rfl,
    infix_intercalate_iff hline hfilled]
  simp

/-! ## References -/

/-- A text is cut at its first quote in one way only. -/
theorem append_quote_inj {q : Char} {x x' y y' : List Char} (hx : q ∉ x) (hx' : q ∉ x')
    (h : x ++ q :: y = x' ++ q :: y') : x = x' ∧ y = y' := by
  induction x generalizing x' with
  | nil =>
    cases x' with
    | nil => exact ⟨rfl, (cons.inj h).2⟩
    | cons c x' => exact absurd ((cons.inj h).1 ▸ mem_cons_self ..) hx'
  | cons c x ih =>
    cases x' with
    | nil => exact absurd ((cons.inj h).1 ▸ mem_cons_self ..) hx
    | cons d x' =>
      obtain ⟨rfl, hrest⟩ := cons.inj h
      have hinj := ih (fun hq => hx (.tail _ hq))
        (fun hq => hx' (.tail _ hq)) hrest
      exact ⟨congrArg (c :: ·) hinj.1, hinj.2⟩

/-- The line that refers to a model refers to no other. -/
theorem refers_referenceLine_iff {m r : String} (hm : Quotable m) (hr : Quotable r) :
    Refers (referenceLine r) m ↔ r = m := by
  have hm' : '\x27' ∉ m.toList := fun h => (hm _ h).1 rfl
  have hr' : '\x27' ∉ r.toList := fun h => (hr _ h).1 rfl
  have hline : (referenceLine r).toList
      = "    from \x7b\x7b ref(".toList
        ++ '\x27' :: (r.toList ++ '\x27' :: ") \x7d\x7d".toList) := by
    simp [referenceLine, Catalog.jinja]
  unfold Refers
  rw [hline]
  constructor
  · rintro ⟨s, t, h⟩
    have h : (s ++ "ref(".toList) ++ '\x27' :: (m.toList ++ '\x27' :: ')' :: t)
        = "    from \x7b\x7b ref(".toList
          ++ '\x27' :: (r.toList ++ '\x27' :: ") \x7d\x7d".toList) := by
      rw [← h]
      simp
    -- Both sides have two quotes, so that none is left for what stands before.
    have hs : '\x27' ∉ s := by
      have hcount : s.count '\x27' + (t.count '\x27' + 1 + 1) = 2 := by
        simpa [count_eq_zero.mpr hm', count_eq_zero.mpr hr']
          using congrArg (count '\x27') h
      exact count_eq_zero.mp (by omega)
    have hfront : '\x27' ∉ s ++ "ref(".toList := by
      rw [mem_append, not_or]
      exact ⟨hs, by decide⟩
    obtain ⟨-, hback⟩ := append_quote_inj hfront (by decide) h
    exact String.toList_injective (append_quote_inj hm' hr' hback).1.symm
  · rintro rfl
    refine ⟨"    from \x7b\x7b ".toList, " \x7d\x7d".toList, ?_⟩
    simp

/-- A file refers to the models that it reads and to those that its remarks refer to. -/
theorem ModelFile.refers_text_iff {f : ModelFile} {m : String}
    (hreads : ∀ r ∈ f.reads, Quotable r.model) (hm : Quotable m) :
    Refers f.text m ↔ (∃ r ∈ f.reads, r.model = m) ∨ ∃ line ∈ f.remarks, Refers line m := by
  have hlines : ∀ line, line ∈ f.head ++ f.reads.flatMap Reading.block ++ f.body
      ↔ (∃ r ∈ f.reads, line = referenceLine r.model) ∨ line ∈ f.remarks := by
    intro line
    simp only [ModelFile.remarks, Reading.block, mem_append, mem_flatMap, mem_cons]
    grind
  rw [ModelFile.text, refers_lines_iff hm]
  constructor
  · rintro ⟨line, hline, hrefers⟩
    rcases (hlines line).mp hline with ⟨r, hr, rfl⟩ | hremark
    · exact .inl ⟨r, hr, (refers_referenceLine_iff hm (hreads r hr)).mp hrefers⟩
    · exact .inr ⟨line, hremark, hrefers⟩
  · rintro (⟨r, hr, hmodel⟩ | ⟨line, hline, hrefers⟩)
    · exact ⟨_, (hlines _).mpr (.inl ⟨r, hr, rfl⟩),
        (refers_referenceLine_iff hm (hreads r hr)).mpr hmodel⟩
    · exact ⟨line, (hlines line).mpr (.inr hline), hrefers⟩

end Replatform.Project

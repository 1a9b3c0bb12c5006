import Replatform.Text.Basic
/-!
# Pieces between characters

A text is cut at the characters of a kind. Where texts were joined with such a character, the pieces
are those of each text (`splitWhen_intercalate`).
-/

namespace Replatform.Text

open List

variable {p : Char → Bool} {c : Char} {s : List Char}

theorem splitWhen_ne_nil (p : Char → Bool) (s : List Char) : splitWhen p s ≠ [] := by
  cases s with
  | nil => exact cons_ne_nil _ _
  | cons c s =>
    rw [splitWhen]
    split
    next => exact cons_ne_nil _ _
    next => split <;> exact cons_ne_nil _ _

theorem splitWhen_append_cons (hc : p c) (x y : List Char) :
    splitWhen p (x ++ c :: y) = splitWhen p x ++ splitWhen p y := by
  induction x with
  | nil =>
    rw [nil_append, splitWhen.eq_2, if_pos hc]
    rfl
  | cons d x ih =>
    rw [cons_append, splitWhen, splitWhen, ih]
    split
    next => rfl
    next =>
      obtain ⟨piece, pieces, hpieces⟩ := exists_cons_of_ne_nil (splitWhen_ne_nil p x)
      rw [hpieces]
      rfl

/-- What stands in front of a text and has no place to cut goes to its first piece. -/
theorem splitWhen_append_of_all {x piece : List Char} {pieces : List (List Char)}
    (h : ∀ c ∈ x, p c = false) (hs : splitWhen p s = piece :: pieces) :
    splitWhen p (x ++ s) = (x ++ piece) :: pieces := by
  induction x with
  | nil => exact hs
  | cons c x ih =>
    rw [cons_append, splitWhen, h c (.head _), ih (forall_mem_cons.mp h).2]
    rfl

theorem splitWhen_of_all (h : ∀ c ∈ s, p c = false) : splitWhen p s = [s] := by
  simpa using splitWhen_append_of_all (s := []) h rfl

theorem splitWhen_of_notMem (h : c ∉ s) : splitWhen (· == c) s = [s] :=
  splitWhen_of_all fun _ hd => beq_eq_false_iff_ne.mpr fun he => h (he ▸ hd)

theorem splitWhen_append (hs : c ∉ s) (t : List Char) :
    splitWhen (· == c) (s ++ c :: t) = s :: splitWhen (· == c) t := by
  rw [splitWhen_append_cons (p := (· == c)) (beq_self_eq_true c), splitWhen_of_notMem hs,
    singleton_append]

theorem splitWhen_intercalate (hc : p c) {xs : List (List Char)} (hne : xs ≠ []) :
    splitWhen p ([c].intercalate xs) = xs.flatMap (splitWhen p) := by
  induction xs with
  | nil => exact absurd rfl hne
  | cons x xs ih =>
    cases xs with
    | nil => simp
    | cons y ys =>
      rw [intercalate_cons_cons, append_assoc, singleton_append, splitWhen_append_cons hc,
        ih (cons_ne_nil _ _), flatMap_cons (x := x)]

/-- A piece has characters of the text, and none that the text is cut at. -/
theorem mem_of_mem_splitWhen {piece : List Char} (h : piece ∈ splitWhen p s) (hc : c ∈ piece) :
    c ∈ s ∧ p c = false := by
  induction s generalizing piece with
  | nil =>
    rw [splitWhen, mem_singleton] at h
    exact absurd (h ▸ hc) not_mem_nil
  | cons d s ih =>
    rw [splitWhen] at h
    split at h
    next =>
      rcases mem_cons.mp h with rfl | h
      · exact absurd hc not_mem_nil
      · exact (ih h hc).imp_left (mem_cons_of_mem _)
    next hd =>
      obtain ⟨first, pieces, hpieces⟩ := exists_cons_of_ne_nil (splitWhen_ne_nil p s)
      rw [hpieces] at h ih
      rcases mem_cons.mp h with rfl | h
      · rcases mem_cons.mp hc with rfl | hc
        · exact ⟨.head _, Bool.eq_false_iff.mpr hd⟩
        · exact (ih (.head _) hc).imp_left (mem_cons_of_mem _)
      · exact (ih (.tail _ h) hc).imp_left (mem_cons_of_mem _)

end Replatform.Text

import Replatform.Proofs.Formula.Parts
/-!
# Occurrences of a pattern, and the pieces between them

A pattern is found where it occurs first. A text is cut there, and what follows is cut in turn, so
the first two pieces of a text are known from one occurrence.

Blanks at the ends of a text are all that is lost when it is stripped.
-/

namespace Replatform.Text

open List

variable {pat s : List Char}

/-! ## Occurrences -/

/-- The place that is found is an occurrence, and there is none before it. -/
theorem find?_eq_some {n : Nat} (h : find? pat s = some n) :
    pat <+: s.drop n ∧ ∀ m < n, ¬ pat <+: s.drop m := by
  induction s generalizing n with
  | nil =>
    rw [find?] at h
    split at h
    next hpat =>
      cases h
      exact ⟨hpat ▸ nil_prefix, fun m hm => absurd hm (Nat.not_lt_zero m)⟩
    next => cases h
  | cons c s ih =>
    rw [find?] at h
    split at h
    next hstart =>
      cases h
      exact ⟨Formula.startsWith_iff.mp hstart, fun m hm => absurd hm (Nat.not_lt_zero m)⟩
    next hstart =>
      obtain ⟨k, hk, rfl⟩ := Option.map_eq_some_iff.mp h
      obtain ⟨hfound, hbefore⟩ := ih hk
      refine ⟨hfound, fun m hm => ?_⟩
      cases m with
      | zero => exact fun hpat => hstart (Formula.startsWith_iff.mpr hpat)
      | succ m => exact hbefore m (Nat.lt_of_succ_lt_succ hm)

/-- Where nothing is found, there is no occurrence. -/
theorem not_prefix_of_find?_eq_none (h : find? pat s = none) (m : Nat) : ¬ pat <+: s.drop m := by
  induction s generalizing m with
  | nil =>
    rw [find?] at h
    split at h
    next => cases h
    next hpat =>
      rw [drop_nil]
      exact fun hstarts => hpat (prefix_nil.mp hstarts)
  | cons c s ih =>
    rw [find?] at h
    split at h
    next => cases h
    next hstart =>
      cases m with
      | zero => exact fun hpat => hstart (Formula.startsWith_iff.mpr hpat)
      | succ m => exact ih (Option.map_eq_none_iff.mp h) m

/-- An occurrence is found, or one before it. -/
theorem exists_find? {m : Nat} (h : pat <+: s.drop m) : ∃ n ≤ m, find? pat s = some n := by
  cases hfind : find? pat s with
  | none => exact absurd h (not_prefix_of_find?_eq_none hfind m)
  | some n =>
    refine ⟨n, Nat.le_of_not_lt fun hlt => ?_, rfl⟩
    exact (find?_eq_some hfind).2 m hlt h

theorem has_iff : has pat s ↔ pat <:+: s := by
  unfold has
  constructor
  · intro h
    obtain ⟨n, hn⟩ := Option.isSome_iff_exists.mp h
    exact (find?_eq_some hn).1.isInfix.trans (drop_suffix n s).isInfix
  · rintro ⟨front, back, rfl⟩
    have hfront : pat <+: (front ++ pat ++ back).drop front.length := by
      rw [append_assoc, drop_left]
      exact prefix_append pat back
    obtain ⟨n, -, hn⟩ := exists_find? hfront
    rw [hn, Option.isSome_some]

theorem find?_eq_none_iff : find? pat s = none ↔ ¬ pat <:+: s := by
  rw [← has_iff, has, Option.not_isSome_iff_eq_none]

/-! ## Pieces -/

theorem splitGo_skip (sep : List Char) (k : Nat) (s : List Char) :
    splitGo sep k s = splitGo sep 0 (s.drop k) := by
  induction s generalizing k with
  | nil => rw [drop_nil, splitGo, splitGo]
  | cons c s ih =>
    cases k with
    | zero => rfl
    | succ k => rw [splitGo, ih, drop_succ_cons]

theorem splitOn_of_find?_eq_none (h : find? pat s = none) : splitOn pat s = [s] := by
  unfold splitOn
  split
  next => rfl
  next hpat =>
    induction s with
    | nil => rfl
    | cons c s ih =>
      rw [find?] at h
      split at h
      next => cases h
      next hstart => rw [splitGo, if_neg hstart, ih (Option.map_eq_none_iff.mp h)]

/-- The first piece ends where the separator is found, and the others are those of what follows. -/
theorem splitOn_of_find? (hpat : pat ≠ []) {n : Nat} (h : find? pat s = some n) :
    splitOn pat s = s.take n :: splitOn pat (s.drop (n + pat.length)) := by
  unfold splitOn
  rw [if_neg hpat, if_neg hpat]
  induction s generalizing n with
  | nil =>
    rw [find?, if_neg hpat] at h
    cases h
  | cons c s ih =>
    rw [find?] at h
    split at h
    next hstart =>
      cases h
      obtain ⟨k, hk⟩ := Nat.exists_eq_succ_of_ne_zero (mt length_eq_zero_iff.mp hpat)
      rw [splitGo, if_pos hstart, splitGo_skip, hk, Nat.zero_add, Nat.succ_eq_add_one,
        drop_succ_cons, Nat.add_sub_cancel, take_zero]
    next hstart =>
      obtain ⟨k, hk, rfl⟩ := Option.map_eq_some_iff.mp h
      rw [splitGo, if_neg hstart, ih hk, Nat.add_right_comm, drop_succ_cons, take_succ_cons]

theorem splitOn_ne_nil (pat s : List Char) : splitOn pat s ≠ [] := by
  cases hfind : find? pat s with
  | none =>
    rw [splitOn_of_find?_eq_none hfind]
    exact cons_ne_nil _ _
  | some n =>
    by_cases hpat : pat = []
    · rw [splitOn, if_pos hpat]
      exact cons_ne_nil _ _
    · rw [splitOn_of_find? hpat hfind]
      exact cons_ne_nil _ _

/-! ## Blanks at the ends -/

theorem length_strip_le (s : List Char) : (strip s).length ≤ s.length := by
  obtain ⟨front, back, hs, -⟩ := Formula.exists_strip s
  have hlength := congrArg length hs
  simp only [length_append] at hlength
  omega

theorem getLast?_strip {c : Char} (h : (strip s).getLast? = some c) : isBlank c = false := by
  rw [strip, trimWhile, dropEndWhile, getLast?_reverse] at h
  have hfirst := head?_dropWhile_not isBlank (s.dropWhile isBlank).reverse
  rw [h] at hfirst
  exact hfirst

/-- What is more than blanks is not stripped from the front of a text. -/
theorem strip_append_ne {x y : List Char} {c : Char} (hc : c ∈ x) (hblank : isBlank c = false)
    (hy : y ≠ []) : strip (x ++ y) ≠ y := by
  intro h
  obtain ⟨front, back, hs, hfront, hback⟩ := Formula.exists_strip (x ++ y)
  rw [h] at hs
  rcases eq_nil_or_concat back with rfl | ⟨back, d, rfl⟩
  · rw [append_nil] at hs
    have hx := append_cancel_right hs
    exact Bool.false_ne_true (hblank.symm.trans (hfront c (hx ▸ hc)))
  · -- the text ends in a blank, and so does what is left of it
    have hlast := congrArg getLast? hs
    rw [getLast?_append_of_ne_nil _ hy, concat_eq_append, ← append_assoc, getLast?_concat] at hlast
    have hd : isBlank d := hback d (by simp)
    exact Bool.false_ne_true ((getLast?_strip (h.symm ▸ hlast)).symm.trans hd)

end Replatform.Text

import Replatform.Proofs.Pieces
import Replatform.Proofs.Splitting
/-!
# Words, and words in capitals

A blank cuts a text into two parts with words of their own (`words_append_blank`), and all about the
words of a text follows from that. Capitals may take more room than the letters that they stand for,
but no blank comes in with them, so the words of a text in capitals are its words in capitals.
-/

namespace Replatform.Text

open List

/-! ## Words -/

/-- A run of characters that are no blanks. -/
structure IsRun (w : List Char) : Prop where
  ne_nil : w ≠ []
  noBlank : ∀ c ∈ w, isBlank c = false

theorem isRun_iff {w : List Char} : IsRun w ↔ w ≠ [] ∧ w.all (!isBlank ·) := by
  simp only [all_eq_true, Bool.not_eq_true']
  exact ⟨fun h => ⟨h.ne_nil, h.noBlank⟩, fun h => ⟨h.1, h.2⟩⟩

instance (w : List Char) : Decidable (IsRun w) := decidable_of_iff' _ isRun_iff

theorem words_append_blank {c : Char} (hc : isBlank c) (x y : List Char) :
    words (x ++ c :: y) = words x ++ words y := by
  rw [words, splitWhen_append_cons hc, filter_append]
  rfl

theorem words_cons_blank {c : Char} (hc : isBlank c) (s : List Char) :
    words (c :: s) = words s :=
  words_append_blank hc [] s

theorem IsRun.words {w : List Char} (h : IsRun w) : words w = [w] := by
  rw [Text.words, splitWhen_of_all h.noBlank]
  simp [h.ne_nil]

theorem words_of_blanks {s : List Char} (h : ∀ c ∈ s, isBlank c) : words s = [] := by
  induction s with
  | nil => rfl
  | cons c s ih =>
    rw [words_cons_blank (h c (.head _))]
    exact ih (forall_mem_cons.mp h).2

theorem words_blanks_append {x : List Char} (hx : ∀ c ∈ x, isBlank c) (s : List Char) :
    words (x ++ s) = words s := by
  induction x with
  | nil => rfl
  | cons c x ih =>
    rw [cons_append, words_cons_blank (hx c (.head _))]
    exact ih (forall_mem_cons.mp hx).2

theorem words_append_blanks {y : List Char} (hy : ∀ c ∈ y, isBlank c) (s : List Char) :
    words (s ++ y) = words s := by
  cases y with
  | nil => rw [append_nil]
  | cons c y =>
    rw [words_append_blank (hy c (.head _)), words_of_blanks (forall_mem_cons.mp hy).2, append_nil]

theorem words_strip (s : List Char) : words (strip s) = words s := by
  obtain ⟨front, back, hs, hfront, hback⟩ := Formula.exists_strip s
  have hwords := congrArg words hs
  rwa [words_append_blanks hback, words_blanks_append hfront, eq_comm] at hwords

/-! ## Words between spaces -/

/-- The words with spaces between them. -/
abbrev spaced (ws : List (List Char)) : List Char := [' '].intercalate ws

theorem spaced_cons_cons (u v : List Char) (ws : List (List Char)) :
    spaced (u :: v :: ws) = u ++ ' ' :: spaced (v :: ws) := by
  rw [spaced, intercalate_cons_cons, append_assoc]
  rfl

theorem spaced_singleton (u : List Char) : spaced [u] = u := intercalate_singleton

theorem spaced_append {us vs : List (List Char)} (hus : us ≠ []) (hvs : vs ≠ []) :
    spaced (us ++ vs) = spaced us ++ ' ' :: spaced vs := by
  obtain ⟨v, vs, rfl⟩ := exists_cons_of_ne_nil hvs
  induction us with
  | nil => exact absurd rfl hus
  | cons u us ih =>
    cases us with
    | nil => rw [singleton_append, spaced_cons_cons, spaced_singleton]
    | cons u' us =>
      rw [cons_append, cons_append, spaced_cons_cons, spaced_cons_cons,
        ← cons_append, ih (cons_ne_nil _ _), append_assoc, cons_append]

/-- Fewer words from the front are a shorter text from the front. -/
theorem spaced_mono {us vs : List (List Char)} (h : us <+: vs) : spaced us <+: spaced vs := by
  obtain ⟨ws, rfl⟩ := h
  rcases eq_or_ne us [] with rfl | hus
  · exact nil_prefix
  rcases eq_or_ne ws [] with rfl | hws
  · rw [append_nil]
  rw [spaced_append hus hws]
  exact prefix_append ..

theorem words_spaced {ws : List (List Char)} (h : ∀ w ∈ ws, IsRun w) : words (spaced ws) = ws := by
  induction ws with
  | nil => rfl
  | cons u ws ih =>
    have hu := (h u (.head _)).words
    cases ws with
    | nil => rwa [spaced_singleton]
    | cons v ws =>
      rw [spaced_cons_cons, words_append_blank (by decide), hu,
        ih (forall_mem_cons.mp h).2, singleton_append]

theorem head?_spaced {w : List Char} (hw : IsRun w) (ws : List (List Char)) :
    (spaced (w :: ws)).head?.any isBlank = false := by
  obtain ⟨c, w, rfl⟩ := exists_cons_of_ne_nil hw.ne_nil
  have hc := hw.noBlank c (.head _)
  cases ws with
  | nil => simpa using hc
  | cons x xs => simpa [spaced_cons_cons] using hc

/-! ## Capitals -/

theorem upper_append (x y : List Char) : upper (x ++ y) = upper x ++ upper y := flatMap_append

theorem upper_spaced (ws : List (List Char)) : upper (spaced ws) = spaced (ws.map upper) := by
  induction ws with
  | nil => rfl
  | cons u ws ih =>
    cases ws with
    | nil => rw [spaced_singleton, map_singleton, spaced_singleton]
    | cons v ws =>
      rw [spaced_cons_cons, upper_append, ← singleton_append, upper_append, ih]
      exact (spaced_cons_cons (upper u) (upper v) (ws.map upper)).symm

/-- No capital in the table of shifts is a blank. -/
theorem upperShifts_noBlank : (upperShifts.all fun r => blankRanges.all fun b =>
    r.2.2.2 + (r.2.1 - r.1) < b.1 || b.2 < r.2.2.2) := by
  decide +kernel

/-- No capital in the table of expansions is a blank, and every entry has capitals. -/
theorem upperExpansions_noBlank : (upperExpansions.all fun r =>
    r.2.all (fun n => !isBlank (Char.ofNat n)) && !r.2.isEmpty) := by
  decide +kernel

theorem isBlank_ofNat {n : Nat} (h : inRanges blankRanges n = false) :
    isBlank (Char.ofNat n) = false := by
  by_cases hn : n.isValidChar
  · rw [show Char.ofNat n = Char.ofNatAux n hn from dif_pos hn]
    exact h
  · rw [show Char.ofNat n = '\x00' from dif_neg hn]
    decide

theorem isBlank_of_mem_counterpart {n : Nat} (hn : inRanges blankRanges n = false) {d : Char}
    (hd : d ∈ counterpart upperShifts upperExpansions n) : isBlank d = false := by
  unfold counterpart at hd
  split at hd
  next m ns hentry =>
    obtain ⟨k, hk, rfl⟩ := mem_map.mp hd
    have hrow := all_eq_true.mp upperExpansions_noBlank _ (mem_of_find?_eq_some hentry)
    have hall := all_eq_true.mp (Bool.and_eq_true_iff.mp hrow).1 k hk
    exact Bool.not_eq_true' _ ▸ hall
  next =>
    split at hd
    next first last step target hentry =>
      have hfound := find?_some hentry
      have hstep : inStep first last step n := hfound
      have hrow := all_eq_true.mp upperShifts_noBlank _ (mem_of_find?_eq_some hentry)
      rw [mem_singleton.mp hd]
      refine isBlank_ofNat (Bool.eq_false_iff.mpr fun hblank => ?_)
      obtain ⟨b, hb, hin⟩ := any_eq_true.mp hblank
      have hapart := all_eq_true.mp hrow b hb
      simp only [inStep, Bool.and_eq_true, Bool.or_eq_true, decide_eq_true_eq] at hstep hin hapart
      omega
    next =>
      rw [mem_singleton.mp hd]
      exact isBlank_ofNat hn

/-- No blank comes in with the capital form of a character. -/
theorem isBlank_of_mem_upperChar {c d : Char} (hc : isBlank c = false) (hd : d ∈ upperChar c) :
    isBlank d = false := by
  unfold upperChar at hd
  split at hd
  next hascii =>
    have hall : ∀ n < 128, isBlank (Char.ofNat n) = false →
        isBlank (Char.ofNat n).toUpper = false := by decide +kernel
    have hupper := hall c.toNat hascii
    rw [Char.ofNat_toNat] at hupper
    rw [mem_singleton.mp hd]
    exact hupper hc
  next => exact isBlank_of_mem_counterpart hc hd

theorem upperChar_ne_nil (c : Char) : upperChar c ≠ [] := by
  unfold upperChar counterpart
  split
  next => exact cons_ne_nil _ _
  next =>
    split
    next m ns hentry =>
      have hrow := all_eq_true.mp upperExpansions_noBlank _ (mem_of_find?_eq_some hentry)
      have hfilled := (Bool.and_eq_true_iff.mp hrow).2
      simpa using hfilled
    next => split <;> exact cons_ne_nil _ _

/-- A text does not get shorter in capitals. -/
theorem length_le_upper (s : List Char) : s.length ≤ (upper s).length := by
  induction s with
  | nil => exact Nat.le_refl 0
  | cons c s ih =>
    have hc := length_pos_iff.mpr (upperChar_ne_nil c)
    rw [upper, flatMap_cons, length_append, length_cons]
    exact Nat.add_comm 1 _ ▸ Nat.add_le_add hc ih

theorem IsRun.upper {w : List Char} (h : IsRun w) : IsRun (upper w) where
  ne_nil hnil := by
    have hlength := length_le_upper w
    rw [hnil] at hlength
    exact h.ne_nil (length_eq_zero_iff.mp (Nat.le_zero.mp hlength))
  noBlank d hd := by
    obtain ⟨c, hc, hd⟩ := mem_flatMap.mp hd
    exact isBlank_of_mem_upperChar (h.noBlank c hc) hd

end Replatform.Text

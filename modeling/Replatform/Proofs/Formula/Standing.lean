import Replatform.Proofs.Formula.Survival
/-!
# Where a call stands

A call that can be converted is a word, blanks, and two parentheses that belong together; before it
stands no character of a word, and the word names a function of the table and does not count as SQL.
This is all that makes it one (`mem_openCalls_iff`), and its parts tell what conversion reads and
writes (`Call.Stands`).

The call to convert next is the first in the order of the table that waits for no other, and if all
wait, the one furthest to the right (`nextCall?_eq_some`).
-/

namespace Replatform.Formula

open List
open Text (isWord isBlank atWordStart allCapital afterName?)

/-! ## Sites -/

theorem isWord_of_isBlank {c : Char} (h : isBlank c) : isWord c = false := by
  by_contra hw
  rw [Bool.not_eq_false] at hw
  rw [isBlank_of_isWord hw] at h
  cases h

/-- A word ends where blanks or a parenthesis begin. -/
theorem span_word {word gap : List Char} (hword : ∀ c ∈ word, isWord c)
    (hgap : ∀ c ∈ gap, isBlank c) (rest : List Char) :
    (word ++ (gap ++ '(' :: rest)).takeWhile isWord = word
      ∧ (word ++ (gap ++ '(' :: rest)).dropWhile isWord = gap ++ '(' :: rest := by
  have hhead : ∃ c tail, gap ++ '(' :: rest = c :: tail ∧ ¬isWord c := by
    cases gap with
    | nil => exact ⟨'(', rest, rfl, by decide⟩
    | cons c gap =>
      refine ⟨c, gap ++ '(' :: rest, rfl, ?_⟩
      rw [isWord_of_isBlank (hgap c (.head _))]
      decide
  obtain ⟨c, tail, htail, hc⟩ := hhead
  rw [takeWhile_append_of_pos hword, dropWhile_append_of_pos hword, htail,
    takeWhile_cons_of_neg hc, dropWhile_cons_of_neg hc, append_nil]
  exact ⟨rfl, rfl⟩

variable {s : List Char}

/-- A word, blanks and a parenthesis make a site, and nothing else does. -/
theorem site?_eq_some_iff {pos : Nat} {site : Site} :
    site? pos s = some site ↔ ∃ gap rest, s = site.word ++ (gap ++ '(' :: rest)
      ∧ site.start = pos ∧ site.opening = pos + site.word.length + gap.length
      ∧ (∀ c ∈ site.word, isWord c) ∧ ∀ c ∈ gap, isBlank c := by
  unfold site?
  constructor
  · intro h
    dsimp only at h
    split at h
    next hopen =>
      cases h
      refine ⟨(s.dropWhile isWord).takeWhile isBlank, ((s.dropWhile isWord).dropWhile isBlank).tail,
        ?_, rfl, rfl, fun c hc => mem_takeWhile_imp hc, fun c hc => mem_takeWhile_imp hc⟩
      rw [cons_head?_tail hopen, takeWhile_append_dropWhile, takeWhile_append_dropWhile]
    next => cases h
  · rintro ⟨gap, rest, rfl, hstart, hopening, hword, hgap⟩
    obtain ⟨htake, hdrop⟩ := span_word hword hgap rest
    dsimp only
    rw [htake, hdrop, takeWhile_append_of_pos hgap, dropWhile_append_of_pos hgap,
      takeWhile_cons_of_neg (by decide), dropWhile_cons_of_neg (by decide),
      append_nil, head?_cons, if_pos rfl]
    obtain ⟨start, word, opening⟩ := site
    dsimp only at hstart hopening ⊢
    rw [hstart, hopening]

/-- The sites of a text begin where a word begins. -/
theorem mem_sites_iff {site : Site} : ∀ {before : Option Char} {pos : Nat},
    site ∈ sites before pos s ↔ ∃ front c rest, s = front ++ c :: rest ∧ isWord c
      ∧ atWordStart (front.getLast?.or before)
      ∧ site? (pos + front.length) (c :: rest) = some site := by
  induction s with
  | nil =>
    intro before pos
    refine ⟨fun h => absurd h not_mem_nil, ?_⟩
    rintro ⟨front, c, rest, h, -⟩
    exact absurd h.symm (append_ne_nil_of_right_ne_nil _ (cons_ne_nil _ _))
  | cons d s ih =>
    intro before pos
    have hlater : site ∈ sites (some d) (pos + 1) s ↔ ∃ front c rest, s = front ++ c :: rest
        ∧ isWord c ∧ atWordStart ((d :: front).getLast?.or before)
        ∧ site? (pos + (d :: front).length) (c :: rest) = some site := by
      rw [ih]
      refine exists_congr fun front => exists_congr fun c => exists_congr fun rest => ?_
      rw [length_cons, show pos + 1 + front.length = pos + (front.length + 1) by omega]
      cases front with
      | nil => rfl
      | cons e front =>
        rw [getLast?_cons_of_ne_nil (cons_ne_nil _ _)]
        obtain ⟨x, hx⟩ := Option.isSome_iff_exists.mp
          (getLast?_isSome.mpr (cons_ne_nil e front))
        rw [hx]
        rfl
    have hmem : site ∈ sites before pos (d :: s)
        ↔ (isWord d ∧ atWordStart before ∧ site? pos (d :: s) = some site)
          ∨ site ∈ sites (some d) (pos + 1) s := by
      rw [sites]
      split
      next h =>
        rw [Bool.and_eq_true] at h
        rw [mem_append, Option.mem_toList]
        exact or_congr_left ⟨fun hs => ⟨h.1, h.2, hs⟩, fun hs => hs.2.2⟩
      next h =>
        rw [Bool.and_eq_true] at h
        exact ⟨.inr, fun hs => hs.resolve_left fun hs => h ⟨hs.1, hs.2.1⟩⟩
    rw [hmem, hlater]
    constructor
    · rintro (⟨hd, hstart, hsite⟩ | ⟨front, c, rest, rfl, hc, hstart, hsite⟩)
      · exact ⟨[], d, s, rfl, hd, hstart, hsite⟩
      · exact ⟨d :: front, c, rest, rfl, hc, hstart, hsite⟩
    · rintro ⟨front, c, rest, hsplit, hc, hstart, hsite⟩
      cases front with
      | nil =>
        cases hsplit
        exact .inl ⟨hc, hstart, hsite⟩
      | cons e front =>
        cases hsplit
        exact .inr ⟨front, c, rest, rfl, hc, hstart, hsite⟩

/-! ## Calls -/

/-- The call stands in the text with a text before it, its word, blanks, the text between its
parentheses, and a text behind it. -/
structure Call.Stands (c : Call) (s front word gap inside back : List Char) : Prop where
  text : s = front ++ (word ++ (gap ++ '(' :: (inside ++ ')' :: back)))
  starts : atWordStart front.getLast?
  letters : ∀ d ∈ word, isWord d
  blanks : ∀ d ∈ gap, isBlank d
  level : through (0, none) inside = some (0, none)
  start_eq : c.start = front.length
  opening_eq : c.opening = front.length + word.length + gap.length
  closing_eq : c.closing = front.length + word.length + gap.length + 1 + inside.length

/-- What stands in a text from the name of a call to its closing parenthesis. -/
def Call.text (c : Call) (s : List Char) : List Char :=
  (s.drop c.start).take (c.closing + 1 - c.start)

/-- The word names the function, and the call does not count as SQL. -/
structure Function.Named (f : Function) (word : List Char) : Prop where
  listed : f ∈ functions
  named : afterName? f.name.toList word = some []
  spelled : allCapital word → word = f.name.toList

namespace Call.Stands

variable {c : Call} {s front word gap inside back : List Char}

variable (h : c.Stands s front word gap inside back)
include h

theorem drop_start :
    s.drop c.start = word ++ (gap ++ '(' :: (inside ++ ')' :: back)) := by
  rw [h.start_eq, h.text, drop_left]

theorem drop_opening :
    s.drop (c.opening + 1) = inside ++ ')' :: back := by
  have hsplit : s = (front ++ word ++ gap ++ ['(']) ++ (inside ++ ')' :: back) := by
    rw [h.text]
    simp
  have hlength : c.opening + 1 = (front ++ word ++ gap ++ ['(']).length := by
    rw [h.opening_eq]
    simp
    omega
  rw [hlength, hsplit, drop_left]

theorem drop_closing :
    s.drop (c.closing + 1) = back := by
  have hsplit : s = (front ++ word ++ gap ++ '(' :: (inside ++ [')'])) ++ back := by
    rw [h.text]
    simp
  have hlength : c.closing + 1 = (front ++ word ++ gap ++ '(' :: (inside ++ [')'])).length := by
    rw [h.closing_eq]
    simp
    omega
  rw [hlength, hsplit, drop_left]

theorem inside_eq : c.inside s = inside := by
  rw [Call.inside, h.drop_opening, h.opening_eq, h.closing_eq, Nat.add_sub_cancel_left, take_left]

theorem replace_eq (sql : List Char) :
    c.replace sql s = front ++ (sql ++ back) := by
  rw [Call.replace, h.drop_closing, h.start_eq, h.text, take_left, append_assoc]

theorem name_eq (hne : word ≠ []) :
    c.name s = word := by
  have hlength : c.opening - c.start = (word ++ gap).length := by
    rw [h.opening_eq, h.start_eq, length_append]
    omega
  rw [Call.name, h.drop_start, hlength, ← append_assoc, take_left]
  exact strip_word_append h.letters h.blanks hne

theorem text_eq :
    c.text s = word ++ (gap ++ '(' :: (inside ++ [')'])) := by
  have hsplit : word ++ (gap ++ '(' :: (inside ++ ')' :: back))
      = (word ++ (gap ++ '(' :: (inside ++ [')']))) ++ back := by simp
  have hlength : c.closing + 1 - c.start = (word ++ (gap ++ '(' :: (inside ++ [')']))).length := by
    rw [h.closing_eq, h.start_eq]
    simp
    omega
  rw [Call.text, h.drop_start, hlength, hsplit, take_left]

theorem matching?_eq :
    matching? s c.opening = some c.closing := by
  have hclose : closing? 0 none (inside ++ ')' :: back) = some inside.length := by
    rw [closing?_append inside (')' :: back) h.level]
    exact congrArg some (Nat.zero_add _)
  rw [matching?, h.drop_opening, hclose, Option.map_some, h.opening_eq, h.closing_eq,
    Nat.add_comm inside.length]

end Call.Stands

theorem ne_nil_of_afterName? {f : Function} (hf : f ∈ functions) {word : List Char}
    (h : afterName? f.name.toList word = some []) : word ≠ [] := by
  rintro rfl
  obtain ⟨c, cs, hname⟩ := exists_cons_of_ne_nil (name_of_mem hf).1
  rw [hname] at h
  cases h

/-- The calls that can be converted are those that stand in the text and do not count as SQL. -/
theorem mem_openCalls_iff {c : Call} :
    c ∈ openCalls s ↔ ∃ front word gap inside back, c.Stands s front word gap inside back
      ∧ c.function.Named word := by
  rw [mem_openCalls]
  constructor
  · rintro ⟨hf, site, hsite, hfor, hstart, hopening, hclosing, hsql⟩
    obtain ⟨front, d, rest, hsplit, -, hword, hhere⟩ := mem_sites_iff.mp hsite
    obtain ⟨gap, behind, hrest, hbegin, hopen, hletters, hblanks⟩ := site?_eq_some_iff.mp hhere
    rw [Option.or_none] at hword
    rw [Nat.zero_add] at hbegin hopen
    have htext : s = (front ++ site.word ++ gap ++ ['(']) ++ behind := by
      rw [hsplit, hrest]
      simp
    have hlength : site.opening + 1 = (front ++ site.word ++ gap ++ ['(']).length := by
      rw [hopen]
      simp
      omega
    rw [matching?, htext, hlength, drop_left] at hclosing
    obtain ⟨i, hi, hclose⟩ := Option.map_eq_some_iff.mp hclosing
    obtain ⟨inside, back, rfl, rfl, hlevel⟩ := split_of_closing? behind (p := (0, none)) hi
    have hstands : c.Stands s front site.word gap inside back := by
      refine ⟨?_, hword, hletters, hblanks, hlevel, hstart.trans hbegin, hopening.trans hopen, ?_⟩
      · rw [htext]
        simp
      · rw [← hclose, ← hlength, hopen]
        omega
    have hnamed : afterName? c.function.name.toList site.word = some [] := beq_iff_eq.mp hfor
    refine ⟨front, site.word, gap, inside, back, hstands, hf, hnamed, fun hcapital => ?_⟩
    rw [Call.isSql, hstands.name_eq (ne_nil_of_afterName? hf hnamed), hcapital, Bool.true_and]
      at hsql
    simpa using hsql
  · rintro ⟨front, word, gap, inside, back, hstands, hf, hnamed, hopen⟩
    have hne := ne_nil_of_afterName? hf hnamed
    obtain ⟨d, ds, hword⟩ := exists_cons_of_ne_nil hne
    refine ⟨hf, ⟨c.start, word, c.opening⟩, mem_sites_iff.mpr ⟨front, d,
      ds ++ (gap ++ '(' :: (inside ++ ')' :: back)), ?_, ?_, ?_, site?_eq_some_iff.mpr
      ⟨gap, inside ++ ')' :: back, ?_, ?_, ?_, hstands.letters, hstands.blanks⟩⟩,
      beq_iff_eq.mpr hnamed, rfl, rfl, hstands.matching?_eq, ?_⟩
    · rw [hstands.text, hword]
      rfl
    · exact hstands.letters d (hword ▸ mem_cons_self ..)
    · rw [Option.or_none]
      exact hstands.starts
    · show d :: _ = word ++ _
      rw [hword]
      rfl
    · exact hstands.start_eq.trans (Nat.zero_add _).symm
    · show c.opening = _
      rw [Nat.zero_add]
      exact hstands.opening_eq
    · rw [Call.isSql, hstands.name_eq hne]
      cases hcapital : allCapital word with
      | false => rfl
      | true =>
        rw [hopen hcapital]
        simp

/-! ## The next call -/

/-- The next call is the first that does not wait, or all wait and it is furthest to the right. -/
theorem nextCall?_eq_some {c : Call} (h : nextCall? s = some c) :
    (c.waits s = false ∧ ∃ before behind, openCalls s = before ++ c :: behind
        ∧ ∀ d ∈ before, d.waits s)
      ∨ (rightmost (openCalls s) = some c ∧ ∀ d ∈ openCalls s, d.waits s) := by
  unfold nextCall? at h
  dsimp only at h
  split at h
  next d hd =>
    cases h
    obtain ⟨hfree, before, behind, hsplit, hwait⟩ := find?_eq_some_iff_append.mp hd
    exact .inl ⟨by simpa using hfree, before, behind, hsplit, fun e he => by
      simpa using hwait e he⟩
  next hnone =>
    refine .inr ⟨h, fun d hd => ?_⟩
    simpa using find?_eq_none.mp hnone d hd

end Replatform.Formula

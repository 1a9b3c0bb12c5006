import Replatform.Formula.DateFormat
import Replatform.Proofs.Value
/-!
# Specifiers of date formats

Specifiers are replaced one kind after the other, so that what was written for one kind may be taken
for another kind later. `substitute` replaces all kinds at once. Both change nothing but the letters
behind percent signs (`reletter`), and changes of letters can be put together. They come to the same
but for the name of the weekday, which is taken for the number of the week
(`convertDateFormat_eq_iff`).
-/

namespace Replatform.Formula

open List
open Text (startsWith replaceAll replaceGo)

/-- Texts, with what is written for them. -/
abbrev Table := List (List Char × List Char)

/-- The text with the entries of a table replaced, of which the first `skip` characters belong to
one that is already replaced. -/
def substituteGo (table : Table) : Nat → List Char → List Char
  | _, [] => []
  | skip + 1, _ :: s => substituteGo table skip s
  | 0, c :: s =>
    match table.find? fun entry => startsWith entry.1 (c :: s) with
    | some entry => entry.2 ++ substituteGo table (entry.1.length - 1) s
    | none => c :: substituteGo table 0 s

/-- Every entry of the table, found from left to right, becomes what the table gives for it. -/
def substitute (table : Table) (s : List Char) : List Char := substituteGo table 0 s

/-- A replacement is a substitution with one entry. -/
theorem replaceGo_eq_substituteGo (pat new : List Char) (skip : Nat) (s : List Char) :
    replaceGo pat new skip s = substituteGo [(pat, new)] skip s := by
  fun_induction replaceGo pat new skip s with
  | case1 => rw [substituteGo]
  | case2 skip _ s ih => rw [substituteGo, ih]
  | case3 c s hstart ih => simp [substituteGo, hstart, ih]
  | case4 c s hstart ih => simp [substituteGo, hstart, ih]

/-! ## Letters -/

/-- The characters behind percent signs are changed; `marked` if one stands before the text. -/
def reletter (f : Char → Char) : Bool → List Char → List Char
  | _, [] => []
  | marked, c :: s => (if marked then f c else c) :: reletter f (c == '%') s

variable {letters : List (Char × Char)} {c : Char} (marked : Bool) (s : List Char)

theorem reletter_id : reletter id marked s = s := by
  induction s generalizing marked with
  | nil => rfl
  | cons c s ih => rw [reletter, ih, id_eq, ite_self]

/-- A change can be put behind one that keeps percent signs and makes none. -/
theorem reletter_reletter (f : Char → Char) {g : Char → Char} (hg : ∀ c, g c = '%' ↔ c = '%')
    (marked : Bool) (s : List Char) :
    reletter f marked (reletter g marked s) = reletter (f ∘ g) marked s := by
  induction s generalizing marked with
  | nil => rfl
  | cons c s ih =>
    have hmark : (g c == '%') = (c == '%') := by rw [Bool.eq_iff_iff, beq_iff_eq, beq_iff_eq, hg]
    cases marked with
    | false => exact congrArg (c :: ·) (ih _)
    | true =>
      show f (g c) :: reletter f (g c == '%') _ = f (g c) :: _
      rw [hmark, ih]

/-- The table that has a percent sign before each letter. -/
def specifiers (letters : List (Char × Char)) : Table :=
  letters.map fun l => (['%', l.1], ['%', l.2])

/-- What letters become: the first entry counts. -/
def given (letters : List (Char × Char)) (c : Char) : Char := (letters.lookup c).getD c

theorem find?_specifiers (letters : List (Char × Char)) (d : Char) (s : List Char) :
    (specifiers letters).find? (fun entry => startsWith entry.1 ('%' :: d :: s))
      = (letters.lookup d).map fun e => (['%', d], ['%', e]) := by
  induction letters with
  | nil => rfl
  | cons l letters ih =>
    by_cases hl : d = l.1
    · subst hl
      rw [lookup_cons_self]
      simp [specifiers, startsWith, Text.after?]
    · rw [lookup_cons_of_ne hl, ← ih]
      simp [specifiers, startsWith, Text.after?, Ne.symm hl]

theorem find?_specifiers_eq_none (letters : List (Char × Char)) {s : List Char}
    (h : c ≠ '%' ∨ s = []) :
    (specifiers letters).find? (fun entry => startsWith entry.1 (c :: s)) = none := by
  rw [find?_eq_none]
  intro entry hentry
  obtain ⟨l, -, rfl⟩ := mem_map.mp hentry
  rcases h with hc | rfl
  · simp [startsWith, Text.after?, Ne.symm hc]
  · by_cases hc : '%' = c <;> simp [startsWith, Text.after?, hc]

/-- A substitution changes letters, where no entry is of two percent signs. -/
theorem substitute_specifiers {letters : List (Char × Char)} (h : letters.lookup '%' = none)
    (s : List Char) : substitute (specifiers letters) s = reletter (given letters) false s := by
  have hkeep : ∀ {c s}, (c ≠ '%' ∨ s = []) → substitute (specifiers letters) (c :: s)
      = c :: substitute (specifiers letters) s := by
    intro c s hc
    rw [substitute, substituteGo, find?_specifiers_eq_none letters hc]
    rfl
  induction s with
  | nil => rfl
  | cons c s ih =>
    by_cases hc : c = '%'
    · subst hc
      cases s with
      | nil => rw [hkeep (.inr rfl)]; rfl
      | cons d s =>
        rw [substitute, substituteGo, find?_specifiers]
        cases hd : letters.lookup d with
        | none =>
          show '%' :: substitute _ _ = '%' :: given letters d :: _
          rw [ih, given, hd]
          rfl
        | some e =>
          -- what stands behind the entry is known from the text without the percent sign
          have hne : d ≠ '%' := fun heq => by rw [heq, h] at hd; cases hd
          rw [hkeep (.inl hne)] at ih
          show '%' :: e :: substitute _ s = '%' :: given letters d :: _
          rw [(cons.inj ih).2, given, hd]
          rfl
    · rw [hkeep (.inl hc), ih, reletter, beq_false_of_ne hc]
      rfl

/-- Two changes do the same to a text if they agree on the letters behind its percent signs. -/
theorem reletter_eq_iff (f g : Char → Char) (marked : Bool) (s : List Char) :
    reletter f marked s = reletter g marked s
      ↔ (marked → ∀ d ∈ s.head?, f d = g d) ∧ ∀ d, ['%', d] <:+: s → f d = g d := by
  induction s generalizing marked with
  | nil => simp [reletter]
  | cons c s ih =>
    have hpairs : ∀ d, ['%', d] <:+: c :: s ↔ (c = '%' ∧ s.head? = some d) ∨ ['%', d] <:+: s := by
      intro d
      rw [infix_cons_iff, cons_prefix_cons, eq_comm (a := '%')]
      cases s with
      | nil => simp
      | cons e s => simp [cons_prefix_cons, eq_comm (a := d)]
    simp only [reletter, cons.injEq, ih, hpairs, head?_cons, Option.mem_def, beq_iff_eq]
    cases marked <;> grind

/-! ## One kind after the other -/

/-- What letters become when the entries are applied one behind the other. -/
def chained (letters : List (Char × Char)) (c : Char) : Char :=
  letters.foldl (fun c l => given [l] c) c

theorem given_singleton (l : Char × Char) (c : Char) :
    given [l] c = if c = l.1 then l.2 else c := by
  by_cases hc : c = l.1
  · rw [given, hc, lookup_cons_self, if_pos rfl]
    rfl
  · rw [given, lookup_cons_of_ne hc, if_neg hc]
    rfl

theorem foldl_replaceAll {letters : List (Char × Char)}
    (h : ∀ l ∈ letters, l.1 ≠ '%' ∧ l.2 ≠ '%') (s : List Char) :
    (specifiers letters).foldl (fun s entry => replaceAll entry.1 entry.2 s) s
      = reletter (chained letters) false s := by
  induction letters generalizing s with
  | nil => exact (reletter_id false s).symm
  | cons l letters ih =>
    obtain ⟨⟨hold, hnew⟩, hrest⟩ := forall_mem_cons.mp h
    have hmarks : ∀ c, given [l] c = '%' ↔ c = '%' := by
      intro c
      rw [given_singleton]
      split
      next hc => exact iff_of_false hnew (hc ▸ hold)
      next => rfl
    have hnone : [l].lookup '%' = none := lookup_cons_of_ne (Ne.symm hold) _ _
    have hone : replaceAll ['%', l.1] ['%', l.2] s = reletter (given [l]) false s := by
      rw [replaceAll, if_neg (cons_ne_nil _ _), replaceGo_eq_substituteGo]
      exact substitute_specifiers hnone s
    show (specifiers letters).foldl _ (replaceAll ['%', l.1] ['%', l.2] s) = _
    rw [hone, ih hrest, reletter_reletter _ hmarks]
    rfl

theorem chained_of_notMem (h : c ∉ letters.map (·.1)) : chained letters c = c := by
  induction letters with
  | nil => rfl
  | cons l letters ih =>
    rw [map_cons, mem_cons, not_or] at h
    rw [chained, foldl_cons, given_singleton, if_neg h.1]
    exact ih h.2

theorem given_of_notMem (h : c ∉ letters.map (·.1)) : given letters c = c := by
  rw [given, Option.not_isSome_iff_eq_none.mp (mt isSome_lookup_iff.mp h)]
  rfl

/-! ## The table of specifiers -/

/-- The table of specifiers, as characters. -/
def dateTable : Table := dateSpecifiers.map fun entry => (entry.1.toList, entry.2.toList)

/-- The table in which the name of the weekday becomes the number of the week. -/
def mistakenTable : Table :=
  dateTable.map fun entry => if entry.1 = ['%', 'A'] then (entry.1, ['%', 'v']) else entry

def dateLetters : List (Char × Char) :=
  dateTable.map fun entry => (entry.1.getLastD ' ', entry.2.getLastD ' ')

def mistakenLetters : List (Char × Char) :=
  dateLetters.map fun l => if l.1 = 'A' then (l.1, 'v') else l

/-- One behind the other, the entries turn the name of the weekday into the number of the week, and
do what they say otherwise. -/
theorem chained_dateLetters (c : Char) : chained dateLetters c = given mistakenLetters c
    ∧ (given mistakenLetters c = given dateLetters c ↔ c ≠ 'A') := by
  by_cases hc : c ∈ dateLetters.map (·.1)
  · have hall : (dateLetters.map (·.1)).all (fun c =>
        decide (chained dateLetters c = given mistakenLetters c
          ∧ (given mistakenLetters c = given dateLetters c ↔ c ≠ 'A'))) := by
      decide +kernel
    exact of_decide_eq_true (all_eq_true.mp hall c hc)
  · have hkeys : mistakenLetters.map (·.1) = dateLetters.map (·.1) := by decide +kernel
    have hweekday : 'A' ∈ dateLetters.map (·.1) := by decide +kernel
    rw [chained_of_notMem hc, given_of_notMem hc, given_of_notMem (hkeys ▸ hc)]
    exact ⟨rfl, iff_of_true rfl fun heq => hc (heq ▸ hweekday)⟩

/-- The specifiers of a format are replaced all at once, each by what the table gives for it, but
for the name of the weekday, which becomes the number of the week. So a format is converted as the
table says if and only if it does not have the name of the weekday. -/
theorem convertDateFormat_eq_iff (format : String) :
    convertDateFormat format = String.ofList (substitute mistakenTable format.toList)
      ∧ (convertDateFormat format = String.ofList (substitute dateTable format.toList)
        ↔ ¬ ['%', 'A'] <:+: format.toList) := by
  have htable : dateTable = specifiers dateLetters := by decide +kernel
  have hmistaken : mistakenTable = specifiers mistakenLetters := by decide +kernel
  have hmarks : dateLetters.all (fun l => decide (l.1 ≠ '%' ∧ l.2 ≠ '%')) := by
    decide +kernel
  have hletters : chained dateLetters = given mistakenLetters :=
    funext fun c => (chained_dateLetters c).1
  have hconvert : convertDateFormat format
      = String.ofList (reletter (given mistakenLetters) false format.toList) := by
    have hfold := foldl_replaceAll (s := format.toList) fun l hl =>
      of_decide_eq_true (all_eq_true.mp hmarks l hl)
    rw [← htable, dateTable, foldl_map, hletters] at hfold
    exact congrArg String.ofList hfold
  rw [hconvert, htable, hmistaken, substitute_specifiers (by decide +kernel),
    substitute_specifiers (by decide +kernel)]
  refine ⟨rfl, ?_⟩
  rw [String.ofList_inj, reletter_eq_iff]
  simp only [Bool.false_eq_true, false_implies, true_and, (chained_dateLetters _).2]
  exact ⟨fun h hin => h 'A' hin rfl, fun h d hin heq => h (heq ▸ hin)⟩

end Replatform.Formula

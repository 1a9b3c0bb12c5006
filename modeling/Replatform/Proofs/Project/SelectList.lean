import Replatform.Proofs.Project.Query
/-!
# The columns of a plain query

A plain query selects names, some with an alias, from a table. Two things can go wrong. The list of
columns ends too early if an alias or a later name begins with `FROM`, and too late if letters have
capitals that are longer. What is read in the end are the last words between the commas, as far as
the list is taken to go (`queryColumns_selectFrom`).
-/

namespace Replatform.Project

open List
open Text (isWord isBlank words IsRun spaced)

/-! ## Names and their aliases -/

/-- A word of letters, digits and underscores. -/
structure Identifier where
  text : String
  ne_nil : text.toList ≠ []
  isWord : ∀ c ∈ text.toList, Text.isWord c

/-- A name in a list of columns, and its alias. -/
structure Selected where
  name : Identifier
  given : Option Identifier := none

namespace Selected

variable (i : Selected)

/-- How the name and its alias are written. -/
def text : String :=
  match i.given with
  | none => i.name.text
  | some a => i.name.text ++ " AS " ++ a.text

def column : String := (i.given.getD i.name).text

/-- The words that are written, with a mark behind the last one. -/
def wordsTo (mark : List Char) : List (List Char) :=
  match i.given with
  | none => [i.name.text.toList ++ mark]
  | some a => [i.name.text.toList, "AS".toList, a.text.toList ++ mark]

end Selected

def listed (items : List Selected) : String := String.intercalate ", " (items.map Selected.text)

def selectFrom (items : List Selected) : String := "SELECT " ++ listed items ++ " FROM t"

/-- The words of a list of columns, each with the comma behind it. -/
def listedWords : List Selected → List (List Char)
  | [] => []
  | [i] => i.wordsTo []
  | i :: j :: rest => i.wordsTo [','] ++ listedWords (j :: rest)

theorem Identifier.isRun (a : Identifier) : IsRun a.text.toList :=
  ⟨a.ne_nil, fun c hc => Formula.isBlank_of_isWord (a.isWord c hc)⟩

namespace Selected

variable (i : Selected)

theorem spaced_wordsTo (mark : List Char) : spaced (i.wordsTo mark) = i.text.toList ++ mark := by
  unfold wordsTo text
  cases i.given with
  | none => exact Text.spaced_singleton _
  | some a =>
    rw [Text.spaced_cons_cons, Text.spaced_cons_cons, Text.spaced_singleton]
    simp

theorem wordsTo_ne_nil (mark : List Char) : i.wordsTo mark ≠ [] := by
  unfold wordsTo
  split <;> exact cons_ne_nil _ _

theorem isRun_of_mem_wordsTo {mark w : List Char} (hmark : ∀ c ∈ mark, isBlank c = false)
    (h : w ∈ i.wordsTo mark) : IsRun w := by
  have hmarked : ∀ a : Identifier, IsRun (a.text.toList ++ mark) := fun a =>
    ⟨append_ne_nil_of_left_ne_nil a.ne_nil _, fun c hc =>
      (mem_append.mp hc).elim (a.isRun.noBlank c) (hmark c)⟩
  unfold wordsTo at h
  split at h
  next =>
    rw [mem_singleton.mp h]
    exact hmarked _
  next a _ =>
    rcases mem_cons.mp h with rfl | h
    · exact i.name.isRun
    rcases mem_pair.mp h with rfl | rfl
    · decide
    · exact hmarked a

end Selected

variable (i : Selected) (rest : List Selected)

theorem listedWords_ne_nil : listedWords (i :: rest) ≠ [] := by
  cases rest with
  | nil => exact i.wordsTo_ne_nil []
  | cons j rest => exact append_ne_nil_of_left_ne_nil (i.wordsTo_ne_nil [',']) _

theorem isRun_of_mem_listedWords {w : List Char} (h : w ∈ listedWords (i :: rest)) : IsRun w := by
  induction rest generalizing i with
  | nil => exact i.isRun_of_mem_wordsTo (forall_mem_nil _) h
  | cons j rest ih =>
    rcases mem_append.mp h with h | h
    · exact i.isRun_of_mem_wordsTo (forall_mem_singleton.mpr (by decide)) h
    · exact ih j h

theorem listed_cons_cons (i j : Selected) (rest : List Selected) :
    (listed (i :: j :: rest)).toList
      = i.text.toList ++ ',' :: ' ' :: (listed (j :: rest)).toList := by
  simp [listed, String.toList_intercalate]

theorem spaced_listedWords : spaced (listedWords (i :: rest)) = (listed (i :: rest)).toList := by
  induction rest generalizing i with
  | nil => simp [listedWords, i.spaced_wordsTo, listed]
  | cons j rest ih =>
    rw [listedWords, Text.spaced_append (i.wordsTo_ne_nil _) (listedWords_ne_nil j rest), ih,
      i.spaced_wordsTo, listed_cons_cons, append_assoc]
    rfl

theorem words_listed : words (listed (i :: rest)).toList = listedWords (i :: rest) := by
  rw [← spaced_listedWords]
  exact Text.words_spaced fun w hw => isRun_of_mem_listedWords i rest hw

/-! ## What is read of a list -/

/-- The part of a list that is found: its words up to the first, behind the front, that begins with
`FROM`. -/
def foundPart (s : List Char) : List Char := spaced (held (words s))

theorem Selected.isPlain_text : IsPlain i.text.toList := by
  intro c hc
  unfold text at hc
  split at hc
  next => exact .inl (i.name.isWord c hc)
  next a _ =>
    rw [String.toList_append, String.toList_append, mem_append, mem_append] at hc
    rcases hc with (hc | hc) | hc
    · exact .inl (i.name.isWord c hc)
    · have hall : (" AS ".toList.all fun d => isWord d || isBlank d) := by decide
      exact Bool.or_eq_true_iff.mp (all_eq_true.mp hall c hc)
    · exact .inl (a.isWord c hc)

theorem mem_listed {c : Char} (h : c ∈ (listed (i :: rest)).toList ++ fromTable) :
    isWord c ∨ isBlank c ∨ c = ',' := by
  have htable : (fromTable.all fun d => isWord d || isBlank d) := by decide
  have hplain : ∀ j : Selected, c ∈ j.text.toList → isWord c ∨ isBlank c ∨ c = ',' :=
    fun j hc => (j.isPlain_text c hc).imp_right .inl
  induction rest generalizing i with
  | nil =>
    rcases mem_append.mp h with h | h
    · exact hplain i (by simpa [listed] using h)
    · exact (Bool.or_eq_true_iff.mp (all_eq_true.mp htable c h)).imp_right .inl
  | cons j rest ih =>
    rw [listed_cons_cons, append_assoc, mem_append, cons_append, cons_append,
      mem_cons, mem_cons] at h
    rcases h with h | rfl | rfl | h
    · exact hplain i h
    · exact .inr (.inr rfl)
    · exact .inr (.inl (by decide))
    · exact ih j h

/-- Of a list of columns the last words are read, as far as the capitals of what is found reach. -/
theorem queryColumns_listed :
    queryColumns (selectFrom (i :: rest))
      = (lastWords (((listed (i :: rest)).toList ++ fromTable).take
          (Text.upper (foundPart (listed (i :: rest)).toList)).length)).map String.ofList := by
  obtain ⟨w, ws, hwords⟩ := exists_cons_of_ne_nil (listedWords_ne_nil i rest)
  have hruns : ∀ x ∈ w :: ws, IsRun x := fun x hx =>
    isRun_of_mem_listedWords i rest (hwords ▸ hx)
  have hquery : (selectFrom (i :: rest)).toList
      = "SELECT ".toList ++ (spaced (w :: ws) ++ fromTable) := by
    rw [selectFrom, String.toList_append, String.toList_append, ← hwords, spaced_listedWords,
      append_assoc]
  rw [queryColumns_spaced hruns hquery, foundPart, words_listed, ← hwords, spaced_listedWords]
  exact clauseColumns_eq fun c hc => mem_listed i rest (mem_of_mem_take hc)

/-! ### Last words -/

namespace Selected

variable (i : Selected)

theorem comma_notMem_text : ',' ∉ i.text.toList := i.isPlain_text.notMem (by decide) (by decide)

theorem getLast?_words_text : (words i.text.toList).getLast? = some i.column.toList := by
  have hspaced := i.spaced_wordsTo []
  rw [append_nil] at hspaced
  rw [← hspaced, Text.words_spaced fun w hw =>
    i.isRun_of_mem_wordsTo (forall_mem_nil _) hw]
  unfold wordsTo column
  cases i.given <;> simp

theorem lastWords_text : lastWords i.text.toList = [i.column.toList] := by
  rw [lastWords_of_notMem i.comma_notMem_text, i.getLast?_words_text]
  rfl

theorem lastWords_text_append (s : List Char) :
    lastWords (i.text.toList ++ ',' :: s) = i.column.toList :: lastWords s := by
  rw [lastWords_append_comma i.comma_notMem_text, i.getLast?_words_text]
  rfl

/-- What is cut before an alias ends in the word before it. -/
theorem lastWords_cut : lastWords (spaced [i.name.text.toList, "AS".toList]) = ["AS".toList] := by
  have hcomma : ',' ∉ spaced [i.name.text.toList, "AS".toList] := by
    rw [Text.spaced_cons_cons, Text.spaced_singleton, mem_append, not_or]
    exact ⟨fun h => absurd (i.name.isWord _ h) (by decide), by decide⟩
  rw [lastWords_of_notMem hcomma, Text.words_spaced]
  · rfl
  · intro w hw
    rcases mem_pair.mp hw with rfl | rfl
    · exact i.name.isRun
    · decide

theorem lastWords_wordsTo_append (ws : List (List Char)) :
    lastWords (spaced (i.wordsTo [','] ++ ws)) = i.column.toList :: lastWords (spaced ws) := by
  cases ws with
  | nil =>
    rw [append_nil, i.spaced_wordsTo, i.lastWords_text_append]
    rfl
  | cons w ws =>
    rw [Text.spaced_append (i.wordsTo_ne_nil _) (cons_ne_nil _ _), i.spaced_wordsTo, append_assoc,
      singleton_append, i.lastWords_text_append, lastWords_cons_blank (by decide)]

end Selected

/-! ### A list that ends too early -/

namespace Selected

variable (i : Selected)

def nameFrom : Bool := beginsFrom i.name.text.toList

def givenFrom : Bool := i.given.any (beginsFrom ·.text.toList)

/-- The column that is read if the list may end before the alias, and those behind it if it does
not. -/
def readThen (more : List String) : List String :=
  if i.givenFrom then ["AS"] else i.column :: more

end Selected

/-- The columns that are read behind the first if the list may end before a name or an alias. -/
def readRest : List Selected → List String
  | [] => []
  | i :: rest => if i.nameFrom then [] else i.readThen (readRest rest)

/-- No alias begins with `FROM`, and no name but the first. -/
def Clear (i : Selected) (rest : List Selected) : Prop :=
  (∀ j ∈ rest, j.nameFrom = false) ∧ ∀ j ∈ i :: rest, j.givenFrom = false

instance (i : Selected) (rest : List Selected) : Decidable (Clear i rest) :=
  inferInstanceAs (Decidable (_ ∧ _))

theorem clear_cons {i j : Selected} {rest : List Selected} :
    Clear i (j :: rest) ↔ i.givenFrom = false ∧ j.nameFrom = false ∧ Clear j rest := by
  unfold Clear
  simp only [forall_mem_cons]
  tauto

theorem beginsFrom_comma (w : List Char) : beginsFrom (w ++ [',']) = beginsFrom w := by
  rw [beginsFrom, Text.upper_append]
  exact Formula.startsWith_append (by decide) _ []

/-- Up to its alias, an item is found whole. -/
theorem Selected.held_wordsTo (mark : List Char) (ws : List (List Char))
    (hmark : ∀ w, beginsFrom (w ++ mark) = beginsFrom w) :
    held (i.wordsTo mark ++ ws)
      = if i.givenFrom then [i.name.text.toList, "AS".toList]
        else i.wordsTo mark ++ ws.takeWhile (!beginsFrom ·) := by
  unfold wordsTo givenFrom
  cases i.given with
  | none => rfl
  | some a =>
    have has : beginsFrom "AS".toList = false := by decide
    simp only [cons_append, nil_append, held, Option.any_some]
    rw [takeWhile_cons_of_pos (by rw [has]; rfl)]
    cases ha : beginsFrom a.text.toList with
    | true => rw [takeWhile_cons_of_neg (by rw [hmark, ha]; decide), if_pos rfl]
    | false => rw [takeWhile_cons_of_pos (by rw [hmark, ha]; rfl), if_neg Bool.false_ne_true]

theorem Selected.held_wordsTo_comma (ws : List (List Char)) :
    held (i.wordsTo [','] ++ ws)
      = if i.givenFrom then [i.name.text.toList, "AS".toList]
        else i.wordsTo [','] ++ ws.takeWhile (!beginsFrom ·) :=
  i.held_wordsTo [','] ws beginsFrom_comma

theorem Selected.held_wordsTo_nil :
    held (i.wordsTo [])
      = if i.givenFrom then [i.name.text.toList, "AS".toList] else i.wordsTo [] := by
  have h := i.held_wordsTo [] [] fun w => congrArg beginsFrom (append_nil w)
  rwa [append_nil, takeWhile_nil, append_nil] at h

theorem Selected.exists_first_word {mark : List Char}
    (hmark : ∀ w, beginsFrom (w ++ mark) = beginsFrom w) :
    ∃ w ws, i.wordsTo mark = w :: ws ∧ beginsFrom w = i.nameFrom := by
  unfold wordsTo
  cases i.given with
  | none => exact ⟨_, _, rfl, hmark _⟩
  | some a => exact ⟨_, _, rfl, rfl⟩

/-- Behind other items, the words are found if the name of the first does not end the list. -/
theorem takeWhile_listedWords :
    (listedWords (i :: rest)).takeWhile (!beginsFrom ·)
      = if i.nameFrom then [] else held (listedWords (i :: rest)) := by
  have hfirst : ∃ w ws, listedWords (i :: rest) = w :: ws ∧ beginsFrom w = i.nameFrom := by
    cases rest with
    | nil => exact i.exists_first_word fun w => congrArg beginsFrom (append_nil w)
    | cons j rest =>
      obtain ⟨w, ws, hwords, hw⟩ := i.exists_first_word beginsFrom_comma
      exact ⟨w, ws ++ listedWords (j :: rest), by rw [listedWords, hwords]; rfl, hw⟩
  obtain ⟨w, ws, hwords, hw⟩ := hfirst
  rw [hwords]
  cases hname : i.nameFrom with
  | true => exact takeWhile_cons_of_neg (by rw [hw, hname]; decide)
  | false => exact takeWhile_cons_of_pos (by rw [hw, hname]; rfl)

/-- The last words of what is found are the columns up to where the list ends. -/
theorem lastWords_held :
    lastWords (spaced (held (listedWords (i :: rest))))
      = (i.readThen (readRest rest)).map String.toList := by
  induction rest generalizing i with
  | nil =>
    rw [listedWords, i.held_wordsTo_nil, Selected.readThen]
    split
    · exact i.lastWords_cut
    · rw [i.spaced_wordsTo, append_nil]
      exact i.lastWords_text
  | cons j rest ih =>
    rw [listedWords, i.held_wordsTo_comma, Selected.readThen]
    split
    · exact i.lastWords_cut
    · rw [i.lastWords_wordsTo_append, takeWhile_listedWords, readRest]
      split
      · rfl
      · rw [ih]
        rfl

theorem Selected.readThen_eq_cons_iff {more columns : List String} :
    i.readThen more = i.column :: columns ↔ i.givenFrom = false ∧ more = columns := by
  unfold readThen
  cases hgiven : i.givenFrom with
  | false => simp
  | true =>
    -- an alias that begins with `FROM` is not the word that is read in its place
    have hother : "AS" ≠ i.column := by
      unfold givenFrom at hgiven
      unfold column
      cases ha : i.given with
      | none => simp [ha] at hgiven
      | some a =>
        rw [ha, Option.any_some] at hgiven
        rintro (h : "AS" = a.text)
        rw [← h] at hgiven
        exact absurd hgiven (by decide)
    simp [hother]

/-- What is read is right if the list ends where it should, and only then. -/
theorem readThen_eq_iff :
    i.readThen (readRest rest) = (i :: rest).map Selected.column ↔ Clear i rest := by
  induction rest generalizing i with
  | nil => simp [i.readThen_eq_cons_iff, readRest, Clear]
  | cons j rest ih =>
    rw [map_cons, i.readThen_eq_cons_iff, readRest, clear_cons]
    cases j.nameFrom with
    | true => simp
    | false =>
      rw [if_neg Bool.false_ne_true, ih j]
      simp

/-! ### A list that ends too late -/

theorem words_append_tail (s : List Char) {t : List Char} (ht : t = [] ∨ ∃ s, t = ' ' :: s) :
    words (s ++ t) = words s ++ words t := by
  rcases ht with rfl | ⟨t, rfl⟩
  · rw [show words [] = [] from rfl, append_nil, append_nil]
  · rw [Text.words_append_blank (by decide), Text.words_cons_blank (by decide)]

/-- Where a text behind a list begins with a space, its last word is taken for the last column. -/
theorem lastWords_listed_append {t : List Char}
    (hcomma : ',' ∉ t) (ht : t = [] ∨ ∃ s, t = ' ' :: s) :
    lastWords ((listed (i :: rest)).toList ++ t)
      = (i :: rest).dropLast.map (·.column.toList)
        ++ [(words t).getLast?.getD
            ((i :: rest).getLast (cons_ne_nil i rest)).column.toList] := by
  induction rest generalizing i with
  | nil =>
    have hlisted : listed [i] = i.text := by simp [listed]
    have hnone : ',' ∉ i.text.toList ++ t := by simp [i.comma_notMem_text, hcomma]
    rw [hlisted, lastWords_of_notMem hnone, words_append_tail _ ht, getLast?_append,
      i.getLast?_words_text]
    cases (words t).getLast? <;> rfl
  | cons j rest ih =>
    rw [listed_cons_cons, append_assoc, cons_append, cons_append,
      i.lastWords_text_append, lastWords_cons_blank (by decide), ih]
    rfl

/-- Behind the list, a word is read unless it is one character at most. -/
theorem getLast?_words_fromTable (n : Nat) :
    (words (fromTable.take n)).getLast? = none ↔ n ≤ 1 := by
  have hfew : ∀ m < 7, (words (fromTable.take m)).getLast? = none ↔ m ≤ 1 := by decide
  rcases Nat.lt_or_ge n 7 with hn | hn
  · exact hfew n hn
  · rw [take_of_length_le (show fromTable.length ≤ n from hn)]
    exact ⟨fun h => absurd h (by decide), fun h => by omega⟩

/-- A list that ends where it should is found whole. -/
theorem foundPart_listed {i : Selected} {rest : List Selected} (h : Clear i rest) :
    foundPart (listed (i :: rest)).toList = (listed (i :: rest)).toList := by
  have hheld : held (listedWords (i :: rest)) = listedWords (i :: rest) := by
    induction rest generalizing i with
    | nil => rw [listedWords, i.held_wordsTo_nil, if_neg (by simp [h.2 i (.head _)])]
    | cons j rest ih =>
      obtain ⟨hgiven, hname, hrest⟩ := clear_cons.mp h
      rw [listedWords, i.held_wordsTo_comma, takeWhile_listedWords, ih hrest,
        if_neg (by simp [hgiven]), if_neg (by simp [hname])]
  rw [foundPart, words_listed, hheld, spaced_listedWords]

/-- Of a list that is found whole, all is read, and behind it as many characters as its capitals are
more. -/
theorem queryColumns_of_clear {i : Selected} {rest : List Selected} (h : Clear i rest) :
    let list := (listed (i :: rest)).toList
    queryColumns (selectFrom (i :: rest))
      = (i :: rest).dropLast.map Selected.column
        ++ [((words (fromTable.take ((Text.upper list).length - list.length))).getLast?.map
            String.ofList).getD ((i :: rest).getLast (cons_ne_nil i rest)).column] := by
  intro list
  have hcomma : ∀ n, ',' ∉ fromTable.take n := fun n hmem =>
    absurd (mem_of_mem_take hmem) (by decide)
  have hspace : ∀ n, fromTable.take n = [] ∨ ∃ s, fromTable.take n = ' ' :: s := by
    intro n
    cases n with
    | zero => exact .inl rfl
    | succ n => exact .inr ⟨_, rfl⟩
  rw [queryColumns_listed, foundPart_listed h, take_append,
    take_of_length_le (Text.length_le_upper list),
    lastWords_listed_append i rest (hcomma _) (hspace _), map_append, map_map, map_singleton]
  congr 1
  · exact map_congr_left fun j _ => String.ofList_toList
  · cases (words (fromTable.take ((Text.upper list).length - list.length))).getLast? with
    | none => exact congrArg ([·]) String.ofList_toList
    | some w => rfl

/-- What is found is a list from its front. -/
theorem foundPart_prefix_listed :
    foundPart (listed (i :: rest)).toList <+: (listed (i :: rest)).toList := by
  rw [foundPart, words_listed, ← spaced_listedWords]
  refine Text.spaced_mono ?_
  cases listedWords (i :: rest) with
  | nil => exact nil_prefix
  | cons w ws => exact cons_prefix_cons.mpr ⟨rfl, takeWhile_prefix _⟩

/-- If capitals take no more room, what is found is what is read. -/
theorem queryColumns_of_width {i : Selected} {rest : List Selected}
    (h : (Text.upper (listed (i :: rest)).toList).length = (listed (i :: rest)).toList.length) :
    queryColumns (selectFrom (i :: rest)) = i.readThen (readRest rest) := by
  have hfront := foundPart_prefix_listed i rest
  have hwidth : (Text.upper (foundPart (listed (i :: rest)).toList)).length
      = (foundPart (listed (i :: rest)).toList).length := by
    obtain ⟨t, ht⟩ := hfront
    have hpart := Text.length_le_upper (foundPart (listed (i :: rest)).toList)
    have htail := Text.length_le_upper t
    have hsum := congrArg (fun x => (Text.upper x).length) ht
    have hlength := congrArg length ht
    simp only [Text.upper_append, length_append] at hsum hlength
    omega
  rw [queryColumns_listed, hwidth,
    ← prefix_iff_eq_take.mp (hfront.trans (prefix_append _ fromTable)), foundPart,
    words_listed, lastWords_held, map_map]
  exact map_id'' (fun _ => String.ofList_toList) _

/-- The columns of a plain query are the last words, between commas, of as many characters as the
capitals have up to the first alias or later name that begins with `FROM`. If capitals take no more
room, they are right if there is no such word, and only then. If there is none, they are right if
the capitals take one character more at most, or if the last word that is read is the last column
by chance. -/
theorem queryColumns_selectFrom (i : Selected) (rest : List Selected) :
    let list := (listed (i :: rest)).toList
    let found := queryColumns (selectFrom (i :: rest))
    let columns := (i :: rest).map Selected.column
    found = (lastWords ((list ++ fromTable).take (Text.upper (foundPart list)).length)).map
        String.ofList
    ∧ ((Text.upper list).length = list.length →
        found = i.readThen (readRest rest) ∧ (found = columns ↔ Clear i rest))
    ∧ (Clear i rest → (found = columns ↔ (Text.upper list).length ≤ list.length + 1
        ∨ (words (fromTable.take ((Text.upper list).length - list.length))).getLast?
          = some ((i :: rest).getLast (cons_ne_nil i rest)).column.toList)) := by
  intro list found columns
  refine ⟨queryColumns_listed i rest, fun hwidth => ?_, fun hclear => ?_⟩
  · have hread := queryColumns_of_width hwidth
    exact ⟨hread, by rw [← readThen_eq_iff, ← hread]⟩
  · have hcolumns : columns = (i :: rest).dropLast.map Selected.column
        ++ [((i :: rest).getLast (cons_ne_nil i rest)).column] := by
      rw [← map_singleton, ← map_append, dropLast_append_getLast]
    have hnone := getLast?_words_fromTable ((Text.upper list).length - list.length)
    rw [Nat.sub_le_iff_le_add'] at hnone
    rw [← hnone, hcolumns, show found = _ from queryColumns_of_clear hclear,
      append_cancel_left_eq, singleton_inj]
    cases (words (fromTable.take ((Text.upper list).length - list.length))).getLast? with
    | none => simp
    | some w =>
      rw [Option.map_some, Option.getD_some, Option.some.injEq]
      refine ⟨fun h => .inr ?_, fun h => ?_⟩
      · rw [← h, String.toList_ofList]
      · rw [h.resolve_left (Option.some_ne_none w), String.ofList_toList]

def identifierOf (text : String) (hne : text.toList ≠ []) (h : text.toList.all isWord) :
    Identifier :=
  ⟨text, hne, all_eq_true.mp h⟩

/-- A name like `fromage` ends the list before it, a name like `ßß` takes in a part of what follows,
and an alias with a capital that is one longer does no harm. -/
theorem queryColumns_odd_names :
    let a : Selected := { name := identifierOf "a" (by decide) (by decide) }
    let fromage : Selected := { name := identifierOf "fromage" (by decide) (by decide) }
    let double : Selected := { name := identifierOf "ßß" (by decide) (by decide +kernel) }
    let street : Selected :=
      { name := identifierOf "name" (by decide) (by decide)
        given := some (identifierOf "Straße" (by decide) (by decide +kernel)) }
    queryColumns (selectFrom [a, fromage]) = ["a"] ∧ queryColumns (selectFrom [double]) ≠ ["ßß"]
      ∧ queryColumns (selectFrom [fromage, street]) = ["fromage", "Straße"] := by
  intro a fromage double street
  refine ⟨?_, ?_, ?_⟩
  · have hread := ((queryColumns_selectFrom a [fromage]).2.1 (by decide +kernel)).1
    exact hread.trans (by decide +kernel)
  · have hiff := (queryColumns_selectFrom double []).2.2 (by decide +kernel)
    exact fun h => absurd (hiff.mp h) (by decide +kernel)
  · exact ((queryColumns_selectFrom fromage [street]).2.2 (by decide +kernel)).mpr
      (.inl (by decide +kernel))

end Replatform.Project

import Replatform.Proofs.Project.Asking
import Replatform.Proofs.Words
import Replatform.Workflow.Document
/-!
# The fields that a tool keeps

A document says of each field whether it is kept, and under which name. The tool holds one text for
each field that is kept: the field, and behind the word `AS` its new name if it has one. This text
is taken apart twice, once for the query that selects the field, and once for the columns that leave
the tool. Neither is told where the field ends.

* A query cuts the text at the word in capitals, but asks for the word in capitals or not.
* The columns are what follows the first such word, where places are counted in capitals, and there
  a letter may count twice.

So not all choices survive (`selection_survives_iff`). A query could be right by chance, as field and name both come from the document. It is not: what is
lost between the pieces is never made up for (`weight`).
-/

namespace Replatform.Project

open List Markup Stateful
open Text (find?_eq_some has strip upper upper_append)

variable {s d : String} {r : List Char} {t : Tool}

/-- What a document says of a field. -/
structure Choice where
  field : String
  kept : Bool
  rename : String
deriving DecidableEq, Repr

/-- What a document says of its fields. A field without a name is passed over. -/
def choices (e : Element) : List Choice :=
  ((e.findAllBelow "SelectField").map fun f =>
    ⟨f.getD "field" "", f.getD "selected" "True" == "True", f.getD "rename" ""⟩).filter
      (!·.field.isEmpty)

/-- The word between a field and its new name. -/
def asWord : List Char := " AS ".toList

namespace Choice

variable (c : Choice)

/-- The text that a tool holds of a field that is kept. -/
def written : String := if c.rename = "" then c.field else c.field ++ " AS " ++ c.rename

/-- What a query has to select. -/
def item : String :=
  if c.rename = "" then quoteColumn c.field
  else quoteColumn c.field ++ " as " ++ quoteColumn c.rename

/-- The column that has to leave the tool. -/
def column : String := if c.rename = "" then c.field else c.rename

/-- The field has the word in it, but not in capitals, and no new name. -/
def Torn : Prop := c.rename = "" ∧ isRenamed c.field ∧ has asWord c.field.toList = false

/-- The text is cut between the field and its new name and nowhere else, and no blank is lost. -/
def Shown : Prop :=
  strip c.field.toList = c.field.toList ∧
    if c.rename = "" then isRenamed c.field = false
    else strip c.rename.toList = c.rename.toList
      ∧ has asWord (c.field.toList ++ [' ']) = false
      ∧ has asWord c.rename.toList = false

/-- In capitals, the first word is at the end of the field, or one place before it. -/
def Named : Prop :=
  if c.rename = "" then isRenamed c.field = false
  else strip c.rename.toList = c.rename.toList
    ∧ ∃ place ∈ Text.find? asWord (upper c.written.toList),
      place = c.field.length ∨ place + 1 = c.field.length

instance : Decidable c.Torn := inferInstanceAs (Decidable (_ ∧ _))

instance : Decidable c.Shown := by
  unfold Shown
  infer_instance

instance : Decidable c.Named := by
  unfold Named
  infer_instance

end Choice

/-! ## The word between a field and its new name -/

/-- The word is its own form in capitals. -/
theorem has_upper {s : List Char} (h : asWord <:+: s) : has asWord (upper s) := by
  obtain ⟨x, y, rfl⟩ := h
  rw [upper_append, upper_append]
  exact Text.has_iff.mpr ⟨_, _, rfl⟩

theorem isRenamed_of_word (h : asWord <:+: s.toList) : isRenamed s := has_upper h

/-- A word that begins before another ends before it, or ends in the blank that the other begins
with. -/
theorem asWord_overlap {z : List Char} (h : asWord <+: z ++ (asWord ++ r)) :
    z = [] ∨ z = " AS".toList ∨ asWord <+: z := by
  have hword : asWord = [' ', 'A', 'S', ' '] := by decide
  rw [hword] at h ⊢
  rcases z with _ | ⟨a, _ | ⟨b, _ | ⟨d, _ | ⟨e, z⟩⟩⟩⟩
  · exact .inl rfl
  · simp at h
  · simp at h
  · simp only [cons_append, nil_append, cons_prefix_cons] at h
    obtain ⟨rfl, rfl, rfl, -⟩ := h
    exact .inr (.inl (by decide))
  · simp only [cons_append, cons_prefix_cons] at h ⊢
    exact .inr (.inr ⟨h.1, h.2.1, h.2.2.1, h.2.2.2.1, nil_prefix⟩)

theorem drop_asWord (f r : List Char) : (f ++ (asWord ++ r)).drop (f.length + 4) = r := by
  rw [← drop_drop, drop_left]
  rfl

/-- Where the word is found in a field with a new name. -/
theorem find?_asWord (f r : List Char) : ∃ n, Text.find? asWord (f ++ (asWord ++ r)) = some n
    ∧ (n = f.length ∨ f = f.take n ++ " AS".toList ∨ asWord <+: f.drop n) := by
  have hoccurs : asWord <+: (f ++ (asWord ++ r)).drop f.length := by
    rw [drop_left]
    exact prefix_append ..
  obtain ⟨n, hn, hfind⟩ := Text.exists_find? hoccurs
  refine ⟨n, hfind, ?_⟩
  have hfound := (find?_eq_some hfind).1
  rw [drop_append_of_le_length hn] at hfound
  rcases asWord_overlap hfound with hend | hblank | hbefore
  · exact .inl (Nat.le_antisymm hn (drop_eq_nil_iff.mp hend))
  · refine .inr (.inl ?_)
    rw [← hblank, take_append_drop]
  · exact .inr (.inr hbefore)

/-- The text is cut behind the field, if no word ends before, not even in the blank of this one. -/
theorem find?_asWord_eq_length_iff {f : List Char} :
    Text.find? asWord (f ++ (asWord ++ r)) = some f.length ↔ has asWord (f ++ [' ']) = false := by
  constructor
  · intro hfind
    refine Bool.eq_false_iff.mpr fun hhas => ?_
    obtain ⟨x, y, hxy⟩ := Text.has_iff.mp hhas
    have hlength := congrArg length hxy
    have hfour : asWord.length = 4 := by decide
    simp only [length_append, length_singleton] at hlength
    refine (find?_eq_some hfind).2 x.length (by omega) ?_
    have hsplit : f ++ (asWord ++ r) = x ++ (asWord ++ (y ++ ("AS ".toList ++ r))) := by
      rw [← append_assoc asWord, ← append_assoc x, ← append_assoc x, hxy, append_assoc]
      rfl
    rw [hsplit, drop_left]
    exact prefix_append ..
  · intro hnone
    have hnone : ¬ asWord <:+: f ++ [' '] := fun h => by simp [Text.has_iff.mpr h] at hnone
    obtain ⟨n, hfind, rfl | hend | hbefore⟩ := find?_asWord f r
    · exact hfind
    · refine absurd ⟨f.take n, [], ?_⟩ hnone
      rw [append_nil]
      conv_rhs => rw [hend, append_assoc]
      rfl
    · refine absurd (hbefore.isInfix.trans ?_) hnone
      exact (drop_suffix n f).isInfix.trans (prefix_append f _).isInfix

/-! ## What a query selects -/

/-- What stands before the first word, or all of the text. -/
def beforeWord (s : List Char) : List Char := (Text.splitOn asWord s).headD []

theorem keptField_of_not_isRenamed (h : isRenamed s = false) :
    keptField s = .ok (quoteColumn (String.ofList (strip s.toList))) := by
  have hnone : Text.find? asWord s.toList = none :=
    Text.find?_eq_none_iff.mpr fun hword => by simp [isRenamed_of_word hword] at h
  have hpieces : renamePieces s = [String.ofList (strip s.toList)] := by
    rw [renamePieces, ← asWord, Text.splitOn_of_find?_eq_none hnone]
    rfl
  rw [keptField, hpieces, h]
  rfl

theorem keptField_of_find? {n : Nat} (h : Text.find? asWord s.toList = some n) :
    keptField s = .ok (quoteColumn (String.ofList (strip (s.toList.take n))) ++ " as "
      ++ quoteColumn (String.ofList (strip (beforeWord (s.toList.drop (n + 4)))))) := by
  have hrenamed : isRenamed s :=
    isRenamed_of_word (Text.has_iff.mp (by rw [has, h, Option.isSome_some]))
  have hpieces := Text.splitOn_of_find? (by decide) h
  rw [keptField, hrenamed, renamePieces, ← asWord, hpieces, beforeWord]
  cases hrest : Text.splitOn asWord (s.toList.drop (n + asWord.length)) with
  | nil => exact absurd hrest (Text.splitOn_ne_nil _ _)
  | cons y rest =>
    rw [show n + 4 = n + asWord.length from rfl, hrest]
    rfl

theorem keptField_of_torn (hrenamed : isRenamed s) (h : Text.find? asWord s.toList = none) :
    keptField s = .error .noItem := by
  rw [keptField, hrenamed, renamePieces, ← asWord, Text.splitOn_of_find?_eq_none h]
  rfl

/-! ## Nothing is made up for -/

/-- The characters of a text but for quotes, where the letter `A` counts twice: the word that a
query has between two columns weighs less than the one that the text was cut at. -/
def weight (s : List Char) : Nat := s.countP (· != '\x22') + s.count 'A'

theorem weight_append (x y : List Char) : weight (x ++ y) = weight x + weight y := by
  simp only [weight, countP_append, count_append]
  omega

theorem weight_quoteColumn (s : String) : weight (quoteColumn s).toList = weight s.toList := by
  unfold quoteColumn
  split
  · rfl
  · have hquote : weight "\"".toList = 0 := by decide
    rw [String.toList_append, String.toList_append, weight_append, weight_append, hquote]
    omega

theorem length_le_weight {s : List Char} (h : ∀ c ∈ s, Text.isBlank c) :
    s.length ≤ weight s := by
  have hcount : s.countP (· != '\x22') = s.length := by
    refine countP_eq_length.mpr fun c hc => ?_
    have hblank := h c hc
    rw [bne_iff_ne]
    rintro rfl
    exact absurd hblank (by decide)
  rw [weight, hcount]
  exact Nat.le_add_right _ _

/-- Blanks have a weight, so a text that weighs the same has lost none. -/
theorem weight_strip_le (s : List Char) : weight (strip s) ≤ weight s
    ∧ (weight (strip s) = weight s → strip s = s) := by
  obtain ⟨front, back, hs, hfront, hback⟩ := Formula.exists_strip s
  have hweight : weight s = weight front + weight (strip s) + weight back := by
    conv_lhs => rw [hs, weight_append, weight_append]
  have hfront := length_le_weight hfront
  have hback := length_le_weight hback
  refine ⟨by omega, fun h => ?_⟩
  have hnone : front = [] ∧ back = [] := by
    constructor <;> exact length_eq_zero_iff.mp (by omega)
  rw [hnone.1, hnone.2, nil_append, append_nil] at hs
  exact hs.symm

theorem weight_beforeWord_le (s : List Char) : weight (beforeWord s) ≤ weight s
    ∧ (weight (beforeWord s) = weight s → beforeWord s = s ∧ ¬ asWord <:+: s) := by
  cases hfind : Text.find? asWord s with
  | none =>
    rw [beforeWord, Text.splitOn_of_find?_eq_none hfind]
    exact ⟨Nat.le_refl _, fun _ => ⟨rfl, Text.find?_eq_none_iff.mp hfind⟩⟩
  | some n =>
    rw [beforeWord, Text.splitOn_of_find? (by decide) hfind, headD_cons]
    obtain ⟨rest, hrest⟩ := (find?_eq_some hfind).1
    have hweight : weight s = weight (s.take n) + (weight asWord + weight rest) := by
      rw [← weight_append, hrest, ← weight_append, take_append_drop]
    have hword : weight asWord = 5 := by decide
    omega

/-- A text that is cut loses at least one, and no more only if it is cut once and has no blanks at
the ends of its pieces. -/
theorem weight_keptField_lt {n : Nat} (hfind : Text.find? asWord s.toList = some n)
    (h : keptField s = .ok d) : weight d.toList + 1 ≤ weight s.toList
      ∧ (weight d.toList + 1 = weight s.toList →
        strip (s.toList.take n) = s.toList.take n
        ∧ strip (s.toList.drop (n + 4)) = s.toList.drop (n + 4)
        ∧ ¬ asWord <:+: s.toList.drop (n + 4)
        ∧ d = quoteColumn (String.ofList (s.toList.take n)) ++ " as "
          ++ quoteColumn (String.ofList (s.toList.drop (n + 4)))) := by
  obtain rfl := Except.ok.inj ((keptField_of_find? hfind).symm.trans h)
  have hword : weight asWord = 5 ∧ weight " as ".toList = 4 := by decide
  have hweight : weight s.toList
      = weight (s.toList.take n) + (weight asWord + weight (s.toList.drop (n + 4))) := by
    obtain ⟨rest, hrest⟩ := (find?_eq_some hfind).1
    have hdrop : s.toList.drop (n + 4) = rest := by
      rw [← drop_drop, ← hrest]
      rfl
    rw [hdrop, ← weight_append, hrest, ← weight_append, take_append_drop]
  have hfront := weight_strip_le (s.toList.take n)
  have hback := weight_strip_le (beforeWord (s.toList.drop (n + 4)))
  have hbefore := weight_beforeWord_le (s.toList.drop (n + 4))
  simp only [String.toList_append, weight_append, weight_quoteColumn, String.toList_ofList]
  refine ⟨by omega, fun heq => ?_⟩
  have hfront := hfront.2 (by omega)
  have hback := hback.2 (by omega)
  obtain ⟨hrest, hword⟩ := hbefore.2 (by omega)
  rw [hrest] at hback ⊢
  exact ⟨hfront, hback, hword, by rw [hfront, hback]⟩

namespace Choice

variable {c : Choice}

/-- The field ends like a word, and the text is cut there. -/
def Slips (c : Choice) (d : String) : Prop :=
  c.rename ≠ "" ∧ ∃ x, c.field.toList = x ++ " AS".toList
    ∧ d = quoteColumn (String.ofList x) ++ " as "
      ++ quoteColumn (String.ofList ("AS ".toList ++ c.rename.toList))

theorem toList_written (h : c.rename ≠ "") :
    c.written.toList = c.field.toList ++ (asWord ++ c.rename.toList) := by
  rw [written, if_neg h, String.toList_append, String.toList_append, append_assoc, asWord]

theorem weight_item (h : c.rename ≠ "") : weight c.item.toList + 1 = weight c.written.toList := by
  have hword : weight asWord = 5 ∧ weight " as ".toList = 4 := by decide
  rw [toList_written h, item, if_neg h]
  simp only [String.toList_append, weight_append, weight_quoteColumn]
  omega

/-- A query selects nothing heavier than it should, and nothing as heavy but what it should, or a
field that lost its end to the new name. -/
theorem weight_keptField_le (h : keptField c.written = .ok d) :
    weight d.toList ≤ weight c.item.toList
      ∧ (weight d.toList = weight c.item.toList → c.Shown ∨ c.Slips d) := by
  by_cases hr : c.rename = ""
  · have hwritten : c.written = c.field := if_pos hr
    have hitem : weight c.item.toList = weight c.field.toList := by
      rw [item, if_pos hr, weight_quoteColumn]
    rw [hwritten] at h
    rw [hitem]
    cases hrenamed : isRenamed c.field with
    | false =>
      obtain rfl := Except.ok.inj ((keptField_of_not_isRenamed hrenamed).symm.trans h)
      rw [weight_quoteColumn, String.toList_ofList]
      obtain ⟨hle, heq⟩ := weight_strip_le c.field.toList
      refine ⟨hle, fun hweight => .inl ⟨heq hweight, ?_⟩⟩
      rw [if_pos hr, hrenamed]
    | true =>
      cases hfind : Text.find? asWord c.field.toList with
      | none =>
        rw [keptField_of_torn hrenamed hfind] at h
        cases h
      | some n =>
        have hlt := (weight_keptField_lt hfind h).1
        exact ⟨by omega, fun heq => by omega⟩
  · have hitem := weight_item hr
    have hwritten := toList_written hr
    obtain ⟨n, hfind, hplace⟩ := find?_asWord c.field.toList c.rename.toList
    rw [← hwritten] at hfind
    obtain ⟨hle, hcut⟩ := weight_keptField_lt hfind h
    refine ⟨by omega, fun heq => ?_⟩
    obtain ⟨hfront, hback, hword, rfl⟩ := hcut (by omega)
    rw [hwritten] at hfront hback hword hfind ⊢
    rcases hplace with rfl | hend | hbefore
    · rw [take_left] at hfront
      rw [drop_asWord] at hback hword
      refine .inl ⟨hfront, ?_⟩
      rw [if_neg hr]
      refine ⟨hback, find?_asWord_eq_length_iff.mp hfind, ?_⟩
      exact Bool.eq_false_iff.mpr fun hhas => hword (Text.has_iff.mp hhas)
    · -- the blank behind the field ends the first word and begins the second
      have hn : (c.field.toList.take n).length = n := by
        have hlength := congrArg length hend
        have hthree : " AS".toList.length = 3 := by decide
        rw [length_append, hthree] at hlength
        rw [length_take] at hlength ⊢
        omega
      have hsplit : c.field.toList ++ (asWord ++ c.rename.toList)
          = c.field.toList.take n ++ (asWord ++ ("AS ".toList ++ c.rename.toList)) := by
        conv_lhs => rw [hend, append_assoc]
        rfl
      have hdrop := drop_asWord (c.field.toList.take n) ("AS ".toList ++ c.rename.toList)
      rw [hn] at hdrop
      refine .inr ⟨hr, _, hend, ?_⟩
      rw [hsplit, hdrop, take_left' hn]
    · -- the field goes on behind the first word, so the second is left in what follows
      obtain ⟨rest, hrest⟩ := hbefore
      have hle : n ≤ c.field.toList.length := by
        by_contra hlt
        rw [drop_of_length_le (by omega)] at hrest
        cases (append_eq_nil_iff.mp hrest).1
      refine absurd ⟨rest, c.rename.toList, ?_⟩ hword
      rw [← drop_drop, drop_append_of_le_length hle, ← hrest, append_assoc, append_assoc]
      rfl

/-- A field that lost its end differs from what it should be before anything else can follow. -/
theorem Slips.ne (h : c.Slips d) (u v : List Char) : d.toList ++ u ≠ c.item.toList ++ v := by
  obtain ⟨hr, x, hx, rfl⟩ := h
  have hstar : c.field ≠ "*" := by
    intro hstar
    have hlength := congrArg length (hx.symm.trans (congrArg String.toList hstar))
    have hlengths : " AS".toList.length = 3 ∧ "*".toList.length = 1 := by decide
    rw [length_append] at hlength
    omega
  rw [item, if_neg hr]
  simp only [String.toList_append, append_assoc]
  have hsmall : " as ".toList = [' ', 'a', 's', ' '] := by decide
  have hcapital : " AS".toList = [' ', 'A', 'S'] := by decide
  rcases toList_quoteColumn c.field with ⟨hquoted, hhead⟩ | ⟨hquoted, hhead, -⟩
  · have hx' : x.head? = some '\x22' := by
      have hhead := hhead.resolve_right hstar
      rw [hx, hcapital] at hhead
      cases x with
      | nil => simp at hhead
      | cons a x => exact hhead
    rcases toList_quoteColumn (String.ofList x) with ⟨hquoted', -⟩ | ⟨-, hhead', -⟩
    · rw [hquoted, hquoted', String.toList_ofList, hx, hsmall, hcapital, append_assoc]
      simp
    · rw [String.toList_ofList] at hhead'
      exact absurd hx' hhead'
  · rw [hquoted, hx, hcapital]
    rcases toList_quoteColumn (String.ofList x) with ⟨hquoted', hhead' | hstar'⟩ | ⟨hquoted', -⟩
    · refine absurd ?_ hhead
      rw [String.toList_ofList] at hhead'
      cases x with
      | nil => simp at hhead'
      | cons a x =>
        rw [hx]
        exact hhead'
    · rw [hquoted', hstar']
      simp
    · rw [hquoted', String.toList_ofList]
      simp

theorem keptField_of_shown (h : c.Shown) : keptField c.written = .ok c.item := by
  obtain ⟨hfield, hrest⟩ := h
  by_cases hr : c.rename = ""
  · rw [if_pos hr] at hrest
    rw [written, item, if_pos hr, if_pos hr, keptField_of_not_isRenamed hrest, hfield,
      String.ofList_toList]
  · rw [if_neg hr] at hrest
    obtain ⟨hrename, hbefore, hbehind⟩ := hrest
    have hfind := find?_asWord_eq_length_iff (r := c.rename.toList).mpr hbefore
    have hnone : Text.find? asWord c.rename.toList = none :=
      Option.not_isSome_iff_eq_none.mp (by rw [← has, hbehind]; exact Bool.false_ne_true)
    rw [← toList_written hr] at hfind
    rw [keptField_of_find? hfind, toList_written hr, take_left, drop_asWord, beforeWord,
      Text.splitOn_of_find?_eq_none hnone, headD_cons, hfield, hrename, String.ofList_toList,
      String.ofList_toList, item, if_neg hr]

theorem exists_keptField_iff : (∃ d, keptField c.written = .ok d) ↔ ¬ c.Torn := by
  by_cases hr : c.rename = ""
  · rw [written, if_pos hr]
    cases hrenamed : isRenamed c.field with
    | false =>
      refine ⟨fun _ htorn => ?_, fun _ => ⟨_, keptField_of_not_isRenamed hrenamed⟩⟩
      exact Bool.false_ne_true (hrenamed.symm.trans htorn.2.1)
    | true =>
      cases hfind : Text.find? asWord c.field.toList with
      | none =>
        rw [keptField_of_torn hrenamed hfind]
        constructor
        · rintro ⟨d, hd⟩
          cases hd
        · refine fun h => absurd ⟨hr, hrenamed, ?_⟩ h
          rw [has, hfind, Option.isSome_none]
      | some n =>
        refine ⟨fun _ htorn => ?_, fun _ => ⟨_, keptField_of_find? hfind⟩⟩
        have hhas := htorn.2.2
        rw [has, hfind] at hhas
        exact Bool.false_ne_true hhas.symm
  · obtain ⟨n, hfind, -⟩ := find?_asWord c.field.toList c.rename.toList
    rw [← toList_written hr] at hfind
    exact ⟨fun _ htorn => hr htorn.1, fun _ => ⟨_, keptField_of_find? hfind⟩⟩

end Choice

/-! ## The list of a query -/

/-- Choices and what a query selects for them. -/
def Selects (cs : List Choice) (ds : List String) : Prop :=
  Forall₂ (fun c d => keptField c.written = .ok d) cs ds

theorem Selects.weight_le {cs : List Choice} {ds : List String} (h : Selects cs ds)
    (sep : List Char) : weight (sep.intercalate (ds.map String.toList))
      ≤ weight (sep.intercalate (cs.map (·.item.toList))) := by
  induction h with
  | nil => exact Nat.le_refl _
  | cons hd hds ih =>
    have hfirst := (Choice.weight_keptField_le hd).1
    cases hds with
    | nil => simpa using hfirst
    | cons =>
      simp only [map_cons, intercalate_cons_cons, weight_append] at ih ⊢
      omega

/-- A query that reads as it should selects each field as it should. -/
theorem Selects.shown {cs : List Choice} {ds : List String} (h : Selects cs ds) (sep : List Char)
    (heq : sep.intercalate (ds.map String.toList) = sep.intercalate (cs.map (·.item.toList))) :
    ∀ c ∈ cs, c.Shown := by
  induction h with
  | nil => exact forall_mem_nil _
  | @cons c d cs ds hd hds ih =>
    obtain ⟨hle, hsame⟩ := Choice.weight_keptField_le hd
    cases hds with
    | nil =>
      rw [map_singleton, map_singleton, intercalate_singleton, intercalate_singleton] at heq
      refine forall_mem_singleton.mpr ((hsame (congrArg weight heq)).resolve_right ?_)
      intro hslips
      exact hslips.ne [] [] (congrArg (· ++ []) heq)
    | cons hd' hds =>
      have hrest := Selects.weight_le (.cons hd' hds) sep
      simp only [map_cons, intercalate_cons_cons, append_assoc] at heq hrest
      have hweight := congrArg weight heq
      simp only [weight_append] at hweight hrest
      -- the others are no heavier than they should be, so the first is no lighter
      rcases hsame (by omega) with hshown | hslips
      · obtain rfl := Except.ok.inj ((Choice.keptField_of_shown hshown).symm.trans hd)
        have heq := append_cancel_left (append_cancel_left heq)
        exact forall_mem_cons.mpr ⟨hshown, ih heq⟩
      · exact absurd heq (hslips.ne _ _)

/-- The block of a query that selects some items. -/
def selectionBlock (t : Tool) (source name : String) (items : List String) : String :=
  block name [toolComment t, "    select", "        " ++ String.intercalate ",\n        " items,
    "    from " ++ source] "),"

theorem selectionBlock_inj {source name : String} {xs ys : List String} :
    selectionBlock t source name xs = selectionBlock t source name ys
      ↔ ",\n        ".toList.intercalate (xs.map String.toList)
        = ",\n        ".toList.intercalate (ys.map String.toList) := by
  rw [← String.toList_inj]
  simp only [selectionBlock, block, Text.lines, cons_append, nil_append, String.toList_intercalate,
    map_cons, map_nil, intercalate_cons_cons, intercalate_singleton, String.toList_append,
    append_assoc, append_cancel_left_eq, append_cancel_right_eq]

/-! ## What leaves the tool -/

/-- What is dropped from a field with a new name leaves the name, if it ends with the word or before
its last blank. -/
theorem strip_drop_eq_iff {f : List Char} (hr : r ≠ []) (n : Nat) :
    strip ((f ++ (asWord ++ r)).drop (n + 4)) = r
      ↔ strip r = r ∧ (n = f.length ∨ n + 1 = f.length) := by
  have hfour : asWord.length = 4 := by decide
  have hblank : (f ++ (asWord ++ r)).drop (f.length + 3) = ' ' :: r := by
    rw [← drop_drop, drop_left]
    rfl
  constructor
  · intro h
    rcases Nat.lt_trichotomy n f.length with hlt | rfl | hgt
    · rcases Nat.lt_or_ge (n + 1) f.length with hlt' | hge
      · -- a letter of the word is left
        have hsplit : f ++ (asWord ++ r) = (f ++ " A".toList) ++ ("S ".toList ++ r) := by
          rw [append_assoc]
          rfl
        have hlength : n + 4 ≤ (f ++ " A".toList).length := by
          rw [length_append, show " A".toList.length = 2 by decide]
          omega
        rw [hsplit, drop_append_of_le_length hlength, ← append_assoc] at h
        refine absurd h (Text.strip_append_ne (c := 'S') ?_ (by decide) hr)
        exact mem_append_right _ (by decide)
      · obtain hn : n + 1 = f.length := by omega
        rw [show n + 4 = f.length + 3 by omega, hblank, Formula.strip_cons_blank (by decide)] at h
        exact ⟨h, .inr hn⟩
    · rw [drop_asWord] at h
      exact ⟨h, .inl rfl⟩
    · -- some of the name is dropped
      have hlength := Text.length_strip_le ((f ++ (asWord ++ r)).drop (n + 4))
      have hpos := length_pos_iff.mpr hr
      rw [h, length_drop, length_append, length_append] at hlength
      omega
  · rintro ⟨hstrip, rfl | hn⟩
    · rw [drop_asWord, hstrip]
    · rw [show n + 4 = f.length + 3 by omega, hblank, Formula.strip_cons_blank (by decide), hstrip]

/-- The column that leaves a tool for a text that it holds. -/
theorem leaving_eq_column_iff {c : Choice} (hfield : c.field ≠ "") :
    (if isRenamed c.written then aliasOf c.written else c.written) = c.column ↔ c.Named := by
  unfold Choice.column Choice.Named
  by_cases hr : c.rename = ""
  · have hwritten : c.written = c.field := if_pos hr
    rw [if_pos hr, if_pos hr, hwritten]
    cases hrenamed : isRenamed c.field with
    | false => simp
    | true =>
      -- at least the word is dropped
      have hshort : (aliasOf c.field).toList.length < c.field.toList.length := by
        rw [aliasOf, String.toList_ofList]
        refine Nat.lt_of_le_of_lt (Text.length_strip_le _) ?_
        have hpos := length_pos_iff.mpr (mt String.toList_eq_nil_iff.mp hfield)
        rw [length_drop]
        omega
      simp only [if_true, Bool.true_eq_false, iff_false]
      exact fun heq => Nat.lt_irrefl _ (heq ▸ hshort)
  · have hwritten := Choice.toList_written hr
    have hrenamed : isRenamed c.written := by
      refine isRenamed_of_word ?_
      rw [hwritten]
      exact ⟨_, _, append_assoc ..⟩
    obtain ⟨place, hplace⟩ : ∃ place,
        Text.find? asWord (upper c.written.toList) = some place :=
      Option.isSome_iff_exists.mp hrenamed
    rw [if_neg hr, if_neg hr, hrenamed, if_pos rfl, aliasOf, ← asWord, hplace, hwritten,
      ← String.toList_inj, String.toList_ofList, Option.getD_some,
      strip_drop_eq_iff (mt String.toList_eq_nil_iff.mp hr), ← String.length_toList]
    simp

/-! ## The tool of a document -/

theorem selected_readSelection (e : Element) (t : Tool) :
    (Workflow.readSelection e t).selected = ((choices e).filter (·.kept)).map (·.written) := by
  simp [Workflow.readSelection, Tool.set, choices, Choice.written, filter_map, Function.comp_def]

theorem field_ne_of_mem_choices {e : Element} {c : Choice} (h : c ∈ choices e) : c.field ≠ "" := by
  have hfield := (mem_filter.mp h).2
  rintro heq
  rw [heq] at hfield
  exact absurd hfield (by decide)

/-- The columns that enter a tool can always be found, so its block depends on what it keeps. -/
theorem result_toolBlock_select {w : Workflow} (ht : t ∈ w.tools) (hname : t.name = "Select")
    (hkept : t.selected ≠ []) (source name : String) (b : Build) :
    result (Work.toolBlock w t source name) b
      = (t.selected.mapM keptField).map (selectionBlock t source name) := by
  obtain ⟨entering, hentering, -⟩ := ColumnQuery.ends_ask (q := .entering t) ht b
  have hkept : ¬ t.selected.isEmpty := fun h => hkept (isEmpty_iff.mp h)
  have hentering : result (Work.enteringColumns w t) b = .ok entering := hentering
  rw [Work.toolBlock, result_bind_of_ok hentering]
  simp only [Work.stepBlock, hname]
  rw [if_neg hkept, keptFields]
  cases t.selected.mapM keptField with
  | error e => rfl
  | ok ds => rfl

theorem leavingColumns_select (hname : t.name = "Select") (hinput : t.category ≠ .input)
    (hkept : t.selected ≠ []) (entering : List String) :
    leavingColumns t entering = t.selected.map fun f => if isRenamed f then aliasOf f else f := by
  have hkept : ¬ t.selected.isEmpty := fun h => hkept (isEmpty_iff.mp h)
  unfold leavingColumns
  rw [hname]
  cases hcategory : t.category
  case input => exact absurd hcategory hinput
  all_goals exact if_neg hkept

/-- The choices of a document in the tool that it is read into, whatever columns were asked for
before. The block of the tool can be written unless a field that keeps its name has the word in it
but not in capitals. It selects what it should exactly if each text is cut behind the field and
nowhere else, and loses no blank. The columns that leave the tool are those that should exactly if
for each new name the word is met where the field ends, counted in capitals. -/
theorem selection_survives_iff {w : Workflow} {e : Element} {t : Tool} (hname : t.name = "Select")
    (hinput : t.category ≠ .input) (hkept : ∃ c ∈ choices e, c.kept)
    (htool : Workflow.readSelection e t ∈ w.tools) (hsole : w.Sole (Workflow.readSelection e t))
    {qs : List ColumnQuery} (hqs : ∀ q ∈ qs, q.tool ∈ w.tools) {b : Build} (hb : b.columns = [])
    (source name : String) :
    let tool := Workflow.readSelection e t
    let kept := (choices e).filter (·.kept)
    let asked := state (qs.mapM (·.ask w)) b
    ((∃ text, result (Work.toolBlock w tool source name) asked = .ok text)
      ↔ ∀ c ∈ kept, ¬ c.Torn)
    ∧ (result (Work.toolBlock w tool source name) asked
        = .ok (selectionBlock tool source name (kept.map (·.item)))
      ↔ ∀ c ∈ kept, c.Shown)
    ∧ (result (Work.toolColumns w tool) asked = .ok (kept.map (·.column))
      ↔ ∀ c ∈ kept, c.Named) := by
  intro tool kept asked
  have hselected : tool.selected = kept.map (·.written) := selected_readSelection e t
  have hne : tool.selected ≠ [] := by
    obtain ⟨c, hc, hkept⟩ := hkept
    rw [hselected]
    exact ne_nil_of_mem (mem_map_of_mem (mem_filter.mpr ⟨hc, hkept⟩))
  have hblock := result_toolBlock_select htool hname hne source name asked
  have hleaving := leavingColumns_select (t := tool) hname hinput hne
  rw [hselected, mapM_map] at hblock
  refine ⟨?_, ⟨fun h => ?_, fun h => ?_⟩, ?_⟩
  · rw [hblock, exists_map_eq_ok, exists_mapM_eq_ok]
    exact forall₂_congr fun c _ => Choice.exists_keptField_iff
  · rw [hblock] at h
    cases hselects : kept.mapM (keptField ∘ Choice.written) with
    | error e =>
      rw [hselects] at h
      cases h
    | ok ds =>
      rw [hselects] at h
      have heq := selectionBlock_inj.mp (Except.ok.inj h)
      rw [map_map] at heq
      exact Selects.shown (mapM_eq_ok.mp hselects) _ heq
  · have hselects : kept.mapM (keptField ∘ Choice.written) = .ok (kept.map (·.item)) := by
      rw [mapM_eq_ok, forall₂_map_right_iff, forall₂_same]
      exact fun c hc => Choice.keptField_of_shown (h c hc)
    rw [hblock, hselects]
    rfl
  · have hnone : Keeps tool (tool.selected.map fun f => if isRenamed f then aliasOf f else f)
        b.columns := by
      rw [hb]
      exact fun _ h => absurd h (by simp)
    have hkeeps := (ensures_mapM (fun q hq =>
      ColumnQuery.ensures_keeps hleaving hsole (hqs q hq)) b hnone).1
    rw [Work.toolColumns_of_keeps hleaving htool hkeeps, Except.ok.injEq, hselected, map_map,
      map_inj_left]
    exact forall₂_congr fun c hc =>
      leaving_eq_column_iff (field_ne_of_mem_choices (mem_filter.mp hc).1)

/-- The fields of a document that are kept, with their new names. -/
def keptIn (fields : List (String × String)) : Element :=
  .mk (.plain "Configuration") [] "" (fields.map fun f =>
    .mk (.plain "SelectField") [(.plain "field", f.1), (.plain "rename", f.2)] "" [] "") ""

def selectTool : Tool := { id := 1, name := "Select" }

def keeping (fields : List (String × String)) : Workflow :=
  { metadata := { name := "kept", path := "kept.yxmd" }
    tools := [Workflow.readSelection (keptIn fields) selectTool]
    connections := [] }

/-- A new name survives; a field with a small `as` in it does not. -/
theorem selection_survives_totals :
    (let fields := [("id", "key"), ("total", "")]
    let tool := Workflow.readSelection (keptIn fields) selectTool
    result (Work.toolBlock (keeping fields) tool "source" "final") unasked
        = .ok (selectionBlock tool "source" "final" ["\"id\" as \"key\"", "\"total\""])
      ∧ result (Work.toolColumns (keeping fields) tool) unasked = .ok ["key", "total"])
    ∧ (let fields := [("id", "key"), ("total as paid", "")]
    let tool := Workflow.readSelection (keptIn fields) selectTool
    (¬ ∃ text, result (Work.toolBlock (keeping fields) tool "source" "final") unasked = .ok text)
      ∧ result (Work.toolColumns (keeping fields) tool) unasked
        ≠ .ok ["key", "total as paid"]) := by
  have hnone : ∀ {w : Workflow}, ∀ q ∈ ([] : List ColumnQuery), q.tool ∈ w.tools := forall_mem_nil _
  constructor
  · obtain ⟨-, hblock, hcolumns⟩ := selection_survives_iff
      (w := keeping [("id", "key"), ("total", "")]) (t := selectTool) rfl (by decide) (by decide)
      (mem_singleton.mpr rfl) (fun u hu _ => mem_singleton.mp hu) hnone
      (b := unasked) rfl "source" "final"
    exact ⟨hblock.mpr (by decide), hcolumns.mpr (by decide)⟩
  · obtain ⟨hblock, -, hcolumns⟩ := selection_survives_iff
      (w := keeping [("id", "key"), ("total as paid", "")]) (t := selectTool) rfl (by decide)
      (by decide) (mem_singleton.mpr rfl) (fun u hu _ => mem_singleton.mp hu) hnone
      (b := unasked) rfl "source" "final"
    exact ⟨mt hblock.mp (by decide), mt hcolumns.mp (by decide)⟩

end Replatform.Project

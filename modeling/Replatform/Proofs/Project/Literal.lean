import Replatform.Project.Literal
import Replatform.Proofs.Formula.Parts
import Replatform.Proofs.Numeral
import Replatform.Proofs.Quotation
/-!
# Literals that are read back

A reader for the literals of the template language, and the values whose literal it reads as the
same value (`readLiteral_literal_iff`): those without fractions, in which no text names a relation
and a backslash is only found where it begins no escape. A quote is escaped in a text, but not in
the key of a field.
-/

namespace Replatform.Project.Template

open List Number

/-! ## Texts in quotes -/

/-- The escapes of one character. An escaped line break does not count. -/
def shortEscapes : List (Char × List Char) :=
  [('\\', ['\\']), ('\x27', ['\x27']), ('\x22', ['\x22']), ('a', ['\x07']), ('b', ['\x08']),
   ('f', ['\x0c']), ('n', ['\n']), ('r', ['\r']), ('t', ['\t']), ('v', ['\x0b']), ('\n', [])]

def isOctal (c : Char) : Bool := '0' ≤ c && c ≤ '7'

/-- Whether a backslash stands for itself in front of `c`. -/
def isInert (c : Char) : Bool :=
  c.toNat < 128 && c != 'N' && c != '\r' && !isOctal c && (shortEscapes.lookup c).isNone
    && (Text.Quotation.hexLengths.lookup c).isNone

/-- An escape by one to three octal digits. -/
def octalEscape? (s : List Char) : Option (List Char × Nat) :=
  let ds := (s.take 3).takeWhile isOctal
  if ds = [] then none else some ([Char.ofNat (Nat.ofDigitChars 8 ds 0)], ds.length)

/-- The length of the line feed at the front of a text, if there is one. -/
def feed (s : List Char) : Nat := if s.head? = some '\n' then 1 else 0

/-- What a character of a text stands for. Every line break stands for a line feed. -/
def unit? (c : Char) (s : List Char) : Option (List Char × Nat) :=
  if c = '\r' then some (['\n'], feed s)
  else if c ≠ '\\' ∨ s.head?.any isInert then some ([c], 0)
  else if s.head? = some '\r' then some ([], 1 + feed s.tail)
  else (Text.Quotation.escape? shortEscapes s).or (octalEscape? s)

def quotation : Text.Quotation := ⟨'\x27', unit?⟩

theorem feed_le (s : List Char) : feed s ≤ s.length ∧ ∀ d ∈ s.take (feed s), d = '\n' := by
  cases s with
  | nil => exact ⟨Nat.le_refl _, forall_mem_nil _⟩
  | cons c s =>
    rw [feed, head?_cons]
    split
    next hc =>
      refine ⟨Nat.le_add_left 1 _, fun d hd => ?_⟩
      rw [mem_singleton.mp hd, Option.some.inj hc]
    next => exact ⟨Nat.zero_le _, forall_mem_nil _⟩

theorem octalEscape?_fits {s out : List Char} {n : Nat} (h : octalEscape? s = some (out, n)) :
    0 < n ∧ quotation.Fits s out n := by
  rw [octalEscape?] at h
  split at h
  next => cases h
  next hne =>
    cases h
    have hdigits : (s.take 3).takeWhile isOctal <+: s.take 3 := takeWhile_prefix _
    have hfront := hdigits.trans <| take_prefix 3 s
    refine ⟨length_pos_iff.mpr hne, hfront.length_le, fun d hd => ?_, Nat.le_refl _⟩
    rw [← prefix_iff_eq_take.mp hfront] at hd
    have hoctal := all_eq_true.mp all_takeWhile d hd
    exact ⟨fun he => absurd (he ▸ hoctal) (by decide), fun he => absurd (he ▸ hoctal) (by decide)⟩

theorem quotation_regular : quotation.Regular where
  quote_ne := by decide
  escaped_quote _ := rfl
  escaped_backslash _ := rfl
  fits := by
    intro c s out n h hhead
    change unit? c s = _ at h
    rw [unit?] at h
    split at h
    next =>
      cases h
      obtain ⟨hlength, hfeed⟩ := feed_le s
      refine ⟨hlength, fun d hd => ?_, Nat.le_refl _⟩
      rw [hfeed d hd]
      decide
    next =>
      split at h
      next =>
        cases h
        exact ⟨Nat.zero_le _, forall_mem_nil _, Nat.le_refl _⟩
      next hback =>
        have hhead := hhead (Classical.not_not.mp fun hc => hback (.inl hc))
        split at h
        next hbreak =>
          cases h
          obtain ⟨t, rfl⟩ : ∃ t, s = '\r' :: t := head?_eq_some_iff.mp hbreak
          obtain ⟨hlength, hfeed⟩ := feed_le t
          rw [tail_cons, Nat.add_comm]
          refine ⟨Nat.succ_le_succ hlength, fun d hd => ?_, Nat.zero_le _⟩
          rcases mem_cons.mp hd with rfl | hd
          · decide
          · rw [hfeed d hd]
            decide
        next =>
          rcases Option.or_eq_some_iff.mp h with h | ⟨-, h⟩
          · exact Text.Quotation.escape?_fits (by decide) (by decide) hhead h
          · exact (octalEscape?_fits h).2

theorem unit?_self_iff {c : Char} {s : List Char} : unit? c s = some ([c], 0)
    ↔ c ≠ '\r' ∧ (c = '\\' → s.head?.any isInert) := by
  rw [unit?]
  split
  next hc =>
    subst hc
    simp
  next hc =>
    split
    next hback =>
      refine iff_of_true rfl ⟨hc, fun he => ?_⟩
      exact hback.resolve_left fun hne => hne he
    next hback =>
      obtain rfl : c = '\\' := Classical.not_not.mp fun hc => hback (.inl hc)
      refine iff_of_false (fun h => ?_) fun h => hback (.inr (h.2 rfl))
      -- every escape takes a character behind the backslash
      split at h
      next => cases h
      next =>
        rcases Option.or_eq_some_iff.mp h with h | ⟨-, h⟩
        · exact absurd (Text.Quotation.escape?_pos h) (Nat.lt_irrefl 0)
        · exact absurd (octalEscape?_fits h).1 (Nat.lt_irrefl 0)

/-- A text in which no line break is a carriage return, and no backslash begins an escape. -/
def isHarmless : List Char → Bool
  | [] => true
  | c :: s => c != '\r' && (c != '\\' || s.head?.any isInert) && isHarmless s

theorem head?_closed (escaped : Bool) (k s : List Char) :
    (quotation.closed escaped k s).head?.any isInert = s.head?.any isInert := by
  cases s with
  | nil => rfl
  | cons c s =>
    rw [Text.Quotation.closed]
    split
    next hc =>
      rw [hc.1]
      rfl
    next => rfl

theorem keeps_iff {escaped : Bool} {k s : List Char} :
    quotation.Keeps escaped k s ↔ isHarmless s ∧ (escaped ∨ '\x27' ∉ s) := by
  induction s with
  | nil => simp [Text.Quotation.Keeps, isHarmless]
  | cons c s ih =>
    rw [Text.Quotation.Keeps, ih, isHarmless]
    by_cases hc : c = '\x27'
    · subst hc
      simp only [quotation]
      grind
    · have hself : quotation.unit? c (quotation.closed escaped k s) = some ([c], 0)
          ↔ c ≠ '\r' ∧ (c = '\\' → s.head?.any isInert) := by
        rw [← head?_closed escaped k s]
        exact unit?_self_iff
      have hne : c ≠ quotation.quote := hc
      rw [if_neg hne, hself]
      grind

/-! ## Literals -/

def skip (s : List Char) : List Char := s.dropWhile Char.isWhitespace

def names : List (String × Value) :=
  [("none", .null), ("None", .null), ("true", .bool true), ("True", .bool true),
   ("false", .bool false), ("False", .bool false)]

/-- A name or a whole number. -/
def plain? (s : List Char) : Option (Value × List Char) :=
  (names.findSome? fun e => (Text.after? e.1.toList s).map (e.2, ·)).or
    ((numeral? s).map fun r => (.int r.1, r.2))

/-- The items up to a closing bracket, with commas between them, and what follows the bracket. -/
def series? {α : Type} (close : Char) (item? : List Char → Option (α × List Char)) :
    Nat → List Char → Option (List α × List Char)
  | 0, _ => none
  | fuel + 1, s =>
    if (skip s).head? = some close then some ([], (skip s).tail)
    else (item? s).bind fun r =>
      if (skip r.2).head? = some close then some ([r.1], (skip r.2).tail)
      else if (skip r.2).head? = some ',' then
        (series? close item? fuel (skip r.2).tail).map fun t => (r.1 :: t.1, t.2)
      else none

/-- A field: its key in quotes, a colon and its value. -/
def field? (value? : List Char → Option (Value × List Char)) (s : List Char) :
    Option ((String × Value) × List Char) :=
  if (skip s).head? = some '\x27' then
    (quotation.read? (skip s).tail).bind fun r =>
      if (skip r.2).head? = some ':' then
        (value? (skip r.2).tail).map fun t => ((String.ofList r.1, t.1), t.2)
      else none
  else none

/-- The value at the front of a text, and what follows it. -/
def value? : Nat → List Char → Option (Value × List Char)
  | 0, _ => none
  | fuel + 1, s =>
    match skip s with
    | '\x27' :: t => (quotation.read? t).map fun r => (.text (String.ofList r.1), r.2)
    | '[' :: t => (series? ']' (value? fuel) fuel t).map fun r => (.list r.1, r.2)
    | '\x7b' :: t => (series? '\x7d' (field? (value? fuel)) fuel t).map fun r => (.record r.1, r.2)
    | t => plain? t

/-- The value of a literal; nothing, if it is malformed or something follows it. -/
def readLiteral (text : String) : Option Value :=
  (value? (text.toList.length + 1) text.toList).bind fun r =>
    if skip r.2 = [] then some r.1 else none

section Series

variable {α : Type} {close : Char} {item? : List Char → Option (α × List Char)} {fuel : Nat}
  {s rest : List Char} {x : α} {xs : List α} {P : Prop}

theorem exists_item (h : series? close item? fuel s = some (x :: xs, rest)) :
    ∃ r, item? s = some (x, r) := by
  cases fuel with
  | zero => cases h
  | succ fuel =>
    rw [series?] at h
    split at h
    next => cases h
    next =>
      obtain ⟨r, hr, h⟩ := Option.bind_eq_some_iff.mp h
      split at h
      next =>
        cases h
        exact ⟨r.2, hr⟩
      next =>
        split at h
        next =>
          obtain ⟨t, -, he⟩ := Option.map_eq_some_iff.mp h
          cases he
          exact ⟨r.2, hr⟩
        next => cases h

/-- The first item is read, and then the closing bracket, or a comma and the other items. -/
theorem series?_item {d : Char} {t : List Char} (hd : d.isWhitespace = false)
    (hfirst : ∀ r, item? s = some r → (skip s).head? ≠ some close)
    (hitem : ∀ r, item? s = some (x, r) ↔ P ∧ r = d :: t) :
    series? close item? (fuel + 1) s = some (x :: xs, rest)
      ↔ P ∧ if d = close then xs = [] ∧ rest = t
        else d = ',' ∧ series? close item? fuel t = some (xs, rest) := by
  by_cases hP : P
  · have hs := (hitem _).mpr ⟨hP, rfl⟩
    have hskip : skip (d :: t) = d :: t := dropWhile_cons_of_neg (by simp [hd])
    rw [series?, if_neg (hfirst _ hs), hs, Option.bind_some, hskip, head?_cons, tail_cons,
      and_iff_right hP]
    by_cases hclose : d = close
    · simp [hclose, eq_comm]
    · cases series? close item? fuel t <;> simp [hclose, Prod.ext_iff]
  · refine iff_of_false (fun h => ?_) fun h => hP h.1
    obtain ⟨r, hr⟩ := exists_item h
    exact hP ((hitem r).mp hr).1

theorem series?_blank (hitem : ∀ s, item? (' ' :: s) = item? s) (fuel : Nat) (s : List Char) :
    series? close item? fuel (' ' :: s) = series? close item? fuel s := by
  cases fuel with
  | zero => rfl
  | succ fuel =>
    have hskip : skip (' ' :: s) = skip s := rfl
    rw [series?, series?, hskip, hitem]

end Series

/-! ## Values that are kept -/

/-- Unlike a text, a key is not kept if there is a quote in it. -/
def isKeptKey (key : String) : Bool := isHarmless key.toList && !key.toList.elem '\x27'

mutual

/-- Whether the literal of a value is read as the same value. -/
def isKept : Value → Bool
  | .null | .bool _ | .int _ => true
  | .float _ => false
  | .text s => !isRelation s && isHarmless s.toList
  | .list vs => itemsKept vs
  | .record fs => fieldsKept fs

def itemsKept : List Value → Bool
  | [] => true
  | v :: vs => isKept v && itemsKept vs

def fieldsKept : List (String × Value) → Bool
  | [] => true
  | (key, v) :: fs => isKeptKey key && isKept v && fieldsKept fs

end

variable {n : Nat} {s k rest : List Char}

theorem value?_blank (n : Nat) (s : List Char) : value? n (' ' :: s) = value? n s := by
  cases n <;> rfl

theorem plain?_kind {v : Value} (h : plain? s = some (v, rest)) :
    v = .null ∨ (∃ b, v = .bool b) ∨ ∃ i, v = .int i := by
  rcases Option.or_eq_some_iff.mp h with h | ⟨-, h⟩
  · obtain ⟨e, he, h⟩ := exists_of_findSome?_eq_some h
    obtain ⟨t, -, h⟩ := Option.map_eq_some_iff.mp h
    cases h
    simp only [names, mem_cons, not_mem_nil, or_false] at he
    rcases he with rfl | rfl | rfl | rfl | rfl | rfl <;> simp
  · obtain ⟨r, -, h⟩ := Option.map_eq_some_iff.mp h
    cases h
    exact .inr (.inr ⟨_, rfl⟩)

theorem value?_ne_float (n : Nat) (s rest : List Char) (x : Binary64) :
    value? n s ≠ some (.float x, rest) := by
  intro h
  cases n with
  | zero => cases h
  | succ n =>
    rw [value?] at h
    split at h
    case h_4 => simpa using plain?_kind h
    all_goals
      obtain ⟨r, -, he⟩ := Option.map_eq_some_iff.mp h
      cases he

theorem value?_head (n : Nat) (s : List Char) (r : Value × List Char) (h : value? n s = some r) :
    (skip s).head? ≠ some ']' := by
  intro hhead
  obtain ⟨t, ht⟩ := head?_eq_some_iff.mp hhead
  cases n with
  | zero => cases h
  | succ n =>
    rw [value?, ht] at h
    cases h

theorem value?_plain {c : Char} (hblank : c.isWhitespace = false)
    (hc : c ≠ '\x27' ∧ c ≠ '[' ∧ c ≠ '\x7b') (n : Nat) (s : List Char) :
    value? (n + 1) (c :: s) = plain? (c :: s) := by
  have hskip : skip (c :: s) = c :: s := by
    rw [skip, dropWhile_cons, hblank, if_neg Bool.false_ne_true]
  rw [value?, hskip]
  split
  next he => exact absurd (cons.inj he).1 hc.1
  next he => exact absurd (cons.inj he).1 hc.2.1
  next he => exact absurd (cons.inj he).1 hc.2.2
  next => rfl

theorem value?_int (n : Nat) (i : Int) (hk : NoDigit k) :
    value? (n + 1) ((toString i).toList ++ k) = some (.int i, k) := by
  have hnum := numeral?_toString i hk
  obtain ⟨c, t, ht⟩ := exists_toString i
  have hc := digit_of_mem_toString (ht ▸ mem_cons_self ..)
  rw [ht, cons_append] at hnum ⊢
  have hne : ∀ d : Char, d ≠ '-' → d.isDigit = false → c ≠ d := by
    rintro d hminus hdigit rfl
    exact hc.elim hminus fun h => Bool.false_ne_true (hdigit.symm.trans h)
  have hnames : (names.findSome? fun e => (Text.after? e.1.toList (c :: (t ++ k))).map (e.2, ·))
      = none := by
    simp [names, Text.after?, (hne _ _ _).symm]
  rw [value?_plain _ ⟨hne _ _ _, hne _ _ _, hne _ _ _⟩, plain?, hnames, hnum]
  all_goals try decide
  · rfl
  · simp [Char.isWhitespace, hne]

theorem value?_relation {t : String} (ht : isRelation t) (n : Nat) :
    value? n (t.toList ++ k) ≠ some (.text t, rest) := by
  obtain ⟨c, u, hu, hc⟩ : ∃ c u, t.toList = c :: u ∧ (c = 's' ∨ c = 'r') := by
    simp only [isRelation, Bool.or_eq_true, beq_iff_eq] at ht
    rcases ht with ((rfl | ht) | ht) | ht
    · exact ⟨'s', _, rfl, .inl rfl⟩
    all_goals obtain ⟨u, hu⟩ := Formula.startsWith_iff.mp ht
    · exact ⟨_, _, hu.symm, .inl rfl⟩
    · exact ⟨_, _, hu.symm, .inr rfl⟩
    · exact ⟨_, _, hu.symm, .inl rfl⟩
  cases n with
  | zero => rintro ⟨⟩
  | succ n =>
    rw [hu, cons_append, value?_plain]
    · exact fun h => by simpa using plain?_kind h
    · rcases hc with rfl | rfl <;> rfl
    · rcases hc with rfl | rfl <;> decide

theorem toList_quoteText (t : String) (k : List Char) :
    (quoteText t).toList ++ k = '\x27' :: quotation.closed true k t.toList := by
  have hgo : ∀ s : List Char, Text.replaceGo ['\x27'] ['\\', '\x27'] 0 s ++ '\x27' :: k
      = quotation.closed true k s := by
    intro s
    induction s with
    | nil => rfl
    | cons c s ih =>
      rw [Text.Quotation.closed, Text.replaceGo, ← ih]
      by_cases hc : c = '\x27'
      · subst hc
        rfl
      · have hstart : Text.startsWith ['\x27'] (c :: s) = false := by
          simp [Text.startsWith, Text.after?, Ne.symm hc]
        rw [hstart, if_neg Bool.false_ne_true, if_neg fun h => hc h.1]
        rfl
  rw [quoteText, String.toList_append, String.toList_append]
  show '\x27' :: ((String.ofList (Text.replaceAll _ _ t.toList)).toList ++ ['\x27'] ++ k) = _
  rw [String.toList_ofList, Text.replaceAll, if_neg (cons_ne_nil _ _), append_assoc]
  exact congrArg _ (hgo t.toList)

/-- What follows a text that is read back is read on. -/
theorem read?_text_iff {escaped : Bool} {t : String} {P : List Char → Prop} :
    (∃ r, quotation.read? (quotation.closed escaped k t.toList) = some r ∧ String.ofList r.1 = t
        ∧ P r.2)
      ↔ (isHarmless t.toList ∧ (escaped ∨ '\x27' ∉ t.toList)) ∧ P k := by
  rw [← keeps_iff (k := k)]
  constructor
  · rintro ⟨⟨u, r⟩, hread, rfl, hr⟩
    rw [String.toList_ofList] at hread ⊢
    obtain ⟨hkeeps, rfl⟩ := quotation_regular.read?_closed_iff.mp hread
    exact ⟨hkeeps, hr⟩
  · rintro ⟨hkeeps, hk⟩
    exact ⟨_, hkeeps.read? quotation_regular, String.ofList_toList, hk⟩

theorem field?_iff {value? : List Char → Option (Value × List Char)} {key : String} {v : Value}
    {t : List Char} : field? value? ('\x27' :: t) = some ((key, v), rest)
      ↔ ∃ r, quotation.read? t = some r ∧ String.ofList r.1 = key
        ∧ ∃ u, skip r.2 = ':' :: u ∧ value? u = some (v, rest) := by
  show Option.bind (quotation.read? t) _ = _ ↔ _
  rw [Option.bind_eq_some_iff]
  refine exists_congr fun r => and_congr_right fun _ => ?_
  cases skip r.2 with
  | nil => simp
  | cons c u =>
    by_cases hc : c = ':'
    · subst hc
      rw [head?_cons, if_pos rfl, tail_cons, Option.map_eq_some_iff]
      simp only [Prod.mk.injEq, cons.injEq, true_and]
      constructor
      · rintro ⟨x, hx, ⟨hkey, rfl⟩, rfl⟩
        exact ⟨hkey, u, rfl, hx⟩
      · rintro ⟨hkey, _, rfl, hx⟩
        exact ⟨_, hx, ⟨hkey, rfl⟩, rfl⟩
    · simp [hc]

theorem field?_head {value? : List Char → Option (Value × List Char)}
    (s : List Char) (r : (String × Value) × List Char) (h : field? value? s = some r) :
    (skip s).head? ≠ some '\x7d' := by
  intro hhead
  rw [field?, hhead, if_neg (by decide)] at h
  cases h

theorem toList_field (key : String) (v : Value) (k : List Char) :
    (literalFields [(key, v)]).toList ++ k
      = '\x27' :: quotation.closed false (':' :: ' ' :: ((literal v).toList ++ k)) key.toList := by
  rw [Text.Quotation.closed_false, literalFields]
  simp only [String.toList_append, append_assoc]
  rfl

theorem toList_fields (key : String) (v : Value) (f : String × Value) (fs : List (String × Value)) :
    (literalFields ((key, v) :: f :: fs)).toList
      = (literalFields [(key, v)]).toList ++ ',' :: ' ' :: (literalFields (f :: fs)).toList := by
  rw [literalFields, literalFields, String.toList_append, String.toList_append, append_assoc]
  rfl

theorem length_field (key : String) (v : Value) :
    (literal v).toList.length ≤ (literalFields [(key, v)]).toList.length := by
  rw [literalFields]
  simp only [String.toList_append, length_append]
  omega

/-- A field is read back if its key and its value are. -/
theorem field?_literal {key : String} {v : Value}
    (hv : value? n ((literal v).toList ++ k) = some (v, rest) ↔ isKept v ∧ rest = k) :
    field? (value? n) ((literalFields [(key, v)]).toList ++ k) = some ((key, v), rest)
      ↔ (isKeptKey key && isKept v) ∧ rest = k := by
  rw [toList_field, field?_iff, read?_text_iff (P := fun r => ∃ u, skip r = ':' :: u
    ∧ value? n u = some (v, rest))]
  have hskip : ∀ t, skip (':' :: t) = ':' :: t := fun _ => rfl
  simp only [hskip, cons.injEq, true_and, exists_eq_left', value?_blank, hv, isKeptKey,
    Bool.and_eq_true, Bool.not_eq_true', elem_eq_contains, contains_eq_mem,
    decide_eq_false_iff_not, Bool.false_eq_true, false_or, and_assoc]

/-- What is read as a value is kept, and all of its literal is read. -/
theorem iff_of_value? {v : Value} (h : value? n s = some (v, k)) (hkept : isKept v) :
    value? n s = some (v, rest) ↔ isKept v ∧ rest = k := by
  rw [h, hkept]
  simp [eq_comm]

theorem toList_list (vs : List Value) :
    (literal (.list vs)).toList = '[' :: ((literalItems vs).toList ++ [']']) := by
  rw [literal, String.toList_append, String.toList_append]
  rfl

theorem toList_record (fs : List (String × Value)) :
    (literal (.record fs)).toList = '\x7b' :: ((literalFields fs).toList ++ ['\x7d']) := by
  rw [literal, String.toList_append, String.toList_append]
  rfl

theorem toList_items (v w : Value) (vs : List Value) : (literalItems (v :: w :: vs)).toList
    = (literal v).toList ++ ',' :: ' ' :: (literalItems (w :: vs)).toList := by
  rw [literalItems, String.toList_append, String.toList_append, append_assoc]
  rfl

mutual

theorem value?_literal : ∀ (v : Value) (n : Nat) (k rest : List Char),
    (literal v).toList.length < n → NoDigit k →
      (value? n ((literal v).toList ++ k) = some (v, rest) ↔ isKept v ∧ rest = k)
  | _, 0, _, _, hn, _ => absurd hn (Nat.not_lt_zero _)
  | .null, n + 1, k, rest, hn, hk => iff_of_value? rfl rfl
  | .bool b, n + 1, k, rest, hn, hk => by cases b <;> exact iff_of_value? rfl rfl
  | .int i, n + 1, k, rest, hn, hk => iff_of_value? (value?_int n i hk) rfl
  | .float x, n + 1, k, rest, hn, hk =>
    iff_of_false (value?_ne_float _ _ _ _) fun h => Bool.false_ne_true h.1
  | .text t, n + 1, k, rest, hn, hk => by
    rw [literal, isKept]
    cases hrelation : isRelation t with
    | true =>
      rw [if_pos rfl]
      exact iff_of_false (value?_relation hrelation _) fun h => Bool.false_ne_true h.1
    | false =>
      rw [if_neg Bool.false_ne_true, toList_quoteText]
      refine Option.map_eq_some_iff.trans ?_
      simp only [Prod.mk.injEq, Value.text.injEq]
      refine (read?_text_iff (P := (· = rest))).trans ?_
      simp only [true_or, and_true, Bool.not_false, Bool.true_and, eq_comm (a := k)]
  | .list vs, n + 1, k, rest, hn, hk => by
    rw [toList_list] at hn ⊢
    have hlength : (literalItems vs).toList.length < n := by
      simp only [length_cons, length_append, length_nil] at hn
      omega
    rw [cons_append, append_assoc, isKept, ← items?_literal vs n n k rest hlength hlength]
    show Option.map _ (series? _ _ _ _) = _ ↔ _
    simp [Prod.ext_iff]
  | .record fs, n + 1, k, rest, hn, hk => by
    rw [toList_record] at hn ⊢
    have hlength : (literalFields fs).toList.length < n := by
      simp only [length_cons, length_append, length_nil] at hn
      omega
    rw [cons_append, append_assoc, isKept, ← fields?_literal fs n n k rest hlength hlength]
    show Option.map _ (series? _ _ _ _) = _ ↔ _
    simp [Prod.ext_iff]

theorem items?_literal : ∀ (vs : List Value) (n fuel : Nat) (k rest : List Char),
    (literalItems vs).toList.length < n → (literalItems vs).toList.length < fuel →
      (series? ']' (value? n) fuel ((literalItems vs).toList ++ ']' :: k) = some (vs, rest)
        ↔ itemsKept vs ∧ rest = k)
  | _, _, 0, _, _, _, hfuel => absurd hfuel (Nat.not_lt_zero _)
  | [], n, fuel + 1, k, rest, hn, hfuel => by
    show some ([], k) = _ ↔ _
    simp [itemsKept, eq_comm]
  | [v], n, fuel + 1, k, rest, hn, hfuel => by
    rw [literalItems, itemsKept, itemsKept, Bool.and_true, series?_item rfl (value?_head n _)
      fun r => value?_literal v n _ r hn (noDigit_cons rfl)]
    simp
  | v :: w :: vs, n, fuel + 1, k, rest, hn, hfuel => by
    rw [toList_items] at hn hfuel ⊢
    simp only [length_cons, length_append] at hn hfuel
    have hrest := items?_literal (w :: vs) n fuel k rest (by omega) (by omega)
    rw [← series?_blank (value?_blank n)] at hrest
    rw [append_assoc, itemsKept, Bool.and_eq_true, and_assoc, ← hrest]
    refine (series?_item rfl (value?_head n _) fun r =>
      value?_literal v n _ r (by omega) (noDigit_cons rfl)).trans ?_
    simp

theorem fields?_literal : ∀ (fs : List (String × Value)) (n fuel : Nat) (k rest : List Char),
    (literalFields fs).toList.length < n → (literalFields fs).toList.length < fuel →
      (series? '\x7d' (field? (value? n)) fuel ((literalFields fs).toList ++ '\x7d' :: k)
        = some (fs, rest) ↔ fieldsKept fs ∧ rest = k)
  | _, _, 0, _, _, _, hfuel => absurd hfuel (Nat.not_lt_zero _)
  | [], n, fuel + 1, k, rest, hn, hfuel => by
    show some ([], k) = _ ↔ _
    simp [fieldsKept, eq_comm]
  | [(key, v)], n, fuel + 1, k, rest, hn, hfuel => by
    have hlength := Nat.lt_of_le_of_lt (length_field key v) hn
    rw [fieldsKept, fieldsKept, Bool.and_true, series?_item rfl (field?_head _) fun r =>
      field?_literal (value?_literal v n _ r hlength (noDigit_cons rfl))]
    simp
  | (key, v) :: f :: fs, n, fuel + 1, k, rest, hn, hfuel => by
    rw [toList_fields] at hn hfuel ⊢
    simp only [length_cons, length_append] at hn hfuel
    have hlength := length_field key v
    have hrest := fields?_literal (f :: fs) n fuel k rest (by omega) (by omega)
    rw [← series?_blank fun s => by rfl] at hrest
    rw [append_assoc, fieldsKept, Bool.and_eq_true, and_assoc, ← hrest]
    refine (series?_item rfl (field?_head _) fun r =>
      field?_literal (value?_literal v n _ r (by omega) (noDigit_cons rfl))).trans ?_
    simp

end

/-- The values whose literal is read as the same value. -/
theorem readLiteral_literal_iff (v : Value) :
    readLiteral (literal v) = some v ↔ isKept v := by
  have hvalue : ∀ {rest}, value? ((literal v).toList.length + 1) (literal v).toList = some (v, rest)
      ↔ isKept v ∧ rest = [] := by
    intro rest
    have h := value?_literal v _ [] rest (Nat.lt_succ_self _) fun _ hc => by cases hc
    rwa [append_nil] at h
  rw [readLiteral, Option.bind_eq_some_iff]
  constructor
  · rintro ⟨r, hr, h⟩
    split at h
    next =>
      cases h
      exact (hvalue.mp hr).1
    next => cases h
  · exact fun h => ⟨_, hvalue.mpr ⟨h, rfl⟩, if_pos rfl⟩

end Replatform.Project.Template

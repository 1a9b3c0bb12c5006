import Replatform.Proofs.Formula.Conversion
import Replatform.Proofs.Formula.Literal
/-!
# The parts of a formula

A formula is read from left to right into references to fields, literals, and single characters
(`parts`). What precedes the conversion of calls pays no attention to literals: a bracket in a
literal can begin a reference, and an operator is replaced wherever it stands. A formula is `tame`
if every literal nevertheless ends where it did, and no call is seen inside a literal or the name of
a field. Then its literals are still told apart before calls are converted (`guarded_prepare`).
-/

namespace Replatform.Formula

open List
open Text (after? isBlank replaceAll replaceGo startsWith)

variable {c q d : Char} {s body : List Char}

/-! ## Reading a formula -/

inductive Part
  | char (c : Char)
  | field (name : List Char)
  | literal (quote : Char) (body : List Char)
deriving DecidableEq, Repr

def Part.text : Part → List Char
  | char c => [c]
  | field name => '[' :: (name ++ [']'])
  | literal q body => quoted q body

/-- Where the reading of a formula stands: outside, or inside a part that goes to the next `close`,
of which some characters are known. -/
inductive Reader
  | outside
  | inside (close : Char) (part : List Char → Part) (known : List Char)

/-- The parts of a formula that is read from some state of the reader on. A quote that is not met
again begins no literal. -/
def partsFrom : Reader → List Char → List Part
  | _, [] => []
  | .outside, c :: s =>
    if c == '[' && endsField s then partsFrom (.inside ']' .field []) s
    else if isQuote c && s.contains c then partsFrom (.inside c (.literal c) []) s
    else .char c :: partsFrom .outside s
  | .inside close part known, c :: s =>
    if c = close then part known :: partsFrom .outside s
    else partsFrom (.inside close part (known ++ [c])) s

def parts (s : List Char) : List Part := partsFrom .outside s

theorem endsField_name {name : List Char} (hne : name ≠ []) (hname : ']' ∉ name) (s : List Char) :
    endsField (name ++ ']' :: s) := by
  obtain ⟨c, rest, rfl⟩ := exists_cons_of_ne_nil hne
  have hc : c ≠ ']' := fun h => hname (h ▸ mem_cons_self ..)
  simp [endsField, hc]

theorem parts_char (hfield : (c == '[' && endsField s) = false)
    (hliteral : (isQuote c && s.contains c) = false) : parts (c :: s) = .char c :: parts s := by
  rw [parts, partsFrom, hfield, hliteral]
  rfl

theorem partsFrom_inside {close : Char} (part : List Char → Part) (hbody : close ∉ body)
    (s : List Char) :
    ∀ known, partsFrom (.inside close part known) (body ++ close :: s)
      = part (known ++ body) :: parts s := by
  induction body with
  | nil =>
    intro known
    rw [nil_append, partsFrom, if_pos rfl, append_nil]
    rfl
  | cons c body ih =>
    intro known
    have hc : c ≠ close := fun h => hbody (h ▸ mem_cons_self ..)
    rw [cons_append, partsFrom, if_neg hc, ih fun h => hbody (.tail _ h), append_assoc]
    rfl

theorem parts_field {name : List Char} (hne : name ≠ []) (hname : ']' ∉ name) (s : List Char) :
    parts ('[' :: (name ++ ']' :: s)) = .field name :: parts s := by
  rw [parts, partsFrom, if_pos (by rw [endsField_name hne hname]; rfl)]
  exact partsFrom_inside .field hname s []

theorem parts_literal (hq : isQuote q) (hbody : q ∉ body) (s : List Char) :
    parts (q :: (body ++ q :: s)) = .literal q body :: parts s := by
  have hbracket : (q == '[') = false := by
    rcases isQuote_iff.mp hq with rfl | rfl <;> decide
  rw [parts, partsFrom, if_neg (by simp [hbracket]), if_pos (by simp [hq])]
  exact partsFrom_inside (.literal q) hbody s []

/-- A formula is empty, or begins with a character, a reference or a literal. -/
@[elab_as_elim]
theorem parts_induction {motive : List Char → Prop} (nil : motive [])
    (char : ∀ c s, (c == '[' && endsField s) = false → (isQuote c && s.contains c) = false →
      motive s → motive (c :: s))
    (field : ∀ name s, name ≠ [] → ']' ∉ name → motive s → motive ('[' :: (name ++ ']' :: s)))
    (literal : ∀ q body s, isQuote q → q ∉ body → motive s →
      motive (q :: (body ++ q :: s))) (s : List Char) : motive s := by
  induction hlength : s.length using Nat.strong_induction_on generalizing s with
  | h n ih =>
    subst hlength
    have hrest : ∀ (x rest : List Char) (d : Char), (x ++ d :: rest).length < s.length →
        motive rest := by
      intro x rest d hlt
      refine ih rest.length ?_ rest rfl
      rw [length_append, length_cons] at hlt
      omega
    cases s with
    | nil => exact nil
    | cons c s =>
      have hlt : s.length < (c :: s).length := Nat.lt_succ_self _
      by_cases hfield : (c == '[' && endsField s)
      · rw [Bool.and_eq_true, beq_iff_eq, endsField, Bool.and_eq_true, contains_iff_mem]
          at hfield
        obtain ⟨rfl, hhead, hmem⟩ := hfield
        obtain ⟨name, rest, rfl, hname⟩ := eq_append_cons_of_mem hmem
        refine field name rest ?_ hname (hrest _ _ _ hlt)
        rintro rfl
        exact absurd hhead (by simp)
      · by_cases hliteral : (isQuote c && s.contains c)
        · rw [Bool.and_eq_true, contains_iff_mem] at hliteral
          obtain ⟨body, rest, rfl, hbody⟩ := eq_append_cons_of_mem hliteral.2
          exact literal c body rest hliteral.1 hbody (hrest _ _ _ hlt)
        · exact char c s (by simpa using hfield) (by simpa using hliteral) (ih s.length hlt s rfl)

/-- The parts make up the formula. -/
theorem text_parts (s : List Char) : (parts s).flatMap Part.text = s := by
  induction s using parts_induction with
  | nil => rfl
  | char c s hfield hliteral ih =>
    rw [parts_char hfield hliteral, flatMap_cons, ih]
    rfl
  | field name s hne hname ih =>
    rw [parts_field hne hname, flatMap_cons, ih]
    simp [Part.text]
  | literal q body s hq hbody ih =>
    rw [parts_literal hq hbody, flatMap_cons, ih]
    simp [Part.text, quoted]

theorem literal_of_mem_parts (h : .literal q body ∈ parts s) : isQuote q ∧ q ∉ body := by
  induction s using parts_induction with
  | nil => exact nomatch h
  | char c s hfield hliteral ih =>
    rw [parts_char hfield hliteral] at h
    exact ih ((mem_cons.mp h).resolve_left nofun)
  | field name s hne hname ih =>
    rw [parts_field hne hname] at h
    exact ih ((mem_cons.mp h).resolve_left nofun)
  | literal q' body' s hq hbody ih =>
    rw [parts_literal hq hbody] at h
    rcases mem_cons.mp h with heq | h
    · cases heq
      exact ⟨hq, hbody⟩
    · exact ih h

/-! ## Tame formulas -/

/-- Whether every reference to a field that begins in the body of a literal in front of `rest` ends
in it. -/
def fieldsEnd (rest : List Char) : List Char → Bool
  | [] => true
  | c :: body => (c != '[' || endsField (body ++ rest) == endsField body) && fieldsEnd rest body

/-- Whether every quote begins or ends a literal, literals end where they did when fields are put in
quotes, and there is no call in them or in the name of a field. -/
def tame : List Part → Bool
  | [] => true
  | .char c :: ps => !isQuote c && tame ps
  | .field name :: ps =>
    !name.contains '\x22' && callFree (quoted '\x22' (replaceOperators name)) && tame ps
  | .literal q body :: ps =>
    fieldsEnd (q :: ps.flatMap Part.text) body && !(quoteFields false body).contains q
      && callFree (prepare (quoted q body)) && tame ps

/-! ## Fields -/

/-- The text of a part with fields in quotes. -/
def Part.identified : Part → List Char
  | char c => [c]
  | field name => quoted '\x22' name
  | literal q body => quoted q (quoteFields false body)

/-- The literals of a part with fields in quotes. -/
def Part.segments : Part → List (List Char)
  | char _ => []
  | p => [p.identified]

/-- Fields are put in quotes in a body and behind it as if each stood alone. -/
theorem quoteFields_append {rest : List Char} (h : fieldsEnd rest body) :
    quoteFields false (body ++ rest) = quoteFields false body ++ quoteFields false rest := by
  have hgo : ∀ inside : Bool, inside = false ∨ ']' ∈ body →
      quoteFields inside (body ++ rest) = quoteFields inside body ++ quoteFields false rest := by
    induction body with
    | nil =>
      intro inside hinside
      rw [hinside.resolve_right not_mem_nil]
      rfl
    | cons c body ih =>
      rw [fieldsEnd, Bool.and_eq_true, Bool.or_eq_true, bne_iff_ne, beq_iff_eq] at h
      intro inside hinside
      rw [cons_append, quoteFields, quoteFields]
      cases inside with
      | true =>
        rw [if_pos rfl, if_pos rfl]
        split
        · rw [ih h.2 false (.inl rfl), cons_append]
        next hc =>
          have hmem : ']' ∈ body :=
            (mem_cons.mp (hinside.resolve_left (by decide))).resolve_left (Ne.symm hc)
          rw [ih h.2 true (.inr hmem), cons_append]
      | false =>
        have hsame : (c == '[' && endsField (body ++ rest)) = (c == '[' && endsField body) := by
          rcases h.1 with hc | hends
          · rw [beq_eq_false_iff_ne.mpr hc]
            rfl
          · rw [hends]
        simp only [hsame, Bool.false_eq_true, if_false]
        split
        next hfield =>
          have hmem : ']' ∈ body := by
            rw [Bool.and_eq_true, endsField, Bool.and_eq_true, contains_iff_mem] at hfield
            exact hfield.2.2
          rw [ih h.2 true (.inr hmem), cons_append]
        next => rw [ih h.2 false (.inl rfl), cons_append]
  exact hgo false (.inl rfl)

theorem fieldsEnd_of_notMem {rest : List Char} (h : ']' ∉ rest) (body : List Char) :
    fieldsEnd rest body := by
  induction body with
  | nil => rfl
  | cons c body ih =>
    have hends : endsField (body ++ rest) = endsField body := by
      cases body <;> simp [endsField, h]
    rw [fieldsEnd, hends, ih]
    simp

theorem quoteFields_quote (hq : isQuote q) (s : List Char) :
    quoteFields false (q :: s) = q :: quoteFields false s := by
  rcases isQuote_iff.mp hq with rfl | rfl <;> rfl

/-- In a tame formula, fields are put in quotes in each part. -/
theorem quoteFields_eq (h : tame (parts s)) :
    quoteFields false s = (parts s).flatMap Part.identified := by
  induction s using parts_induction with
  | nil => rfl
  | char c s hfield hliteral ih =>
    rw [parts_char hfield hliteral, tame, Bool.and_eq_true] at h
    rw [parts_char hfield hliteral, quoteFields, if_neg (by simp), hfield, if_neg (by simp), ih h.2]
    rfl
  | field name s hne hname ih =>
    rw [parts_field hne hname, tame, Bool.and_eq_true] at h
    have hends : ('[' == '[' && endsField (name ++ ']' :: s)) := by
      rw [endsField_name hne hname]
      rfl
    rw [parts_field hne hname, quoteFields, if_neg (by simp), if_pos hends,
      quoteFields_inside hname, ih h.2]
    simp [Part.identified, quoted]
  | literal q body s hq hbody ih =>
    rw [parts_literal hq hbody, tame, text_parts] at h
    simp only [Bool.and_eq_true] at h
    obtain ⟨⟨⟨hends, -⟩, -⟩, htame⟩ := h
    rw [parts_literal hq hbody, quoteFields_quote hq, quoteFields_append hends,
      quoteFields_quote hq, ih htame]
    simp [Part.identified, quoted]

/-- A formula that is read, with fields in quotes, is closed. -/
theorem closed_identified (h : tame (parts s)) :
    Closed ((parts s).flatMap Part.identified)
      ∧ literals ((parts s).flatMap Part.identified) = (parts s).flatMap Part.segments := by
  induction s using parts_induction with
  | nil => exact ⟨.nil, rfl⟩
  | char c s hfield hliteral ih =>
    rw [parts_char hfield hliteral, tame, Bool.and_eq_true, Bool.not_eq_true'] at h
    obtain ⟨hclosed, hliterals⟩ := ih h.2
    rw [parts_char hfield hliteral, flatMap_cons, flatMap_cons, ← hliterals]
    exact ⟨.plain h.1 hclosed, literals_plain h.1 _⟩
  | field name s hne hname ih =>
    rw [parts_field hne hname, tame] at h
    simp only [Bool.and_eq_true, Bool.not_eq_true', contains_eq_mem, decide_eq_false_iff_not]
      at h
    obtain ⟨hclosed, hliterals⟩ := ih h.2
    obtain ⟨hquoted, hself⟩ := closed_quoted (q := '\x22') (by decide) h.1.1
    rw [parts_field hne hname, flatMap_cons, flatMap_cons, ← hliterals]
    refine ⟨hquoted.append hclosed, ?_⟩
    rw [Part.identified, literals_append hquoted, hself]
    rfl
  | literal q body s hq hbody ih =>
    rw [parts_literal hq hbody, tame] at h
    simp only [Bool.and_eq_true, Bool.not_eq_true', contains_eq_mem, decide_eq_false_iff_not]
      at h
    obtain ⟨⟨⟨-, hends⟩, -⟩, htame⟩ := h
    obtain ⟨hclosed, hliterals⟩ := ih htame
    obtain ⟨hquoted, hself⟩ := closed_quoted hq hends
    rw [parts_literal hq hbody, flatMap_cons, flatMap_cons, ← hliterals]
    refine ⟨hquoted.append hclosed, ?_⟩
    rw [Part.identified, literals_append hquoted, hself]
    rfl

/-! ## Operators -/

/-- A character that a pattern does not have ends the search for it. -/
theorem startsWith_append : ∀ {pat : List Char}, d ∉ pat → ∀ x y : List Char,
    startsWith pat (x ++ d :: y) = startsWith pat x
  | [], _, x, y => by cases x <;> rfl
  | p :: pat, hd, [], y => by
    have hp : p ≠ d := fun h => hd (h ▸ mem_cons_self ..)
    simp [startsWith, after?, hp]
  | p :: pat, hd, c :: x, y => by
    have hrest : startsWith pat (x ++ d :: y) = startsWith pat x :=
      startsWith_append (fun h => hd (.tail _ h)) x y
    unfold startsWith at hrest ⊢
    rw [cons_append, after?, after?]
    split
    · exact hrest
    · rfl

theorem startsWith_iff : ∀ {pat s : List Char}, startsWith pat s ↔ pat <+: s
  | [], _ => by simp [startsWith, after?]
  | _ :: _, [] => by simp [startsWith, after?]
  | p :: pat, c :: s => by
    have hrest : startsWith pat s ↔ pat <+: s := startsWith_iff
    rw [cons_prefix_cons, ← hrest]
    unfold startsWith
    rw [after?]
    split <;> simp [*]

theorem replaceAll_append {pat new : List Char} (hd : d ∉ pat) (x y : List Char) :
    replaceAll pat new (x ++ d :: y) = replaceAll pat new x ++ d :: replaceAll pat new y := by
  unfold replaceAll
  split
  · rfl
  next hne =>
    have hgo : ∀ (x : List Char) (skip : Nat), skip ≤ x.length →
        replaceGo pat new skip (x ++ d :: y)
          = replaceGo pat new skip x ++ d :: replaceGo pat new 0 y := by
      intro x
      induction x with
      | nil =>
        intro skip hskip
        obtain rfl : skip = 0 := Nat.le_zero.mp hskip
        have hstart : startsWith pat (d :: y) = false := by
          rw [← nil_append (d :: y), startsWith_append hd]
          obtain ⟨p, rest, rfl⟩ := exists_cons_of_ne_nil hne
          rfl
        show (if startsWith pat (d :: y) then _ else _) = _
        rw [hstart]
        rfl
      | cons c x ih =>
        intro skip hskip
        cases skip with
        | succ skip => exact ih skip (Nat.le_of_succ_le_succ hskip)
        | zero =>
          have hsame := startsWith_append hd (c :: x) y
          rw [cons_append] at hsame ⊢
          rw [replaceGo, replaceGo, hsame]
          split
          next hstart =>
            have hle := (startsWith_iff.mp hstart).length_le
            rw [length_cons] at hle
            rw [ih _ (by omega), append_assoc]
          next => rw [ih 0 (Nat.zero_le _), cons_append]
    exact hgo x 0 (Nat.zero_le _)

theorem mem_replaceAll {pat new : List Char} (h : c ∈ replaceAll pat new s) : c ∈ s ∨ c ∈ new := by
  have hgo : ∀ (s : List Char) (skip : Nat), c ∈ replaceGo pat new skip s →
      c ∈ s ∨ c ∈ new := by
    intro s
    induction s with
    | nil =>
      intro skip h
      cases skip <;> exact nomatch h
    | cons d s ih =>
      intro skip h
      cases skip with
      | succ skip => exact (ih skip h).imp_left (mem_cons_of_mem _)
      | zero =>
        rw [replaceGo] at h
        split at h
        · rcases mem_append.mp h with h | h
          · exact .inr h
          · exact (ih _ h).imp_left (mem_cons_of_mem _)
        · rcases mem_cons.mp h with rfl | h
          · exact .inl (.head _)
          · exact (ih _ h).imp_left (mem_cons_of_mem _)
  unfold replaceAll at h
  split at h
  · exact .inl h
  · exact hgo s 0 h

/-- Operators are replaced on both sides of a character that belongs to none. -/
theorem replaceOperators_append (hd : ∀ op ∈ operators, d ∉ op.1.toList) (x y : List Char) :
    replaceOperators (x ++ d :: y) = replaceOperators x ++ d :: replaceOperators y := by
  unfold replaceOperators
  generalize operators = ops at hd
  induction ops generalizing x y with
  | nil => rfl
  | cons op ops ih =>
    obtain ⟨pat, new⟩ := op
    rw [foldl_cons, foldl_cons, foldl_cons]
    dsimp only
    rw [replaceAll_append (hd (pat, new) (.head _))]
    exact ih _ _ (forall_mem_cons.mp hd).2

theorem mem_replaceOperators (h : c ∈ replaceOperators s) :
    c ∈ s ∨ ∃ op ∈ operators, c ∈ op.2.toList := by
  unfold replaceOperators at h
  generalize operators = ops at h ⊢
  induction ops generalizing s with
  | nil => exact .inl h
  | cons op ops ih =>
    rcases ih h with hmem | ⟨op', hop', hmem⟩
    · rcases mem_replaceAll hmem with hmem | hmem
      · exact .inl hmem
      · exact .inr ⟨op, .head _, hmem⟩
    · exact .inr ⟨op', .tail _ hop', hmem⟩

theorem operators_of_isQuote (hq : isQuote q) :
    ∀ op ∈ operators, q ∉ op.1.toList ∧ q ∉ op.2.toList := by
  rcases isQuote_iff.mp hq with rfl | rfl <;> decide

/-- There are no more quotes when operators are replaced. -/
theorem notMem_replaceOperators (hq : isQuote q) (h : q ∉ s) : q ∉ replaceOperators s := by
  intro hmem
  rcases mem_replaceOperators hmem with hmem | ⟨op, hop, hmem⟩
  · exact h hmem
  · exact (operators_of_isQuote hq op hop).2 hmem

theorem replaceOperators_literal (hq : isQuote q) (x body s : List Char) :
    replaceOperators (x ++ q :: (body ++ q :: s))
      = replaceOperators x ++ q :: (replaceOperators body ++ q :: replaceOperators s) := by
  have hops := fun op hop => (operators_of_isQuote hq op hop).1
  rw [replaceOperators_append hops, replaceOperators_append hops]

theorem replaceOperators_quoted (hq : isQuote q) (body : List Char) :
    replaceOperators (quoted q body) = quoted q (replaceOperators body) :=
  replaceOperators_literal hq [] body []

/-- Operators are replaced in each literal on its own. -/
theorem closed_replaceOperators (h : Closed s) :
    ∀ x : List Char, (∀ c ∈ x, isQuote c = false) → Closed (replaceOperators (x ++ s))
      ∧ literals (replaceOperators (x ++ s)) = (literals s).map replaceOperators := by
  have hplain : ∀ x : List Char, (∀ c ∈ x, isQuote c = false) →
      Closed (replaceOperators x) ∧ literals (replaceOperators x) = [] := by
    intro x hx
    refine closed_of_plain fun c hc => ?_
    by_contra hq
    rw [Bool.not_eq_false] at hq
    exact notMem_replaceOperators hq (fun hmem => by simp [hx c hmem] at hq) hc
  induction h with
  | nil =>
    intro x hx
    rw [append_nil]
    exact hplain x hx
  | @plain c s hc _ ih =>
    -- an operator can go on in front of the text
    intro x hx
    rw [append_cons, literals_plain hc]
    refine ih (x ++ [c]) fun d hd => ?_
    rcases mem_append.mp hd with hd | hd
    · exact hx d hd
    · exact mem_singleton.mp hd ▸ hc
  | @literal q body s hq hbody _ ih =>
    intro x hx
    obtain ⟨hfront, hnone⟩ := hplain x hx
    obtain ⟨hclosed, hliterals⟩ := ih [] (fun _ hc => nomatch hc)
    rw [nil_append] at hclosed hliterals
    have hbody' := notMem_replaceOperators hq hbody
    rw [replaceOperators_literal hq, literals_literal hq hbody, map_cons,
      replaceOperators_quoted hq, ← hliterals]
    refine ⟨hfront.append (.literal hq hbody' hclosed), ?_⟩
    rw [literals_append hfront, hnone, literals_literal hq hbody', nil_append]

/-! ## Before calls are converted -/

theorem strip_quoted (hq : isQuote q) (body : List Char) :
    Text.strip (quoted q body) = quoted q body := by
  have hblank : isBlank q = false := by
    by_contra h
    simp [isQuote_of_isBlank (by simpa using h)] at hq
  refine strip_eq_self (fun c hc => ?_) (fun c hc => ?_)
  · exact Option.some.inj hc ▸ hblank
  · rw [quoted, ← cons_append, getLast?_concat] at hc
    exact Option.some.inj hc ▸ hblank

/-- A literal is prepared between its quotes. -/
theorem prepare_quoted (hq : isQuote q) (body : List Char) :
    prepare (quoted q body) = replaceOperators (quoted q (quoteFields false body)) := by
  have hbracket : ']' ∉ [q] := by
    intro h
    rw [← mem_singleton.mp h] at hq
    exact absurd hq (by decide)
  rw [prepare, strip_quoted hq, quoted, quoteFields_quote hq,
    quoteFields_append (fieldsEnd_of_notMem hbracket body), quoteFields_quote hq]
  rfl

theorem callFree_of_mem_segments (h : tame (parts s)) :
    ∀ ℓ ∈ (parts s).flatMap Part.segments, callFree (replaceOperators ℓ) := by
  induction s using parts_induction with
  | nil => exact fun _ hℓ => nomatch hℓ
  | char c s hfield hliteral ih =>
    rw [parts_char hfield hliteral, tame, Bool.and_eq_true] at h
    rw [parts_char hfield hliteral]
    exact ih h.2
  | field name s hne hname ih =>
    rw [parts_field hne hname, tame, Bool.and_eq_true, Bool.and_eq_true] at h
    rw [parts_field hne hname]
    rintro ℓ (_ | ⟨_, hℓ⟩)
    · exact replaceOperators_quoted (q := '\x22') (by decide) name ▸ h.1.2
    · exact ih h.2 ℓ hℓ
  | literal q body s hq hbody ih =>
    rw [parts_literal hq hbody, tame, Bool.and_eq_true, Bool.and_eq_true] at h
    rw [parts_literal hq hbody]
    rintro ℓ (_ | ⟨_, hℓ⟩)
    · exact prepare_quoted hq body ▸ h.1.2
    · exact ih h.2 ℓ hℓ

section Blanks

variable {blanks : List Char} (hblanks : ∀ c ∈ blanks, isBlank c)

include hblanks

theorem notMem_blanks (hd : isBlank d = false) : d ∉ blanks :=
  fun hmem => by simp [hblanks d hmem] at hd

theorem quoteFields_append_blanks (s : List Char) :
    quoteFields false (s ++ blanks) = quoteFields false s ++ blanks := by
  have hends := fieldsEnd_of_notMem (notMem_blanks hblanks (by decide)) s
  have hsame := quotes_of_no_bracket (notMem_blanks hblanks (by decide)) []
  rw [append_nil] at hsame
  rw [quoteFields_append hends, hsame]
  exact congrArg (_ ++ ·) (append_nil blanks)

theorem operators_of_mem_blanks (hd : d ∈ blanks) : ∀ op ∈ operators, d ∉ op.1.toList := by
  have hall : (operators.all fun op => op.1.toList.all (!isBlank ·)) := by decide
  intro op hop hmem
  have hblank := all_eq_true.mp (all_eq_true.mp hall op hop) d hmem
  simp [hblanks d hd] at hblank

theorem replaceOperators_blanks_append (s : List Char) :
    replaceOperators (blanks ++ s) = blanks ++ replaceOperators s := by
  induction blanks with
  | nil => rfl
  | cons c blanks ih =>
    have hops := operators_of_mem_blanks hblanks (.head _)
    have hsplit := replaceOperators_append hops [] (blanks ++ s)
    rw [ih (forall_mem_cons.mp hblanks).2] at hsplit
    exact hsplit

theorem replaceOperators_append_blanks (s : List Char) :
    replaceOperators (s ++ blanks) = replaceOperators s ++ blanks := by
  cases blanks with
  | nil => rw [append_nil, append_nil]
  | cons c blanks =>
    have hrest := replaceOperators_blanks_append
      (forall_mem_cons.mp hblanks).2 []
    rw [append_nil] at hrest
    rw [replaceOperators_append (operators_of_mem_blanks hblanks (.head _)), hrest]
    exact congrArg (fun x => _ ++ c :: x) (append_nil blanks)

end Blanks

/-- Before calls are converted, a tame formula has its literals, each prepared on its own, and the
names of its fields in quotes. -/
theorem guarded_prepare (h : tame (parts s)) :
    Guarded (prepare s)
      ∧ literals (prepare s) = ((parts s).flatMap Part.segments).map replaceOperators := by
  obtain ⟨front, back, hsplit, hfront, hback⟩ := exists_strip s
  obtain ⟨hclosed, hliterals⟩ := closed_identified h
  obtain ⟨hreplaced, hsame⟩ := closed_replaceOperators hclosed [] (fun _ hc => nomatch hc)
  rw [nil_append] at hreplaced hsame
  rw [hliterals] at hsame
  rw [← quoteFields_eq h] at hreplaced hsame
  have htext : replaceOperators (quoteFields false s) = front ++ (prepare s ++ back) := by
    have hbracket : '[' ∉ front := notMem_blanks hfront (by decide)
    rw [prepare, ← replaceOperators_append_blanks hback, ← replaceOperators_blanks_append hfront,
      ← quoteFields_append_blanks hback, ← quotes_of_no_bracket hbracket, ← append_assoc, ← hsplit]
  rw [htext] at hreplaced hsame
  obtain ⟨hprepared, heq⟩ := hreplaced.of_blanks hfront hback
  rw [hsame] at heq
  refine ⟨⟨hprepared, fun ℓ hℓ => ?_⟩, heq⟩
  obtain ⟨ℓ, hmem, rfl⟩ := mem_map.mp (heq ▸ hℓ)
  exact callFree_of_mem_segments h ℓ hmem

end Replatform.Formula

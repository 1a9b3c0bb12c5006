import Replatform.Proofs.Formula.Draft
/-!
# The conversion of an expression

The conversion works on text, and takes the calls of a formula in an order of its own. For a
formula that is an expression it comes to the same as the translation of the tree.

The text is prepared to the draft in which no call is converted (`prepare_write`). A call that can
be converted in a draft stands at a live site, and so it is one that is still to be converted:
converting it gives a draft with one call less (`Draft.step`). As long as such a call is left, it is
found (`Draft.eq_zero_of_nextCall?`). So after as many steps as there are calls the text is the
translation (`Draft.convertCalls_eq`).
-/

namespace Replatform.Formula

open List
open Text (isWord isBlank)

/-! ## The prepared text -/

namespace Expression

/-- An expression with quoted fields and no call converted. -/
def quoted : Expression → List Char
  | field name => '\x22' :: (name.chars ++ ['\x22'])
  | number n => n.digits
  | binary op left right => left.quoted ++ ' ' :: op.sign :: ' ' :: right.quoted
  | call f args => writeCall f.function.name.toList (List.ofFn fun i => (args i).quoted)

/-- All calls are still to be converted. -/
theorem draft_quoted (e : Expression) : Draft e e.calls e.quoted := by
  induction e with
  | field name => exact .field name
  | number n => exact .number n
  | binary op left right hl hr => exact .binary op hl hr
  | call f args ih => exact .written f ih

/-- An expression can stand as an argument. -/
theorem argument_write (e : Expression) : Argument e.write := by
  induction e with
  | field name =>
    have hplain : ∀ c ∈ '[' :: (name.chars ++ [']']), isPlain c := by
      intro c hc
      rcases mem_cons.mp hc with rfl | hc
      · decide
      · rcases mem_append.mp hc with hc | hc
        · rcases name.isWord_of_mem hc with hword | rfl
          · exact isPlain_of_isWord hword
          · decide
        · rw [mem_singleton.mp hc]
          decide
    obtain ⟨hthrough, huncut⟩ := scan_plain hplain 0
    refine ⟨⟨huncut, ?_, ?_, cons_ne_nil _ _⟩, hthrough⟩
    · intro c hc
      rw [write, head?_cons, Option.some.injEq] at hc
      subst hc
      decide
    · intro c hc
      rw [write, ← cons_append, getLast?_concat, Option.some.injEq] at hc
      subst hc
      decide
  | number n => exact argument_word (fun c hc => n.isWord_of_mem hc) n.filled
  | binary op left right hl hr => exact argument_binary op hl hr
  | call f args ih => exact argument_call f ih

end Expression

/-- `x` becomes `y` when fields are quoted, whatever stands behind. -/
def Quotes (x y : List Char) : Prop := ∀ z, quoteFields false (x ++ z) = y ++ quoteFields false z

theorem quotes_of_no_bracket {x : List Char} (hx : '[' ∉ x) : Quotes x x := by
  intro z
  induction x with
  | nil => rfl
  | cons c x ih =>
    have hc : c ≠ '[' := fun h => hx (h ▸ mem_cons_self ..)
    rw [cons_append, quoteFields, if_neg (by simp), if_neg (by simp [hc]),
      ih fun h => hx (.tail _ h), cons_append]

theorem Quotes.append {x x' y y' : List Char} (h : Quotes x y) (h' : Quotes x' y') :
    Quotes (x ++ x') (y ++ y') := by
  intro z
  rw [append_assoc, h, h', append_assoc]

/-- Inside a field reference all is kept up to the bracket that ends it. -/
theorem quoteFields_inside {x : List Char} (hx : ']' ∉ x) (z : List Char) :
    quoteFields true (x ++ ']' :: z) = x ++ '\x22' :: quoteFields false z := by
  induction x with
  | nil => rfl
  | cons c x ih =>
    have hc : c ≠ ']' := fun h => hx (h ▸ mem_cons_self ..)
    rw [cons_append, quoteFields, if_pos rfl, if_neg hc, ih fun h => hx (.tail _ h), cons_append]

/-- A field reference becomes a quoted identifier. -/
theorem quotes_field (name : FieldName) :
    Quotes ('[' :: (name.chars ++ [']'])) ('\x22' :: (name.chars ++ ['\x22'])) := by
  intro z
  have hbracket : ']' ∉ name.chars := fun h => absurd (name.plain _ h) (by decide)
  -- The bracket opens a field, since a name is there and another bracket behind it.
  have hends : endsField (name.chars ++ ']' :: z) := by
    obtain ⟨c, cs, hcs⟩ := exists_cons_of_ne_nil name.filled
    have hc : c ≠ ']' := by
      intro h
      rw [hcs, h] at hbracket
      exact hbracket (.head _)
    simp [endsField, hcs, hc]
  rw [cons_append, append_assoc, quoteFields, if_neg (by simp), if_pos (by simpa using hends)]
  show '\x22' :: quoteFields true (name.chars ++ ']' :: z) = _
  rw [quoteFields_inside hbracket, cons_append, append_assoc]
  rfl

/-- In a list of arguments, each is quoted on its own. -/
theorem quotes_argPieces {s t : Nat → List Char} (is : List Nat) :
    (∀ i ∈ is, Quotes (s i) (t i)) →
      Quotes (spread (argPieces is) s) (spread (argPieces is) t) := by
  have hclose : Quotes [')'] [')'] := quotes_of_no_bracket (by decide)
  have hcomma : Quotes [',', ' '] [',', ' '] := quotes_of_no_bracket (by decide)
  induction is with
  | nil => exact fun _ => hclose
  | cons i is ih =>
    intro h
    have hi := h i (.head _)
    have hrest := ih (forall_mem_cons.mp h).2
    cases is with
    | nil => exact hi.append hclose
    | cons j is => exact hi.append (hcomma.append hrest)

/-- In a call, each argument is quoted on its own. -/
theorem quotes_call (f : Callee) {s t : Fin f.count → List Char} (h : ∀ i, Quotes (s i) (t i)) :
    Quotes (writeCall f.function.name.toList (List.ofFn s))
      (writeCall f.function.name.toList (List.ofFn t)) := by
  have hname : Quotes (f.function.name.toList ++ ['(']) (f.function.name.toList ++ ['(']) := by
    apply quotes_of_no_bracket
    intro hmem
    rcases mem_append.mp hmem with hmem | hmem
    · exact absurd ((name_of_mem f.listed).2 _ hmem).1 (by decide)
    · exact absurd hmem (by decide)
  have hargs := quotes_argPieces (s := valueAt s) (t := valueAt t) (range f.count) (by
    intro i hi
    rw [valueAt_of_lt s (mem_range.mp hi), valueAt_of_lt t (mem_range.mp hi)]
    exact h _)
  rw [writeCall_eq_spread, writeCall_eq_spread]
  exact hname.append hargs

/-- In an expression, the field references become quoted identifiers and all else stays. -/
theorem quotes_write (e : Expression) : Quotes e.write e.quoted := by
  induction e with
  | field name => exact quotes_field name
  | number n =>
    apply quotes_of_no_bracket
    exact fun h => absurd (n.isWord_of_mem h) (by decide)
  | binary op left right hl hr =>
    have hop : Quotes [' ', op.sign, ' '] [' ', op.sign, ' '] :=
      quotes_of_no_bracket (by cases op <;> decide)
    exact hl.append (hop.append hr)
  | call f args ih => exact quotes_call f ih

/-- A pattern does not occur where its first character does not. -/
theorem replaceAll_of_not_mem {p : Char} {pat new s : List Char} (h : p ∉ s) :
    Text.replaceAll (p :: pat) new s = s := by
  rw [Text.replaceAll, if_neg (cons_ne_nil _ _)]
  induction s with
  | nil => rfl
  | cons c s ih =>
    have hc : p ≠ c := fun e => h (e ▸ mem_cons_self ..)
    have hstart : Text.startsWith (p :: pat) (c :: s) = false := by
      simp [Text.startsWith, Text.after?, hc]
    rw [Text.replaceGo, hstart, if_neg (by simp), ih fun hm => h (.tail _ hm)]

/-- Whether an operator of the formula language that SQL does not share begins with `c`. -/
def beginsOperator (c : Char) : Bool := c == '=' || c == '&' || c == '|' || c == '!'

theorem replaceOperators_eq_self {s : List Char} (h : ∀ c ∈ s, beginsOperator c = false) :
    replaceOperators s = s := by
  have hno : ∀ c, beginsOperator c → c ∉ s := fun c hc hm => by simp [h c hm] at hc
  show Text.replaceAll ['!'] _ (Text.replaceAll ['!', '='] _ (Text.replaceAll ['|', '|'] _
    (Text.replaceAll ['&', '&'] _ (Text.replaceAll ['=', '='] _ s)))) = s
  rw [replaceAll_of_not_mem (hno '=' rfl), replaceAll_of_not_mem (hno '&' rfl),
    replaceAll_of_not_mem (hno '|' rfl), replaceAll_of_not_mem (hno '!' rfl),
    replaceAll_of_not_mem (hno '!' rfl)]

theorem beginsOperator_of_isWord {c : Char} (h : isWord c) : beginsOperator c = false := by
  have hne : ∀ d : Char, isWord d = false → c ≠ d := fun d hd e => by simp [e, hd] at h
  simp [beginsOperator, hne '=' (by decide), hne '&' (by decide), hne '|' (by decide),
    hne '!' (by decide)]

theorem mem_joinArgs {c : Char} : ∀ {args : List (List Char)}, c ∈ joinArgs args →
    c ∈ [',', ' '] ∨ ∃ a ∈ args, c ∈ a
  | [], h => absurd h (by simp [joinArgs, Text.join])
  | [a], h => Or.inr ⟨a, mem_singleton.mpr rfl, h⟩
  | a :: b :: args, h => by
    rcases mem_append.mp h with h | h
    · rcases mem_append.mp h with h | h
      · exact Or.inr ⟨a, .head _, h⟩
      · exact Or.inl h
    · rcases mem_joinArgs h with h | ⟨x, hx, h⟩
      · exact Or.inl h
      · exact Or.inr ⟨x, .tail _ hx, h⟩

/-- No operator begins in an expression but those that SQL shares. -/
theorem beginsOperator_quoted (e : Expression) : ∀ c ∈ e.quoted, beginsOperator c = false := by
  induction e with
  | field name =>
    intro c hc
    rcases mem_cons.mp hc with rfl | hc
    · decide
    · rcases mem_append.mp hc with hc | hc
      · rcases name.isWord_of_mem hc with hword | rfl
        · exact beginsOperator_of_isWord hword
        · decide
      · rw [mem_singleton.mp hc]
        decide
  | number n => exact fun c hc => beginsOperator_of_isWord (n.isWord_of_mem hc)
  | binary op left right hl hr =>
    intro c hc
    have hop : [' ', op.sign, ' '].any beginsOperator = false := by cases op <;> decide
    rcases mem_append.mp hc with hc | hc
    · exact hl c hc
    · have hc : c ∈ [' ', op.sign, ' '] ++ right.quoted := hc
      rcases mem_append.mp hc with hc | hc
      · exact Bool.eq_false_iff.mpr (any_eq_false.mp hop c hc)
      · exact hr c hc
  | call f args ih =>
    intro c hc
    rcases mem_append.mp hc with hname | hrest
    · exact beginsOperator_of_isWord ((name_of_mem f.listed).2 c hname).1
    · rcases mem_cons.mp hrest with rfl | hrest
      · decide
      · rcases mem_append.mp hrest with hargs | hclose
        · rcases mem_joinArgs hargs with hsep | ⟨a, ha, hca⟩
          · have hsepOk : [',', ' '].any beginsOperator = false := by decide
            exact Bool.eq_false_iff.mpr (any_eq_false.mp hsepOk c hsep)
          · obtain ⟨i, rfl⟩ := (mem_ofFn' _ _).mp ha
            exact ih i c hca
        · rw [mem_singleton.mp hclose]
          decide

/-- The prepared text of an expression has quoted fields and no call converted. -/
theorem prepare_write (e : Expression) : prepare e.write = e.quoted := by
  have hquote : quoteFields false e.write = e.quoted := by
    have h := quotes_write e []
    rwa [append_nil, quoteFields, append_nil] at h
  rw [prepare, e.argument_write.stripped, hquote,
    replaceOperators_eq_self (beginsOperator_quoted e)]

/-! ## The steps -/

variable (r : Redex) (front name : List Char) (args : List (List Char)) (back : List Char)

/-- What stands behind the opening parenthesis of a call in a text. -/
theorem drop_opening :
    (front ++ (writeCall name args ++ back)).drop (front.length + name.length + 1)
      = joinArgs args ++ ')' :: back := by
  have hsplit : front ++ (writeCall name args ++ back)
      = (front ++ name ++ ['(']) ++ (joinArgs args ++ ')' :: back) := by
    simp [writeCall]
  have hlength : front.length + name.length + 1 = (front ++ name ++ ['(']).length := by
    simp only [length_append, length_singleton]
  rw [hsplit, hlength, drop_left]

/-- The parenthesis that closes a call is behind its arguments. -/
theorem matching?_call (front name : List Char) {args : List (List Char)}
    (hargs : ∀ a ∈ args, Argument a) (back : List Char) :
    matching? (front ++ (writeCall name args ++ back)) (front.length + name.length)
      = some (front.length + name.length + 1 + (joinArgs args).length) := by
  have hlevel := through_joinArgs fun a ha => (hargs a ha).closed
  rw [matching?, drop_opening, closing?_of_through hlevel, Option.map_some, Nat.add_comm]

/-- A call in a text, with arguments between its parentheses. -/
theorem inside_call (f : Function) (front name : List Char) (args : List (List Char))
    (back : List Char) :
    Call.inside ⟨f, front.length, front.length + name.length,
        front.length + name.length + 1 + (joinArgs args).length⟩
      (front ++ (writeCall name args ++ back)) = joinArgs args := by
  rw [Call.inside, drop_opening, Nat.add_sub_cancel_left, take_left]

/-- What a call is replaced by stands between what was in front of it and what was behind. -/
theorem replace_call (f : Function) (front name : List Char) (args : List (List Char))
    (back sql : List Char) :
    Call.replace ⟨f, front.length, front.length + name.length,
        front.length + name.length + 1 + (joinArgs args).length⟩ sql
      (front ++ (writeCall name args ++ back)) = front ++ (sql ++ back) := by
  have hend : front.length + name.length + 1 + (joinArgs args).length + 1
      = (front ++ writeCall name args).length := by
    simp only [writeCall, length_append, length_cons, length_nil]
    omega
  rw [Call.replace, take_left]
  dsimp only
  rw [hend, ← append_assoc front, drop_left, append_assoc]

namespace Redex

def call (r : Redex) : Call :=
  ⟨r.callee.function, r.front.length, r.front.length + r.callee.function.name.toList.length,
    r.front.length + r.callee.function.name.toList.length + 1
      + (joinArgs (List.ofFn r.args)).length⟩

theorem arguments_ofFn : ∀ a ∈ List.ofFn r.args, Argument a := by
  intro a ha
  obtain ⟨i, rfl⟩ := (mem_ofFn' _ _).mp ha
  exact r.arguments i

theorem start_site : (r.site 0).start = r.call.start := Nat.zero_add _

theorem opening_site : (r.site 0).opening = r.call.opening := by
  show 0 + r.front.length + _ = r.front.length + _
  rw [Nat.zero_add]

theorem matching?_site : matching? r.text (r.site 0).opening = some r.call.closing := by
  rw [opening_site]
  exact matching?_call _ _ r.arguments_ofFn _

theorem eq_call {c : Call} (hf : c.function ∈ functions)
    (hfor : (r.site 0).isFor c.function.name.toList) (hstart : c.start = (r.site 0).start)
    (hopening : c.opening = (r.site 0).opening)
    (hclosing : matching? r.text (r.site 0).opening = some c.closing) : c = r.call := by
  have hfunction : c.function = r.callee.function :=
    eq_of_afterName? r.callee.listed hf (eq_of_beq hfor)
  rw [matching?_site, Option.some.injEq] at hclosing
  rw [start_site] at hstart
  rw [opening_site] at hopening
  cases c
  simp only at hfunction hstart hopening hclosing
  rw [hfunction, hstart, hopening, ← hclosing]
  rfl

/-- The call is one of those that can be converted. -/
theorem call_mem (hsite : r.site 0 ∈ sites none 0 r.text) : r.call ∈ openCalls r.text := by
  have hfor : (r.site 0).isFor r.call.function.name.toList := beq_iff_eq.mpr (afterName?_self _)
  have hname : r.call.name r.text = r.callee.function.name.toList := by
    rw [Call.name, ← start_site, ← opening_site, strip_site hsite]
    rfl
  refine mem_openCalls.mpr ⟨r.callee.listed, r.site 0, hsite, hfor, r.start_site.symm,
    r.opening_site.symm, r.matching?_site, ?_⟩
  -- spelled as in the table, so not taken for SQL
  rw [Call.isSql, hname]
  simp [call]

/-- The call is converted by the table, and nothing has to be noted. -/
theorem convert_call :
    r.call.function.convert r.call.function.name.toList (splitArgs (r.call.inside r.text))
      = (r.callee.function.target.fill (List.ofFn r.args), []) := by
  have hinside : r.call.inside r.text = joinArgs (List.ofFn r.args) := inside_call ..
  rw [hinside, splitArgs_joinArgs fun a ha => (r.arguments_ofFn a ha).toSeparable]
  exact r.callee.convert_eq _ _

theorem replace_call_text :
    r.call.replace (r.callee.function.target.fill (List.ofFn r.args)) r.text = r.next :=
  replace_call ..

/-- A conversion changes the text. -/
theorem next_ne_text : r.next ≠ r.text := by
  intro h
  rw [next, text, append_cancel_left_eq, append_cancel_right_eq, fill_eq_spread] at h
  exact r.callee.fitting.spread_ne _ _ h

end Redex

namespace Draft

variable {e : Expression} {k : Nat} {s : List Char}

variable (h : Draft e k s)
include h

/-- The live sites of a draft: as many as there are calls to convert, and each is that of one. -/
theorem liveSites_eq :
    (liveSites 0 s).length = k ∧ ∀ site ∈ liveSites 0 s, IsRedex e k s 0 site := by
  obtain ⟨found, hfound, hlength, hsites⟩ := h.shows 0 [] stops_nil
  have hall : liveSites 0 s = found := by
    rw [append_nil] at hfound
    rw [hfound]
    exact append_nil found
  rw [hall]
  exact ⟨hlength, hsites⟩

/-- Whatever call is taken next, it is one that is still to be converted. -/
theorem step {c : Call} (hc : nextCall? s = some c) :
    ∃ (r : Redex) (left : Nat), s = r.text ∧ c = r.call ∧ k = left + 1 ∧ Draft e left r.next := by
  obtain ⟨hf, site, hsite, hfor, hstart, hopening, hclosing⟩ :=
    site_of_mem_openCalls (mem_openCalls_of_nextCall? hc)
  obtain ⟨r, left, rfl, rfl, hk, hnext⟩ := h.liveSites_eq.2 site hsite
  exact ⟨r, left, rfl, r.eq_call hf hfor hstart hopening hclosing, hk, hnext⟩

/-- When no call is taken, none is left. -/
theorem eq_zero_of_nextCall? (hc : nextCall? s = none) : k = 0 := by
  obtain ⟨hlength, hsites⟩ := h.liveSites_eq
  cases hfound : liveSites 0 s with
  | nil =>
    rw [hfound] at hlength
    exact hlength.symm
  | cons site rest =>
    -- A site that is left belongs to a call that could have been taken.
    have hsite : site ∈ liveSites 0 s := by
      rw [hfound]
      exact .head _
    obtain ⟨r, left, rfl, rfl, -⟩ := hsites site hsite
    have hmem := r.call_mem (mem_filter.mp hsite).1
    rw [openCalls_eq_nil_of_nextCall? hc] at hmem
    exact absurd hmem (by simp)

/-- With as many steps as there are calls to convert, a draft becomes the translation. -/
theorem convertCalls_eq {limit : Nat} (hk : k ≤ limit) :
    convertCalls limit s = (e.sql, []) := by
  induction limit generalizing k s with
  | zero => rw [convertCalls, h.eq_sql (Nat.le_zero.mp hk)]
  | succ limit ih =>
    rw [convertCalls]
    split
    next hnone => rw [h.eq_sql (h.eq_zero_of_nextCall? hnone)]
    next c hsome =>
      -- Whichever call was taken, the text is a draft with one call less to convert.
      obtain ⟨r, left, rfl, rfl, rfl, hnext⟩ := h.step hsome
      rw [r.convert_call]
      dsimp only
      rw [r.replace_call_text, if_neg r.next_ne_text, ih hnext (Nat.le_of_succ_le_succ hk)]
      rfl

end Draft

/-- The formula of an expression with at most 100 calls is converted to the translation of the
expression, and nothing has to be noted. -/
theorem convert_write (e : Expression) (h : e.calls ≤ 100) :
    convert (String.ofList e.write) = ⟨String.ofList e.sql, []⟩ := by
  have hne : (String.ofList e.write).isEmpty = false := by
    rw [← Bool.not_eq_true, String.isEmpty_iff, ← String.toList_inj, String.toList_ofList]
    exact e.argument_write.filled
  have hcalls : convertCalls callLimit e.quoted = (e.sql, []) := e.draft_quoted.convertCalls_eq h
  rw [convert, hne, if_neg (by simp), String.toList_ofList, prepare_write, hcalls]

/-- `Concat(Left([First Name], 1), Rand()) > 1`, with a call of each kind: of any number of
arguments, of a pattern, and of a constant. -/
def initials : Expression :=
  .binary .greater
    (.call ⟨variadic "Concat" "CONCAT", 2, by decide +kernel, by decide, by decide, Nat.le_succ 1⟩
      ![.call ⟨pattern "Left" 2 ["SUBSTR(", 0, ", 1, ", 1, ")"], 2, by decide +kernel, by decide,
          by decide, rfl⟩
          ![.field ⟨"First Name".toList, by decide, all_eq_true.mp (by decide), by decide,
              by decide⟩,
            .number ⟨['1'], by decide, all_eq_true.mp (by decide)⟩],
        .call ⟨constant "Rand" "RAND()", 0, by decide +kernel, by decide, by decide, rfl⟩ ![]])
    (.number ⟨['1'], by decide, all_eq_true.mp (by decide)⟩)

theorem convert_initials :
    initials.calls ≤ 100 ∧ convert "Concat(Left([First Name], 1), Rand()) > 1"
      = ⟨"CONCAT(SUBSTR(\"First Name\", 1, 1), RAND()) > 1", []⟩ := by
  have hcalls : initials.calls ≤ 100 := by decide
  have hwrite : initials.write = "Concat(Left([First Name], 1), Rand()) > 1".toList := by
    decide +kernel
  have hsql : initials.sql = "CONCAT(SUBSTR(\"First Name\", 1, 1), RAND()) > 1".toList := by
    decide +kernel
  have hconvert := convert_write initials hcalls
  rw [hwrite, hsql, String.ofList_toList, String.ofList_toList] at hconvert
  exact ⟨hcalls, hconvert⟩

end Replatform.Formula

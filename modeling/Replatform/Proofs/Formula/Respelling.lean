import Replatform.Proofs.Formula.Completion
import Replatform.Proofs.Formula.Spelling
/-!
# Conversion of names in other letters

What conversion does to a call depends on its function and its arguments, not on the letters of its
name. So respelled texts are converted alike, step by step, as long as the spellings leave no trace
elsewhere. They do in two cases: in capitals, a name counts as SQL; and a name right behind a
closing parenthesis may be joined to the SQL of the call that ends there. These are left out
(`IsPlain`). With all others, the notes are the same and the SQL is respelled at most
(`convert_respelled`).
-/

namespace Replatform.Formula

open List
open Text (isWord isBlank atWordStart allCapital afterName?)

variable {x gap : List Char} {c : Call}

/-! ## Plain spellings -/

/-- Whether a name can stand behind `b`, and still does when the calls before it are converted. -/
def startsName (b : Option Char) : Bool := atWordStart b && b != some ')'

/-- The name is not in capitals, and it does not stand right behind a closing parenthesis. -/
structure IsPlain (b : Option Char) (v : List Char) : Prop where
  apart : b ≠ some ')'
  small : allCapital v = false

/-- Words and blanks make no difference to the scan for commas. -/
theorem uncut_of_words {quote : Option Char} (hquote : quote.all isQuote)
    (hx : ∀ c ∈ x, isWord c ∨ isBlank c) (depth : Int) :
    uncut depth quote x = some (depth, quote) := by
  induction x with
  | nil => rfl
  | cons c x ih =>
    have hc := hx c (.head _)
    have hne : ∀ {d : Char}, isWord d = false → isBlank d = false → c ≠ d := by
      rintro d hword hblank rfl
      rw [hword, hblank] at hc
      exact hc.elim Bool.false_ne_true Bool.false_ne_true
    have hdepth : nextDepth depth quote c = depth := by
      unfold nextDepth
      rw [if_neg (hne (by decide) (by decide)), if_neg (hne (by decide) (by decide)), ite_self]
    have hkeep : nextQuote quote c = quote := by
      have hplain : isQuote c = false := hc.elim isQuote_of_isWord isQuote_of_isBlank
      unfold nextQuote
      cases quote with
      | none => exact if_neg (by rw [hplain]; decide)
      | some q =>
        refine if_neg fun heq => ?_
        rw [Option.all_some, ← heq, hplain] at hquote
        cases hquote
    have hcomma : c ≠ ',' := hne (by decide) (by decide)
    rw [uncut, if_neg (by simp [hcomma]), hdepth, hkeep]
    exact ih (forall_mem_cons.mp hx).2

/-- A name and its parenthesis open a depth, wherever they stand. -/
theorem uncut_token {quote : Option Char} (hquote : quote.all isQuote)
    (hx : ∀ c ∈ x, isWord c ∨ isBlank c) (depth : Int) :
    uncut depth quote (x ++ ['(']) = some (nextDepth depth quote '(', nextQuote quote '(') := by
  rw [uncut_append, uncut_of_words hquote hx, Option.bind_some, uncut, if_neg (by simp)]
  rfl

namespace Respelled

variable {b b' : Option Char} {s t : List Char}

/-- What stands before a respelled text may change, unless it lets a name begin that could not
begin before. -/
theorem behind (h : Respelled IsPlain b s t) (hb : startsName b → startsName b') :
    Respelled IsPlain b' s t := by
  cases h with
  | nil => exact .nil
  | char h => exact .char h
  | name hf hv hw hstart hPv hPw hgap h =>
    have hb' := hb (by rw [startsName, hstart, Bool.true_and, bne_iff_ne]; exact hPv.apart)
    rw [startsName, Bool.and_eq_true, bne_iff_ne] at hb'
    exact .name hf hv hw hb'.1 ⟨hb'.2, hPv.small⟩ ⟨hb'.2, hPw.small⟩ hgap h

/-- A text that may stand at the beginning may stand where a name can. -/
theorem of_none (h : Respelled IsPlain none s t) (hb : startsName b) :
    Respelled IsPlain b s t := h.behind fun _ => hb

/-- A respelled text may also stand at the beginning. -/
theorem to_none (h : Respelled IsPlain b s t) : Respelled IsPlain none s t := h.behind fun _ => rfl

/-! ## Arguments -/

variable {P : Option Char → List Char → Prop}

/-- What has no words is the same in both texts. -/
theorem append_inv {y : List Char} (hx : ∀ c ∈ x, isWord c = false) (h : Respelled P b (x ++ y) t) :
    ∃ t', t = x ++ t' ∧ Respelled P (lastFrom b x) y t' := by
  induction x generalizing b t with
  | nil => exact ⟨t, rfl, h⟩
  | cons c x ih =>
    obtain ⟨t', rfl, h'⟩ := h.cons_inv (hx c (.head _))
    obtain ⟨u, rfl, hu⟩ := ih (forall_mem_cons.mp hx).2 h'
    exact ⟨u, rfl, hu⟩

/-- Blanks at the ends are the same in both texts. -/
protected theorem strip (h : Respelled IsPlain b s t) :
    Respelled IsPlain none (Text.strip s) (Text.strip t) := by
  have hfirst : ∀ {s t : List Char} {b : Option Char}, Respelled IsPlain b s t →
      Respelled IsPlain none (s.dropWhile isBlank) (t.dropWhile isBlank) := by
    intro s t b h
    have htake := (takeWhile_isBlank_eq h.similar).1
    rw [← takeWhile_append_dropWhile (p := isBlank) (l := s)] at h
    obtain ⟨t', ht, h'⟩ := h.append_inv fun c hc => isWord_of_isBlank (mem_takeWhile_imp hc)
    rw [← takeWhile_append_dropWhile (p := isBlank) (l := t), htake, append_cancel_left_eq] at ht
    rw [ht]
    exact h'.to_none
  have hlast : ∀ {s t : List Char}, Respelled IsPlain none s t →
      Respelled IsPlain none (Text.dropEndWhile isBlank s) (Text.dropEndWhile isBlank t) := by
    intro s t h
    have htake := (takeWhile_isBlank_eq (rel_reverse h.similar)).1
    have hsplit : ∀ x : List Char,
        x = Text.dropEndWhile isBlank x ++ (x.reverse.takeWhile isBlank).reverse := by
      intro x
      rw [Text.dropEndWhile, ← reverse_append, takeWhile_append_dropWhile, reverse_reverse]
    have hparen : '(' ∉ (s.reverse.takeWhile isBlank).reverse := fun hmem =>
      absurd (mem_takeWhile_imp (mem_reverse.mp hmem)) (by decide)
    rw [hsplit s] at h
    obtain ⟨x', y', ht, hx, hy⟩ := h.split (cut_of_notMem hparen)
    have hlength : x'.length = (Text.dropEndWhile isBlank t).length := by
      have ht' := congrArg length (ht.symm.trans (hsplit t))
      rw [length_append, length_append, hy.length_eq, htake] at ht'
      omega
    rw [← (append_inj (ht.symm.trans (hsplit t)) hlength).1]
    exact hx
  exact hlast (hfirst h)

/-- The pieces between commas are respelled one by one. -/
protected theorem pieces (h : Respelled P b s t) : ∀ (depth : Int) {quote : Option Char},
    quote.all isQuote → ∃ p ps q qs, pieces depth quote s = p :: ps
      ∧ pieces depth quote t = q :: qs ∧ Respelled P b p q
      ∧ Forall₂ (Respelled P (some ',')) ps qs := by
  induction h with
  | nil => exact fun _ _ _ => ⟨[], [], [], [], rfl, rfl, .nil, .nil⟩
  | @char b c s t _ ih =>
    intro depth quote hquote
    by_cases hcut : (quote.isNone && c == ',' && depth == 0)
    · obtain ⟨p, ps, q, qs, hs, ht, hpq, hrest⟩ :=
        ih depth (show (none : Option Char).all isQuote from rfl)
      have hcomma : c = ',' := by simp at hcut; exact hcut.1.2
      rw [pieces, pieces, if_pos hcut, if_pos hcut, hs, ht]
      rw [hcomma] at hpq
      exact ⟨[], p :: ps, [], q :: qs, rfl, rfl, .nil, .cons hpq hrest⟩
    · obtain ⟨p, ps, q, qs, hs, ht, hpq, hrest⟩ :=
        ih (nextDepth depth quote c) (all_isQuote_nextQuote hquote c)
      unfold nextDepth at hs ht
      rw [pieces, pieces, if_neg hcut, if_neg hcut]
      dsimp only
      rw [hs, ht]
      exact ⟨c :: p, ps, c :: q, qs, rfl, rfl, .char hpq, hrest⟩
  | @name b f v w gap s t hf hv hw hb hPv hPw hgap _ ih =>
    intro depth quote hquote
    obtain ⟨p, ps, q, qs, hs, ht, hpq, hrest⟩ :=
      ih (nextDepth depth quote '(') (all_isQuote_nextQuote hquote '(')
    have htoken : ∀ {v s : List Char} {p : List Char} {ps : List (List Char)}, f.Spells v →
        pieces (nextDepth depth quote '(') (nextQuote quote '(') s = p :: ps →
        pieces depth quote (v ++ (gap ++ '(' :: s)) = (v ++ (gap ++ '(' :: p)) :: ps := by
      intro v s p ps hv hs
      have hpass := uncut_token hquote (x := v ++ gap) (fun c hc =>
        (mem_append.mp hc).imp (hv.letters hf c) (hgap c)) depth
      rw [append_token, ← append_assoc v, pieces_append _ s hpass, hs, append_token,
        ← append_assoc v]
      rfl
    exact ⟨_, ps, _, qs, htoken hv hs, htoken hw ht, .name hf hv hw hb hPv hPw hgap hpq, hrest⟩

/-- An empty argument at the end is dropped from both lists. -/
protected theorem dropLastBlank {xs ys : List (List Char)}
    (h : Forall₂ (Respelled P b) xs ys) :
    Forall₂ (Respelled P b) (dropLastBlank xs) (dropLastBlank ys) := by
  induction h with
  | nil => exact .nil
  | @cons x y xs ys hxy hrest ih =>
    cases hrest with
    | nil =>
      have hnil : y = [] ↔ x = [] := by
        rw [← length_eq_zero_iff, hxy.length_eq, length_eq_zero_iff]
      rw [dropLastBlank, dropLastBlank]
      by_cases hx : x = []
      · rw [if_pos hx, if_pos (hnil.mpr hx)]
        exact .nil
      · rw [if_neg hx, if_neg (mt hnil.mp hx)]
        exact .cons hxy .nil
    | cons hxy' hrest =>
      rw [dropLastBlank, dropLastBlank]
      exact .cons hxy ih

/-- Respelled texts have as many arguments, each respelled. -/
protected theorem splitArgs (h : Respelled IsPlain b s t) :
    Forall₂ (Respelled IsPlain none) (splitArgs s) (splitArgs t) := by
  obtain ⟨p, ps, q, qs, hs, ht, hpq, hrest⟩ :=
    h.pieces 0 (show (none : Option Char).all isQuote from rfl)
  unfold splitArgs
  rw [hs, ht]
  refine Respelled.dropLastBlank (.cons hpq.strip ?_)
  rw [forall₂_map_left_iff, forall₂_map_right_iff]
  exact hrest.imp fun _ _ h => h.strip

end Respelled

/-! ## Patterns -/

/-- Whether every argument stands behind a text that lets a name begin; `ok` tells whether the first
piece does. -/
def seated (ok : Bool) : List Piece → Bool
  | [] => true
  | .text t :: ps => seated (t.toList.getLast?.any fun c => startsName (some c)) ps
  | .arg _ :: ps => ok && seated false ps

/-- Respelled arguments in a pattern make a respelled text. -/
theorem respelled_spread {args args' : Nat → List Char}
    (h : ∀ i, Respelled IsPlain none (args i) (args' i)) (ps : List Piece) :
    ∀ {ok : Bool} {b : Option Char}, seated ok ps → (ok → startsName b) →
      Respelled IsPlain b (spread ps args) (spread ps args') := by
  induction ps with
  | nil => exact fun _ _ => .nil
  | cons p ps ih =>
    intro ok b hseated hb
    cases p with
    | text t =>
      rw [seated] at hseated
      rw [spread_text, spread_text]
      refine (Respelled.refl t.toList).append (ih hseated fun hok => ?_)
      obtain ⟨c, hc, hstarts⟩ := (Option.any_eq_true _ _).mp hok
      rw [lastFrom_eq, hc, Option.some_or]
      exact hstarts
    | arg i =>
      rw [seated, Bool.and_eq_true] at hseated
      rw [spread_arg, spread_arg]
      exact ((h i).of_none (hb hseated.1)).append (ih hseated.2 fun hno => by cases hno)

/-- Whether the arguments are seated in a pattern. -/
def Target.isSeated : Target → Bool
  | .pattern ps => seated false ps
  | _ => true

/-- In the patterns of the table, a name can begin where an argument stands. -/
theorem functions_seated : (functions.all fun f => f.target.isSeated) := by decide +kernel

/-- Commas with blanks behind them let names begin. -/
theorem seated_argPieces : ∀ is : List Nat, seated true (argPieces is)
  | [] => rfl
  | [_] => rfl
  | i :: j :: is => by
    have hcomma : (", ".toList.getLast?.any fun c => startsName (some c)) := by decide
    rw [argPieces, seated, seated, hcomma, seated_argPieces (j :: is)]
    rfl

/-- So does the parenthesis of a call. -/
theorem seated_callPieces (name : String) (n : Nat) : seated false (callPieces name n) := by
  have hopen : (name ++ "(").toList.getLast? = some '(' := by
    rw [String.toList_append]
    exact getLast?_concat
  rw [callPieces, seated, hopen]
  exact seated_argPieces _

/-- So do the words of a choice. -/
theorem seated_casePieces : ∀ (is : List Nat) {ps : List Piece}, seated false ps →
    seated false (casePieces is ++ ps)
  | [], _, h | [_], _, h => h
  | i :: j :: is, ps, h => by
    have hrest := seated_casePieces is h
    have hwhen : (" WHEN ".toList.getLast?.any fun c => startsName (some c)) := by decide
    have hthen : (" THEN ".toList.getLast?.any fun c => startsName (some c)) := by decide
    rw [casePieces]
    simp only [cons_append, seated, hwhen, hthen, hrest, Bool.and_self]

theorem seated_switchPieces (n : Nat) : seated false (switchPieces n) := by
  have helse : (" ELSE ".toList.getLast?.any fun c => startsName (some c)) := by
    decide +kernel
  have hcase : ("CASE ".toList.getLast?.any fun c => startsName (some c)) := by
    decide +kernel
  have hend : seated false [.text " ELSE ", .arg 1, .text " END"] := by
    simp only [seated, helse, Bool.and_self]
  have hmiddle : seated false ((if n = 2 then [.text " "] else casePieces (range' 2 (n - 2)))
      ++ [.text " ELSE ", .arg 1, .text " END"]) := by
    split
    · rw [singleton_append, seated]
      simp only [seated, helse, Bool.and_self]
    · exact seated_casePieces _ hend
  rw [switchPieces, cons_append, cons_append, seated, hcase, seated, hmiddle]
  rfl

/-- Whatever a function is converted to, its arguments are seated. -/
theorem seated_sqlPieces {f : Function} (hf : f ∈ functions) (n : Nat) :
    seated false (f.sqlPieces n) := by
  have htarget := all_eq_true.mp functions_seated f hf
  unfold Function.sqlPieces
  cases h : f.target with
  | constant sql => rfl
  | call sql => exact seated_callPieces sql n
  | pattern ps =>
    rw [h] at htarget
    dsimp only
    split
    · exact htarget
    · exact seated_callPieces _ n
  | manual =>
    dsimp only
    split
    · split
      · rfl
      · split
        · exact seated_switchPieces n
        · exact seated_callPieces _ n
    · exact seated_callPieces _ n

/-! ## One conversion -/

/-- Missing arguments are empty on both sides. -/
theorem getD_forall₂ {xs ys : List (List Char)} (h : Forall₂ (Respelled IsPlain none) xs ys) :
    ∀ i, Respelled IsPlain none (xs.getD i []) (ys.getD i []) := by
  induction h with
  | nil => exact fun _ => .nil
  | cons hxy _ ih =>
    intro i
    cases i with
    | zero => exact hxy
    | succ i => exact ih i

/-- The notes on a call depend on the number of its arguments only. -/
theorem Function.notes_eq (f : Function) (name : List Char) {args args' : List (List Char)}
    (h : args'.length = args.length) : (f.convert name args').2 = (f.convert name args).2 := by
  unfold Function.convert
  cases f.target with
  | constant sql => rfl
  | call sql => rfl
  | pattern ps =>
    dsimp only
    rw [instantiate_eq, instantiate_eq, h]
    by_cases hall : (places ps).all (· < args.length)
    · rw [if_pos hall, if_pos hall]
    · rw [if_neg hall, if_neg hall]
  | manual =>
    dsimp only
    unfold convertManual
    split
    next =>
      match args, args' with
      | [], [] | [_], [_] => rfl
      | _ :: _ :: cases, _ :: _ :: cases' =>
        dsimp only
        rw [show cases'.length = cases.length by simpa using h]
        split <;> rfl
    next => rfl

/-- What is noted when a call is converted. -/
def Call.notes (c : Call) (s : List Char) : List Note :=
  (c.function.convert c.function.name.toList (splitArgs (c.inside s))).2

namespace Respelled

variable {P : Option Char → List Char → Prop} {b : Option Char} {s t : List Char}

/-- A text is not respelled if the calls of functions in it are in capitals. -/
theorem eq_of_capital (hP : ∀ b v, P b v → allCapital v = false) (h : Respelled P b s t) :
    ∀ pos, (∀ x ∈ sites b pos s, ∀ f ∈ functions, f.Spells x.word →
      allCapital x.word) → t = s := by
  induction h with
  | nil => exact fun _ _ => rfl
  | @char b c s t _ ih =>
    intro pos hs
    rw [ih (pos + 1) fun x hx => hs x ?_]
    rw [sites]
    split
    · exact mem_append_right _ hx
    · exact hx
  | @name b f v w gap s t hf hv hw hb hPv hPw hgap _ ih =>
    intro pos hs
    rw [sites_token hb (ne_nil_of_afterName? hf hv) (hv.letters hf) hgap] at hs
    have hcapital := hs _ (.head _) f hf hv
    rw [hP b v hPv] at hcapital
    cases hcapital

/-- A call that is converted to itself is not respelled. -/
theorem settled (hP : ∀ b v, P b v → allCapital v = false) (h : Respelled P none s t)
    (hc : c ∈ openCalls s) (hsettled : c.text s ∈ settledTexts) : c.text t ∈ settledTexts := by
  have hsites : (settledTexts.all fun x =>
      (sites none 0 x).all fun site => allCapital site.word) := by decide +kernel
  obtain ⟨front, word, gap, inside, back, hs, hnamed⟩ := mem_openCalls_iff.mp hc
  obtain ⟨-, -, -, -, -, -, htext, -⟩ :=
    h.of_stands hs (ne_nil_of_afterName? hnamed.listed hnamed.named)
  have hstart : atWordStart (lastFrom none front) := by
    rw [lastFrom_eq, Option.or_none]
    exact hs.starts
  have hcapital := all_eq_true.mp (all_eq_true.mp hsites _ hsettled)
  rw [htext.eq_of_capital hP 0 fun x hx f _ _ => hcapital x ?_]
  · exact hsettled
  · rwa [← sites_of_atWordStart hstart]

/-- Respelled texts are converted alike. -/
theorem step (h : Respelled IsPlain none s t) (hc : c ∈ openCalls s) :
    Respelled IsPlain none (c.converted s) (c.converted t) ∧ c.notes t = c.notes s
      ∧ (c.converted t = t ↔ c.converted s = s) := by
  have hP : ∀ b v, IsPlain b v → allCapital v = false := fun _ _ hv => hv.small
  have hc' : c ∈ openCalls t := by rwa [h.openCalls_eq hP]
  obtain ⟨front, word, gap, inside, back, hs, hnamed⟩ := mem_openCalls_iff.mp hc
  obtain ⟨front', back', hfront, hinside, hback, -, -, hreplace⟩ :=
    h.of_stands hs (ne_nil_of_afterName? hnamed.listed hnamed.named)
  rw [← hs.inside_eq] at hinside
  have hargs := hinside.splitArgs
  have hsql : Respelled IsPlain (lastFrom none front)
      (c.function.convert c.function.name.toList (splitArgs (c.inside s))).1
      (c.function.convert c.function.name.toList (splitArgs (c.inside t))).1 := by
    rw [Function.convert_eq, Function.convert_eq, ← hargs.length_eq]
    exact respelled_spread (getD_forall₂ hargs) _ (seated_sqlPieces hnamed.listed _)
      fun hno => by cases hno
  refine ⟨?_, Function.notes_eq _ _ hargs.length_eq.symm, ?_⟩
  · rw [Call.converted, Call.converted, hs.replace_eq, hreplace]
    -- what stood behind a parenthesis may stand behind anything
    exact hfront.append (hsql.append (hback.behind fun hno => by cases hno))
  · rw [converted_eq_self_iff hc, converted_eq_self_iff hc']
    exact ⟨h.symm.settled hP hc', h.settled hP hc⟩

end Respelled

/-! ## All conversions -/

/-- Without a next call nothing changes. -/
theorem convertCalls_of_none {s : List Char} (h : nextCall? s = none) (limit : Nat) :
    convertCalls limit s = (s, []) := by
  cases limit with
  | zero => rfl
  | succ limit => rw [convertCalls, h]

/-- The next call is converted, and if that changes the text, so are the others. -/
theorem convertCalls_of_some {s : List Char} (h : nextCall? s = some c) (limit : Nat) :
    convertCalls (limit + 1) s = if c.converted s = s then (s, c.notes s)
      else ((convertCalls limit (c.converted s)).1,
        c.notes s ++ (convertCalls limit (c.converted s)).2) := by
  rw [convertCalls, h]
  rfl

/-- Respelled texts have respelled SQL, with the same notes. -/
theorem Respelled.run (limit : Nat) : ∀ {s t : List Char}, Respelled IsPlain none s t →
    Respelled IsPlain none (convertCalls limit s).1 (convertCalls limit t).1
      ∧ (convertCalls limit t).2 = (convertCalls limit s).2 := by
  induction limit with
  | zero => exact fun h => ⟨h, rfl⟩
  | succ limit ih =>
    intro s t h
    have hnext := h.nextCall?_eq fun _ _ hv => hv.small
    cases hc : nextCall? s with
    | none =>
      rw [convertCalls_of_none hc, convertCalls_of_none (hnext.trans hc)]
      exact ⟨h, rfl⟩
    | some c =>
      obtain ⟨hstep, hnotes, hself⟩ := h.step (mem_openCalls_of_nextCall? hc)
      rw [convertCalls_of_some hc, convertCalls_of_some (hnext.trans hc), hnotes]
      by_cases hsame : c.converted s = s
      · rw [if_pos hsame, if_pos (hself.mpr hsame)]
        exact ⟨h, rfl⟩
      · rw [if_neg hsame, if_neg (mt hself.mp hsame)]
        obtain ⟨hsql, hmore⟩ := ih hstep
        exact ⟨hsql, congrArg (c.notes s ++ ·) hmore⟩

/-! ## Before calls are converted -/

/-- Whether a field ends does not depend on letters. -/
theorem endsField_similar {s t : List Char} (h : Forall₂ Similar s t) :
    endsField t = endsField s := by
  have heq : ∀ {c d : Char}, Similar c d → (']' == d) = (']' == c) := fun hcd => by
    rw [Bool.eq_iff_iff, beq_iff_eq, beq_iff_eq, hcd.eq_iff (by decide)]
  have hcontains : t.contains ']' = s.contains ']' := by
    induction h with
    | nil => rfl
    | cons hcd _ ih => rw [contains_cons, contains_cons, ih, heq hcd]
  unfold endsField
  rw [hcontains]
  cases h with
  | nil => rfl
  | cons hcd _ =>
    simp only [head?_cons, Option.any_some, bne, BEq.comm (b := ']'), heq hcd]

/-- A text without brackets is passed over. -/
theorem quoteFields_skip (hopen : '[' ∉ x) (hclose : ']' ∉ x) (inside : Bool) (s : List Char) :
    quoteFields inside (x ++ s) = x ++ quoteFields inside s := by
  induction x with
  | nil => rfl
  | cons c x ih =>
    have hc : c ≠ '[' := fun h => hopen (h ▸ mem_cons_self ..)
    have hc' : c ≠ ']' := fun h => hclose (h ▸ mem_cons_self ..)
    have hrest := ih (fun h => hopen (.tail _ h))
      fun h => hclose (.tail _ h)
    rw [cons_append, quoteFields]
    cases inside with
    | true => rw [if_pos rfl, if_neg hc', hrest, cons_append]
    | false =>
      rw [if_neg Bool.false_ne_true, if_neg (by simp [hc]), hrest, cons_append]

/-- What is searched for is found in the same places, if it has no character of a word. -/
theorem startsWith_similar {pat : List Char} (hpat : ∀ c ∈ pat, isWord c = false)
    {s t : List Char} (h : Forall₂ Similar s t) :
    Text.startsWith pat t = Text.startsWith pat s := by
  induction pat generalizing s t with
  | nil => cases h <;> rfl
  | cons p pat ih =>
    cases h with
    | nil => rfl
    | @cons c d s t hcd hrest =>
      have hsame := hcd.eq_iff (hpat p (.head _))
      have hafter := ih (forall_mem_cons.mp hpat).2 hrest
      unfold Text.startsWith at hafter ⊢
      rw [Text.after?, Text.after?]
      by_cases hpc : p = c
      · rw [if_pos hpc, if_pos (hsame.mpr hpc), hafter]
      · rw [if_neg hpc, if_neg (mt hsame.mp hpc)]

namespace Respelled

variable {b b' : Option Char} {s t : List Char}

/-- A plain name can stand behind another character. -/
theorem plainName {f : Function} {v w : List Char} (hf : f ∈ functions) (hv : f.Spells v)
    (hw : f.Spells w) (hstart : atWordStart b) (hPv : IsPlain b v) (hPw : IsPlain b w)
    (hgap : ∀ c ∈ gap, isBlank c) (hb : startsName b → startsName b')
    (h : Respelled IsPlain (some '(') s t) :
    Respelled IsPlain b' (v ++ (gap ++ '(' :: s)) (w ++ (gap ++ '(' :: t)) :=
  (Respelled.name hf hv hw hstart hPv hPw hgap h).behind hb

/-- References are put into quotes alike. -/
protected theorem quoteFields (h : Respelled IsPlain b s t) : ∀ {b' : Option Char} (inside : Bool),
    (startsName b → startsName b') →
    Respelled IsPlain b' (quoteFields inside s) (quoteFields inside t) := by
  induction h with
  | nil => exact fun _ _ => .nil
  | @char b c s t h ih =>
    intro b' inside _
    have hquote : ∀ inside, Respelled IsPlain (some '\x22') (quoteFields inside s)
        (quoteFields inside t) := fun inside => ih inside fun _ => by decide
    rw [quoteFields, quoteFields, endsField_similar h.similar]
    split
    · split
      · exact .char (hquote false)
      · exact .char (ih true id)
    · split
      · exact .char (hquote true)
      · exact .char (ih false id)
  | @name b f v w gap s t hf hv hw hb hPv hPw hgap _ ih =>
    intro b' inside hb'
    have hskip : ∀ {v : List Char}, f.Spells v → ∀ s, quoteFields inside (v ++ (gap ++ '(' :: s))
        = v ++ (gap ++ '(' :: quoteFields inside s) := by
      intro v hv s
      rw [append_token v gap s, append_token v gap (quoteFields inside s)]
      exact quoteFields_skip
        (notMem_token (hv.letters hf) hgap (by decide) (by decide) (by decide))
        (notMem_token (hv.letters hf) hgap (by decide) (by decide) (by decide)) inside s
    rw [hskip hv, hskip hw]
    exact plainName hf hv hw hb hPv hPw hgap hb' (ih inside id)

section Operators

variable {pat new : List Char} (hne : pat ≠ [])
  (hpat : ∀ c ∈ pat, isWord c = false ∧ isBlank c = false ∧ c ≠ '(')
  (hnew : ∀ b, startsName (lastFrom b new))
include hne hpat hnew

/-- Operators are found and replaced in the same places. -/
theorem replaceGo (h : Respelled IsPlain b s t) : ∀ {b' : Option Char} (skip : Nat),
    (startsName b → startsName b') → (skip ≠ 0 → startsName b') →
    (∀ c ∈ s.take skip, isWord c = false) →
    Respelled IsPlain b' (Text.replaceGo pat new skip s) (Text.replaceGo pat new skip t) := by
  induction h with
  | nil =>
    intro b' skip _ _ _
    cases skip <;> exact .nil
  | @char b c s t h ih =>
    intro b' skip _ hskip htake
    cases skip with
    | succ skip =>
      have hb' := hskip (Nat.succ_ne_zero _)
      exact ih skip (fun _ => hb') (fun _ => hb') fun d hd =>
        htake d (.tail _ hd)
    | zero =>
      rw [Text.replaceGo, Text.replaceGo,
        startsWith_similar (fun d hd => (hpat d hd).1) (.cons (.inl rfl) h.similar)]
      split
      next hstart =>
        -- the rest of the operator is skipped
        have hrest : s.take (pat.length - 1) = pat.tail := by
          obtain ⟨d, ds, rfl⟩ := exists_cons_of_ne_nil hne
          obtain ⟨r, hr⟩ := startsWith_iff.mp hstart
          rw [← (cons.inj hr).2]
          exact take_left
        refine (Respelled.refl new).append (ih _ (fun _ => hnew b') (fun _ => hnew b') ?_)
        rw [hrest]
        exact fun d hd => (hpat d (mem_of_mem_tail hd)).1
      next =>
        exact .char (ih 0 id (fun h0 => absurd rfl h0) (forall_mem_nil _))
  | @name b f v w gap s t hf hv hw hb hPv hPw hgap _ ih =>
    intro b' skip hb' _ htake
    cases skip with
    | succ skip =>
      obtain ⟨d, ds, rfl⟩ := exists_cons_of_ne_nil (ne_nil_of_afterName? hf hv)
      have hd := htake d (.head _)
      rw [hv.letters hf d (.head _)] at hd
      cases hd
    | zero =>
      have hpass : ∀ {v : List Char}, f.Spells v → ∀ s,
          Text.replaceGo pat new 0 (v ++ (gap ++ '(' :: s))
            = v ++ (gap ++ '(' :: Text.replaceGo pat new 0 s) := by
        intro v hv s
        have habsent : ¬pat <:+: v ++ gap := by
          intro hin
          obtain ⟨d, ds, rfl⟩ := exists_cons_of_ne_nil hne
          obtain ⟨hword, hblank, hparen⟩ := hpat d (.head _)
          have hmem := hin.subset (.head _)
          refine notMem_token (hv.letters hf) hgap hword hblank hparen ?_
          rw [← append_assoc]
          exact mem_append_left _ hmem
        have hsplit : Text.replaceAll pat new (v ++ gap ++ '(' :: s)
            = Text.replaceAll pat new (v ++ gap) ++ '(' :: Text.replaceAll pat new s :=
          replaceAll_append (fun hmem => (hpat '(' hmem).2.2 rfl) (v ++ gap) s
        rw [replaceAll_of_absent habsent] at hsplit
        unfold Text.replaceAll at hsplit
        rw [if_neg hne, if_neg hne, append_assoc, append_assoc] at hsplit
        exact hsplit
      rw [hpass hv, hpass hw]
      exact plainName hf hv hw hb hPv hPw hgap hb'
        (ih 0 id (fun h0 => absurd rfl h0) (forall_mem_nil _))

end Operators

/-- All operators of the table are replaced alike. -/
protected theorem replaceOperators (h : Respelled IsPlain none s t) :
    Respelled IsPlain none (replaceOperators s) (replaceOperators t) := by
  have hops : ∀ op ∈ operators, op.1.toList ≠ []
      ∧ (∀ c ∈ op.1.toList, isWord c = false ∧ isBlank c = false ∧ c ≠ '(')
      ∧ ∃ c, op.2.toList.getLast? = some c ∧ startsName (some c) := by
    have hall : (operators.all fun op => !op.1.toList.isEmpty
        && (op.1.toList.all fun c => !isWord c && !isBlank c && c != '(')
        && op.2.toList.getLast?.any fun c => startsName (some c)) := by decide +kernel
    intro op hop
    have hop := all_eq_true.mp hall op hop
    simp only [Bool.and_eq_true, Bool.not_eq_true', isEmpty_eq_false_iff, all_eq_true,
      bne_iff_ne, Option.any_eq_true, and_assoc] at hop
    exact hop
  unfold Formula.replaceOperators
  generalize operators = ops at hops
  induction ops generalizing s t with
  | nil => exact h
  | cons op ops ih =>
    obtain ⟨hne, hpat, c, hc, hstarts⟩ := hops op (.head _)
    refine ih ?_ (forall_mem_cons.mp hops).2
    dsimp only
    unfold Text.replaceAll
    rw [if_neg hne, if_neg hne]
    refine replaceGo hne hpat (fun b => ?_) h 0 id (fun h0 => absurd rfl h0)
      (forall_mem_nil _)
    rw [lastFrom_eq, hc, Option.some_or]
    exact hstarts

/-- Respelled formulas are prepared alike. -/
protected theorem prepare (h : Respelled IsPlain none s t) :
    Respelled IsPlain none (prepare s) (prepare t) :=
  (h.strip.quoteFields false id).replaceOperators

end Respelled

/-! ## Formulas -/

/-- A formula with something in it is prepared, and then its calls are converted. -/
theorem convert_of_not_empty {formula : String} (h : ¬formula.isEmpty) :
    (convert formula).sql.toList = (convertCalls callLimit (prepare formula.toList)).1
      ∧ (convert formula).notes = (convertCalls callLimit (prepare formula.toList)).2 := by
  refine ⟨toList_convert h, ?_⟩
  rw [convert, if_neg h]

/-- Two formulas that differ only in the letters of names of functions, none of them in capitals or
right behind a closing parenthesis, are converted with the same notes. Their SQL again differs at
most in the letters of such names. It is the same if the calls of functions that are left in it are
in capitals. -/
theorem convert_respelled {formula other : String}
    (h : Respelled IsPlain none formula.toList other.toList) :
    (convert other).notes = (convert formula).notes
      ∧ Respelled IsPlain none (convert formula).sql.toList (convert other).sql.toList
      ∧ ((∀ x ∈ sites none 0 (convert formula).sql.toList, ∀ f ∈ functions, f.Spells x.word →
          allCapital x.word) → (convert other).sql = (convert formula).sql) := by
  have hrun : (convert other).notes = (convert formula).notes
      ∧ Respelled IsPlain none (convert formula).sql.toList (convert other).sql.toList := by
    by_cases hempty : formula.isEmpty
    · have hnil := h.length_eq
      rw [String.isEmpty_iff.mp hempty] at h hnil ⊢
      have hother : other = "" := String.toList_inj.mp (length_eq_zero_iff.mp hnil)
      rw [hother]
      exact ⟨rfl, .refl _⟩
    · have hother : ¬other.isEmpty := fun hempty' => by
        have hnil := h.length_eq
        rw [String.isEmpty_iff.mp hempty'] at hnil
        exact hempty (String.isEmpty_iff.mpr
          (String.toList_inj.mp (length_eq_zero_iff.mp hnil.symm)))
      obtain ⟨hsql, hnotes⟩ := convert_of_not_empty hempty
      obtain ⟨hsql', hnotes'⟩ := convert_of_not_empty hother
      rw [hsql, hsql', hnotes, hnotes']
      exact (h.prepare.run callLimit).symm
  exact ⟨hrun.1, hrun.2, fun hcapital => String.toList_inj.mp
    (hrun.2.eq_of_capital (fun _ _ hv => hv.small) 0 hcapital)⟩

/-- Two calls, one inside the other, in other letters. -/
theorem convert_respelled_nested :
    Respelled IsPlain none "Left(upperCase([a]), 1)".toList "left(UpperCase([a]), 1)".toList
      ∧ (convert "Left(upperCase([a]), 1)").sql = "SUBSTR(UPPER(\"a\"), 1, 1)"
      ∧ (convert "left(UpperCase([a]), 1)").sql = "SUBSTR(UPPER(\"a\"), 1, 1)" := by
  have hinner : Respelled IsPlain (some '(')
      ("upperCase".toList ++ ([] ++ '(' :: "[a]), 1)".toList))
      ("UpperCase".toList ++ ([] ++ '(' :: "[a]), 1)".toList)) :=
    .name (f := renamed "UpperCase" "UPPER" 1) (mem_of_getElem? (i := 7) rfl) (by decide)
      (by decide) (by decide) ⟨by decide, by decide⟩ ⟨by decide, by decide⟩
      (forall_mem_nil _) (.refl _)
  have houter : Respelled IsPlain none "Left(upperCase([a]), 1)".toList
      "left(UpperCase([a]), 1)".toList :=
    .name (f := pattern "Left" 2 ["SUBSTR(", 0, ", 1, ", 1, ")"]) (v := "Left".toList)
      (w := "left".toList) (mem_of_getElem? (i := 3) rfl) (by decide) (by decide) (by decide)
      ⟨by decide, by decide⟩ ⟨by decide, by decide⟩ (forall_mem_nil _) hinner
  have hsql : (convert "Left(upperCase([a]), 1)").sql = "SUBSTR(UPPER(\"a\"), 1, 1)" := by
    decide +kernel
  obtain ⟨-, -, hsame⟩ := convert_respelled houter
  have hcapital : ((sites none 0 "SUBSTR(UPPER(\"a\"), 1, 1)".toList).all
      fun x => allCapital x.word) := by decide +kernel
  refine ⟨houter, hsql, ?_⟩
  rw [← hsql] at hcapital ⊢
  exact hsame fun x hx _ _ _ => all_eq_true.mp hcapital x hx

/-- In capitals a name counts as SQL, and behind a closing parenthesis it may be joined to other
SQL: then its letters make a difference. -/
theorem convert_respelled_otherwise :
    (Respelled (fun _ _ => True) none "UPPERCASE([x])".toList "UpperCase([x])".toList
      ∧ (convert "UPPERCASE([x])").sql = "UPPERCASE(\"x\")"
      ∧ (convert "UpperCase([x])").sql = "UPPER(\"x\")")
    ∧ Respelled (fun _ _ => True) none "Null()Coalesce([x])".toList "Null()coalesce([x])".toList
      ∧ (convert "Null()Coalesce([x])").sql = "NULLCoalesce(\"x\")"
      ∧ (convert "Null()coalesce([x])").sql = "NULLcoalesce(\"x\")" := by
  have hconvert : (convert "UPPERCASE([x])").sql = "UPPERCASE(\"x\")"
      ∧ (convert "UpperCase([x])").sql = "UPPER(\"x\")"
      ∧ (convert "Null()Coalesce([x])").sql = "NULLCoalesce(\"x\")"
      ∧ (convert "Null()coalesce([x])").sql = "NULLcoalesce(\"x\")" := by decide +kernel
  refine ⟨⟨?_, hconvert.1, hconvert.2.1⟩, ?_, hconvert.2.2⟩
  · exact .name (f := renamed "UpperCase" "UPPER" 1) (v := "UPPERCASE".toList)
      (w := "UpperCase".toList) (mem_of_getElem? (i := 7) rfl) (by decide) (by decide)
      (by decide) trivial trivial (forall_mem_nil _) (.refl _)
  · have hname : Respelled (fun _ _ => True) (some ')')
        ("Coalesce".toList ++ ([] ++ '(' :: "[x])".toList))
        ("coalesce".toList ++ ([] ++ '(' :: "[x])".toList)) :=
      .name (f := variadic "Coalesce" "COALESCE") (by decide +kernel) (by decide) (by decide)
        (by decide) trivial trivial (forall_mem_nil _) (.refl _)
    exact (Respelled.refl "Null()".toList).append hname

end Replatform.Formula

import Replatform.Formula.Convert
/-!
# Scanning through text

`closing?` and `pieces` read a text from left to right with a depth and an open quote in mind, so
what they find behind a piece of text depends only on the depth and the quote at its end.
`through` gives these two for the parenthesis that closes a call (`closing?_append`), `uncut` for
the commas between arguments (`pieces_append`).

A text that leaves the scan for commas as it met it, outside literals at depth 0, is `Separable`;
texts of this kind that are joined by commas and spaces come apart again as they were
(`splitArgs_joinArgs`). If it leaves the scan for parentheses so too, it is an `Argument`.
-/

namespace Replatform.Formula

open List
open Text (isBlank strip trimWhile)

variable {c : Char} {x : List Char}

/-! ## Parentheses -/

/-- The depth and the open quote behind the character `c`. Nothing, if `c` closes a parenthesis and
none is open. -/
def scanStep (p : Nat × Option Char) (c : Char) : Option (Nat × Option Char) :=
  if p.2.isSome || isQuote c then some (p.1, nextQuote p.2 c)
  else if c = '(' then some (p.1 + 1, none)
  else if c = ')' then
    match p.1 with
    | 0 => none
    | d + 1 => some (d, none)
  else some (p.1, none)

/-- The depth and the open quote behind a text. Nothing, if the text closes more parentheses than
are open. -/
def through (p : Nat × Option Char) (s : List Char) : Option (Nat × Option Char) :=
  s.foldlM scanStep p

variable (p : Nat × Option Char)

@[simp] theorem through_nil : through p [] = some p := rfl

theorem through_cons (c : Char) (s : List Char) :
    through p (c :: s) = (scanStep p c).bind (through · s) := rfl

/-- A text is scanned through piece by piece. -/
theorem through_append (x y : List Char) :
    through p (x ++ y) = (through p x).bind (through · y) :=
  foldlM_append

/-- The scan for a closing parenthesis ends where a step is not possible. -/
theorem closing?_cons (c : Char) (s : List Char) :
    closing? p.1 p.2 (c :: s)
      = match scanStep p c with
        | none => some 0
        | some q => (closing? q.1 q.2 s).map (· + 1) := by
  obtain ⟨depth, quote⟩ := p
  rw [scanStep, closing?.eq_def]
  dsimp only
  split
  next => rfl
  next =>
    split
    next => rfl
    next =>
      split
      next => cases depth <;> rfl
      next => rfl

/-- The scan for a closing parenthesis passes over a text that is scanned through. -/
theorem closing?_append (x y : List Char) :
    ∀ {p q : Nat × Option Char}, through p x = some q →
      closing? p.1 p.2 (x ++ y) = (closing? q.1 q.2 y).map (· + x.length) := by
  induction x with
  | nil =>
    intro p q h
    rw [through_nil, Option.some.injEq] at h
    rw [h]
    simp
  | cons c x ih =>
    intro p q h
    rw [through_cons] at h
    obtain ⟨r, hr, hx⟩ := Option.bind_eq_some_iff.mp h
    rw [cons_append, closing?_cons, hr]
    dsimp only
    rw [ih hx, Option.map_map]
    rfl

def nextDepth (depth : Int) (quote : Option Char) (c : Char) : Int :=
  if quote.isSome then depth
  else if c = '(' then depth + 1
  else if c = ')' then depth - 1
  else depth

/-- With more parentheses open before a character, as many more are open behind it. -/
theorem nextDepth_add (depth k : Int) (quote : Option Char) (c : Char) :
    nextDepth (depth + k) quote c = nextDepth depth quote c + k := by
  unfold nextDepth
  split
  · rfl
  · split
    · omega
    · split <;> omega

/-- A step of the scan is one of the scan for commas that does not fall below depth 0. -/
theorem scanStep_eq_some_iff {p q : Nat × Option Char} : scanStep p c = some q ↔
    nextDepth p.1 p.2 c = q.1 ∧ nextQuote p.2 c = q.2 := by
  obtain ⟨depth, quote⟩ := p
  obtain ⟨depth', quote'⟩ := q
  unfold scanStep nextDepth
  cases quote with
  | some r => grind
  | none =>
    by_cases hq : isQuote c
    · have ho : c ≠ '(' := by rintro rfl; simp [isQuote] at hq
      have hp : c ≠ ')' := by rintro rfl; simp [isQuote] at hq
      grind
    · have hnext : nextQuote none c = none := by simp [nextQuote, hq]
      cases depth <;> grind

theorem scanStep_raise (k : Nat) {p q : Nat × Option Char} (h : scanStep p c = some q) :
    scanStep (p.1 + k, p.2) c = some (q.1 + k, q.2) := by
  obtain ⟨hdepth, hquote⟩ := scanStep_eq_some_iff.mp h
  refine scanStep_eq_some_iff.mpr ⟨?_, hquote⟩
  rw [Int.natCast_add, nextDepth_add, hdepth, Int.natCast_add]

/-- With more parentheses open before a text, as many more are open behind it. -/
theorem through_raise (k : Nat) (x : List Char) :
    ∀ {p q : Nat × Option Char}, through p x = some q →
      through (p.1 + k, p.2) x = some (q.1 + k, q.2) := by
  induction x with
  | nil =>
    intro p q h
    rw [through_nil, Option.some.injEq] at h
    rw [h]
    rfl
  | cons c x ih =>
    intro p q h
    rw [through_cons] at h ⊢
    obtain ⟨r, hr, hx⟩ := Option.bind_eq_some_iff.mp h
    rw [scanStep_raise k hr]
    exact ih hx

/-- The parenthesis behind a text that closes all that it opens is the closing one. -/
theorem closing?_of_through (h : through (0, none) x = some (0, none)) (y : List Char) :
    closing? 0 none (x ++ ')' :: y) = some x.length := by
  rw [show closing? 0 none (x ++ ')' :: y) = _ from closing?_append x _ h]
  simp [closing?, isQuote]

/-! ## Commas -/

/-- The depth and the open quote behind a text that is scanned for commas. Nothing, if there is one
at depth 0 outside literals. -/
def uncut (depth : Int) (quote : Option Char) : List Char → Option (Int × Option Char)
  | [] => some (depth, quote)
  | c :: s =>
    if quote.isNone && c == ',' && depth == 0 then none
    else uncut (nextDepth depth quote c) (nextQuote quote c) s

/-- A text is scanned for commas piece by piece. -/
theorem uncut_append (x y : List Char) : ∀ (depth : Int) (quote : Option Char),
    uncut depth quote (x ++ y) = (uncut depth quote x).bind fun r => uncut r.1 r.2 y := by
  induction x with
  | nil => intro depth quote; rfl
  | cons c x ih =>
    intro depth quote
    rw [cons_append, uncut, uncut]
    split
    next => rfl
    next => exact ih _ _

/-- There is always a piece. -/
theorem pieces_ne_nil (s : List Char) (depth : Int) (quote : Option Char) :
    pieces depth quote s ≠ [] := by
  cases s with
  | nil => simp [pieces]
  | cons c s =>
    rw [pieces]
    split
    next => simp
    next =>
      dsimp only
      split <;> simp

/-- `x` in front of the first of some pieces. -/
def leadPiece (x : List Char) : List (List Char) → List (List Char)
  | p :: ps => (x ++ p) :: ps
  | [] => [x]

/-- A text without a comma to cut at goes into the first piece. -/
theorem pieces_append (x y : List Char) :
    ∀ {depth depth' : Int} {quote quote' : Option Char},
      uncut depth quote x = some (depth', quote') →
      pieces depth quote (x ++ y) = leadPiece x (pieces depth' quote' y) := by
  induction x with
  | nil =>
    intro depth depth' quote quote' h
    simp only [uncut, Option.some.injEq, Prod.mk.injEq] at h
    rw [← h.1, ← h.2, nil_append]
    cases hp : pieces depth quote y with
    | nil => exact absurd hp (pieces_ne_nil y depth quote)
    | cons p ps => rfl
  | cons c x ih =>
    intro depth depth' quote quote' h
    rw [uncut] at h
    rw [cons_append, pieces]
    by_cases hcut : (quote.isNone && c == ',' && depth == 0)
    · rw [if_pos hcut] at h
      exact absurd h (by simp)
    · rw [if_neg hcut] at h ⊢
      have hrest := ih h
      unfold nextDepth at hrest
      dsimp only
      rw [hrest]
      cases pieces depth' quote' y with
      | nil => rfl
      | cons p ps => rfl

/-- Inside a parenthesis there is no comma to cut at: a text that is scanned through is also
scanned for commas, when more parentheses are open before it. -/
theorem uncut_of_through {k : Nat} (hk : 0 < k) (x : List Char) :
    ∀ {p q : Nat × Option Char}, through p x = some q →
      uncut ((p.1 + k : Nat) : Int) p.2 x = some (((q.1 + k : Nat) : Int), q.2) := by
  induction x with
  | nil =>
    intro p q h
    rw [through_nil, Option.some.injEq] at h
    rw [uncut, h]
  | cons c x ih =>
    intro p q h
    rw [through_cons] at h
    obtain ⟨r, hr, hx⟩ := Option.bind_eq_some_iff.mp h
    obtain ⟨hdepth, hquote⟩ := scanStep_eq_some_iff.mp (scanStep_raise k hr)
    have hdeep : ¬ (p.2.isNone && c == ',' && (((p.1 + k : Nat) : Int) == 0)) := by
      simp
      omega
    rw [uncut, if_neg hdeep, hdepth, hquote]
    exact ih hx

/-! ## Arguments -/

/-- A text that can be told from its neighbours in a list of arguments: it has no comma to cut at,
ends outside literals at depth 0, and neither begins nor ends with a blank. -/
structure Separable (x : List Char) : Prop where
  uncut : uncut 0 none x = some (0, none)
  first : ∀ c, x.head? = some c → isBlank c = false
  last : ∀ c, x.getLast? = some c → isBlank c = false
  filled : x ≠ []

/-- A text that can stand as the argument of a call: besides, it closes only what it opens. -/
structure Argument (x : List Char) : Prop extends Separable x where
  closed : through (0, none) x = some (0, none)

/-- An argument is passed over at any depth. -/
theorem Argument.through_eq (h : Argument x) (depth : Nat) :
    through (depth, none) x = some (depth, none) := by
  have := through_raise depth x h.closed
  rwa [Nat.zero_add] at this

/-- An argument has no comma to cut at, at any depth. -/
theorem Argument.uncut_eq (h : Argument x) (depth : Nat) :
    Formula.uncut (depth : Int) none x = some ((depth : Int), none) := by
  rcases Nat.eq_zero_or_pos depth with rfl | hd
  · exact h.uncut
  · have := uncut_of_through hd x h.closed
    rwa [Nat.zero_add] at this

/-- A blank in front is stripped. -/
theorem strip_cons_blank (hc : isBlank c) (x : List Char) : strip (c :: x) = strip x := by
  rw [strip, strip, trimWhile, dropWhile_cons_of_pos hc, trimWhile]

/-- A text with no blank at its ends stays as it is when it is stripped. -/
theorem strip_eq_self (hfirst : ∀ c, x.head? = some c → isBlank c = false)
    (hlast : ∀ c, x.getLast? = some c → isBlank c = false) : strip x = x := by
  have hdrop : ∀ {y : List Char}, (∀ c, y.head? = some c → isBlank c = false) →
      y.dropWhile isBlank = y := by
    intro y hy
    cases y with
    | nil => rfl
    | cons c y => rw [dropWhile_cons_of_neg (by simp [hy c rfl])]
  rw [strip, trimWhile, hdrop hfirst, Text.dropEndWhile,
    hdrop (by rw [head?_reverse]; exact hlast), reverse_reverse]

theorem Separable.stripped (h : Separable x) : strip x = x := strip_eq_self h.first h.last

/-- A text without a comma to cut at is cut from what stands behind a comma. -/
theorem pieces_comma (hx : uncut 0 none x = some (0, none)) (y : List Char) :
    pieces 0 none (x ++ ',' :: y) = x :: pieces 0 none y := by
  rw [pieces_append x _ hx, pieces]
  exact congrArg (· :: pieces 0 none y) (append_nil x)

/-- A space leads the first piece and is stripped from it. -/
theorem strip_pieces_space (y : List Char) :
    (pieces 0 none (' ' :: y)).map strip = (pieces 0 none y).map strip := by
  rw [show pieces 0 none (' ' :: y) = leadPiece [' '] (pieces 0 none y) from
    pieces_append [' '] y rfl]
  cases hp : pieces 0 none y with
  | nil => exact absurd hp (pieces_ne_nil _ _ _)
  | cons p ps => exact congrArg (· :: ps.map strip) (strip_cons_blank (by decide) p)

theorem joinArgs_cons (a b : List Char) (args : List (List Char)) :
    joinArgs (a :: b :: args) = a ++ ',' :: ' ' :: joinArgs (b :: args) := by
  simp [joinArgs, Text.join]

/-- The pieces of joined arguments are the arguments, but for blanks. -/
theorem strip_pieces_joinArgs : ∀ args : List (List Char), args ≠ [] →
    (∀ a ∈ args, uncut 0 none a = some (0, none) ∧ strip a = a) →
    (pieces 0 none (joinArgs args)).map strip = args
  | [], hne, _ => absurd rfl hne
  | [a], _, hargs => by
    have ha := hargs a (mem_singleton.mpr rfl)
    have hp := pieces_append a [] ha.1
    rw [append_nil] at hp
    show (pieces 0 none a).map strip = [a]
    rw [hp]
    show [strip (a ++ [])] = [a]
    rw [append_nil, ha.2]
  | a :: b :: args, _, hargs => by
    have ha := hargs a (.head _)
    rw [joinArgs_cons, pieces_comma ha.1, map_cons, ha.2, strip_pieces_space,
      strip_pieces_joinArgs (b :: args) (by simp) (forall_mem_cons.mp hargs).2]

/-- The last argument is kept, for it is not blank. -/
theorem dropLastBlank_eq_self : ∀ {args : List (List Char)}, (∀ a ∈ args, a ≠ []) →
    dropLastBlank args = args
  | [], _ => rfl
  | [a], h => if_neg (h a (mem_singleton.mpr rfl))
  | a :: b :: args, h => by
    rw [dropLastBlank, dropLastBlank_eq_self (forall_mem_cons.mp h).2]

/-- Joined arguments come apart as they were. -/
theorem splitArgs_joinArgs {args : List (List Char)} (h : ∀ a ∈ args, Separable a) :
    splitArgs (joinArgs args) = args := by
  cases args with
  | nil => rfl
  | cons a args =>
    rw [splitArgs, strip_pieces_joinArgs _ (by simp)
      fun x hx => ⟨(h x hx).uncut, (h x hx).stripped⟩]
    exact dropLastBlank_eq_self fun x hx => (h x hx).filled

/-- Joined arguments close only what they open. -/
theorem through_joinArgs : ∀ {args : List (List Char)},
    (∀ a ∈ args, through (0, none) a = some (0, none)) →
    through (0, none) (joinArgs args) = some (0, none)
  | [], _ => rfl
  | [a], h => h a (mem_singleton.mpr rfl)
  | a :: b :: args, h => by
    have hrest := through_joinArgs fun x hx => h x (mem_cons_of_mem a hx)
    show through (0, none) (a ++ [',', ' '] ++ joinArgs (b :: args)) = some (0, none)
    rw [append_assoc, through_append, h a (.head _), Option.bind_some, through_append]
    exact hrest

end Replatform.Formula

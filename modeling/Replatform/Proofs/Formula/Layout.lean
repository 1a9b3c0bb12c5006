import Mathlib.Data.List.Nodup
import Mathlib.Data.List.Perm.Basic
import Replatform.Proofs.Formula.Expression
import Replatform.Proofs.Formula.Scan
import Replatform.Proofs.Formula.Sites
/-!
# The layout of a call

The text of a call, before and after its conversion, is a list of pieces: fixed texts, and places
for the arguments. What the proofs need to know about such a list is that it is `Fitting`:

* every argument has its place once;
* the fixed texts close what they open, and have no comma to cut at outside parentheses, so that
  the whole can be an argument again;
* their words are not live, no word runs from a text into an argument, and what stands behind an
  argument stops words and calls;
* the whole neither begins nor ends with a blank, and begins differently from the call.

The counterparts of all functions that expressions call are fitting (`Callee.fitting`). The fixed
texts are data, so this is found by going through the table once (`functions_sound`).
-/

namespace Replatform.Formula

open List
open Text (isWord isBlank)

/-- The text of pieces with `s i` in the places of the argument `i`. -/
def spread (ps : List Piece) (s : Nat → List Char) : List Char := ps.flatMap (Piece.fill s)

variable (s : Nat → List Char)

@[simp] theorem spread_nil : spread [] s = [] := rfl

@[simp] theorem spread_text (t : String) (ps : List Piece) (s : Nat → List Char) :
    spread (.text t :: ps) s = t.toList ++ spread ps s := rfl

@[simp] theorem spread_arg (i : Nat) (ps : List Piece) (s : Nat → List Char) :
    spread (.arg i :: ps) s = s i ++ spread ps s := rfl

theorem spread_append (ps qs : List Piece) (s : Nat → List Char) :
    spread (ps ++ qs) s = spread ps s ++ spread qs s :=
  flatMap_append

/-- The arguments that have places in a list of pieces, in order. -/
def places : List Piece → List Nat
  | [] => []
  | .text _ :: ps => places ps
  | .arg i :: ps => i :: places ps

/-- Pieces that hold no place of an argument do not depend on it. -/
theorem spread_congr {ps : List Piece} {s s' : Nat → List Char}
    (h : ∀ i ∈ places ps, s i = s' i) : spread ps s = spread ps s' := by
  induction ps with
  | nil => rfl
  | cons p ps ih =>
    cases p with
    | text t => rw [spread_text, spread_text, ih h]
    | arg i =>
      rw [spread_arg, spread_arg, h i (.head _), ih (forall_mem_cons.mp h).2]

theorem places_append (ps qs : List Piece) : places (ps ++ qs) = places ps ++ places qs := by
  induction ps with
  | nil => rfl
  | cons p ps ih =>
    cases p with
    | text t => exact ih
    | arg i => exact congrArg (i :: ·) ih

/-- The arguments at some places, with commas between them and a parenthesis behind. -/
def argPieces : List Nat → List Piece
  | [] => [.text ")"]
  | [i] => [.arg i, .text ")"]
  | i :: j :: is => .arg i :: .text ", " :: argPieces (j :: is)

theorem spread_argPieces (s : Nat → List Char) : ∀ is : List Nat,
    spread (argPieces is) s = joinArgs (is.map s) ++ [')']
  | [] => rfl
  | [i] => rfl
  | i :: j :: is => by
    have hrest := spread_argPieces s (j :: is)
    rw [argPieces, spread_arg, spread_text, hrest]
    show s i ++ (", ".toList ++ _) = s i ++ [',', ' '] ++ joinArgs ((j :: is).map s) ++ [')']
    rw [append_assoc, append_assoc]
    rfl

theorem places_argPieces : ∀ is : List Nat, places (argPieces is) = is
  | [] => rfl
  | [_] => rfl
  | i :: j :: is => congrArg (i :: ·) (places_argPieces (j :: is))

/-- The pieces of the counterpart of a function that is called with `n` arguments. -/
def Target.layout (n : Nat) : Target → List Piece
  | .manual => []
  | .constant sql => [.text sql]
  | .call sql => .text (sql ++ "(") :: argPieces (range n)
  | .pattern ps => ps

/-- What `n` arguments have each, by their places. -/
def valueAt {α : Type} [Inhabited α] {n : Nat} (s : Fin n → α) (i : Nat) : α :=
  if h : i < n then s ⟨i, h⟩ else default

variable {n : Nat}

theorem valueAt_of_lt {α : Type} [Inhabited α] (s : Fin n → α) {i : Nat} (h : i < n) :
    valueAt s i = s ⟨i, h⟩ :=
  dif_pos h

theorem getD_ofFn (s : Fin n → List Char) (i : Nat) :
    (List.ofFn s).getD i [] = valueAt s i := by
  rw [List.getD_eq_getElem?_getD, List.getElem?_ofFn, valueAt]
  split <;> rfl

theorem map_range_valueAt {α : Type} [Inhabited α] (s : Fin n → α) :
    (range n).map (valueAt s) = List.ofFn s := by
  apply ext_getElem
  · simp
  · intro i h₁ h₂
    have hi : i < n := by simpa using h₁
    simp [valueAt, hi]

/-- The pieces of a call of `name`. -/
theorem writeCall_eq_spread (name : List Char) (s : Fin n → List Char) :
    writeCall name (List.ofFn s) = name ++ ['('] ++ spread (argPieces (range n)) (valueAt s) := by
  rw [spread_argPieces, map_range_valueAt, append_assoc]
  rfl

/-- A counterpart with its arguments is its layout with their texts. -/
theorem fill_eq_spread (s : Fin n → List Char) (target : Target) :
    target.fill (List.ofFn s) = spread (target.layout n) (valueAt s) := by
  cases target with
  | manual => rfl
  | constant sql => simp [Target.fill, Target.layout]
  | call sql =>
    rw [Target.fill, Target.layout, spread_text, String.toList_append]
    exact writeCall_eq_spread sql.toList s
  | pattern ps =>
    show ps.flatMap (Piece.fill fun i => (List.ofFn s).getD i [])
      = ps.flatMap (Piece.fill (valueAt s))
    congr 2
    funext i
    exact getD_ofFn s i

/-! ## Fixed texts -/

/-- What the small form of a name is, as a number. -/
def nameKey (w : List Char) : Nat := w.foldr (fun c n => c.toLower.toNat + 128 * n) 0

/-- Whether the table cannot hold a function to which a call of `w` belongs: in capitals, the word
is not spelled as in the table, and otherwise it has another key than all functions there. -/
def isDead (w : List Char) : Bool :=
  w.all (·.toNat < 128) &&
    if Text.allCapital w then
      !((functions.map (·.name.toList)).filter Text.allCapital).contains w
    else !(functions.map (nameKey ·.name.toList)).contains (nameKey w)

/-- A name that is met when case is ignored has the same key. -/
theorem nameKey_of_afterName? : ∀ {name w : List Char}, (∀ c ∈ w, c.toNat < 128) →
    Text.afterName? name w = some [] → nameKey name = nameKey w
  | [], w, _, h => by
    rw [Text.afterName?, Option.some.injEq] at h
    rw [h]
  | _ :: _, [], _, h => absurd h (by simp [Text.afterName?])
  | p :: name, c :: w, hw, h => by
    rw [Text.afterName?] at h
    split at h
    next hsame =>
      have hc := hw c (.head _)
      have hrest := nameKey_of_afterName? (forall_mem_cons.mp hw).2 h
      have hlower : c.toLower = p.toLower := by
        unfold Text.sameLetter at hsame
        rcases Bool.or_eq_true_iff.mp hsame with h₁ | h₂
        · exact beq_iff_eq.mp h₁
        · -- the letters that share a form with an ASCII letter are none themselves
          have hno : ∀ d : Char, ¬ d.toNat < 128 → c ≠ d := fun d hd e => hd (e ▸ hc)
          have h130 : c ≠ '\u0130' := hno _ (by decide)
          have h131 : c ≠ '\u0131' := hno _ (by decide)
          have h17f : c ≠ '\u017f' := hno _ (by decide)
          have h212a : c ≠ '\u212a' := hno _ (by decide)
          split at h₂ <;> simp_all
      show p.toLower.toNat + 128 * nameKey name = c.toLower.toNat + 128 * nameKey w
      rw [hrest, hlower]
    next => exact absurd h (by simp)

/-- A dead word is not live. -/
theorem isLive_of_isDead {w : List Char} (h : isDead w) : isLive w = false := by
  obtain ⟨hascii, hcase⟩ := Bool.and_eq_true_iff.mp h
  have hw : ∀ c ∈ w, c.toNat < 128 := fun c hc =>
    of_decide_eq_true (all_eq_true.mp hascii c hc)
  by_contra hlive
  rw [Bool.not_eq_false, isLive, any_eq_true] at hlive
  obtain ⟨f, hf, hmatch⟩ := hlive
  obtain ⟨hname, hsql⟩ := Bool.and_eq_true_iff.mp hmatch
  rw [beq_iff_eq] at hname
  split at hcase
  next hcap =>
    -- in capitals, so spelled as in the table
    have hspelled : w = f.name.toList := by simpa [hcap] using hsql
    have hmem : w ∈ (functions.map (·.name.toList)).filter Text.allCapital :=
      mem_filter.mpr ⟨mem_map.mpr ⟨f, hf, hspelled.symm⟩, hcap⟩
    simp [hmem] at hcase
  next =>
    have hmem : nameKey w ∈ functions.map (nameKey ·.name.toList) :=
      mem_map.mpr ⟨f, hf, nameKey_of_afterName? hw hname⟩
    simp [hmem] at hcase

/-- Whether a text stops words and calls, whatever stands behind it. -/
def stopsText (t : List Char) : Bool :=
  !t.head?.any isWord && (t.dropWhile isBlank).head? != some '(' && t.any (!isBlank ·)

theorem stops_of_stopsText {t : List Char} (h : stopsText t) (y : List Char) :
    Stops (t ++ y) := by
  unfold stopsText at h
  simp only [Bool.and_eq_true, bne_iff_ne] at h
  obtain ⟨⟨hword, hcall⟩, hany⟩ := h
  have ht : Stops t := by
    refine ⟨fun c hc => ?_, hcall⟩
    rw [hc] at hword
    simpa using hword
  exact ht.append hany y

/-- Whether pieces stop words and calls, if what stands behind them does. -/
def stopsPieces : List Piece → Bool
  | [] => true
  | .text t :: _ => stopsText t.toList
  | .arg _ :: _ => false

/-- Whether the fixed texts among pieces have no live words, and no word or call runs across a
seam. -/
def tidy : List Piece → Bool
  | [] => true
  | .text t :: ps =>
    (wordsFrom none t.toList).all isDead
      && (ps.isEmpty || t.toList.getLast?.any (!isWord ·)) && tidy ps
  | .arg _ :: ps => stopsPieces ps && tidy ps

theorem stops_of_stopsPieces {ps : List Piece} (h : stopsPieces ps) (s : Nat → List Char)
    {z : List Char} (hz : Stops z) : Stops (spread ps s ++ z) := by
  cases ps with
  | nil => exact hz
  | cons p ps =>
    cases p with
    | text t =>
      rw [spread_text, append_assoc]
      exact stops_of_stopsText h _
    | arg i => exact absurd h (by simp [stopsPieces])

theorem tidy_argPieces : ∀ is : List Nat, tidy (argPieces is)
  | [] => by decide
  | [i] => by simp [argPieces, tidy, stopsPieces]; decide
  | i :: j :: is => by
    have hrest := tidy_argPieces (j :: is)
    have hstop : stopsText ", ".toList := by decide
    have hwords : wordsFrom none ", ".toList = [] := by decide
    have hlast : ", ".toList.getLast?.any (!isWord ·) := by decide
    simp only [argPieces, tidy, stopsPieces, hstop, hwords, hlast, hrest, all_nil,
      Bool.or_true, Bool.and_self]

/-- The depth behind pieces whose fixed texts are scanned from `depth` on. Nothing, if they close
more than is open, end inside a literal, or have a comma to cut at. -/
def scanPieces : Nat → List Piece → Option Nat
  | depth, [] => some depth
  | depth, .arg _ :: ps => scanPieces depth ps
  | depth, .text t :: ps =>
    match through (depth, none) t.toList, uncut depth none t.toList with
    | some (d, none), some (e, none) => if e = d then scanPieces d ps else none
    | _, _ => none

/-- With arguments in their places, pieces are scanned as their fixed texts are. -/
theorem scan_spread {s : Nat → List Char} (ps : List Piece) :
    ∀ {depth d : Nat}, scanPieces depth ps = some d → (∀ i ∈ places ps, Argument (s i)) →
      through (depth, none) (spread ps s) = some (d, none) ∧
        uncut depth none (spread ps s) = some ((d : Int), none) := by
  induction ps with
  | nil =>
    intro depth d h _
    rw [scanPieces, Option.some.injEq] at h
    rw [h]
    exact ⟨rfl, rfl⟩
  | cons p ps ih =>
    intro depth d h hargs
    cases p with
    | arg i =>
      have harg := hargs i (.head _)
      obtain ⟨hthrough, huncut⟩ := ih h (forall_mem_cons.mp hargs).2
      rw [spread_arg, through_append, harg.through_eq, uncut_append, harg.uncut_eq]
      exact ⟨hthrough, huncut⟩
    | text t =>
      rw [scanPieces] at h
      split at h
      next d' e hd he =>
        split at h
        next hde =>
          obtain ⟨hthrough, huncut⟩ := ih h hargs
          rw [spread_text, through_append, hd, uncut_append, he, hde]
          exact ⟨hthrough, huncut⟩
        next => exact absurd h (by simp)
      next => exact absurd h (by simp)

theorem scanPieces_argPieces (depth : Nat) : ∀ is : List Nat,
    scanPieces (depth + 1) (argPieces is) = some depth := by
  have hclose : through (depth + 1, none) ")".toList = some (depth, none) := rfl
  have hcloseCut :
      uncut ((depth + 1 : Nat) : Int) none ")".toList = some ((depth : Int), none) := by
    show some (nextDepth ((depth + 1 : Nat) : Int) none ')', none) = _
    simp [nextDepth]
  have hlast : scanPieces (depth + 1) [.text ")"] = some depth := by
    rw [scanPieces, hclose, hcloseCut]
    exact if_pos rfl
  intro is
  induction is with
  | nil => exact hlast
  | cons i is ih =>
    cases is with
    | nil => exact hlast
    | cons j is =>
      have hcomma : through (depth + 1, none) ", ".toList = some (depth + 1, none) := rfl
      have hcommaCut : uncut ((depth + 1 : Nat) : Int) none ", ".toList
          = some (((depth + 1 : Nat) : Int), none) := by
        have h : through (0, none) ", ".toList = some (0, none) := rfl
        simpa only [Nat.zero_add] using uncut_of_through (Nat.succ_pos depth) _ h
      rw [argPieces, scanPieces, scanPieces, hcomma, hcommaCut]
      exact (if_pos rfl).trans ih

/-! ## Fitting layouts -/

/-- Whether pieces begin with a character that is no blank. -/
def opensFilled : List Piece → Bool
  | .text t :: _ => t.toList.head?.any (!isBlank ·)
  | _ => false

/-- Whether pieces end with a character that is no blank. -/
def closesFilled (ps : List Piece) : Bool :=
  match ps.getLast? with
  | some (.text t) => t.toList.getLast?.any (!isBlank ·)
  | _ => false

/-- Whether pieces begin differently from a call of `name`. -/
def beginsOtherwise (name : List Char) : List Piece → Bool
  | .text t :: _ =>
    !t.toList.isPrefixOf (name ++ ['(']) && !(name ++ ['(']).isPrefixOf t.toList
  | _ => false

/-- A layout for a call with `n` arguments, before or after its conversion. -/
structure Solid (n : Nat) (ps : List Piece) : Prop where
  places : (places ps).Perm (range n)
  scan : scanPieces 0 ps = some 0
  opens : opensFilled ps
  closes : closesFilled ps

/-- A layout for the counterpart of a call of `name` with `n` arguments. -/
structure Fitting (name : List Char) (n : Nat) (ps : List Piece) : Prop extends Solid n ps where
  tidy : tidy ps
  otherwise : beginsOtherwise name ps

instance (name : List Char) (n : Nat) (ps : List Piece) : Decidable (Fitting name n ps) :=
  decidable_of_iff
    ((places ps).Perm (range n) ∧ scanPieces 0 ps = some 0 ∧ opensFilled ps ∧
      closesFilled ps ∧ tidy ps ∧ beginsOtherwise name ps)
    ⟨fun ⟨h₁, h₂, h₃, h₄, h₅, h₆⟩ => ⟨⟨h₁, h₂, h₃, h₄⟩, h₅, h₆⟩,
      fun h => ⟨h.places, h.scan, h.opens, h.closes, h.tidy, h.otherwise⟩⟩

namespace Solid

variable {n : Nat} {ps : List Piece}

variable (h : Solid n ps)
include h

theorem lt_of_mem_places {i : Nat} (hi : i ∈ Formula.places ps) : i < n :=
  mem_range.mp (h.places.subset hi)

/-- The text of a solid layout begins as its first piece does. -/
theorem head?_spread :
    ∃ c, (spread ps s).head? = some c ∧ isBlank c = false := by
  have hopens := h.opens
  unfold opensFilled at hopens
  split at hopens
  next t ps =>
    obtain ⟨c, hc, hb⟩ := (Option.any_eq_true _ _).mp hopens
    refine ⟨c, ?_, by simpa using hb⟩
    rw [spread_text, head?_append, hc]
    rfl
  next => exact absurd hopens (by simp)

/-- The text of a solid layout ends as its last piece does. -/
theorem getLast?_spread :
    ∃ c, (spread ps s).getLast? = some c ∧ isBlank c = false := by
  have hcloses := h.closes
  unfold closesFilled at hcloses
  split at hcloses
  next t ht =>
    obtain ⟨c, hc, hb⟩ := (Option.any_eq_true _ _).mp hcloses
    obtain ⟨qs, rfl⟩ := getLast?_eq_some_iff.mp ht
    refine ⟨c, ?_, by simpa using hb⟩
    rw [spread_append, getLast?_append, spread_text, spread_nil, append_nil, hc]
    rfl
  next => exact absurd hcloses (by simp)

/-- With arguments in their places, a solid layout is an argument itself. -/
theorem argument_spread {s : Nat → List Char}
    (hargs : ∀ i < n, Argument (s i)) : Argument (spread ps s) := by
  obtain ⟨hthrough, huncut⟩ := scan_spread ps h.scan fun i hi => hargs i (h.lt_of_mem_places hi)
  obtain ⟨c, hc, hcb⟩ := h.head?_spread s
  obtain ⟨d, hd, hdb⟩ := h.getLast?_spread s
  refine ⟨⟨huncut, ?_, ?_, ?_⟩, hthrough⟩
  · intro e he
    rw [hc, Option.some.injEq] at he
    rw [← he, hcb]
  · intro e he
    rw [hd, Option.some.injEq] at he
    rw [← he, hdb]
  · intro h0
    rw [h0] at hc
    simp at hc

end Solid

namespace Fitting

variable {name : List Char} {n : Nat} {ps : List Piece}

/-- The text of a fitting layout is not the call that it stands for. -/
theorem spread_ne (h : Fitting name n ps) (s : Nat → List Char) (rest : List Char) :
    spread ps s ≠ name ++ '(' :: rest := by
  have hother := h.otherwise
  unfold beginsOtherwise at hother
  split at hother
  next t ps =>
    intro heq
    rw [spread_text, append_cons] at heq
    simp only [Bool.and_eq_true, Bool.not_eq_true', ← Bool.not_eq_true, isPrefixOf_iff_prefix]
      at hother
    -- of two beginnings of one text, one is a beginning of the other
    rcases append_eq_append_iff.mp heq with ⟨a, ha, -⟩ | ⟨b, hb, -⟩
    · exact hother.1 ⟨a, ha.symm⟩
    · exact hother.2 ⟨b, hb.symm⟩
  next => exact absurd hother (by simp)

/-- A pattern has all its arguments. -/
theorem instantiate_eq (h : Fitting name n ps) {args : List (List Char)} (hn : args.length = n) :
    instantiate ps args = some (spread ps fun i => args.getD i []) := by
  have hlt : ∀ i ∈ Formula.places ps, i < args.length := fun i hi =>
    hn ▸ h.toSolid.lt_of_mem_places hi
  clear h
  induction ps with
  | nil => rfl
  | cons p ps ih =>
    cases p with
    | text t =>
      rw [instantiate, ih hlt]
      rfl
    | arg i =>
      have hi := hlt i (.head _)
      rw [instantiate, getElem?_eq_getElem hi, ih (forall_mem_cons.mp hlt).2]
      simp [hi]

end Fitting

/-- The last piece of a list of arguments is the closing parenthesis. -/
theorem getLast?_argPieces (is : List Nat) : (argPieces is).getLast? = some (.text ")") := by
  induction is with
  | nil => rfl
  | cons i is ih =>
    cases is with
    | nil => rfl
    | cons j is =>
      rw [argPieces, getLast?_cons, getLast?_cons, ih]
      rfl

/-- A text that opens a parenthesis, with arguments and the closing parenthesis behind it, is a
solid layout. -/
theorem solid_call {t : String} (hopens : opensFilled [.text t])
    (hthrough : through (0, none) t.toList = some (1, none))
    (huncut : uncut 0 none t.toList = some (1, none)) (n : Nat) :
    Solid n (.text t :: argPieces (range n)) := by
  refine ⟨?_, ?_, hopens, ?_⟩
  · rw [places, places_argPieces]
  · rw [scanPieces, hthrough, Int.natCast_zero, huncut]
    exact (if_pos rfl).trans (scanPieces_argPieces 0 _)
  · unfold closesFilled
    rw [getLast?_cons, getLast?_argPieces]
    show ")".toList.getLast?.any (!isBlank ·)
    decide

/-- The layout of a call of another name fits any number of arguments, if it fits none. -/
theorem fitting_call {name : List Char} {sql : String}
    (h : Fitting name 0 ((Target.call sql).layout 0)) (n : Nat) :
    Fitting name n ((Target.call sql).layout n) := by
  have hscan := h.scan
  have htidy := h.tidy
  refine ⟨?_, ?_, h.otherwise⟩
  · unfold Target.layout scanPieces at hscan
    split at hscan
    next d e hd he =>
      split at hscan
      next hde =>
        -- the first text has opened one parenthesis, since the last closes it
        cases d with
        | zero => exact absurd hscan (by decide)
        | succ d =>
          rw [scanPieces_argPieces, Option.some.injEq] at hscan
          subst hscan
          rw [hde] at he
          exact solid_call h.opens hd he n
      next => exact absurd hscan (by simp)
    next => exact absurd hscan (by simp)
  · have hne : ∀ is : List Nat, (argPieces is).isEmpty = false := by
      intro is
      cases his : argPieces is with
      | nil => exact absurd (getLast?_argPieces is) (by rw [his]; simp)
      | cons p ps => rfl
    simp only [Target.layout, Formula.tidy, hne, tidy_argPieces] at htidy ⊢
    exact htidy

/-! ## The table -/

/-- Whether a counterpart is a call of another name. -/
def Target.isCall : Target → Bool
  | .call _ => true
  | _ => false

/-- What is asked of an entry of the table: its name is a word of ASCII letters, and if expressions
can call the function, the layout of its counterpart fits. -/
def soundEntry (f : Function) : Bool :=
  !f.name.toList.isEmpty && f.name.toList.all (fun c => isWord c && decide (c.toNat < 128)) &&
    (f.target == .manual || irregular.contains f.name ||
      decide (Fitting f.name.toList (f.arity.getD 0) (f.target.layout (f.arity.getD 0)))
        && (f.arity.isSome || f.target.isCall))

/-- Every entry is sound, and no two names differ in capitals only. Going through the table takes
the time, so it is done once for all that is to be known. -/
theorem functions_sound :
    functions.all soundEntry ∧ (functions.map (nameKey ·.name.toList)).Nodup := by
  decide +kernel

theorem soundEntry_of_mem {f : Function} (hf : f ∈ functions) : soundEntry f :=
  all_eq_true.mp functions_sound.1 f hf

theorem name_of_mem {f : Function} (hf : f ∈ functions) :
    f.name.toList ≠ [] ∧ ∀ c ∈ f.name.toList, isWord c ∧ c.toNat < 128 := by
  have h := soundEntry_of_mem hf
  unfold soundEntry at h
  simp only [Bool.and_eq_true, all_eq_true, decide_eq_true_eq] at h
  obtain ⟨⟨hne, hword⟩, -⟩ := h
  exact ⟨by simpa using hne, hword⟩

theorem afterName?_self (w : List Char) : Text.afterName? w w = some [] := by
  induction w with
  | nil => rfl
  | cons c w ih =>
    have hsame : Text.sameLetter c c := by simp [Text.sameLetter]
    rw [Text.afterName?, if_pos hsame, ih]

/-- The name of a function, spelled as in the table, is live. -/
theorem isLive_name {f : Function} (hf : f ∈ functions) : isLive f.name.toList := by
  rw [isLive, any_eq_true]
  refine ⟨f, hf, ?_⟩
  rw [afterName?_self]
  simp

/-- At the name of a function there is a call of no other. -/
theorem eq_of_afterName? {f g : Function} (hf : f ∈ functions) (hg : g ∈ functions)
    (h : Text.afterName? g.name.toList f.name.toList = some []) : g = f :=
  inj_on_of_nodup_map functions_sound.2 hg hf
    (nameKey_of_afterName? (fun c hc => ((name_of_mem hf).2 c hc).2) h)

namespace Callee

/-- The counterpart of a function that expressions call has a fitting layout. -/
theorem fitting (f : Callee) :
    Fitting f.function.name.toList f.count (f.function.target.layout f.count) := by
  have h := soundEntry_of_mem f.listed
  have hfits := f.fits
  unfold soundEntry at h
  rw [Bool.and_eq_true] at h
  rcases Bool.or_eq_true_iff.mp h.2 with hleft | hright
  · rcases Bool.or_eq_true_iff.mp hleft with hmanual | hirregular
    · exact absurd (eq_of_beq hmanual) f.mapped
    · exact absurd (contains_iff_mem.mp hirregular) f.regular
  · obtain ⟨hfit, hcall⟩ := Bool.and_eq_true_iff.mp hright
    have hfit := of_decide_eq_true hfit
    unfold Function.takes at hfits
    split at hfits
    next k hk =>
      rw [hk, Option.getD_some] at hfit
      rw [hfits]
      exact hfit
    next hk =>
      -- any number of arguments: the counterpart is a call of another name
      rw [hk, Option.getD_none] at hfit
      rw [hk] at hcall
      cases htarget : f.function.target with
      | call sql =>
        rw [htarget] at hfit
        exact fitting_call hfit f.count
      | manual => exact absurd htarget f.mapped
      | constant sql => exact absurd hcall (by simp [htarget, Target.isCall])
      | pattern ps => exact absurd hcall (by simp [htarget, Target.isCall])

/-- A call with all its arguments becomes the counterpart, and nothing has to be noted. -/
theorem convert_eq (f : Callee) (name : List Char) (s : Fin f.count → List Char) :
    f.function.convert name (List.ofFn s) = (f.function.target.fill (List.ofFn s), []) := by
  have hfit := f.fitting
  unfold Function.convert
  cases htarget : f.function.target with
  | manual => exact absurd htarget f.mapped
  | constant sql => rfl
  | call sql => rfl
  | pattern ps =>
    rw [htarget, Target.layout] at hfit
    dsimp only
    rw [hfit.instantiate_eq length_ofFn]
    rfl

end Callee

end Replatform.Formula

import Mathlib.Data.List.Find
import Mathlib.Data.List.Forall2
import Replatform.Proofs.Pieces
import Replatform.Proofs.Formula.Standing
/-!
# Texts with the same calls

Two texts are *aligned* if their sites correspond one to one and in order, the same functions are
called there, and a call waits in the one text if and only if it does in the other. Places may
differ: `φ` tells where a place of the first text is in the second. Then the same call is converted
next, moved by `φ` (`Aligned.nextCall?_eq`).

Whether a call waits depends on names in capitals that stand behind its parenthesis. A function that
is not spelled in capitals never counts (`inCapitals_of_small`); for the others it is enough to know
the words of the text, and what stands behind them (`inCapitals_append`).
-/

namespace Replatform.Formula

open List
open Text (allCapital atWordStart dropEndWhile has isBlank isInitial isSmall isWord)

/-! ## Aligned texts -/

def Call.move (φ : Nat → Nat) (c : Call) : Call := ⟨c.function, φ c.start, φ c.opening, φ c.closing⟩

/-- Two sites where the same functions are called, of which the second is moved by `φ`. -/
structure Site.Fits (φ : Nat → Nat) (x y : Site) : Prop where
  start : y.start = φ x.start
  opening : y.opening = φ x.opening
  isFor : ∀ f ∈ functions, y.isFor f.name.toList = x.isFor f.name.toList
  isSql : ∀ f ∈ functions, (allCapital y.word && y.word != f.name.toList)
    = (allCapital x.word && x.word != f.name.toList)

/-- The calls of two texts correspond. -/
structure Aligned (φ : Nat → Nat) (s t : List Char) : Prop where
  mono : ∀ {i j : Nat}, φ i < φ j ↔ i < j
  sites : Forall₂ (Site.Fits φ) (sites none 0 s) (sites none 0 t)
  closing : ∀ x ∈ Formula.sites none 0 s,
    matching? t (φ x.opening) = (matching? s x.opening).map φ
  waits : ∀ c ∈ openCalls s, (c.move φ).waits t = c.waits s

/-- The call of a function at a site, if it closes and is not SQL already. -/
def Site.call? (f : Function) (s : List Char) (x : Site) : Option Call :=
  if x.isFor f.name.toList then
    (matching? s x.opening).bind fun closing =>
      if allCapital x.word && x.word != f.name.toList then none
      else some ⟨f, x.start, x.opening, closing⟩
  else none

theorem callsOf_eq (f : Function) {s : List Char} {found : List Site}
    (h : ∀ x ∈ found, x ∈ sites none 0 s) : callsOf f s found = found.filterMap (·.call? f s) := by
  unfold callsOf
  rw [filterMap_filter]
  refine filterMap_congr fun x hx => ?_
  unfold Site.call?
  split
  next =>
    have hname : ∀ closing, Call.name ⟨f, x.start, x.opening, closing⟩ s = x.word :=
      fun _ => strip_site (h x hx)
    cases matching? s x.opening with
    | none => rfl
    | some closing =>
      dsimp only [Option.bind_some]
      rw [Call.isSql, hname]
  next => rfl

theorem nextCall?_eq_or (s : List Char) :
    nextCall? s = ((openCalls s).find? (!·.waits s)).or (rightmost (openCalls s)) := by
  unfold nextCall?
  dsimp only
  show _ = ((functions.flatMap (callsOf · s (sites none 0 s))).find? (!·.waits s)).or _
  cases (functions.flatMap (callsOf · s (sites none 0 s))).find? (!·.waits s) <;> rfl

namespace Aligned

variable {φ : Nat → Nat} {s t : List Char}

theorem openCalls_eq (h : Aligned φ s t) : openCalls t = (openCalls s).map (Call.move φ) := by
  have hcall : ∀ f ∈ functions, ∀ x ∈ Formula.sites none 0 s, ∀ y : Site, x.Fits φ y →
      y.call? f t = (x.call? f s).map (Call.move φ) := by
    intro f hf x hx y hfits
    unfold Site.call?
    rw [hfits.isFor f hf, hfits.isSql f hf, hfits.opening, hfits.start, h.closing x hx]
    split
    next =>
      cases matching? s x.opening with
      | none => rfl
      | some closing =>
        dsimp only [Option.map_some, Option.bind_some]
        split <;> rfl
    next => rfl
  have hcalls : ∀ f ∈ functions, ∀ {xs ys : List Site}, (∀ x ∈ xs, x ∈ Formula.sites none 0 s) →
      Forall₂ (Site.Fits φ) xs ys →
      ys.filterMap (·.call? f t) = (xs.filterMap (·.call? f s)).map (Call.move φ) := by
    intro f hf xs ys hxs hfits
    induction hfits with
    | nil => rfl
    | @cons x y xs ys hxy _ ih =>
      rw [filterMap_cons, filterMap_cons, hcall f hf x (hxs x (.head _)) y
        hxy, ih (forall_mem_cons.mp hxs).2]
      cases x.call? f s <;> rfl
  unfold openCalls
  rw [map_flatMap]
  refine flatMap_congr fun f hf => ?_
  rw [callsOf_eq f fun _ hx => hx, callsOf_eq f fun _ hx => hx]
  exact hcalls f hf (fun _ hx => hx) h.sites

theorem rightmost_map (hφ : ∀ {i j : Nat}, φ i < φ j ↔ i < j) (cs : List Call) :
    rightmost (cs.map (Call.move φ)) = (rightmost cs).map (Call.move φ) := by
  induction cs with
  | nil => rfl
  | cons c cs ih =>
    rw [map_cons, rightmost, rightmost, ih]
    cases rightmost cs with
    | none => rfl
    | some d =>
      have hmoved : (c.move φ).start < (d.move φ).start ↔ c.start < d.start := hφ
      dsimp only [Option.map_some]
      by_cases hlt : c.start < d.start
      · rw [if_pos hlt, if_pos (hmoved.mpr hlt), Option.map_some]
      · rw [if_neg hlt, if_neg (mt hmoved.mp hlt), Option.map_some]

/-- The same call is converted next. -/
theorem nextCall?_eq (h : Aligned φ s t) : nextCall? t = (nextCall? s).map (Call.move φ) := by
  have hfind : (openCalls t).find? (!·.waits t)
      = ((openCalls s).find? (!·.waits s)).map (Call.move φ) := by
    rw [h.openCalls_eq, find?_map]
    congr 1
    refine find?_congr fun c hc => ?_
    show (!(c.move φ).waits t) = !c.waits s
    rw [h.waits c hc]
  rw [nextCall?_eq_or, nextCall?_eq_or, hfind, h.openCalls_eq, rightmost_map h.mono, Option.map_or]

end Aligned

/-! ## Names in capitals -/

/-- Whether a text begins with a character that does not go with capitals. -/
def beginsSmall (y : List Char) : Bool := y.head?.any fun c => isSmall c || isInitial c

/-- A name that is a word in capitals. -/
structure IsCapitalName (g : List Char) : Prop where
  filled : g ≠ []
  letters : ∀ c ∈ g, isWord c
  capital : allCapital g

theorem isCapitalName_of_mem {f : Function} (hf : f ∈ functions)
    (h : allCapital f.name.toList) : IsCapitalName f.name.toList :=
  ⟨(name_of_mem hf).1, fun c hc => ((name_of_mem hf).2 c hc).1, h⟩

theorem inCapitals_cons (g : List Char) (c : Char) (s : List Char) :
    inCapitals g (c :: s) = if g <+: c :: s
      then allCapital (dropEndWhile (· == '(') ((c :: s).take (g.length + 1)))
      else inCapitals g s := by
  unfold inCapitals
  rw [Text.find?]
  by_cases h : g <+: c :: s
  · rw [if_pos h, if_pos (startsWith_iff.mpr h)]
    rfl
  · rw [if_neg h, if_neg (mt startsWith_iff.mp h)]
    cases Text.find? g s <;> rfl

theorem mem_dropEndWhile {p : Char → Bool} {c : Char} {s : List Char} (h : c ∈ s)
    (hp : p c = false) : c ∈ dropEndWhile p s := by
  rw [dropEndWhile, mem_reverse]
  have hmem := mem_reverse.mpr h
  rw [← takeWhile_append_dropWhile (p := p) (l := s.reverse)] at hmem
  rcases mem_append.mp hmem with hmem | hmem
  · rw [mem_takeWhile_imp hmem] at hp
    cases hp
  · exact hmem

/-- Whether the small form of `g` is found in that of `name`, told by their numbers. -/
def holdsKey (name g : List Char) : Bool :=
  (range name.length).any fun i => nameKey name / 128 ^ i % 128 ^ g.length == nameKey g

/-- What stands before the name in the remark on a call that is left. -/
def remarkTexts : List (List Char) := ["/* TODO: Convert ".toList, "/* TODO: Fix ".toList]

/-- Whether there is SQL for any number of arguments. -/
def Target.isTotal : Target → Bool
  | .constant _ | .call _ => true
  | .pattern _ | .manual => false

/-- A name in capitals is not found in any other or in a remark, and but for `IIF` there is SQL for
any number of arguments. All other names have a small letter. Going through the table takes the
time, so all of this is checked at once. -/
theorem functions_cased : (functions.all fun g =>
    if allCapital g.name.toList then
      (functions.all fun f => f.name == g.name || !holdsKey f.name.toList g.name.toList)
        && (remarkTexts.all fun x => !has g.name.toList x)
        && (g.target.isTotal || g.name == "IIF" && g.arity == some 3)
    else g.name.toList.any isSmall) := by
  decide +kernel

/-- A function that is not spelled in capitals is not met in capitals. -/
theorem inCapitals_of_small {f : Function} (hf : f ∈ functions)
    (h : allCapital f.name.toList = false) (s : List Char) :
    inCapitals f.name.toList s = false := by
  have hsmall := all_eq_true.mp functions_cased f hf
  rw [if_neg (by rw [h]; decide), any_eq_true] at hsmall
  obtain ⟨d, hd, hsmall⟩ := hsmall
  have hplain : (d == '(') = false := beq_eq_false_iff_ne.mpr fun heq => by
    rw [heq] at hd
    exact absurd ((name_of_mem hf).2 _ hd).1 (by decide)
  induction s with
  | nil =>
    rw [inCapitals, Text.find?, if_neg (name_of_mem hf).1]
  | cons c s ih =>
    rw [inCapitals_cons]
    split
    next hstart =>
      obtain ⟨rest, hrest⟩ := hstart
      rw [← hrest, take_length_add_append]
      have hmem := mem_dropEndWhile (p := (· == '(')) (mem_append_left (rest.take 1) hd) hplain
      rw [allCapital, Bool.and_eq_false_iff, Bool.not_eq_false']
      exact .inr (any_eq_true.mpr ⟨d, hmem, Bool.or_eq_true_iff.mpr (.inl hsmall)⟩)
    next => exact ih

/-- Whether a call waits is decided by the functions that are called between its parentheses, and
by the names in capitals behind the opening one. -/
theorem Call.waits_congr {c d : Call} {s t : List Char}
    (hsites : ∀ f ∈ functions, (sites none 0 (d.inside t)).any (·.isFor f.name.toList)
      = (sites none 0 (c.inside s)).any (·.isFor f.name.toList))
    (hcapital : ∀ f ∈ functions, IsCapitalName f.name.toList →
      inCapitals f.name.toList (t.drop (d.opening + 1))
        = inCapitals f.name.toList (s.drop (c.opening + 1))) :
    d.waits t = c.waits s := by
  unfold Call.waits
  dsimp only
  rw [Bool.eq_iff_iff, any_eq_true, any_eq_true]
  refine exists_congr fun f => and_congr_right fun hf => ?_
  rw [hsites f hf]
  cases hcap : allCapital f.name.toList with
  | true => rw [hcapital f hf (isCapitalName_of_mem hf hcap)]
  | false => rw [inCapitals_of_small hf hcap, inCapitals_of_small hf hcap]

/-- A word does not run across a seam. -/
theorem prefix_of_seam {g x y : List Char} (hg : ∀ c ∈ g, isWord c)
    (hseam : Seam x y) (h : g <+: x ++ y) : g <+: x := by
  rcases prefix_or_prefix_of_prefix h (prefix_append x y) with h' | ⟨r, rfl⟩
  · exact h'
  · cases r with
    | nil => rw [append_nil]
    | cons d r =>
      obtain ⟨rest, hrest⟩ := h
      rw [append_assoc, append_cancel_left_eq] at hrest
      rcases hseam with hy | ⟨c, hc, hplain⟩
      · have hword := hg d (mem_append_right _ (.head _))
        rw [hy d (by rw [← hrest]; rfl)] at hword
        cases hword
      · rw [hg c (mem_append_left _ (mem_of_getLast? hc))] at hplain
        cases hplain

namespace IsCapitalName

variable {g : List Char}

variable (hg : IsCapitalName g)
include hg

/-- Where the name stands, the next character decides. -/
theorem inCapitals_self (y : List Char) :
    inCapitals g (g ++ y) = !beginsSmall y := by
  have hlast : dropEndWhile (· == '(') g = g := by
    rw [dropEndWhile]
    have hnone : g.reverse.dropWhile (· == '(') = g.reverse := by
      cases hrev : g.reverse with
      | nil => rfl
      | cons d ds =>
        have hd : d ∈ g := mem_reverse.mp (hrev ▸ mem_cons_self ..)
        refine dropWhile_cons_of_neg fun heq => ?_
        rw [beq_iff_eq.mp heq] at hd
        exact absurd (hg.letters _ hd) (by decide)
    rw [hnone, reverse_reverse]
  have hstart : inCapitals g (g ++ y) = allCapital (dropEndWhile (· == '(') (g ++ y.take 1)) := by
    obtain ⟨c, cs, hcs⟩ := exists_cons_of_ne_nil hg.filled
    rw [← take_length_add_append]
    conv_lhs => rw [hcs, cons_append, inCapitals_cons, ← cons_append, ← hcs]
    exact if_pos (prefix_append g y)
  rw [hstart]
  cases y with
  | nil =>
    rw [take_nil, append_nil, hlast, hg.capital]
    rfl
  | cons c y =>
    rw [take_succ_cons, take_zero]
    by_cases hc : c = '('
    · have hdrop : dropEndWhile (· == '(') (g ++ [c]) = dropEndWhile (· == '(') g := by
        rw [hc, dropEndWhile, dropEndWhile, reverse_append, reverse_singleton,
          singleton_append, dropWhile_cons_of_pos rfl]
      rw [hdrop, hlast, hg.capital, hc]
      rfl
    · have hkeep : dropEndWhile (· == '(') (g ++ [c]) = g ++ [c] := by
        rw [dropEndWhile, reverse_append, reverse_singleton,
          singleton_append, dropWhile_cons_of_neg (by simpa using hc)]
        simp
      have hcapital := hg.capital
      rw [allCapital, Bool.and_eq_true, Bool.not_eq_true'] at hcapital
      rw [hkeep, allCapital, any_append, any_append, hcapital.1, hcapital.2]
      simp [beginsSmall]

theorem inCapitals_cons_of_not {c : Char} {s : List Char}
    (h : isWord c = false) : inCapitals g (c :: s) = inCapitals g s := by
  rw [inCapitals_cons, if_neg]
  obtain ⟨d, ds, rfl⟩ := exists_cons_of_ne_nil hg.filled
  intro hstart
  have hd := hg.letters d (.head _)
  rw [(cons_prefix_cons.mp hstart).1, h] at hd
  cases hd

/-- What follows a text can be exchanged, if no word runs into it and the character that follows a
word does not matter. -/
theorem inCapitals_append_congr {x y z : List Char}
    (hseam : (∀ c, x.getLast? = some c → isWord c = false)
      ∨ (∀ c, y.head? = some c → isWord c = false) ∧ (∀ c, z.head? = some c → isWord c = false)
        ∧ beginsSmall z = beginsSmall y)
    (hrest : inCapitals g z = inCapitals g y) : inCapitals g (x ++ z) = inCapitals g (x ++ y) := by
  induction x with
  | nil => exact hrest
  | cons c x ih =>
    obtain ⟨e, he⟩ := Option.isSome_iff_exists.mp
      (getLast?_isSome.mpr (cons_ne_nil c x))
    by_cases hstart : g <+: c :: x
    · obtain ⟨r, hr⟩ := hstart
      rw [← hr, append_assoc, append_assoc, hg.inCapitals_self, hg.inCapitals_self]
      cases r with
      | cons d r => rfl
      | nil =>
        rw [append_nil] at hr
        rcases hseam with hlast | ⟨-, -, hlead⟩
        · have hword := hg.letters e (hr ▸ mem_of_getLast? he)
          rw [hlast e he] at hword
          cases hword
        · rw [nil_append, nil_append, hlead]
    · have hne : ∀ {w : List Char}, Seam (c :: x) w → ¬g <+: c :: (x ++ w) := fun hw h =>
        hstart (prefix_of_seam hg.letters hw h)
      have hy : Seam (c :: x) y := hseam.symm.imp (fun h => h.1) fun hlast => ⟨e, he, hlast e he⟩
      have hz : Seam (c :: x) z := hseam.symm.imp (fun h => h.2.1) fun hlast => ⟨e, he, hlast e he⟩
      rw [cons_append, cons_append, inCapitals_cons, inCapitals_cons, if_neg (hne hy),
        if_neg (hne hz)]
      refine ih (hseam.imp_left fun hlast d hd => hlast d ?_)
      rw [getLast?_cons, hd]
      rfl

/-- A text in which the name does not stand is passed over. -/
theorem inCapitals_append {x y : List Char} (hseam : Seam x y)
    (habsent : ¬g <:+: x) : inCapitals g (x ++ y) = inCapitals g y := by
  induction x with
  | nil => rfl
  | cons c x ih =>
    have hstart : ¬g <+: c :: (x ++ y) := fun h =>
      habsent (prefix_of_seam hg.letters hseam h).isInfix
    rw [cons_append, inCapitals_cons, if_neg hstart]
    cases x with
    | nil => rfl
    | cons d x =>
      refine ih (hseam.imp_right fun ⟨e, he, hplain⟩ => ⟨e, ?_, hplain⟩) fun h =>
        habsent (h.trans (infix_cons (infix_refl _)))
      rwa [getLast?_cons_cons] at he

end IsCapitalName

end Replatform.Formula

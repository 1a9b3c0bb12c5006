import Replatform.Proofs.Formula.Survival
/-!
# Conversion keeps the balance

The scan for arguments counts parentheses outside literals. A text is `Balanced` if the count never
falls below zero and comes back to it, outside literals. This is what `through` finds out
(`balanced_iff`), and it goes through what a conversion does with a text:

* the arguments of a call are cut from the text between its parentheses at depth 0, so they are
  balanced (`through_of_mem_splitArgs`);
* the fixed texts in the SQL of a function close what they open, whichever of its forms the number
  of arguments calls for (`levelPieces_sqlPieces`);
* a call stands outside literals, and behind it the depth is what it was before
  (`Guarded.level_step`).

So balance lasts to the end, if no literal has a parenthesis (`balanced_convertCalls`).
-/

namespace Replatform.Formula

open List
open Text (isWord isBlank)

variable {s x : List Char}

/-! ## Balanced texts -/

/-- The depth and the open quote behind a text that is scanned for arguments. -/
def level (p : Int × Option Char) (s : List Char) : Int × Option Char :=
  s.foldl (fun p c => (nextDepth p.1 p.2 c, nextQuote p.2 c)) p

/-- The scan for arguments never falls below depth 0, and ends there outside literals. -/
structure Balanced (s : List Char) : Prop where
  nonneg : ∀ front, front <+: s → 0 ≤ (level (0, none) front).1
  ends : level (0, none) s = (0, none)

theorem level_cons (p : Int × Option Char) (c : Char) (s : List Char) :
    level p (c :: s) = level (nextDepth p.1 p.2 c, nextQuote p.2 c) s := rfl

/-- The scan that stops where a parenthesis is closed that was not opened gets through a text if the
depth stays above zero. -/
theorem through_eq_some_iff (s : List Char) : ∀ {p q : Nat × Option Char},
    through p s = some q ↔ (∀ front, front <+: s → 0 ≤ (level ((p.1 : Int), p.2) front).1)
      ∧ level ((p.1 : Int), p.2) s = ((q.1 : Int), q.2) := by
  induction s with
  | nil =>
    intro p q
    rw [through_nil, Option.some.injEq]
    constructor
    · rintro rfl
      refine ⟨fun front hfront => ?_, rfl⟩
      rw [prefix_nil.mp hfront]
      exact Int.natCast_nonneg _
    · rintro ⟨-, hends⟩
      obtain ⟨hdepth, hquote⟩ := Prod.mk.inj hends
      exact Prod.ext (Int.natCast_inj.mp hdepth) hquote
  | cons c s ih =>
    intro p q
    rw [through_cons, level_cons]
    cases hstep : scanStep p c with
    | none =>
      -- the parenthesis that was not opened takes the depth below zero
      obtain ⟨rfl, rfl⟩ := scanStep_eq_none hstep
      refine ⟨fun h => absurd h (by simp), fun h => ?_⟩
      exact absurd (h.1 [')'] (prefix_append [')'] s)) (by decide)
    | some r =>
      obtain ⟨hdepth, hquote⟩ := scanStep_eq_some_iff.mp hstep
      rw [hdepth, hquote, Option.bind_some, ih]
      refine and_congr_left fun _ => ⟨fun h front hfront => ?_, fun h front hfront => ?_⟩
      · cases front with
        | nil => exact Int.natCast_nonneg _
        | cons d front =>
          obtain ⟨rfl, htail⟩ := cons_prefix_cons.mp hfront
          rw [level_cons, hdepth, hquote]
          exact h front htail
      · have hmore := h (c :: front) (cons_prefix_cons.mpr ⟨rfl, hfront⟩)
        rwa [level_cons, hdepth, hquote] at hmore

theorem balanced_iff : Balanced s ↔ through (0, none) s = some (0, none) := by
  rw [through_eq_some_iff]
  exact ⟨fun h => ⟨h.nonneg, h.ends⟩, fun h => ⟨h.1, h.2⟩⟩

instance (s : List Char) : Decidable (Balanced s) := decidable_of_iff _ balanced_iff.symm

/-- A balanced text is passed over at any depth. -/
theorem through_of_level (h : through (0, none) x = some (0, none)) (depth : Nat) :
    through (depth, none) x = some (depth, none) := by
  simpa only [Nat.zero_add] using through_raise depth x h

/-! ## Arguments -/

/-- Commas that cut stand at depth 0, so each piece comes back to where it began, and has no comma
to cut at. -/
theorem through_pieces (s : List Char) : ∀ {p : Nat × Option Char},
    through p s = some (0, none) →
    ∃ x xs, pieces (p.1 : Int) p.2 s = x :: xs
      ∧ (through p x = some (0, none) ∧ uncut (p.1 : Int) p.2 x = some (0, none))
      ∧ ∀ y ∈ xs, through (0, none) y = some (0, none) ∧ uncut 0 none y = some (0, none) := by
  induction s with
  | nil =>
    intro p h
    refine ⟨[], [], rfl, ⟨h, ?_⟩, forall_mem_nil _⟩
    rw [Option.some.inj h]
    rfl
  | cons c s ih =>
    intro p h
    rw [through_cons] at h
    obtain ⟨r, hr, hs⟩ := Option.bind_eq_some_iff.mp h
    obtain ⟨x, xs, hpieces, hx, hxs⟩ := ih hs
    rw [pieces]
    split
    next hcut =>
      obtain ⟨depth, quote⟩ := p
      simp only [Bool.and_eq_true, Option.isNone_iff_eq_none, beq_iff_eq, Int.natCast_eq_zero]
        at hcut
      obtain ⟨⟨rfl, rfl⟩, rfl⟩ := hcut
      obtain rfl : (0, none) = r := Option.some.inj hr
      refine ⟨[], x :: xs, congrArg ([] :: ·) hpieces, ⟨rfl, rfl⟩, fun y hy => ?_⟩
      rcases mem_cons.mp hy with rfl | hy
      · exact hx
      · exact hxs y hy
    next hcut =>
      obtain ⟨hdepth, hquote⟩ := scanStep_eq_some_iff.mp hr
      have hx' : uncut (p.1 : Int) p.2 (c :: x) = some (0, none) := by
        rw [uncut, if_neg hcut, hdepth, hquote]
        exact hx.2
      rw [nextDepth] at hdepth
      dsimp only
      rw [hdepth, hquote, hpieces]
      refine ⟨c :: x, xs, rfl, ⟨?_, hx'⟩, hxs⟩
      rw [through_cons, hr]
      exact hx.1

theorem closed_of_level (h : through (0, none) x = some (0, none)) : Closed x :=
  closed_iff.mpr (foldl_nextQuote_of_through x h)

/-- Blanks around a text make no difference to its depth. -/
theorem through_strip (h : through (0, none) x = some (0, none)) :
    through (0, none) (Text.strip x) = some (0, none) := by
  have hclosed := closed_iff.mp (closed_strip (closed_of_level h)).1
  obtain ⟨front, back, hsplit, hfront, hback⟩ := exists_strip x
  have hblanks : ∀ {y : List Char}, (∀ c ∈ y, isBlank c) → ∀ depth,
      through (depth, none) y = some (depth, none) :=
    fun hy => through_of_words fun c hc => .inr (hy c hc)
  rw [hsplit, append_assoc, through_append, hblanks hfront, Option.bind_some, through_append] at h
  obtain ⟨⟨depth, quote⟩, hstrip, hrest⟩ := Option.bind_eq_some_iff.mp h
  obtain rfl : none = quote := hclosed.symm.trans (foldl_nextQuote_of_through _ hstrip)
  rw [hblanks hback] at hrest
  rw [hstrip, hrest]

/-- The arguments of a call close only what they open. -/
theorem through_of_mem_pieces {y : List Char} (h : through (0, none) s = some (0, none))
    (hy : y ∈ pieces 0 none s) :
    through (0, none) y = some (0, none) ∧ uncut 0 none y = some (0, none) := by
  obtain ⟨x, xs, hpieces, hx, hxs⟩ := through_pieces s h
  rw [show pieces 0 none s = x :: xs from hpieces] at hy
  rcases mem_cons.mp hy with rfl | hy
  · exact hx
  · exact hxs y hy

theorem through_of_mem_splitArgs {a : List Char} (h : through (0, none) s = some (0, none))
    (ha : a ∈ splitArgs s) : through (0, none) a = some (0, none) := by
  obtain ⟨blank, hsplit, -⟩ := dropLastBlank_append ((pieces 0 none s).map Text.strip)
  have hmem : a ∈ (pieces 0 none s).map Text.strip := hsplit ▸ mem_append_left _ ha
  obtain ⟨y, hy, rfl⟩ := mem_map.mp hmem
  exact through_strip (through_of_mem_pieces h hy).1

/-! ## The SQL of a function -/

/-- The depth behind pieces whose fixed texts are scanned from `depth` on. Nothing, if they close
more than is open or end inside a literal. -/
def levelPieces : Nat → List Piece → Option Nat
  | depth, [] => some depth
  | depth, .arg _ :: ps => levelPieces depth ps
  | depth, .text t :: ps =>
    match through (depth, none) t.toList with
    | some (d, none) => levelPieces d ps
    | _ => none

theorem levelPieces_text {depth d : Nat} {t : String}
    (h : through (depth, none) t.toList = some (d, none)) (ps : List Piece) :
    levelPieces depth (.text t :: ps) = levelPieces d ps := by
  rw [levelPieces, h]

/-- Pieces that are also scanned for commas are scanned the same way. -/
theorem levelPieces_of_scanPieces (ps : List Piece) : ∀ {depth d : Nat},
    scanPieces depth ps = some d → levelPieces depth ps = some d := by
  induction ps with
  | nil => exact fun h => h
  | cons p ps ih =>
    intro depth d h
    cases p with
    | arg i => exact ih h
    | text t =>
      rw [scanPieces] at h
      split at h
      next d' e hd he =>
        split at h
        · rw [levelPieces_text hd]
          exact ih h
        · cases h
      next => cases h

theorem levelPieces_append (ps qs : List Piece) : ∀ depth : Nat,
    levelPieces depth (ps ++ qs) = (levelPieces depth ps).bind (levelPieces · qs) := by
  induction ps with
  | nil => exact fun _ => rfl
  | cons p ps ih =>
    intro depth
    cases p with
    | arg i => exact ih depth
    | text t =>
      rw [cons_append, levelPieces, levelPieces]
      split
      · exact ih _
      · rfl

/-- With balanced texts in the places of the arguments, pieces are scanned as their fixed texts. -/
theorem through_spread {s : Nat → List Char} (hs : ∀ i, through (0, none) (s i) = some (0, none))
    (ps : List Piece) : ∀ {depth d : Nat}, levelPieces depth ps = some d →
      through (depth, none) (spread ps s) = some (d, none) := by
  induction ps with
  | nil =>
    intro depth d h
    rw [levelPieces, Option.some.injEq] at h
    rw [h]
    rfl
  | cons p ps ih =>
    intro depth d h
    cases p with
    | arg i =>
      rw [spread_arg, through_append, through_of_level (hs i)]
      exact ih h
    | text t =>
      rw [levelPieces] at h
      split at h
      next e he =>
        rw [spread_text, through_append, he]
        exact ih h
      next => cases h

theorem levelPieces_callPieces {name : String} (h : through (0, none) name.toList = some (0, none))
    (n : Nat) : levelPieces 0 (callPieces name n) = some 0 := by
  have hopen : through (0, none) (name ++ "(").toList = some (1, none) := by
    rw [String.toList_append, through_append, h]
    rfl
  rw [callPieces, levelPieces_text hopen]
  exact levelPieces_of_scanPieces _ (scanPieces_argPieces 0 _)

theorem levelPieces_casePieces : ∀ is : List Nat, levelPieces 0 (casePieces is) = some 0
  | [] | [_] => rfl
  | i :: j :: is => by
    have hwhen : through (0, none) " WHEN ".toList = some (0, none) := by decide
    have hthen : through (0, none) " THEN ".toList = some (0, none) := by decide
    rw [casePieces, levelPieces_text hwhen, levelPieces, levelPieces_text hthen, levelPieces]
    exact levelPieces_casePieces is

theorem levelPieces_switchPieces (n : Nat) : levelPieces 0 (switchPieces n) = some 0 := by
  have hcase : through (0, none) "CASE ".toList = some (0, none) := by decide
  have hmiddle : levelPieces 0 (if n = 2 then [.text " "] else casePieces (range' 2 (n - 2)))
      = some 0 := by
    split
    · decide
    · exact levelPieces_casePieces _
  rw [switchPieces, cons_append, cons_append, levelPieces_text hcase, levelPieces,
    levelPieces_append, hmiddle, Option.bind_some]
  decide

/-- Whether the fixed texts of a counterpart close all that they open. -/
def levelTarget : Target → Bool
  | .manual => true
  | .constant sql => through (0, none) sql.toList == some (0, none)
  | .call sql => through (0, none) sql.toList == some (0, none)
  | .pattern ps => levelPieces 0 ps == some 0

theorem functions_level : (functions.all fun f => levelTarget f.target) := by
  decide +kernel

/-- The SQL of a function closes all that it opens, whatever the number of arguments. -/
theorem levelPieces_sqlPieces {f : Function} (hf : f ∈ functions) (n : Nat) :
    levelPieces 0 (f.sqlPieces n) = some 0 := by
  have htarget := all_eq_true.mp functions_level f hf
  have hname : ∀ depth, through (depth, none) f.name.toList = some (depth, none) :=
    through_of_words fun c hc => .inl ((name_of_mem hf).2 c hc).1
  have hmarked : ∀ front : String, through (0, none) front.toList = some (0, none) →
      through (0, none) (front ++ f.name ++ " */ " ++ f.name).toList = some (0, none) := by
    intro front hfront
    simp only [String.toList_append, through_append, hfront, hname, Option.bind_some]
    rw [show through (0, none) " */ ".toList = some (0, none) by decide, Option.bind_some, hname]
  unfold Function.sqlPieces
  split
  next sql heq =>
    rw [heq] at htarget
    rw [levelPieces_text (beq_iff_eq.mp htarget)]
    rfl
  next sql heq =>
    rw [heq] at htarget
    exact levelPieces_callPieces (beq_iff_eq.mp htarget) n
  next ps heq =>
    rw [heq] at htarget
    split
    · exact beq_iff_eq.mp htarget
    · exact levelPieces_callPieces (hmarked _ (by decide)) n
  next =>
    split
    · split
      · decide
      · split
        · exact levelPieces_switchPieces n
        · exact levelPieces_callPieces (by decide) n
    · exact levelPieces_callPieces (hmarked _ (by decide)) n

/-! ## Conversions -/

/-- One conversion leaves the depth as it was. -/
theorem Guarded.level_step (h : Guarded s) (hs : through (0, none) s = some (0, none)) {c : Call}
    (hc : nextCall? s = some c) : through (0, none) (c.converted s) = some (0, none) := by
  obtain ⟨hf, front, head, back, hsplit⟩ := h.splits hc
  -- the call begins outside literals at some depth, and ends there
  rw [hsplit.text, through_append] at hs
  obtain ⟨⟨depth, quote⟩, hfront, hrest⟩ := Option.bind_eq_some_iff.mp hs
  obtain rfl : none = quote :=
    (closed_iff.mp hsplit.front).symm.trans (foldl_nextQuote_of_through front hfront)
  have hback : through (depth, none) back = some (0, none) := by
    rw [through_append, hsplit.opens, Option.bind_some, through_append,
      through_of_level hsplit.level, Option.bind_some] at hrest
    exact hrest
  have hargs : ∀ i, through (0, none) ((splitArgs (c.inside s)).getD i []) = some (0, none) := by
    intro i
    rcases getD_mem_or_nil (splitArgs (c.inside s)) i with hmem | hnil
    · exact through_of_mem_splitArgs hsplit.level hmem
    · rw [hnil]
      rfl
  have hsql := through_spread hargs _ (levelPieces_sqlPieces hf (splitArgs (c.inside s)).length)
  rw [← Function.convert_eq] at hsql
  rw [Call.converted, hsplit.replace, through_append, hfront, Option.bind_some, through_append,
    through_of_level hsql, Option.bind_some, hback]

/-- So do all conversions. -/
theorem Guarded.level_run (limit : Nat) : ∀ {s : List Char}, Guarded s →
    through (0, none) s = some (0, none) →
    through (0, none) (convertCalls limit s).1 = some (0, none) := by
  induction limit with
  | zero => exact fun _ hs => hs
  | succ limit ih =>
    intro s h hs
    rw [fst_convertCalls]
    cases hc : nextCall? s with
    | none => exact hs
    | some c =>
      dsimp only
      split
      · exact hs
      · exact ih (h.step hc).1 (h.level_step hs hc)

/-- There is no call in a text without a parenthesis that opens one. -/
theorem callFree_of_notMem (h : '(' ∉ s) : callFree s := by
  rw [callFree, sites_of_no_parenthesis h]
  rfl

/-- A balanced text that has no opening parenthesis in a literal is balanced when its calls are
converted, whatever they are and however many arguments they have. -/
theorem balanced_convertCalls (s : List Char) (h : Balanced s)
    (hliterals : ∀ ℓ ∈ literals s, '(' ∉ ℓ) : Balanced (convertCalls callLimit s).1 := by
  have hs := balanced_iff.mp h
  have hguarded : Guarded s := ⟨closed_of_level hs, fun ℓ hℓ => callFree_of_notMem (hliterals ℓ hℓ)⟩
  exact balanced_iff.mpr (hguarded.level_run callLimit hs)

/-- Calls with too few and with too many arguments, of functions with patterns that have
parentheses in quotes, without counterparts, and not in the table. -/
def oddCalls : List Char :=
  "FileGetExt(Left(')', Foo(1))) + GetVal(Switch(x, \":)\", 2)) * Rand(Length(), (a))".toList

theorem balanced_oddCalls :
    Balanced oddCalls ∧ (∀ ℓ ∈ literals oddCalls, '(' ∉ ℓ)
      ∧ Balanced (convertCalls callLimit oddCalls).1 := by
  have hbalanced : Balanced oddCalls := by decide
  have hliterals : ∀ ℓ ∈ literals oddCalls, '(' ∉ ℓ := by decide
  exact ⟨hbalanced, hliterals, balanced_convertCalls oddCalls hbalanced hliterals⟩

end Replatform.Formula

import Mathlib.Data.List.Flatten
import Mathlib.Data.List.Perm.Subperm
import Replatform.Proofs.Formula.Inert
/-!
# Literals survive conversion

A call is replaced by fixed texts with its arguments between them, each as a whole. So a literal
goes with the argument that it stands in, and is lost only where the SQL of the call has no place
for that argument. This is what one conversion does (`Guarded.step`), and what they all do
(`Guarded.run`). So it is known for every literal of a tame formula whether it comes through
(`literals_convert`).
-/

namespace Replatform.Formula

open List
open Text (isWord isBlank)

variable {n : Nat} {x s ℓ : List Char} {t : String}

/-! ## The pieces of a converted call -/

def callPieces (name : String) (n : Nat) : List Piece := .text (name ++ "(") :: argPieces (range n)

/-- The cases of a `Switch`, given as case, result, case, result and so on. -/
def casePieces : List Nat → List Piece
  | i :: j :: is => .text " WHEN " :: .arg i :: .text " THEN " :: .arg j :: casePieces is
  | _ => []

def switchPieces (n : Nat) : List Piece :=
  .text "CASE " :: .arg 0 :: (if n = 2 then [.text " "] else casePieces (range' 2 (n - 2)))
    ++ [.text " ELSE ", .arg 1, .text " END"]

/-- The pieces of the SQL for a call with `n` arguments. -/
def Function.sqlPieces (f : Function) (n : Nat) : List Piece :=
  match f.target with
  | .constant sql => [.text sql]
  | .call sql => callPieces sql n
  | .pattern ps =>
    if (places ps).all (· < n) then ps
    else callPieces ("/* TODO: Fix " ++ f.name ++ " */ " ++ f.name) n
  | .manual =>
    if Text.lower f.name.toList = "switch".toList then
      if n < 2 then [.text "/* Invalid Switch */ NULL"]
      else if n % 2 = 0 then switchPieces n
      else callPieces "/* TODO: Fix Switch */ COALESCE" n
    else callPieces ("/* TODO: Convert " ++ f.name ++ " */ " ++ f.name) n

variable (f : Function) (args : List (List Char))

theorem map_range_getD : (range args.length).map (args.getD · []) = args := by
  refine ext_getElem (by simp) fun i h₁ h₂ => ?_
  simp [h₂]

theorem writeCall_eq (name : String) (args : List (List Char)) :
    writeCall name.toList args = spread (callPieces name args.length) (args.getD · []) := by
  rw [callPieces, spread_text, spread_argPieces, map_range_getD, String.toList_append, append_assoc]
  rfl

theorem instantiate_eq (ps : List Piece) (args : List (List Char)) :
    instantiate ps args
      = if (places ps).all (· < args.length) then some (spread ps (args.getD · [])) else none := by
  induction ps with
  | nil => rfl
  | cons p ps ih =>
    cases p with
    | text t =>
      rw [instantiate, ih, places]
      split <;> rfl
    | arg i =>
      rw [instantiate, places, all_cons]
      by_cases hi : i < args.length
      · rw [getElem?_eq_getElem hi, decide_eq_true hi, Bool.true_and]
        dsimp only
        rw [ih]
        split
        · simp [hi]
        · rfl
      · rw [getElem?_eq_none (Nat.le_of_not_lt hi), decide_eq_false hi, Bool.false_and]
        rfl

theorem join_switchCases (s : Nat → List Char) : ∀ {is : List Nat}, 2 ≤ is.length →
    ' ' :: Text.join [' '] (switchCases (is.map s)) = spread (casePieces is) s
  | i :: j :: k :: l :: is, _ => by
    have hrest : ' ' :: Text.join [' '] (switchCases ((k :: l :: is).map s))
        = spread (casePieces (k :: l :: is)) s := join_switchCases s (by simp)
    rw [casePieces, spread_text, spread_arg, spread_text, spread_arg, ← hrest]
    simp [switchCases, Text.join]
  | [i, j], _ | [i, j, k], _ => by simp [casePieces, switchCases, Text.join]

theorem spread_switchPieces (value fallback : List Char) {cases : List (List Char)}
    (heven : cases.length % 2 = 0) :
    spread (switchPieces (cases.length + 2)) ((value :: fallback :: cases).getD · [])
      = "CASE ".toList ++ value ++ ' ' :: Text.join [' '] (switchCases cases) ++ " ELSE ".toList
        ++ fallback ++ " END".toList := by
  have hcases : (range' 2 cases.length).map ((value :: fallback :: cases).getD · []) = cases := by
    refine ext_getElem (by simp) fun i h₁ h₂ => ?_
    simp [h₂, Nat.add_comm 2 i]
  have hmiddle : spread (if cases.length + 2 = 2 then [.text " "]
        else casePieces (range' 2 (cases.length + 2 - 2)))
        ((value :: fallback :: cases).getD · [])
      = ' ' :: Text.join [' '] (switchCases cases) := by
    by_cases hnil : cases = []
    · rw [hnil]
      rfl
    · have htwo : 2 ≤ cases.length := by
        have hpos := length_pos_iff.mpr hnil
        omega
      rw [if_neg (by omega), Nat.add_sub_cancel, ← join_switchCases _ (by simpa using htwo), hcases]
  rw [switchPieces, spread_append, spread_text, spread_arg, hmiddle]
  simp

theorem Function.convert_eq :
    (f.convert f.name.toList args).1 = spread (f.sqlPieces args.length) (args.getD · []) := by
  obtain ⟨name, arity, target⟩ := f
  unfold Function.convert Function.sqlPieces
  cases target with
  | constant sql => simp
  | call sql => exact writeCall_eq sql args
  | pattern ps =>
    dsimp only
    rw [instantiate_eq]
    by_cases hall : (places ps).all (· < args.length)
    · rw [if_pos hall, if_pos hall]
    · rw [if_neg hall, if_neg hall, ← writeCall_eq]
      simp
  | manual =>
    dsimp only
    unfold convertManual
    by_cases hswitch : Text.lower name.toList = "switch".toList
    · rw [if_pos hswitch, if_pos hswitch]
      match args with
      | [] | [_] => simp
      | value :: fallback :: cases =>
        have hlength : (value :: fallback :: cases).length = cases.length + 2 := rfl
        rw [hlength, if_neg (by omega)]
        by_cases heven : cases.length % 2 = 0
        · rw [if_pos (by omega), spread_switchPieces value fallback heven]
          dsimp only
          rw [if_pos heven]
        · rw [if_neg (by omega), ← hlength, ← writeCall_eq]
          dsimp only
          rw [if_neg heven]
    · rw [if_neg hswitch, if_neg hswitch, ← writeCall_eq]
      simp

/-! ## Arguments that are left out -/

/-- The places of the arguments that are left out of a call with `n` arguments: a constant needs
none, a pattern may have no place for some, and a `Switch` needs a value and a default. -/
def Function.idle (f : Function) (n : Nat) : List Nat :=
  match f.target with
  | .constant _ => range n
  | .call _ => []
  | .pattern ps =>
    if (places ps).all (· < n) then (range n).filter (!(places ps).contains ·) else []
  | .manual =>
    if Text.lower f.name.toList = "switch".toList then if n < 2 then range n else [] else []

/-- The arguments that are left out of a call. -/
def Function.leftOut (f : Function) (args : List (List Char)) : List (List Char) :=
  (f.idle args.length).map (args.getD · [])

theorem places_callPieces (name : String) (n : Nat) : places (callPieces name n) = range n :=
  places_argPieces (range n)

theorem places_casePieces : ∀ {is : List Nat}, is.length % 2 = 0 → places (casePieces is) = is
  | [], _ => rfl
  | i :: j :: is, h => by
    have hrest : places (casePieces is) = is :=
      places_casePieces (by simp only [length_cons] at h; omega)
    rw [casePieces]
    simp only [places, hrest]

theorem range_subset_switchPieces (hn : 2 ≤ n) (heven : n % 2 = 0) :
    range n ⊆ places (switchPieces n) := by
  have hcases : places (if n = 2 then [.text " "] else casePieces (range' 2 (n - 2)))
      = range' 2 (n - 2) := by
    split
    next htwo =>
      rw [htwo]
      rfl
    next => exact places_casePieces (by rw [length_range']; omega)
  intro i hi
  rw [mem_range] at hi
  rw [switchPieces, places_append]
  simp only [places, hcases, cons_append, mem_cons, mem_append, mem_range'_1, not_mem_nil, or_false]
  omega

/-- All other arguments have their places. -/
theorem range_subset_places (n : Nat) : range n ⊆ places (f.sqlPieces n) ++ f.idle n := by
  have hcall : ∀ name, range n ⊆ places (callPieces name n) ++ [] := fun name => by
    rw [places_callPieces, append_nil]
    exact Subset.refl _
  unfold Function.sqlPieces Function.idle
  cases f.target with
  | constant sql => exact subset_append_right _ _
  | call sql => exact hcall sql
  | pattern ps =>
    dsimp only
    split
    · intro i hi
      by_cases hplace : i ∈ places ps
      · exact mem_append_left _ hplace
      · exact mem_append_right _ (mem_filter.mpr ⟨hi, by simp [hplace]⟩)
    · exact hcall _
  | manual =>
    dsimp only
    split
    · split
      · exact subset_append_right _ _
      next hn =>
        split
        next heven =>
          rw [append_nil]
          exact range_subset_switchPieces (Nat.le_of_not_lt hn) heven
        next => exact hcall _
    · exact hcall _

/-! ## Fixed texts -/

theorem guarded_of_plain (h : ∀ c ∈ x, isQuote c = false) : Guarded x := by
  obtain ⟨hclosed, hnone⟩ := closed_of_plain h
  exact ⟨hclosed, fun ℓ hℓ => nomatch hnone ▸ hℓ⟩

theorem guarded_of_all (h : x.all (!isQuote ·)) : Guarded x := guarded_of_plain (plain_of_all h)

theorem Guarded.append {y : List Char} (hx : Guarded x) (hy : Guarded y) : Guarded (x ++ y) := by
  refine ⟨hx.closed.append hy.closed, fun ℓ hℓ => ?_⟩
  rw [literals_append hx.closed] at hℓ
  exact (mem_append.mp hℓ).elim (hx.free ℓ) (hy.free ℓ)

theorem Guarded.of_subset (h : Guarded s) (hx : Closed x) (hsub : literals x ⊆ literals s) :
    Guarded x := ⟨hx, fun ℓ hℓ => h.free ℓ (hsub hℓ)⟩

/-- Whether a fixed text is closed and has no call to convert in its literals. -/
def guardedText (t : List Char) : Bool :=
  (t.foldl nextQuote none).isNone && (literals t).all callFree

theorem guarded_of_guardedText {t : List Char} (h : guardedText t) : Guarded t := by
  rw [guardedText, Bool.and_eq_true, Option.isNone_iff_eq_none, all_eq_true] at h
  exact ⟨closed_iff.mpr h.1, h.2⟩

/-- Whether the fixed texts of a counterpart are closed and have no calls to convert in their
literals. -/
def guardedTarget : Target → Bool
  | .manual => true
  | .constant sql => guardedText sql.toList
  | .call sql => sql.toList.all (!isQuote ·)
  | .pattern ps => ps.all fun
    | .text t => guardedText t.toList
    | .arg _ => true

theorem functions_guarded : (functions.all fun f => guardedTarget f.target) := by
  decide +kernel

theorem guarded_of_mem_argPieces : ∀ {is : List Nat}, .text t ∈ argPieces is →
    Guarded t.toList
  | [], h | [_], h => by
    obtain rfl : t = ")" := by simpa [argPieces] using h
    exact guarded_of_all (by decide)
  | i :: j :: is, h => by
    simp only [argPieces, mem_cons, reduceCtorEq, Piece.text.injEq, false_or] at h
    rcases h with rfl | h
    · exact guarded_of_all (by decide)
    · exact guarded_of_mem_argPieces h

theorem guarded_of_mem_callPieces {name : String} (hname : ∀ c ∈ name.toList, isQuote c = false)
    (h : .text t ∈ callPieces name n) : Guarded t.toList := by
  rcases mem_cons.mp h with heq | h
  · obtain rfl := Piece.text.inj heq
    refine guarded_of_plain fun c hc => ?_
    rw [String.toList_append] at hc
    rcases mem_append.mp hc with hc | hc
    · exact hname c hc
    · obtain rfl := mem_singleton.mp hc
      rfl
  · exact guarded_of_mem_argPieces h

theorem guarded_of_mem_casePieces : ∀ {is : List Nat}, .text t ∈ casePieces is →
    Guarded t.toList
  | [], h | [_], h => nomatch h
  | i :: j :: is, h => by
    simp only [casePieces, mem_cons, reduceCtorEq, Piece.text.injEq, false_or] at h
    rcases h with rfl | rfl | h
    · exact guarded_of_all (by decide)
    · exact guarded_of_all (by decide)
    · exact guarded_of_mem_casePieces h

theorem guarded_of_mem_switchPieces (h : .text t ∈ switchPieces n) : Guarded t.toList := by
  have hcases : .text t ∈ (if n = 2 then [.text " "] else casePieces (range' 2 (n - 2))) →
      Guarded t.toList := by
    intro h
    split at h
    · obtain rfl := Piece.text.inj (mem_singleton.mp h)
      exact guarded_of_all (by decide)
    · exact guarded_of_mem_casePieces h
  simp only [switchPieces, cons_append, mem_cons, mem_append, reduceCtorEq,
    Piece.text.injEq, not_mem_nil, false_or, or_false] at h
  rcases h with rfl | h | rfl | rfl
  · exact guarded_of_all (by decide)
  · exact hcases h
  · exact guarded_of_all (by decide)
  · exact guarded_of_all (by decide)

/-- The fixed texts in the SQL of a function are closed. -/
theorem guarded_of_mem_sqlPieces {f : Function} (hf : f ∈ functions) (h : .text t ∈ f.sqlPieces n) :
    Guarded t.toList := by
  have htarget := all_eq_true.mp functions_guarded f hf
  have hname : ∀ c ∈ f.name.toList, isQuote c = false := fun c hc =>
    isQuote_of_isWord ((name_of_mem hf).2 c hc).1
  have hmarked : ∀ front : String, (∀ c ∈ front.toList, isQuote c = false) →
      ∀ c ∈ (front ++ f.name ++ " */ " ++ f.name).toList, isQuote c = false := by
    intro front hfront c hc
    simp only [String.toList_append, mem_append] at hc
    rcases hc with ((hc | hc) | hc) | hc
    · exact hfront c hc
    · exact hname c hc
    · exact plain_of_all (x := " */ ".toList) (by decide) c hc
    · exact hname c hc
  unfold Function.sqlPieces at h
  split at h
  next sql heq =>
    rw [heq] at htarget
    obtain rfl := Piece.text.inj (mem_singleton.mp h)
    exact guarded_of_guardedText htarget
  next sql heq =>
    rw [heq] at htarget
    exact guarded_of_mem_callPieces (fun c hc => by simpa using all_eq_true.mp htarget c hc) h
  next ps heq =>
    rw [heq] at htarget
    split at h
    · exact guarded_of_guardedText (all_eq_true.mp htarget _ h)
    · exact guarded_of_mem_callPieces (hmarked _ (plain_of_all (by decide))) h
  next heq =>
    split at h
    · split at h
      · obtain rfl := Piece.text.inj (mem_singleton.mp h)
        exact guarded_of_all (by decide)
      · split at h
        · exact guarded_of_mem_switchPieces h
        · exact guarded_of_mem_callPieces (plain_of_all (by decide)) h
    · exact guarded_of_mem_callPieces (hmarked _ (plain_of_all (by decide))) h

/-- The literals of a piece with `s i` in the place of the argument `i`. -/
def Piece.literals (s : Nat → List Char) : Piece → List (List Char)
  | .text t => Formula.literals t.toList
  | .arg i => Formula.literals (s i)

theorem guarded_spread {s : Nat → List Char} (hs : ∀ i, Guarded (s i)) {ps : List Piece}
    (hps : ∀ t, .text t ∈ ps → Guarded t.toList) :
    Guarded (spread ps s) ∧ literals (spread ps s) = ps.flatMap (Piece.literals s) := by
  induction ps with
  | nil => exact ⟨guarded_of_plain (fun _ hc => nomatch hc), rfl⟩
  | cons p ps ih =>
    obtain ⟨hguarded, hliterals⟩ := ih fun t ht => hps t (.tail _ ht)
    have hpiece : Guarded (p.fill s) ∧ literals (p.fill s) = p.literals s := by
      cases p with
      | text t => exact ⟨hps t (.head _), rfl⟩
      | arg i => exact ⟨hs i, rfl⟩
    refine ⟨hpiece.1.append hguarded, ?_⟩
    rw [flatMap_cons, ← hliterals, ← hpiece.2]
    exact literals_append hpiece.1.closed _

theorem sublist_literals (s : Nat → List Char) (ps : List Piece) :
    ((places ps).flatMap (literals ∘ s)).Sublist (ps.flatMap (Piece.literals s)) := by
  induction ps with
  | nil => exact Sublist.refl _
  | cons p ps ih =>
    cases p with
    | text t => exact ih.trans (sublist_append_right _ _)
    | arg i => exact Sublist.append (Sublist.refl _) ih

/-! ## One conversion -/

/-- A literal that the SQL of a function has of its own. -/
def Fixed (ℓ : List Char) : Prop :=
  ∃ f ∈ functions, ∃ n t, .text t ∈ f.sqlPieces n ∧ ℓ ∈ literals t.toList

theorem subperm_flatMap {α β : Type} {xs ys : List α} (h : xs.Subperm ys) (g : α → List β) :
    (xs.flatMap g).Subperm (ys.flatMap g) := by
  obtain ⟨zs, hperm, hsub⟩ := h
  exact ⟨zs.flatMap g, hperm.flatMap_right g, hsub.flatMap g⟩

/-- The SQL of a call has the literals of all arguments that are not left out. -/
theorem Function.subperm_convert {args : List (List Char)} : (args.flatMap literals).Subperm
      ((f.sqlPieces args.length).flatMap (Piece.literals (args.getD · []))
        ++ (f.leftOut args).flatMap literals) := by
  -- the numbers of the arguments are distinct, so each has a place of its own or is left out
  have hplaces := subperm_of_subset nodup_range (range_subset_places f args.length)
  have hliterals := subperm_flatMap hplaces (literals ∘ (args.getD · []))
  have hall : (range args.length).flatMap (literals ∘ (args.getD · []))
      = args.flatMap literals := by
    have hmap := congrArg (flatMap literals) (map_range_getD args)
    rwa [flatMap_map] at hmap
  have hout : (f.idle args.length).flatMap (literals ∘ (args.getD · []))
      = (f.leftOut args).flatMap literals := by
    rw [Function.leftOut, flatMap_map]
    rfl
  rw [flatMap_append, hall, hout] at hliterals
  exact hliterals.trans ((sublist_literals _ _).append (Sublist.refl _)).subperm

theorem getD_mem_or_nil (i : Nat) : args.getD i [] ∈ args ∨ args.getD i [] = [] := by
  by_cases hi : i < args.length
  · exact .inl (by simp [hi])
  · exact .inr (by simp [hi])

theorem Function.guarded_convert {f : Function} (hf : f ∈ functions) {args : List (List Char)}
    (hargs : ∀ a ∈ args, Guarded a) :
    let sql := (f.convert f.name.toList args).1
    Guarded sql
      ∧ (args.flatMap literals).Subperm (literals sql ++ (f.leftOut args).flatMap literals)
      ∧ ∀ ℓ ∈ literals sql, ℓ ∈ args.flatMap literals ∨ Fixed ℓ := by
  intro sql
  have hs : ∀ i, Guarded (args.getD i []) := by
    intro i
    rcases getD_mem_or_nil args i with hmem | hnil
    · exact hargs _ hmem
    · rw [hnil]
      exact guarded_of_plain fun _ hc => nomatch hc
  obtain ⟨hguarded, hliterals⟩ := guarded_spread hs fun t ht => guarded_of_mem_sqlPieces hf ht
  have hsql : sql = spread (f.sqlPieces args.length) (args.getD · []) := f.convert_eq args
  rw [← hsql] at hguarded hliterals
  rw [hliterals]
  refine ⟨hguarded, f.subperm_convert, fun ℓ hℓ => ?_⟩
  obtain ⟨p, hp, hℓ⟩ := mem_flatMap.mp hℓ
  cases p with
  | text t => exact .inr ⟨f, hf, _, t, hp, hℓ⟩
  | arg i =>
    rcases getD_mem_or_nil args i with hmem | hnil
    · exact .inl (mem_flatMap.mpr ⟨_, hmem, hℓ⟩)
    · rw [Piece.literals, hnil] at hℓ
      exact nomatch hℓ

/-- The literals of a text are those before a call, in it and behind it. -/
theorem Call.Splits.literals_eq {c : Call} {front head back : List Char}
    (h : c.Splits s front head back) :
    literals s = literals front ++ (literals (c.inside s) ++ literals back) := by
  obtain ⟨hhead, hnone⟩ := closed_of_plain h.head
  conv_lhs => rw [h.text]
  rw [literals_append h.front, literals_append hhead, hnone, literals_append h.inside,
    literals_plain (by decide), nil_append]

def Call.converted (c : Call) (s : List Char) : List Char :=
  c.replace (c.function.convert c.function.name.toList (splitArgs (c.inside s))).1 s

/-- One conversion keeps all literals but those in arguments that it leaves out. -/
theorem Guarded.step (h : Guarded s) {c : Call} (hc : nextCall? s = some c) :
    Guarded (c.converted s)
      ∧ (literals s).Subperm (literals (c.converted s)
        ++ (c.function.leftOut (splitArgs (c.inside s))).flatMap literals)
      ∧ ∀ ℓ ∈ literals (c.converted s), ℓ ∈ literals s ∨ Fixed ℓ := by
  obtain ⟨hf, front, head, back, hsplit⟩ := h.splits hc
  have heq := hsplit.literals_eq
  have hfront : literals front ⊆ literals s := heq ▸ subset_append_left _ _
  have hinside : literals (c.inside s) ⊆ literals s :=
    heq ▸ fun ℓ hℓ => mem_append_right _ (mem_append_left _ hℓ)
  have hback : literals back ⊆ literals s :=
    heq ▸ fun ℓ hℓ => mem_append_right _ (mem_append_right _ hℓ)
  obtain ⟨hclosed, hargs⟩ := closed_splitArgs hsplit.inside
  have hguarded : ∀ a ∈ splitArgs (c.inside s), Guarded a := fun a ha =>
    h.of_subset (hclosed a ha) fun ℓ hℓ => hinside (hargs ▸ mem_flatMap.mpr ⟨a, ha, hℓ⟩)
  obtain ⟨hsql, hkept, hfrom⟩ := Function.guarded_convert hf hguarded
  rw [hargs] at hkept hfrom
  rw [Call.converted, hsplit.replace]
  generalize (c.function.convert c.function.name.toList (splitArgs (c.inside s))).1 = sql
    at hsql hkept hfrom ⊢
  have hnew : literals (front ++ (sql ++ back))
      = literals front ++ (literals sql ++ literals back) := by
    rw [literals_append hsplit.front, literals_append hsql.closed]
  refine ⟨?_, ?_, fun ℓ hℓ => ?_⟩
  · exact (h.of_subset hsplit.front hfront).append (hsql.append (h.of_subset hsplit.back hback))
  · -- what stands before and behind the call is counted on both sides
    rw [hnew, heq, subperm_iff_count]
    intro ℓ
    have hcount := subperm_iff_count.mp hkept ℓ
    simp only [count_append] at hcount ⊢
    omega
  · rw [hnew, mem_append, mem_append] at hℓ
    rcases hℓ with hℓ | hℓ | hℓ
    · exact .inl (hfront hℓ)
    · exact (hfrom ℓ hℓ).imp_left fun hℓ => hinside hℓ
    · exact .inl (hback hℓ)

/-! ## All conversions -/

/-- The arguments that are left out of the calls of a text, in at most `limit` conversions. -/
def leftOut : Nat → List Char → List (List Char)
  | 0, _ => []
  | limit + 1, s =>
    match nextCall? s with
    | none => []
    | some c =>
      if c.converted s = s then []
      else c.function.leftOut (splitArgs (c.inside s)) ++ leftOut limit (c.converted s)

theorem fst_convertCalls (limit : Nat) (s : List Char) :
    (convertCalls (limit + 1) s).1 = match nextCall? s with
      | none => s
      | some c => if c.converted s = s then s else (convertCalls limit (c.converted s)).1 := by
  rw [convertCalls]
  cases nextCall? s with
  | none => rfl
  | some c =>
    dsimp only
    by_cases hsame : c.converted s = s
    · rw [if_pos hsame]
      exact congrArg Prod.fst (if_pos hsame)
    · rw [if_neg hsame]
      exact (congrArg Prod.fst (if_neg hsame)).trans rfl

/-- Conversions keep all literals but those in arguments that are left out. -/
theorem Guarded.run (limit : Nat) : ∀ {s : List Char}, Guarded s →
    Guarded (convertCalls limit s).1
      ∧ (literals s).Subperm (literals (convertCalls limit s).1
        ++ (leftOut limit s).flatMap literals)
      ∧ ∀ ℓ ∈ literals (convertCalls limit s).1, ℓ ∈ literals s ∨ Fixed ℓ := by
  have hstop : ∀ {s : List Char}, Guarded s → Guarded s
      ∧ (literals s).Subperm (literals s ++ flatMap literals []) ∧
      ∀ ℓ ∈ literals s, ℓ ∈ literals s ∨ Fixed ℓ := by
    intro s h
    exact ⟨h, (sublist_append_left _ _).subperm, fun _ hℓ => .inl hℓ⟩
  induction limit with
  | zero => exact hstop
  | succ limit ih =>
    intro s h
    rw [fst_convertCalls, leftOut]
    cases hc : nextCall? s with
    | none => exact hstop h
    | some c =>
      dsimp only
      by_cases hsame : c.converted s = s
      · rw [if_pos hsame, if_pos hsame]
        exact hstop h
      · rw [if_neg hsame, if_neg hsame]
        obtain ⟨hguarded, hkept, hfrom⟩ := h.step hc
        obtain ⟨hguarded', hkept', hfrom'⟩ := ih hguarded
        refine ⟨hguarded', ?_, fun ℓ hℓ => ?_⟩
        · rw [subperm_iff_count] at hkept hkept' ⊢
          intro ℓ
          have hfirst := hkept ℓ
          have hrest := hkept' ℓ
          simp only [flatMap_append, count_append] at hfirst hrest ⊢
          omega
        · rcases hfrom' ℓ hℓ with hℓ | hℓ
          · exact hfrom ℓ hℓ
          · exact .inr hℓ

/-! ## Formulas -/

/-- The literals of a formula, with their quotes. -/
def stringLiterals (s : List Char) : List (List Char) :=
  (parts s).flatMap fun
    | .literal q body => [quoted q body]
    | _ => []

theorem mem_stringLiterals :
    ℓ ∈ stringLiterals s ↔ ∃ q body, .literal q body ∈ parts s ∧ ℓ = quoted q body := by
  rw [stringLiterals, mem_flatMap]
  constructor
  · rintro ⟨c | name | ⟨q, body⟩, hp, hℓ⟩
    · exact nomatch hℓ
    · exact nomatch hℓ
    · exact ⟨q, body, hp, mem_singleton.mp hℓ⟩
  · rintro ⟨q, body, hp, rfl⟩
    exact ⟨_, hp, mem_singleton_self _⟩

/-- Before calls are converted, the literals of the formula stand in the text, each prepared. -/
theorem sublist_segments (s : List Char) : ((stringLiterals s).map prepare).Sublist
    (((parts s).flatMap Part.segments).map replaceOperators) := by
  rw [stringLiterals, map_flatMap, map_flatMap]
  refine Sublist.flatMap_right _ fun p hp => ?_
  cases p with
  | char c => exact Sublist.refl _
  | field name => exact nil_sublist _
  | literal q body =>
    rw [map_singleton, prepare_quoted (literal_of_mem_parts hp).1]
    exact Sublist.refl _

/-- The other literals of the text are the names of fields. -/
theorem origin_of_mem_segments (h : ℓ ∈ ((parts s).flatMap Part.segments).map replaceOperators) :
    ℓ ∈ (stringLiterals s).map prepare
      ∨ ∃ name, .field name ∈ parts s ∧ ℓ = quoted '\x22' (replaceOperators name) := by
  obtain ⟨x, hx, rfl⟩ := mem_map.mp h
  obtain ⟨p, hp, hx⟩ := mem_flatMap.mp hx
  cases p with
  | char c => exact absurd hx not_mem_nil
  | field name =>
    obtain rfl := mem_singleton.mp hx
    exact .inr ⟨name, hp, replaceOperators_quoted (by decide) name⟩
  | literal q body =>
    obtain rfl := mem_singleton.mp hx
    refine .inl (mem_map.mpr ⟨_, mem_stringLiterals.mpr ⟨q, body, hp, rfl⟩, ?_⟩)
    exact prepare_quoted (literal_of_mem_parts hp).1 body

theorem prepare_eq_iff_of_mem (h : ℓ ∈ stringLiterals s) : prepare ℓ = ℓ ↔ Inert ℓ := by
  obtain ⟨q, body, hp, rfl⟩ := mem_stringLiterals.mp h
  exact prepare_quoted_eq_iff (literal_of_mem_parts hp).1

theorem toList_convert {formula : String} (h : ¬ formula.isEmpty) :
    (convert formula).sql.toList = (convertCalls callLimit (prepare formula.toList)).1 := by
  rw [convert, if_neg h]
  exact String.toList_ofList

/-- The empty formula becomes a word. -/
theorem closed_convert_empty :
    Closed (convert "").sql.toList ∧ literals (convert "").sql.toList = [] :=
  closed_of_plain (plain_of_all (by decide))

/-- The literals of a tame formula, each prepared on its own, stand in its SQL as often as in the
formula, but for those in arguments that are left out. The SQL has no other literals than these, the
names of fields in quotes, and those of the functions. What a literal is prepared to is the literal
itself if and only if neither a reference nor an operator stands in it. -/
theorem literals_convert (formula : String) (h : tame (parts formula.toList)) :
    let sql := (convert formula).sql.toList
    Closed sql
      ∧ ((stringLiterals formula.toList).map prepare).Subperm (literals sql
        ++ (leftOut callLimit (prepare formula.toList)).flatMap literals)
      ∧ (∀ ℓ ∈ literals sql, ℓ ∈ (stringLiterals formula.toList).map prepare
        ∨ (∃ name, .field name ∈ parts formula.toList ∧ ℓ = quoted '\x22' (replaceOperators name))
        ∨ Fixed ℓ)
      ∧ ∀ ℓ ∈ stringLiterals formula.toList, prepare ℓ = ℓ ↔ Inert ℓ := by
  intro sql
  by_cases hempty : formula.isEmpty
  · obtain rfl := String.isEmpty_iff.mp hempty
    obtain ⟨hclosed, hnone⟩ := closed_convert_empty
    refine ⟨hclosed, nil_subperm, fun ℓ hℓ => ?_, fun ℓ => prepare_eq_iff_of_mem⟩
    rw [hnone] at hℓ
    exact absurd hℓ not_mem_nil
  · have hsql : sql = (convertCalls callLimit (prepare formula.toList)).1 := toList_convert hempty
    obtain ⟨hguarded, hprepared⟩ := guarded_prepare h
    obtain ⟨hclosed, hkept, hfrom⟩ := hguarded.run callLimit
    rw [hprepared] at hkept hfrom
    rw [hsql]
    refine ⟨hclosed.closed, (sublist_segments _).subperm.trans hkept, fun ℓ hℓ => ?_,
      fun ℓ => prepare_eq_iff_of_mem⟩
    rcases hfrom ℓ hℓ with hℓ | hfixed
    · exact (origin_of_mem_segments hℓ).imp_right .inl
    · exact .inr (.inr hfixed)

/-- A formula that keeps the digits of a number. The first of its literals looks like a reference to
a field, the second like a list of arguments, and the third has an operator. -/
def digitsOnly : String := "REGEX_Replace([Phone], '[^0-9]', Trim(\"n/a, ()\")) + 'a && b'"

/-- The literal that looks like a list of arguments survives. The other two do not, for a reference
is seen in the one and an operator in the other. -/
theorem literals_convert_digitsOnly :
    tame (parts digitsOnly.toList)
      ∧ stringLiterals digitsOnly.toList
        = ["'[^0-9]'".toList, "\"n/a, ()\"".toList, "'a && b'".toList]
      ∧ (convert digitsOnly).sql
        = "REGEXP_REPLACE(\"Phone\", '\"^0-9\"', TRIM(\"n/a, ()\")) + 'a  AND  b'"
      ∧ ["'\"^0-9\"'".toList, "\"n/a, ()\"".toList, "'a  AND  b'".toList].Subperm
        (literals (convert digitsOnly).sql.toList)
      ∧ Inert "\"n/a, ()\"".toList ∧ ¬ Inert "'[^0-9]'".toList ∧ ¬ Inert "'a && b'".toList := by
  have htame : tame (parts digitsOnly.toList) := by decide +kernel
  have hliterals : stringLiterals digitsOnly.toList
      = ["'[^0-9]'".toList, "\"n/a, ()\"".toList, "'a && b'".toList] := by decide +kernel
  have hout : leftOut callLimit (prepare digitsOnly.toList) = [] := by decide +kernel
  obtain ⟨-, hkept, -, hinert⟩ := literals_convert digitsOnly htame
  rw [hliterals] at hinert hkept
  rw [hout, flatMap_nil, append_nil] at hkept
  refine ⟨htame, hliterals, by decide +kernel, hkept, ?_, ?_, ?_⟩
  · exact (hinert _ (by simp)).mp (by decide +kernel)
  · exact mt (hinert _ (by simp)).mpr (by decide +kernel)
  · exact mt (hinert _ (by simp)).mpr (by decide +kernel)

end Replatform.Formula

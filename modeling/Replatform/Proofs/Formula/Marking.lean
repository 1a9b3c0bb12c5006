import Replatform.Proofs.Formula.Balance
import Replatform.Proofs.Formula.Insertion
import Replatform.Proofs.Formula.Respelling
/-!
# Calls that are left

A call for which there is no SQL is left: it is written again under the name in the table, behind a
remark (`Function.convert_of_leaves`). What is written is again a call that can be converted, and
all that was done to the text, blanks taken away or put in, letters of the name changed and a remark
put before it, leaves the other calls as they are. So the call that was next is next again
(`leads_converted`), and it is left again, until the limit is reached (`convertCalls_of_sticks`).

The exception is a name in capitals (`IIF`) that is written otherwise: writing it in capitals can
change which calls wait for others.
-/

namespace Replatform.Formula

open List
open Text (allCapital atWordStart isBlank isInitial isSmall isWord strip)

variable {args : List (List Char)} {inside m front s word gap back : List Char} {c : Call}

/-! ## What is written for a call that is left -/

/-- Whether a call with `n` arguments is left: it is written again, behind a remark. -/
def Function.leaves (f : Function) (n : Nat) : Bool :=
  match f.target with
  | .manual => !decide (Text.lower f.name.toList = "switch".toList)
  | .pattern ps => !(places ps).all (· < n)
  | .constant _ | .call _ => false

/-- The remark on a call that is left. -/
def Function.remark (f : Function) : List Char :=
  (if f.target = .manual then "/* TODO: Convert ".toList else "/* TODO: Fix ".toList)
    ++ (f.name.toList ++ " */ ".toList)

/-- The notes on a call that is left. -/
def Function.complaint (f : Function) (n : Nat) : List Note :=
  if f.target = .manual then [] else [.wrongArity f.name f.arity n]

variable {f : Function}

theorem Function.convert_of_leaves (h : f.leaves args.length) :
    f.convert f.name.toList args
      = (f.remark ++ writeCall f.name.toList args, f.complaint args.length) := by
  unfold Function.leaves at h
  unfold Function.convert Function.remark Function.complaint
  cases htarget : f.target with
  | constant sql =>
    rw [htarget] at h
    cases h
  | call sql =>
    rw [htarget] at h
    cases h
  | manual =>
    rw [htarget] at h
    have hname := of_decide_eq_false ((Bool.not_eq_true' _).mp h)
    dsimp only
    unfold convertManual
    rw [if_neg hname, if_pos rfl, if_pos rfl]
    simp only [writeCall, append_assoc]
  | pattern ps =>
    rw [htarget] at h
    have hnone := Bool.eq_false_iff.mp ((Bool.not_eq_true' _).mp h)
    dsimp only
    rw [instantiate_eq, if_neg hnone, if_neg (by simp), if_neg (by simp)]
    simp only [writeCall, append_assoc, String.ofList_toList]

/-- With fewer arguments a call is left all the more. -/
theorem Function.leaves_of_le {m n : Nat} (h : f.leaves n) (hmn : m ≤ n) :
    f.leaves m := by
  unfold Function.leaves at h ⊢
  cases htarget : f.target with
  | constant sql =>
    rw [htarget] at h
    exact h
  | call sql =>
    rw [htarget] at h
    exact h
  | manual =>
    rw [htarget] at h
    exact h
  | pattern ps =>
    rw [htarget] at h
    dsimp only at h ⊢
    rw [Bool.not_eq_true', Bool.eq_false_iff] at h ⊢
    intro hall
    refine h (all_eq_true.mpr fun i hi => ?_)
    have := of_decide_eq_true (all_eq_true.mp hall i hi)
    exact decide_eq_true (by omega)

/-! ## Arguments that are written again -/

/-- A text that is an argument by itself, without blanks around it. -/
structure Tidy (a : List Char) : Prop where
  stripped : strip a = a
  level : through (0, none) a = some (0, none)
  uncut : Formula.uncut 0 none a = some (0, none)

theorem strip_strip (s : List Char) : strip (strip s) = strip s := by
  have hhead : ∀ {x : List Char} {c : Char}, (x.dropWhile isBlank).head? = some c →
      isBlank c = false := fun {x c} hc => by
    have hnot := head?_dropWhile_not isBlank x
    rw [hc] at hnot
    simpa using hnot
  refine strip_eq_self (fun c hc => ?_) (fun c hc => ?_)
  · obtain ⟨r, hr⟩ : strip s <+: s.dropWhile isBlank := by
      rw [strip, Text.trimWhile, Text.dropEndWhile, ← reverse_suffix, reverse_reverse]
      exact dropWhile_suffix _
    refine hhead (x := s) ?_
    rw [← hr, head?_append, hc]
    rfl
  · rw [strip, Text.trimWhile, Text.dropEndWhile, getLast?_reverse] at hc
    exact hhead hc

theorem all_isQuote_uncut (x : List Char) : ∀ {depth : Int} {quote : Option Char}
    {r : Int × Option Char}, uncut depth quote x = some r → quote.all isQuote →
    r.2.all isQuote := by
  induction x with
  | nil =>
    intro depth quote r h hquote
    cases h
    exact hquote
  | cons c x ih =>
    intro depth quote r h hquote
    rw [uncut] at h
    split at h
    next => cases h
    next => exact ih h (all_isQuote_nextQuote hquote c)

theorem uncut_strip {x : List Char} (h : uncut 0 none x = some (0, none)) :
    uncut 0 none (strip x) = some (0, none) := by
  -- blanks leave the scan as it is, so it stands before those at the end as behind them
  obtain ⟨front, back, hsplit, hfront, hback⟩ := exists_strip x
  generalize strip x = y at hsplit ⊢
  rw [hsplit, append_assoc, uncut_append, uncut_of_words rfl fun c hc => .inr (hfront c hc),
    Option.bind_some, uncut_append] at h
  obtain ⟨r, hr, hrest⟩ := Option.bind_eq_some_iff.mp h
  rw [uncut_of_words (all_isQuote_uncut y hr rfl) fun c hc => .inr (hback c hc)] at hrest
  rw [hr]
  exact hrest

/-- The fields between the parentheses of a call. -/
theorem tidy_fields (h : through (0, none) inside = some (0, none)) :
    ∀ a ∈ (pieces 0 none inside).map strip, Tidy a := by
  intro a ha
  obtain ⟨y, hy, rfl⟩ := mem_map.mp ha
  obtain ⟨hlevel, huncut⟩ := through_of_mem_pieces h hy
  exact ⟨strip_strip y, through_strip hlevel, uncut_strip huncut⟩

theorem mem_of_mem_dropLastBlank {a : List Char} {xs : List (List Char)}
    (h : a ∈ dropLastBlank xs) : a ∈ xs := by
  obtain ⟨blank, hsplit, -⟩ := dropLastBlank_append xs
  exact hsplit ▸ mem_append_left _ h

theorem length_dropLastBlank_le (xs : List (List Char)) :
    (dropLastBlank xs).length ≤ xs.length := by
  obtain ⟨blank, hsplit, -⟩ := dropLastBlank_append xs
  conv_rhs => rw [hsplit, length_append]
  omega

/-- Tidy arguments that are joined come apart as they were, but for a blank one at the end. -/
theorem splitArgs_joinArgs_of_tidy (h : ∀ a ∈ args, Tidy a) :
    splitArgs (joinArgs args) = dropLastBlank args := by
  cases args with
  | nil => rfl
  | cons a args =>
    rw [splitArgs, strip_pieces_joinArgs _ (cons_ne_nil a args)
      fun x hx => ⟨(h x hx).uncut, (h x hx).stripped⟩]

/-! ## Blanks and commas -/

theorem no_word_of_all (h : (m.all fun c => !isWord c)) :
    ∀ c ∈ m, isWord c = false := fun c hc => by
  simpa using all_eq_true.mp h c hc

theorem flat_of_all (h : (m.all fun c => !isQuote c && c != '(' && c != ')')) :
    ∀ c ∈ m, isQuote c = false ∧ c ≠ '(' ∧ c ≠ ')' := fun c hc => by
  simpa [and_assoc] using all_eq_true.mp h c hc

theorem not_small_of_isBlank {c : Char} (h : isBlank c) :
    (isSmall c || isInitial c) = false := by
  have hall : (Text.blankRanges.all fun r => (range' r.1 (r.2 + 1 - r.1)).all fun n =>
      !(isSmall (Char.ofNat n) || isInitial (Char.ofNat n))) := by decide +kernel
  obtain ⟨r, hr, hc⟩ := any_eq_true.mp h
  obtain ⟨hfirst, hlast⟩ := Bool.and_eq_true_iff.mp hc
  have hmem : c.toNat ∈ range' r.1 (r.2 + 1 - r.1) := by
    rw [mem_range'_1]
    have := of_decide_eq_true hfirst
    have := of_decide_eq_true hlast
    omega
  have hnot := all_eq_true.mp (all_eq_true.mp hall r hr) _ hmem
  rwa [Char.ofNat_toNat, Bool.not_eq_true'] at hnot

theorem insertable_of_blank {x y : List Char} (hm : ∀ c ∈ m, isBlank c)
    (hseam : (∀ c, x.getLast? = some c → isWord c = false)
      ∨ ∀ c, y.head? = some c → isWord c = false ∧ (isSmall c || isInitial c) = false) :
    Insertable x m y where
  plain := fun c hc => by
    have hblank := hm c hc
    refine ⟨isQuote_of_isBlank hblank, ?_, ?_⟩ <;> rintro rfl <;> exact absurd hblank (by decide)
  first := fun c hc => by
    have hblank := hm c (mem_of_head? hc)
    exact ⟨isWord_of_isBlank hblank, not_small_of_isBlank hblank⟩
  last := fun c hc => isWord_of_isBlank (hm c (mem_of_getLast? hc))
  seam := hseam
  call := fun _ => hm

section

variable {f : Function} {i : Nat} {x : List Char}

/-- Blanks around a text can be taken away. -/
theorem leads_strip (hx : ∀ c, x.getLast? = some c → isWord c = false) (hi : i < x.length)
    (p : List Char) {z : List Char}
    (hz : ∀ c, z.head? = some c → isWord c = false ∧ (isSmall c || isInitial c) = false) :
    Leads f i (x ++ (p ++ z)) ↔ Leads f i (x ++ (strip p ++ z)) := by
  obtain ⟨front, back, hsplit, hfront, hback⟩ := exists_strip p
  have hi' : i < (x ++ strip p).length := by
    rw [length_append]
    omega
  have hbefore := (insertable_of_blank (y := strip p ++ (back ++ z)) hfront
    (.inl hx)).leads_iff (fun c hc => isWord_of_isBlank (hfront c hc)) (f := f) hi
  have hbehind := (insertable_of_blank (x := x ++ strip p) hback (.inr hz)).leads_iff
    (fun c hc => isWord_of_isBlank (hback c hc)) (f := f) hi'
  rw [append_assoc, append_assoc] at hbehind
  rw [← hbehind, ← hbefore]
  conv_lhs => rw [hsplit]
  simp only [append_assoc]

/-- Pieces between commas can be stripped of blanks, and blanks be put behind the commas. -/
theorem leads_joinArgs (back : List Char) : ∀ (ps : List (List Char)) {x : List Char},
    (∀ c, x.getLast? = some c → isWord c = false) → i < x.length →
    (Leads f i (x ++ (Text.join [','] ps ++ ')' :: back))
      ↔ Leads f i (x ++ (joinArgs (ps.map strip) ++ ')' :: back)))
  | [], _, _, _ => Iff.rfl
  | [p], x, hx, hi => leads_strip hx hi p fun c hc => by
      cases hc
      decide
  | p :: q :: ps, x, hx, hi => by
    -- the first piece is stripped, a blank put behind its comma, and the rest follows
    have hstrip := leads_strip (f := f) hx hi p
      (z := ',' :: (Text.join [','] (q :: ps) ++ ')' :: back)) fun c hc => by
        cases hc
        decide
    have hlast : ∀ {d : Char} {y : List Char}, isWord d = false →
        ∀ c, (y ++ [d]).getLast? = some c → isWord c = false := fun hd c hc => by
      rw [getLast?_concat, Option.some.injEq] at hc
      exact hc ▸ hd
    have hlength : ∀ y : List Char, i < (x ++ y).length := fun y => by
      rw [length_append]
      omega
    have hspace := (insertable_of_blank (x := x ++ strip p ++ [',']) (m := [' '])
      (y := Text.join [','] (q :: ps) ++ ')' :: back) (all_eq_true.mp (by decide))
      (.inl (hlast (by decide)))).leads_iff (f := f) (i := i) (no_word_of_all (by decide))
      (by rw [append_assoc]; exact hlength _)
    have hrest := leads_joinArgs back (q :: ps) (x := x ++ strip p ++ [','] ++ [' '])
      (hlast (by decide)) (by rw [append_assoc, append_assoc]; exact hlength _)
    simp only [append_assoc, cons_append, nil_append] at hspace hrest
    show Leads f i (x ++ (p ++ [','] ++ Text.join [','] (q :: ps) ++ ')' :: back))
      ↔ Leads f i (x ++ (strip p ++ [',', ' '] ++ joinArgs ((q :: ps).map strip)
        ++ ')' :: back))
    simp only [append_assoc, cons_append, nil_append]
    rw [← hrest, hspace]
    exact hstrip

theorem joinArgs_dropLastBlank : ∀ xs : List (List Char),
    joinArgs xs = joinArgs (dropLastBlank xs)
      ∨ joinArgs xs = joinArgs (dropLastBlank xs) ++ [',', ' ']
  | [] => .inl rfl
  | [p] => by
    rw [dropLastBlank]
    split
    next hp =>
      rw [hp]
      exact .inl rfl
    next => exact .inl rfl
  | p :: q :: ps => by
    have hcons : joinArgs (p :: q :: ps) = p ++ ([',', ' '] ++ joinArgs (q :: ps)) :=
      append_assoc ..
    rw [hcons, dropLastBlank]
    cases hrest : dropLastBlank (q :: ps) with
    | nil =>
      -- only a blank one is left out, and it is the last
      have hnil : joinArgs (q :: ps) = [] := by
        cases ps with
        | nil =>
          rw [dropLastBlank] at hrest
          split at hrest
          next hq => exact hq
          next => cases hrest
        | cons r ps => cases hrest
      rw [hnil]
      exact .inr rfl
    | cons r rs =>
      have hcons' : joinArgs (p :: r :: rs) = p ++ ([',', ' '] ++ joinArgs (r :: rs)) :=
        append_assoc ..
      have ih := joinArgs_dropLastBlank (q :: ps)
      rw [hrest] at ih
      rw [hcons']
      refine ih.imp (fun h => by rw [h]) fun h => ?_
      rw [h]
      simp only [append_assoc]

/-- The comma before a blank argument at the end can be taken away. -/
theorem leads_dropLastBlank (hi : i < x.length) (xs : List (List Char)) (back : List Char) :
    Leads f i (x ++ (joinArgs xs ++ ')' :: back))
      ↔ Leads f i (x ++ (joinArgs (dropLastBlank xs) ++ ')' :: back)) := by
  rcases joinArgs_dropLastBlank xs with h | h
  · rw [h]
  · have hinsert : Insertable (x ++ joinArgs (dropLastBlank xs)) [',', ' '] (')' :: back) := by
      refine ⟨flat_of_all (by decide), fun c hc => ?_, fun c hc => ?_, .inr fun c hc => ?_,
        fun hopen => ?_⟩
      · cases hc
        decide
      · cases hc
        decide
      · cases hc
        decide
      · rw [dropWhile_cons_of_neg (by decide)] at hopen
        cases hopen
    have hi' : i < (x ++ joinArgs (dropLastBlank xs)).length := by
      rw [length_append]
      omega
    have hleads := hinsert.leads_iff (f := f) (no_word_of_all (by decide)) hi'
    simp only [append_assoc] at hleads
    rw [h, ← hleads]
    simp only [append_assoc]

end

/-! ## Remarks -/

theorem Function.remark_eq (f : Function) :
    ∃ text ∈ remarkTexts, f.remark = text ++ (f.name.toList ++ " */ ".toList) := by
  unfold Function.remark
  split
  · exact ⟨_, .head _, rfl⟩
  · exact ⟨_, .tail _ (mem_singleton.mpr rfl), rfl⟩

/-- A remark can be put before a call. -/
theorem insertable_remark (hf : f ∈ functions)
    (hstart : atWordStart front.getLast?) (rest : List Char) :
    Insertable front f.remark (f.name.toList ++ rest) := by
  have hplain : (remarkTexts.all fun x => x.all fun c => !isQuote c && c != '(' && c != ')')
      := by decide
  have hname := (name_of_mem hf).2
  obtain ⟨d, ds, hd⟩ := exists_cons_of_ne_nil (name_of_mem hf).1
  have hword : isWord d := (hname d (hd ▸ mem_cons_self ..)).1
  refine ⟨fun c hc => ?_, fun c hc => ?_, fun c hc => ?_, .inl fun c hc => ?_, fun hopen => ?_⟩
  · obtain ⟨text, htext, hremark⟩ := f.remark_eq
    rw [hremark] at hc
    rcases mem_append.mp hc with hc | hc
    · exact flat_of_all (all_eq_true.mp hplain text htext) c hc
    · rcases mem_append.mp hc with hc | hc
      · have hc := (hname c hc).1
        refine ⟨isQuote_of_isWord hc, ?_, ?_⟩ <;> rintro rfl <;> exact absurd hc (by decide)
      · exact flat_of_all (m := " */ ".toList) (by decide) c hc
  · have hslash : f.remark.head? = some '/' := by
      unfold Function.remark
      split <;> rfl
    rw [hslash, Option.some.injEq] at hc
    exact hc ▸ by decide
  · have hspace : f.remark.getLast? = some ' ' := by
      unfold Function.remark
      rw [← append_assoc, getLast?_append]
      rfl
    rw [hspace, Option.some.injEq] at hc
    exact hc ▸ by decide
  · rw [hc] at hstart
    simpa [atWordStart] using hstart
  · -- behind the remark stands the name, so no parenthesis
    rw [hd, cons_append, dropWhile_cons_of_neg (by rw [isBlank_of_isWord hword]; decide)] at hopen
    cases hopen
    exact absurd hword (by decide)

/-- A remark before a name holds no name in capitals but that one. -/
theorem inCapitals_remark {g : Function} (hf : f ∈ functions) (hg : g ∈ functions)
    (hcapital : IsCapitalName g.name.toList) (rest : List Char) :
    inCapitals g.name.toList (f.remark ++ (f.name.toList ++ '(' :: rest))
      = inCapitals g.name.toList (f.name.toList ++ '(' :: rest) := by
  obtain ⟨text, htext, hremark⟩ := f.remark_eq
  have hchecked := all_eq_true.mp functions_cased g hg
  rw [if_pos hcapital.capital, Bool.and_eq_true, Bool.and_eq_true] at hchecked
  have habsent : ¬g.name.toList <:+: text := fun h => by
    have hnone := all_eq_true.mp hchecked.1.2 text htext
    rw [Text.has_iff.mpr h] at hnone
    cases hnone
  have hspaces : (remarkTexts.all fun x => x.getLast? == some ' ') := by decide
  have hspace := beq_iff_eq.mp (all_eq_true.mp hspaces text htext)
  rw [hremark, append_assoc,
    hcapital.inCapitals_append (.inr ⟨' ', hspace, by decide⟩) habsent, append_assoc]
  by_cases hname : f.name.toList = g.name.toList
  · rw [hname, hcapital.inCapitals_self, hcapital.inCapitals_self]
    rfl
  · have hself : f.Spells f.name.toList := afterName?_self _
    have hother : ¬g.name.toList <:+: f.name.toList := fun h =>
      hname (hself.eq_of_part hf hg hcapital.capital h)
    rw [hcapital.inCapitals_append (.inl fun c hc => ?_) hother,
      hcapital.inCapitals_plain (no_word_of_all (by decide))]
    cases hc
    decide

/-- A call that is next is next with a remark before it, too. -/
theorem leads_remark (hf : f ∈ functions) (hstart : atWordStart front.getLast?) (rest : List Char) :
    Leads f (front ++ f.remark).length (front ++ f.remark ++ (f.name.toList ++ '(' :: rest))
      ↔ Leads f front.length (front ++ (f.name.toList ++ '(' :: rest)) := by
  have haligned := (insertable_remark hf hstart ('(' :: rest)).aligned
    fun g hg hcapital => inCapitals_remark hf hg hcapital rest
  rw [← haligned.leads_iff, shift_of_le (Nat.le_refl _), length_append, append_assoc]

/-! ## A call that is left is next again -/

/-- The parts of a text around a call are determined by where it begins. -/
theorem Call.Stands.unique (h : c.Stands s front word gap inside back)
    {front' word' gap' inside' back' : List Char}
    (htext : s = front' ++ (word' ++ (gap' ++ '(' :: (inside' ++ ')' :: back'))))
    (hstart : c.start = front'.length) (hletters : ∀ d ∈ word', isWord d)
    (hblanks : ∀ d ∈ gap', isBlank d) (hlevel : through (0, none) inside' = some (0, none)) :
    c.Stands s front' word' gap' inside' back' ∧ word = word' := by
  -- from left to right, each part ends where the next one has to begin
  obtain ⟨rfl, hrest⟩ := append_inj (h.text.symm.trans htext)
    (h.start_eq.symm.trans hstart)
  obtain ⟨htake, hdrop⟩ := span_word h.letters h.blanks (inside ++ ')' :: back)
  obtain ⟨htake', hdrop'⟩ := span_word hletters hblanks (inside' ++ ')' :: back')
  rw [hrest, htake'] at htake
  rw [hrest, hdrop'] at hdrop
  have hgap : ∀ {gap rest : List Char}, (∀ d ∈ gap, isBlank d) →
      (gap ++ '(' :: rest).takeWhile isBlank = gap := fun hgap => by
    rw [takeWhile_append_of_pos hgap, takeWhile_cons_of_neg (by decide), append_nil]
  have hsame := congrArg (takeWhile isBlank) hdrop
  rw [hgap hblanks, hgap h.blanks] at hsame
  subst htake hsame
  rw [append_cancel_left_eq, cons.injEq] at hdrop
  have hlength : inside'.length = inside.length := Option.some.inj <| by
    rw [← closing?_of_through hlevel back', ← closing?_of_through h.level back, hdrop.2]
  obtain ⟨rfl, hback⟩ := append_inj hdrop.2 hlength
  cases hback
  exact ⟨h, rfl⟩

/-- A text with a call of `f` in it, as conversion writes calls. -/
def Function.written (f : Function) (front : List Char) (args : List (List Char))
    (back : List Char) : List Char :=
  front ++ (f.name.toList ++ '(' :: (joinArgs args ++ ')' :: back))

/-- What is written for a call that is left. -/
theorem Call.Stands.converted_of_leaves (h : c.Stands s front word gap inside back)
    (hleaves : c.function.leaves (splitArgs inside).length) :
    c.converted s
        = c.function.written (front ++ c.function.remark) (splitArgs inside) back
      ∧ c.notes s = c.function.complaint (splitArgs inside).length := by
  rw [Call.converted, Call.notes, h.inside_eq, Function.convert_of_leaves hleaves, h.replace_eq]
  refine ⟨?_, rfl⟩
  simp only [Function.written, writeCall, append_assoc, cons_append, nil_append]

/-- The call is written as the table spells it, or the table does not spell it in capitals. -/
def Function.Keeps (f : Function) (word : List Char) : Prop :=
  allCapital f.name.toList → word = f.name.toList

/-- A call that is left is next again. -/
theorem leads_converted (hc : nextCall? s = some c) (hs : c.Stands s front word gap inside back)
    (hnamed : c.function.Named word) (hkeeps : c.function.Keeps word) :
    Leads c.function (front ++ c.function.remark).length
      (c.function.written (front ++ c.function.remark) (splitArgs inside) back) := by
  have hlast : ∀ {y : List Char}, ∀ d, (y ++ ['(']).getLast? = some d → isWord d = false :=
    fun d hd => by
      rw [getLast?_concat, Option.some.injEq] at hd
      exact hd ▸ by decide
  have hpos := length_pos_iff.mpr (ne_nil_of_afterName? hnamed.listed hnamed.named)
  have hpos' := length_pos_iff.mpr (name_of_mem hnamed.listed).1
  have hfirst : Leads c.function front.length
      (front ++ word ++ (gap ++ '(' :: (inside ++ ')' :: back))) :=
    ⟨c, by rw [append_assoc, ← hs.text, hc], rfl, hs.start_eq⟩
  -- blanks before the parenthesis are taken away
  have hgap : Leads c.function front.length
      (front ++ (word ++ '(' :: (inside ++ ')' :: back))) := by
    have hinsert : Insertable (front ++ word) gap ('(' :: (inside ++ ')' :: back)) :=
      insertable_of_blank hs.blanks (.inr fun d hd => by cases hd; decide)
    rw [hinsert.leads_iff (fun d hd => isWord_of_isBlank (hs.blanks d hd))
      (by rw [length_append]; omega)] at hfirst
    rwa [append_assoc] at hfirst
  -- the name is spelled as in the table
  have hname : Leads c.function front.length
      (front ++ (c.function.name.toList ++ '(' :: (inside ++ ')' :: back))) := by
    by_cases hcapital : allCapital c.function.name.toList
    · rwa [← hkeeps hcapital]
    · have hsmall : allCapital word = false := Bool.eq_false_iff.mpr fun h =>
        hcapital (hnamed.spelled h ▸ h)
      have hrespelled : Respelled (fun _ v => allCapital v = false) none
          (front ++ (word ++ ([] ++ '(' :: (inside ++ ')' :: back))))
          (front ++ (c.function.name.toList ++ ([] ++ '(' :: (inside ++ ')' :: back)))) := by
        refine (Respelled.refl front).append (.name hnamed.listed hnamed.named (afterName?_self _)
          ?_ hsmall (Bool.eq_false_iff.mpr hcapital) (forall_mem_nil _)
          (Respelled.refl _))
        rw [lastFrom_eq, Option.or_none]
        exact hs.starts
      exact (hrespelled.leads_iff fun _ _ h => h).mpr hgap
  -- the arguments are written with a comma and a blank between them
  have hargs : Leads c.function front.length
      (c.function.written front (splitArgs inside) back) := by
    have hi : front.length < (front ++ c.function.name.toList ++ ['(']).length := by
      rw [length_append, length_append]
      omega
    have hjoin := (leads_joinArgs (f := c.function) back (pieces 0 none inside) hlast hi).trans
      (leads_dropLastBlank hi _ back)
    rw [join_pieces] at hjoin
    simp only [append_assoc, singleton_append] at hjoin
    exact hjoin.mp hname
  exact (leads_remark hnamed.listed hs.starts _).mpr hargs

/-! ## Runs -/

/-- A call that was written by conversion stands as it was written. -/
theorem stands_of_leads (hargs : ∀ a ∈ args, Tidy a)
    (h : Leads f front.length (f.written front args back)) :
    ∃ c, nextCall? (f.written front args back) = some c ∧ c.function = f
      ∧ c.Stands (f.written front args back) front f.name.toList [] (joinArgs args) back
      ∧ f.Named f.name.toList := by
  obtain ⟨c, hc, rfl, hstart⟩ := h
  obtain ⟨front', word, gap, inside, back', hs, hnamed⟩ :=
    mem_openCalls_iff.mp (mem_openCalls_of_nextCall? hc)
  have htext : c.function.written front args back = front ++ (c.function.name.toList
      ++ ([] ++ '(' :: (joinArgs args ++ ')' :: back))) := rfl
  obtain ⟨hstands, rfl⟩ := hs.unique htext hstart
    (fun d hd => ((name_of_mem hnamed.listed).2 d hd).1) (forall_mem_nil _)
    (through_joinArgs fun a ha => (hargs a ha).level)
  exact ⟨c, hc, rfl, hstands, hnamed⟩

/-- A remark is put where the name began, so the text has changed. -/
theorem written_remark_ne {rest : List Char} (hword : ∀ d ∈ word, isWord d)
    (hne : word ≠ []) (args : List (List Char)) :
    f.written (front ++ f.remark) args back ≠ front ++ (word ++ rest) := by
  intro heq
  obtain ⟨d, ds, rfl⟩ := exists_cons_of_ne_nil hne
  have hd := hword d (.head _)
  rw [Function.written, append_assoc, append_cancel_left_eq] at heq
  obtain ⟨m, hm⟩ : ∃ m, f.remark = '/' :: m := by
    unfold Function.remark
    split
    · exact ⟨_, rfl⟩
    · exact ⟨_, rfl⟩
  rw [hm, cons_append, cons_append, cons.injEq] at heq
  rw [← heq.1] at hd
  exact absurd hd (by decide)

/-- From a call on that conversion has written and that is left again, every conversion is one of
it. -/
theorem convertCalls_written (n : Nat) :
    ∀ {front : List Char} {args : List (List Char)}, (∀ a ∈ args, Tidy a) →
      f.leaves args.length → Leads f front.length (f.written front args back) →
      convertCalls n (f.written front args back)
        = (f.written (front ++ (replicate n f.remark).flatten) (dropLastBlank^[n] args) back,
          (range n).flatMap fun j => f.complaint (dropLastBlank^[j + 1] args).length) := by
  induction n with
  | zero =>
    intro front args _ _ _
    rw [replicate_zero, flatten_nil, append_nil]
    rfl
  | succ n ih =>
    -- the call is written again behind one remark more, and there the same holds of it
    intro front args hargs hleaves hleads
    obtain ⟨c, hc, rfl, hs, hnamed⟩ := stands_of_leads hargs hleads
    have hsplit := splitArgs_joinArgs_of_tidy hargs
    have hfewer : c.function.leaves (dropLastBlank args).length :=
      Function.leaves_of_le hleaves (length_dropLastBlank_le args)
    have hnext := leads_converted hc hs hnamed fun _ => rfl
    obtain ⟨hconverted, hnotes⟩ := hs.converted_of_leaves (hsplit ▸ hfewer)
    rw [hsplit] at hnext hconverted hnotes
    have hchanged : c.converted (c.function.written front args back)
        ≠ c.function.written front args back := by
      rw [hconverted]
      exact written_remark_ne hs.letters (name_of_mem hnamed.listed).1 _
    rw [convertCalls_of_some hc, if_neg hchanged, hconverted, hnotes,
      ih (fun a ha => hargs a (mem_of_mem_dropLastBlank ha)) hfewer hnext]
    simp only [replicate_succ, flatten_cons, append_assoc, range_succ_eq_map,
      flatMap_cons, flatMap_map, Function.iterate_succ_apply, Nat.succ_eq_add_one]
    rfl

/-- The call is left, and would be written with the same letters. -/
structure Call.Sticks (c : Call) (s : List Char) : Prop where
  leaves : c.function.leaves (splitArgs (c.inside s)).length
  keeps : c.function.Keeps (c.name s)

theorem Call.Sticks.converted_ne (h : c.Sticks s) (hc : nextCall? s = some c) :
    c.converted s ≠ s := by
  obtain ⟨front, word, gap, inside, back, hs, hnamed⟩ :=
    mem_openCalls_iff.mp (mem_openCalls_of_nextCall? hc)
  have hleaves := h.leaves
  rw [hs.inside_eq] at hleaves
  rw [(hs.converted_of_leaves hleaves).1]
  conv_rhs => rw [hs.text]
  exact written_remark_ne hs.letters (ne_nil_of_afterName? hnamed.listed hnamed.named) _

/-- The arguments of a call that is left, after `n` more conversions of it: with each, a blank one
at the end is gone. -/
def Call.remaining (c : Call) (n : Nat) (s : List Char) : List (List Char) :=
  dropLastBlank^[n] (splitArgs (c.inside s))

/-- The text in which a call was left `n` times. -/
def Call.marked (c : Call) (n : Nat) (s : List Char) : List Char :=
  c.function.written (s.take c.start ++ (replicate n c.function.remark).flatten)
    (c.remaining (n - 1) s) (s.drop (c.closing + 1))

/-- The notes on a call that is left `n` times. -/
def Call.complaints (c : Call) (n : Nat) (s : List Char) : List Note :=
  (range n).flatMap fun j => c.function.complaint (c.remaining j s).length

/-- If the next call is left, every conversion that the limit allows is one of it: each puts another
remark before it and makes the same complaint, about one argument less when the last is blank. -/
theorem convertCalls_of_sticks (hc : nextCall? s = some c) (h : c.Sticks s) (n : Nat) :
    convertCalls (n + 1) s = (c.marked (n + 1) s, c.complaints (n + 1) s) := by
  unfold Call.marked Call.complaints Call.remaining
  obtain ⟨front, word, gap, inside, back, hs, hnamed⟩ :=
    mem_openCalls_iff.mp (mem_openCalls_of_nextCall? hc)
  have hchanged := h.converted_ne hc
  obtain ⟨hleaves, hkeeps⟩ := h
  have hfront : s.take c.start = front := by rw [hs.start_eq, hs.text, take_left]
  rw [hs.inside_eq] at hleaves
  rw [hs.name_eq (ne_nil_of_afterName? hnamed.listed hnamed.named)] at hkeeps
  rw [hs.inside_eq, hs.drop_closing, hfront]
  have hnext := leads_converted hc hs hnamed hkeeps
  obtain ⟨hconverted, hnotes⟩ := hs.converted_of_leaves hleaves
  have htidy : ∀ a ∈ splitArgs inside, Tidy a := fun a ha =>
    tidy_fields hs.level a (mem_of_mem_dropLastBlank ha)
  rw [convertCalls_of_some hc, if_neg hchanged, hconverted, hnotes,
    convertCalls_written n htidy hleaves hnext]
  simp only [replicate_succ, flatten_cons, append_assoc, range_succ_eq_map,
    flatMap_cons, flatMap_map, Nat.succ_eq_add_one]
  rfl

end Replatform.Formula

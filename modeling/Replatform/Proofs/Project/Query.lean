import Replatform.Proofs.Project.Listing
import Replatform.Proofs.Project.Name
import Replatform.Proofs.Words
/-!
# The list of columns of a query

The columns of a query are looked for in its text in capitals, from the word `SELECT` to the first
word that begins with `FROM`. The length of what was found there is measured off in the text itself
(`queryColumns_spaced`). Where this has only words, blanks and commas, its columns are the last
words between the commas, be they aliases or names (`clauseColumns_eq`).
-/

namespace Replatform.Project

open List
open Text (IsRun isBlank isWord spaced splitWhen startsWith strip trimWhile upper words)

variable {s : List Char} {c : Char}

/-! ## Where the list of columns ends -/

abbrev fromWord : List Char := "FROM".toList

def beginsFrom (w : List Char) : Bool := startsWith fromWord (upper w)

theorem distanceToFrom?_run {u : List Char} (hu : IsRun u) (hs : s.head?.any isBlank = false) :
    distanceToFrom? (u ++ ' ' :: s)
      = if startsWith fromWord s then some u.length
        else (distanceToFrom? s).map (· + (u.length + 1)) := by
  have hdrop : (' ' :: s).dropWhile isBlank = s := by
    rw [dropWhile_cons_of_pos (by decide)]
    cases s with
    | nil => rfl
    | cons c s => exact dropWhile_cons_of_neg (by simpa using hs)
  obtain ⟨hne, hrun⟩ := hu
  induction u with
  | nil => exact absurd rfl hne
  | cons c u ih =>
    cases u with
    | nil =>
      have hblank : (' ' :: s).head?.any isBlank := show isBlank ' ' by decide
      rw [singleton_append, distanceToFrom?, hdrop, hblank, Bool.true_and, distanceToFrom?, hs,
        Bool.false_and, if_neg Bool.false_ne_true, Option.map_map]
      rfl
    | cons d u =>
      have hd : isBlank d = false := hrun d (.tail _ (.head _))
      have hrest := ih (cons_ne_nil _ _) (forall_mem_cons.mp hrun).2
      rw [cons_append, distanceToFrom?, hrest]
      simp only [cons_append, head?_cons, Option.any_some, hd, Bool.false_and,
        Bool.false_eq_true, if_false]
      split
      · rfl
      · simp [Function.comp_def, Nat.add_assoc]

/-- Behind the first of some words, those up to one that begins with `FROM` are passed over. -/
theorem distanceToFrom?_spaced (us : List (List Char)) : ∀ u : List Char,
    (∀ w ∈ u :: us, IsRun w) → (∃ v ∈ us, startsWith fromWord v) →
    distanceToFrom? (spaced (u :: us))
      = some (spaced (u :: us.takeWhile (!startsWith fromWord ·))).length := by
  induction us with
  | nil =>
    rintro u - ⟨v, hv, -⟩
    exact absurd hv not_mem_nil
  | cons v vs ih =>
    intro u hruns hfrom
    have hhead := Text.head?_spaced (hruns v (.tail _ (.head _))) vs
    have hstarts : startsWith fromWord (spaced (v :: vs)) = startsWith fromWord v := by
      cases vs with
      | nil => rw [Text.spaced_singleton]
      | cons x xs =>
        rw [Text.spaced_cons_cons]
        exact Formula.startsWith_append (by decide) _ _
    rw [Text.spaced_cons_cons, distanceToFrom?_run (hruns u (.head _)) hhead, hstarts]
    cases hbegins : startsWith fromWord v with
    | true => simp [hbegins]
    | false =>
      have hlater : ∃ w ∈ vs, startsWith fromWord w := by
        obtain ⟨w, hw, hwfrom⟩ := hfrom
        rcases mem_cons.mp hw with rfl | hw
        · exact absurd (hbegins ▸ hwfrom) Bool.false_ne_true
        · exact ⟨w, hw, hwfrom⟩
      rw [ih v (forall_mem_cons.mp hruns).2 hlater,
        takeWhile_cons_of_pos (by simp [hbegins]), Text.spaced_cons_cons]
      simp
      omega

theorem selectSpan?_select (hs : s.head?.any isBlank = false) {n : Nat}
    (h : distanceToFrom? s = some n) : selectSpan? ("SELECT ".toList ++ s) = some (7, n) := by
  have hblanks : (' ' :: s).takeWhile isBlank = [' '] := by
    rw [takeWhile_cons_of_pos (by decide)]
    cases s with
    | nil => rfl
    | cons c s => rw [takeWhile_cons_of_neg (by simpa using hs)]
  have hafter : Text.after? "SELECT".toList ('S' :: ("ELECT ".toList ++ s)) = some (' ' :: s) :=
    after?_append "SELECT".toList (' ' :: s)
  have hspan : columnSpan? (' ' :: s) 1 = some (1, n) := by
    rw [columnSpan?, drop_succ_cons, drop_zero, h]
  show selectSpan? ('S' :: ("ELECT ".toList ++ s)) = _
  rw [selectSpan?, hafter, Option.bind_eq_bind, Option.bind_some, hblanks, length_singleton, hspan]
  rfl

/-- The words of a list that are found: all up to the first, behind the front, that begins with
`FROM`. -/
def held : List (List Char) → List (List Char)
  | [] => []
  | w :: ws => w :: ws.takeWhile (!beginsFrom ·)

/-- The columns in a text that is taken for the list of columns. -/
def clauseColumns (clause : List Char) : List String :=
  if strip clause = ['*'] then []
  else
    ((((splitColumns 0 [] clause).map strip).filter fun c => c != [] && c != ['*']).filterMap
      columnName?).map String.ofList

theorem queryColumns_of_span {query : String} {start length : Nat}
    (h : selectSpan? (upper query.toList) = some (start, length)) :
    queryColumns query = clauseColumns ((query.toList.drop start).take length) := by
  unfold queryColumns
  rw [h]
  rfl

abbrev fromTable : List Char := " FROM t".toList

def tableWords : List (List Char) := [fromWord, ['t']]

theorem spaced_append_fromTable (w : List Char) (ws : List (List Char)) :
    spaced (w :: ws) ++ fromTable = spaced (w :: (ws ++ tableWords)) := by
  have hne : tableWords ≠ [] := cons_ne_nil _ _
  rw [← cons_append, Text.spaced_append (cons_ne_nil _ _) hne]
  exact congrArg _ (by decide)

/-- In capitals, the words up to the first that begins with `FROM` are found at the front, since
there is such a word behind the list. -/
theorem takeWhile_append_tableWords (ws : List (List Char)) :
    ((ws ++ tableWords).map upper).takeWhile (!startsWith fromWord ·)
      = (ws.takeWhile (!beginsFrom ·)).map upper := by
  have hstop : tableWords.takeWhile (!beginsFrom ·) = [] := by decide
  have hends : (ws ++ tableWords).takeWhile (!beginsFrom ·) = ws.takeWhile (!beginsFrom ·) := by
    rw [takeWhile_append, hstop, append_nil]
    split
    next hall =>
      have hfront : ws.takeWhile (!beginsFrom ·) <+: ws := takeWhile_prefix _
      exact (hfront.eq_of_length hall).symm
    next => rfl
  rw [takeWhile_map]
  exact congrArg _ hends

theorem isRun_upper_of_mem {ws : List (List Char)} (hruns : ∀ x ∈ ws, IsRun x) :
    ∀ x ∈ (ws ++ tableWords).map upper, IsRun x := by
  intro x hx
  obtain ⟨y, hy, rfl⟩ := mem_map.mp hx
  rcases mem_append.mp hy with hy | hy
  · exact (hruns y hy).upper
  · rcases mem_pair.mp hy with rfl | rfl
    · decide
    · decide

/-- Of a list of words, as many characters are read as the words that are found have in capitals. -/
theorem queryColumns_spaced {w : List Char} {ws : List (List Char)} (hruns : ∀ x ∈ w :: ws, IsRun x)
    {query : String} (hquery : query.toList = "SELECT ".toList ++ (spaced (w :: ws) ++ fromTable)) :
    queryColumns query
      = clauseColumns ((spaced (w :: ws) ++ fromTable).take
          (upper (spaced (held (w :: ws)))).length) := by
  have hcapitals : ∀ x ∈ upper w :: (ws ++ tableWords).map upper, IsRun x :=
    isRun_upper_of_mem hruns
  have hdistance := distanceToFrom?_spaced _ _ hcapitals
    ⟨fromWord, mem_map.mpr ⟨fromWord, by simp [tableWords], by decide⟩, by decide⟩
  rw [takeWhile_append_tableWords] at hdistance
  have hspan : selectSpan? (upper query.toList)
      = some (7, (upper (spaced (held (w :: ws)))).length) := by
    rw [hquery, spaced_append_fromTable, Text.upper_append,
      Text.upper_spaced (w :: (ws ++ tableWords)), Text.upper_spaced (held (w :: ws))]
    exact selectSpan?_select (Text.head?_spaced (hcapitals _ (.head _)) _) hdistance
  rw [queryColumns_of_span hspan, hquery]
  rfl

/-! ## The columns of a list -/

/-- The last words between the commas of a text. -/
def lastWords (s : List Char) : List (List Char) :=
  (splitWhen (· == ',') s).filterMap fun piece => (words piece).getLast?

theorem lastWords_append_comma {x : List Char} (hx : ',' ∉ x) (y : List Char) :
    lastWords (x ++ ',' :: y) = (words x).getLast?.toList ++ lastWords y := by
  rw [lastWords, Text.splitWhen_append hx, filterMap_cons]
  cases (words x).getLast? <;> rfl

theorem lastWords_of_notMem {x : List Char} (hx : ',' ∉ x) :
    lastWords x = (words x).getLast?.toList := by
  rw [lastWords, Text.splitWhen_of_notMem hx, filterMap_cons]
  cases (words x).getLast? <;> rfl

theorem lastWords_cons_blank (hc : isBlank c) (s : List Char) :
    lastWords (c :: s) = lastWords s := by
  have hcomma : (c == ',') = false := beq_eq_false_iff_ne.mpr fun h => absurd (h ▸ hc) (by decide)
  obtain ⟨piece, pieces, hpieces⟩ := exists_cons_of_ne_nil (Text.splitWhen_ne_nil (· == ',') s)
  rw [lastWords, lastWords, splitWhen, hcomma, hpieces]
  simp only [Bool.false_eq_true, if_false, filterMap_cons, Text.words_cons_blank hc]

/-- There is nothing but words and blanks. -/
def IsPlain (s : List Char) : Prop := ∀ c ∈ s, isWord c ∨ isBlank c

theorem IsPlain.notMem (h : IsPlain s) (hword : isWord c = false) (hblank : isBlank c = false) :
    c ∉ s := by
  intro hc
  rcases h c hc with hc | hc
  · exact Bool.false_ne_true (hword.symm.trans hc)
  · exact Bool.false_ne_true (hblank.symm.trans hc)

/-- Without parentheses, a list is cut at all its commas. -/
theorem filterMap_splitColumns {α : Type} {f : List Char → Option α} (hf : f [] = none)
    (hopen : '(' ∉ s) (hclose : ')' ∉ s) : ∀ piece : List Char, ',' ∉ piece →
    (splitColumns 0 piece s).filterMap f
      = (splitWhen (· == ',') (piece.reverse ++ s)).filterMap f := by
  induction s with
  | nil =>
    intro piece hpiece
    rw [append_nil, Text.splitWhen_of_notMem (by simpa using hpiece), splitColumns]
    cases piece with
    | nil => simp [hf]
    | cons c piece => rfl
  | cons c s ih =>
    intro piece hpiece
    rw [mem_cons, not_or] at hopen hclose
    have hrest := ih hopen.2 hclose.2
    rw [splitColumns]
    by_cases hc : c = ','
    · rw [if_pos (by simp [hc]), hc, Text.splitWhen_append (by simpa using hpiece),
        filterMap_cons, filterMap_cons, hrest [] not_mem_nil]
      rfl
    · rw [if_neg (by simp [hc]), if_neg (Ne.symm hopen.1), if_neg (Ne.symm hclose.1),
        hrest (c :: piece) (by simp [hpiece, Ne.symm hc]), reverse_cons, append_assoc]
      rfl

theorem trimWhile_eq_self {p : Char → Bool} (h : ∀ c ∈ s, p c = false) : trimWhile p s = s := by
  have hdrop : ∀ {t : List Char}, (∀ c ∈ t, p c = false) → t.dropWhile p = t := by
    intro t ht
    cases t with
    | nil => rfl
    | cons c t => exact dropWhile_cons_of_neg (by simp [ht c (.head _)])
  rw [trimWhile, Text.dropEndWhile, hdrop h, hdrop (by simpa using h), reverse_reverse]

/-- A plain text that ends in no blank ends in its last word. -/
theorem exists_last_word (hplain : IsPlain s) (hlast : s.getLast? = some c)
    (hc : isBlank c = false) : ∃ w, w ≠ [] ∧ (∀ d ∈ w, isWord d)
      ∧ (s.reverse.takeWhile isWord).reverse = w ∧ (words s).getLast? = some w := by
  have hcword : isWord c := (hplain c (mem_of_getLast? hlast)).resolve_right (by simp [hc])
  have hsplit : s = (s.reverse.dropWhile isWord).reverse
      ++ (s.reverse.takeWhile isWord).reverse := by
    rw [← reverse_append, takeWhile_append_dropWhile, reverse_reverse]
  have hword : ∀ d ∈ (s.reverse.takeWhile isWord).reverse, isWord d := fun d hd =>
    mem_takeWhile_imp (mem_reverse.mp hd)
  have hne : (s.reverse.takeWhile isWord).reverse ≠ [] := by
    rw [← head?_reverse] at hlast
    obtain ⟨t, ht⟩ := head?_eq_some_iff.mp hlast
    rw [ht, takeWhile_cons_of_pos hcword]
    simp
  have hrun : IsRun (s.reverse.takeWhile isWord).reverse :=
    ⟨hne, fun d hd => Formula.isBlank_of_isWord (hword d hd)⟩
  refine ⟨_, hne, hword, rfl, ?_⟩
  have hfirst := head?_dropWhile_not isWord s.reverse
  have hmem : ∀ d ∈ s.reverse.dropWhile isWord, d ∈ s := fun d hd =>
    mem_reverse.mp ((dropWhile_sublist _).subset hd)
  generalize (s.reverse.takeWhile isWord).reverse = w at hsplit hrun
  -- what stands before the word is empty or ends in a blank
  cases hbefore : s.reverse.dropWhile isWord with
  | nil =>
    rw [hbefore, reverse_nil, nil_append] at hsplit
    rw [hsplit, hrun.words]
    rfl
  | cons b t =>
    rw [hbefore] at hfirst hmem
    have hb : isBlank b := (hplain b (hmem b (.head _))).resolve_left (by simpa using hfirst)
    rw [hbefore, reverse_cons, append_assoc, singleton_append] at hsplit
    rw [hsplit, Text.words_append_blank hb, hrun.words, getLast?_concat]

theorem alias?_eq_some {a : List Char} (h : alias? s = some a) :
    (s.reverse.takeWhile isWord).reverse = a := by
  unfold alias? at h
  dsimp only at h
  split at h
  next =>
    split at h
    next => exact Option.some.inj h
    next => cases h
  next => cases h

/-- A column of plain text is named by its last word, be it an alias or not. -/
theorem columnName?_plain (hplain : IsPlain s) (hlast : s.getLast? = some c)
    (hc : isBlank c = false) : columnName? s = (words s).getLast? := by
  obtain ⟨w, hne, hword, htaken, hwords⟩ := exists_last_word hplain hlast hc
  rw [hwords, columnName?]
  cases halias : alias? s with
  | some a => rw [← htaken, alias?_eq_some halias]
  | none =>
    have htrim : trimWhile (fun c => c ∈ ['\x22', ',', '[', ']']) w = w := by
      refine trimWhile_eq_self fun d hd => decide_eq_false fun hquote => ?_
      have hnone : (['\x22', ',', '[', ']'].all fun e => !isWord e) := by decide
      have hd' := all_eq_true.mp hnone d hquote
      rw [hword d hd] at hd'
      cases hd'
    have hhead : w.head? ≠ some '(' := fun hopen =>
      absurd (hword _ (mem_of_head? hopen)) (by decide)
    dsimp only
    rw [hwords, Option.bind_eq_bind, Option.bind_some, htrim, if_neg (by simp [hne, hhead])]

/-- A piece of a list gives its last word. -/
theorem column_of_piece (hplain : IsPlain s) :
    (if strip s != [] && strip s != ['*'] then columnName? (strip s) else none)
      = (words s).getLast? := by
  rw [← Text.words_strip]
  have hstrip : IsPlain (strip s) := fun c hc => hplain c (mem_of_mem_trimWhile hc)
  have hstar : strip s ≠ ['*'] := fun h =>
    hstrip.notMem (c := '*') (by decide) (by decide) (h ▸ mem_singleton_self _)
  cases hlast : (strip s).getLast? with
  | none =>
    rw [getLast?_eq_none_iff.mp hlast]
    rfl
  | some c =>
    have hne : strip s ≠ [] := fun h => by simp [h] at hlast
    rw [if_pos (by simp [hne, hstar])]
    exact columnName?_plain hstrip hlast (Text.getLast?_strip hlast)

/-- The columns in a list of plain texts are their last words. -/
theorem clauseColumns_eq (h : ∀ c ∈ s, isWord c ∨ isBlank c ∨ c = ',') :
    clauseColumns s = (lastWords s).map String.ofList := by
  have hnone : ∀ c, isWord c = false → isBlank c = false → c ≠ ',' → c ∉ s := by
    intro c hword hblank hcomma hc
    simpa [hword, hblank, hcomma] using h c hc
  have hstar : strip s ≠ ['*'] := fun hs =>
    hnone '*' (by decide) (by decide) (by decide)
      (mem_of_mem_trimWhile (hs ▸ mem_singleton_self _))
  rw [clauseColumns, if_neg hstar, filterMap_filter, filterMap_map,
    filterMap_splitColumns rfl (hnone '(' (by decide) (by decide) (by decide))
      (hnone ')' (by decide) (by decide) (by decide)) [] not_mem_nil]
  refine congrArg _ (filterMap_congr fun piece hpiece => column_of_piece fun c hc => ?_)
  obtain ⟨hmem, hcomma⟩ := Text.mem_of_mem_splitWhen hpiece hc
  rcases h c hmem with hword | hblank | rfl
  · exact .inl hword
  · exact .inr hblank
  · cases hcomma

end Replatform.Project

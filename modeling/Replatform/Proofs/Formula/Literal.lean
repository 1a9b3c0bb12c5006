import Replatform.Proofs.Formula.Layout
/-!
# Literals

A quote begins a literal, which goes to the next quote of the same kind. A text is `Closed` if every
quote in it begins or ends one. Closed texts are put together and cut where no literal is open, and
then their literals are those of the parts (`literals_append`). The scans of a formula cut in no
other places: what stands between the parentheses of a call is closed (`split_of_closing?`), and so
are its arguments (`closed_splitArgs`). If there is no call inside a literal, every call begins
outside (`Guarded.closed_of_mem_sites`).
-/

namespace Replatform.Formula

open List
open Text (isWord isBlank)

variable {c q : Char} {body x s y : List Char}

/-! ## Closed texts -/

def quoted (q : Char) (body : List Char) : List Char := q :: (body ++ [q])

/-- Every quote of the text begins or ends a literal. -/
inductive Closed : List Char → Prop
  | nil : Closed []
  | plain {c : Char} {s : List Char} : isQuote c = false → Closed s → Closed (c :: s)
  | literal {q : Char} {body s : List Char} : isQuote q → q ∉ body → Closed s →
      Closed (q :: (body ++ q :: s))

/-- The literals of a text that is read inside a literal, of which the quote and some characters are
known, or outside. -/
def literalsFrom (known : Option (Char × List Char)) : List Char → List (List Char)
  | [] => []
  | c :: s =>
    match known with
    | none => if isQuote c then literalsFrom (some (c, [])) s else literalsFrom none s
    | some (q, body) =>
      if c = q then quoted q body :: literalsFrom none s
      else literalsFrom (some (q, body ++ [c])) s

/-- The literals of a text, with their quotes. -/
def literals (s : List Char) : List (List Char) := literalsFrom none s

theorem literals_plain (hc : isQuote c = false) (s : List Char) :
    literals (c :: s) = literals s := by
  rw [literals, literalsFrom]
  simp only [hc, Bool.false_eq_true, if_false]
  rfl

theorem literalsFrom_body (hbody : q ∉ body) (s : List Char) :
    ∀ front, literalsFrom (some (q, front)) (body ++ q :: s)
      = quoted q (front ++ body) :: literals s := by
  induction body with
  | nil =>
    intro front
    rw [nil_append, literalsFrom, append_nil]
    exact if_pos rfl
  | cons c body ih =>
    intro front
    have hc : c ≠ q := fun h => hbody (h ▸ mem_cons_self ..)
    rw [cons_append, literalsFrom, if_neg hc, ih fun h => hbody (.tail _ h), append_assoc]
    rfl

theorem literals_literal (hq : isQuote q) (hbody : q ∉ body) (s : List Char) :
    literals (q :: (body ++ q :: s)) = quoted q body :: literals s := by
  rw [literals, literalsFrom, if_pos hq]
  exact literalsFrom_body hbody s []

/-- The literals of two parts, when no literal goes from the first to the second. -/
theorem literals_append (hx : Closed x) (y : List Char) :
    literals (x ++ y) = literals x ++ literals y := by
  induction hx with
  | nil => rfl
  | plain hc _ ih => rw [cons_append, literals_plain hc, literals_plain hc, ih]
  | literal hq hbody _ ih =>
    rw [cons_append, append_assoc, cons_append, literals_literal hq hbody,
      literals_literal hq hbody, ih, cons_append]

/-! ## Scans -/

theorem foldl_nextQuote_body (hbody : q ∉ body) : body.foldl nextQuote (some q) = some q := by
  induction body with
  | nil => rfl
  | cons c body ih =>
    have hc : c ≠ q := fun h => hbody (h ▸ mem_cons_self ..)
    rw [foldl_cons, show nextQuote (some q) c = some q from if_neg hc]
    exact ih fun h => hbody (.tail _ h)

theorem exists_body_of_foldl (h : s.foldl nextQuote (some q) = none) :
    ∃ body rest, s = body ++ q :: rest ∧ q ∉ body ∧ rest.foldl nextQuote none = none := by
  induction s with
  | nil => exact nomatch h
  | cons c s ih =>
    rw [foldl_cons, nextQuote] at h
    split at h
    next hc => exact ⟨[], s, by rw [hc, nil_append], not_mem_nil, h⟩
    next hc =>
      obtain ⟨body, rest, rfl, hbody, hrest⟩ := ih h
      refine ⟨c :: body, rest, rfl, ?_, hrest⟩
      rintro (_ | ⟨_, hmem⟩)
      · exact hc rfl
      · exact hbody hmem

/-- A text is closed if the scan for quotes ends outside literals. -/
theorem closed_iff : Closed s ↔ s.foldl nextQuote none = none := by
  constructor
  · intro h
    induction h with
    | nil => rfl
    | plain hc _ ih =>
      rw [foldl_cons, nextQuote]
      simpa only [hc, Bool.false_eq_true, if_false] using ih
    | @literal q body s hq hbody _ ih =>
      have hopen : nextQuote none q = some q := if_pos hq
      have hclose : nextQuote (some q) q = none := if_pos rfl
      rw [foldl_cons, hopen, foldl_append, foldl_nextQuote_body hbody, foldl_cons, hclose]
      exact ih
  · intro h
    induction hlength : s.length using Nat.strong_induction_on generalizing s with
    | h n ih =>
      subst hlength
      cases s with
      | nil => exact .nil
      | cons c s =>
        rw [foldl_cons, nextQuote] at h
        split at h
        next hc =>
          -- the literal is taken as a whole, so the induction is on the length
          obtain ⟨body, rest, rfl, hbody, hrest⟩ := exists_body_of_foldl h
          refine .literal hc hbody (ih rest.length ?_ hrest rfl)
          simp only [length_cons, length_append]
          omega
        next hc => exact .plain (by simpa using hc) (ih s.length (Nat.lt_succ_self _) h rfl)

theorem Closed.append (hx : Closed x) (hy : Closed y) : Closed (x ++ y) := by
  rw [closed_iff] at hx hy ⊢
  rw [foldl_append, hx, hy]

theorem Closed.of_append (hx : Closed x) (h : Closed (x ++ y)) : Closed y := by
  rw [closed_iff] at hx h ⊢
  rwa [foldl_append, hx] at h

/-- No literal ends in a text without quotes. -/
theorem Closed.of_append_plain (hy : ∀ c ∈ y, isQuote c = false) (h : Closed (x ++ y)) :
    Closed x := by
  have hquote : ∀ {q : Char}, isQuote q → q ∉ y := fun hq hmem => by simp [hy _ hmem] at hq
  generalize hz : x ++ y = z at h
  induction h generalizing x with
  | nil =>
    obtain ⟨rfl, -⟩ := append_eq_nil_iff.mp hz
    exact .nil
  | plain hc _ ih =>
    cases x with
    | nil => exact .nil
    | cons d x =>
      obtain ⟨rfl, htail⟩ := cons.inj hz
      exact .plain hc (ih htail)
  | literal hq hbody _ ih =>
    cases x with
    | nil => exact .nil
    | cons d x =>
      obtain ⟨rfl, htail⟩ := cons.inj hz
      -- the text ends behind the literal, for its quote is not in `y`
      rcases append_eq_append_iff.mp htail with ⟨as, rfl, rfl⟩ | ⟨as, rfl, has⟩
      · exact absurd (mem_append_right _ (.head _)) (hquote hq)
      · cases as with
        | nil =>
          rw [nil_append] at has
          exact absurd (has ▸ mem_cons_self ..) (hquote hq)
        | cons e as =>
          obtain ⟨rfl, hs⟩ := cons.inj has
          exact .literal hq hbody (ih hs.symm)

/-- A text without quotes is closed and has no literals. -/
theorem closed_of_plain (h : ∀ c ∈ x, isQuote c = false) : Closed x ∧ literals x = [] := by
  induction x with
  | nil => exact ⟨.nil, rfl⟩
  | cons c x ih =>
    obtain ⟨hx, hnone⟩ := ih (forall_mem_cons.mp h).2
    have hc := h c (.head _)
    exact ⟨.plain hc hx, (literals_plain hc x).trans hnone⟩

theorem plain_of_all (h : x.all (!isQuote ·)) :
    ∀ c ∈ x, isQuote c = false := fun c hc => by simpa using all_eq_true.mp h c hc

theorem closed_quoted (hq : isQuote q) (hbody : q ∉ body) :
    Closed (quoted q body) ∧ literals (quoted q body) = [quoted q body] :=
  ⟨.literal hq hbody .nil, literals_literal hq hbody []⟩

theorem isQuote_iff : isQuote c ↔ c = '\x22' ∨ c = '\x27' := by
  rw [isQuote, Bool.or_eq_true, beq_iff_eq, beq_iff_eq]

theorem isQuote_eq_false {p : Char → Bool} (hp : p '\x22' = false ∧ p '\x27' = false)
    (h : p c) : isQuote c = false := by
  by_contra hq
  rcases isQuote_iff.mp (Bool.not_eq_false _ ▸ hq) with rfl | rfl
  · exact absurd h (by simp [hp.1])
  · exact absurd h (by simp [hp.2])

theorem isQuote_of_isBlank (h : isBlank c) : isQuote c = false := isQuote_eq_false (by decide) h

theorem isQuote_of_isWord (h : isWord c) : isQuote c = false := isQuote_eq_false (by decide) h

/-! ## Parentheses and commas -/

theorem scanStep_eq_none {p : Nat × Option Char} (h : scanStep p c = none) :
    c = ')' ∧ p = (0, none) := by
  obtain ⟨depth, quote⟩ := p
  unfold scanStep at h
  split at h
  · exact nomatch h
  next hquote =>
    rw [Bool.or_eq_true, not_or] at hquote
    have hnone : quote = none := by simpa using hquote.1
    split at h
    · exact nomatch h
    split at h
    next hc =>
      cases depth with
      | zero => exact ⟨hc, by rw [hnone]⟩
      | succ depth => exact nomatch h
    next => exact nomatch h

/-- A text that is scanned through leaves the quote that its own quotes leave. -/
theorem foldl_nextQuote_of_through (x : List Char) : ∀ {p q : Nat × Option Char},
    through p x = some q → x.foldl nextQuote p.2 = q.2 := by
  induction x with
  | nil =>
    intro p q h
    rw [through_nil, Option.some.injEq] at h
    rw [h, foldl_nil]
  | cons c x ih =>
    intro p q h
    rw [through_cons] at h
    obtain ⟨r, hr, hx⟩ := Option.bind_eq_some_iff.mp h
    rw [foldl_cons, (scanStep_eq_some_iff.mp hr).2, ih hx]

/-- The closing parenthesis stands outside literals, and what stands before it closes all that it
opens. -/
theorem split_of_closing? (s : List Char) : ∀ {p : Nat × Option Char} {i : Nat},
    closing? p.1 p.2 s = some i →
    ∃ inside back, s = inside ++ ')' :: back ∧ inside.length = i
      ∧ through p inside = some (0, none) := by
  induction s with
  | nil => exact fun h => nomatch h
  | cons c s ih =>
    intro p i h
    rw [closing?_cons] at h
    cases hstep : scanStep p c with
    | none =>
      obtain ⟨rfl, hend⟩ := scanStep_eq_none hstep
      rw [hstep] at h
      exact ⟨[], s, rfl, Option.some.inj h, by rw [through_nil, hend]⟩
    | some q =>
      rw [hstep] at h
      obtain ⟨j, hj, rfl⟩ := Option.map_eq_some_iff.mp h
      obtain ⟨inside, back, rfl, hlength, hscan⟩ := ih hj
      refine ⟨c :: inside, back, rfl, by rw [length_cons, hlength], ?_⟩
      rw [through_cons, hstep]
      exact hscan

/-- Commas between the pieces give the text back. -/
theorem join_pieces (s : List Char) : ∀ (depth : Int) (quote : Option Char),
    Text.join [','] (pieces depth quote s) = s := by
  induction s with
  | nil => exact fun _ _ => rfl
  | cons c s ih =>
    intro depth quote
    rw [pieces]
    split
    next hcut =>
      simp only [Bool.and_eq_true, beq_iff_eq] at hcut
      have hrest := ih depth none
      cases hp : pieces depth none s with
      | nil => exact absurd hp (pieces_ne_nil s depth none)
      | cons p ps =>
        rw [hp] at hrest
        rw [Text.join, hrest, hcut.1.2]
        rfl
    next =>
      dsimp only
      have hrest := ih (nextDepth depth quote c) (nextQuote quote c)
      unfold nextDepth at hrest
      split
      next p ps hp =>
        rw [hp] at hrest
        cases ps with
        | nil => exact congrArg (c :: ·) hrest
        | cons q ps => exact congrArg (c :: ·) hrest
      next hp => exact absurd hp (pieces_ne_nil _ _ _)

/-- Commas that cut stand outside literals. -/
theorem closed_pieces (s : List Char) : ∀ (depth : Int) (quote : Option Char),
    s.foldl nextQuote quote = none →
    ∃ p ps, pieces depth quote s = p :: ps ∧ p.foldl nextQuote quote = none
      ∧ ∀ x ∈ ps, Closed x := by
  induction s with
  | nil => exact fun _ _ h => ⟨[], [], rfl, h, fun _ hx => nomatch hx⟩
  | cons c s ih =>
    intro depth quote h
    rw [foldl_cons] at h
    rw [pieces]
    split
    next hcut =>
      simp only [Bool.and_eq_true, beq_iff_eq, Option.isNone_iff_eq_none] at hcut
      obtain ⟨⟨rfl, rfl⟩, -⟩ := hcut
      obtain ⟨p, ps, hp, hclosed, hps⟩ := ih depth none h
      refine ⟨[], pieces depth none s, rfl, rfl, ?_⟩
      rw [hp]
      rintro x (_ | ⟨_, hx⟩)
      · exact closed_iff.mpr hclosed
      · exact hps x hx
    next =>
      dsimp only
      obtain ⟨p, ps, hp, hclosed, hps⟩ := ih (nextDepth depth quote c) (nextQuote quote c) h
      unfold nextDepth at hp
      rw [hp]
      exact ⟨c :: p, ps, rfl, hclosed, hps⟩

theorem literals_join : ∀ {xs : List (List Char)}, (∀ x ∈ xs, Closed x) →
    literals (Text.join [','] xs) = xs.flatMap literals
  | [], _ => rfl
  | [x], _ => (append_nil _).symm
  | x :: y :: ys, h => by
    have hx : Closed (x ++ [',']) :=
      (h x (.head _)).append (closed_of_plain (plain_of_all (by decide))).1
    rw [Text.join, literals_append hx, literals_append (h x (.head _)),
      literals_join (forall_mem_cons.mp h).2,
      (closed_of_plain (x := [',']) (plain_of_all (by decide))).2, append_nil]
    rfl

/-- Blanks at the ends are stripped, and nothing else. -/
theorem exists_strip (s : List Char) : ∃ front back, s = front ++ Text.strip s ++ back
    ∧ (∀ c ∈ front, isBlank c) ∧ ∀ c ∈ back, isBlank c := by
  refine ⟨s.takeWhile isBlank, ((s.dropWhile isBlank).reverse.takeWhile isBlank).reverse, ?_,
    fun c hc => mem_takeWhile_imp hc,
    fun c hc => mem_takeWhile_imp (mem_reverse.mp hc)⟩
  rw [append_assoc, Text.strip, Text.trimWhile, Text.dropEndWhile, ← reverse_append,
    takeWhile_append_dropWhile, reverse_reverse, takeWhile_append_dropWhile]

/-- Blanks around a text make no difference. -/
theorem Closed.of_blanks {front back : List Char} (hfront : ∀ c ∈ front, isBlank c)
    (hback : ∀ c ∈ back, isBlank c) (h : Closed (front ++ (s ++ back))) :
    Closed s ∧ literals s = literals (front ++ (s ++ back)) := by
  obtain ⟨hclosed, hnone⟩ := closed_of_plain fun c hc => isQuote_of_isBlank (hfront c hc)
  have hbackNone := (closed_of_plain fun c hc => isQuote_of_isBlank (hback c hc)).2
  have hs : Closed s :=
    (hclosed.of_append h).of_append_plain fun c hc => isQuote_of_isBlank (hback c hc)
  refine ⟨hs, ?_⟩
  rw [literals_append hclosed, literals_append hs, hnone, hbackNone, append_nil, nil_append]

theorem closed_strip (h : Closed s) :
    Closed (Text.strip s) ∧ literals (Text.strip s) = literals s := by
  obtain ⟨front, back, hsplit, hfront, hback⟩ := exists_strip s
  generalize Text.strip s = t at hsplit
  rw [hsplit, append_assoc] at h ⊢
  exact h.of_blanks hfront hback

theorem dropLastBlank_append : ∀ xs : List (List Char),
    ∃ blank, xs = dropLastBlank xs ++ blank ∧ ∀ x ∈ blank, x = []
  | [] => ⟨[], rfl, fun _ hx => nomatch hx⟩
  | [x] => by
    rw [dropLastBlank]
    split
    next hx => exact ⟨[x], rfl, fun y hy => mem_singleton.mp hy ▸ hx⟩
    next => exact ⟨[], rfl, fun _ hx => nomatch hx⟩
  | x :: y :: ys => by
    obtain ⟨blank, hsplit, hblank⟩ := dropLastBlank_append (y :: ys)
    exact ⟨blank, congrArg (x :: ·) hsplit, hblank⟩

/-- The arguments of a call are closed, and have all literals between its parentheses. -/
theorem closed_splitArgs (h : Closed s) :
    (∀ a ∈ splitArgs s, Closed a) ∧ (splitArgs s).flatMap literals = literals s := by
  obtain ⟨p, ps, hp, hclosed, hps⟩ := closed_pieces s 0 none (closed_iff.mp h)
  have hpieces : ∀ x ∈ pieces 0 none s, Closed x := by
    rw [hp]
    rintro x (_ | ⟨_, hx⟩)
    · exact closed_iff.mpr hclosed
    · exact hps x hx
  obtain ⟨blank, hsplit, hblank⟩ := dropLastBlank_append ((pieces 0 none s).map Text.strip)
  have hnone : blank.flatMap literals = [] := flatMap_eq_nil_iff.mpr fun x hx => hblank x hx ▸ rfl
  constructor
  · intro a ha
    have hmem : a ∈ (pieces 0 none s).map Text.strip := hsplit ▸ mem_append_left _ ha
    obtain ⟨x, hx, rfl⟩ := mem_map.mp hmem
    exact (closed_strip (hpieces x hx)).1
  · calc (splitArgs s).flatMap literals
        = ((pieces 0 none s).map Text.strip).flatMap literals := by
          rw [hsplit, flatMap_append, hnone, append_nil]
          rfl
      _ = (pieces 0 none s).flatMap literals := by
          rw [flatMap_map]
          exact flatMap_congr fun x hx => (closed_strip (hpieces x hx)).2
      _ = literals s := by rw [← literals_join hpieces, join_pieces]

/-! ## Calls -/

theorem stops_quote (hq : isQuote q) (s : List Char) : Stops (q :: s) := by
  have hplain : isWord q = false ∧ isBlank q = false ∧ q ≠ '(' := by
    rcases isQuote_iff.mp hq with rfl | rfl <;> decide
  refine ⟨fun c hc => Option.some.inj hc ▸ hplain.1, ?_⟩
  rw [dropWhile_cons_of_neg (by simp [hplain.2.1]), head?_cons]
  exact fun h => hplain.2.2 (Option.some.inj h)

/-- Where a site begins and opens. There are only a word and blanks between. -/
theorem split_of_site? {pos : Nat} {site : Site} (h : site? pos s = some site) :
    site.start = pos ∧ ∃ head rest, s = head ++ '(' :: rest ∧ site.opening = pos + head.length
      ∧ ∀ c ∈ head, isWord c ∨ isBlank c := by
  unfold site? at h
  dsimp only at h
  split at h
  next hopen =>
    cases h
    refine ⟨rfl, s.takeWhile isWord ++ (s.dropWhile isWord).takeWhile isBlank,
      ((s.dropWhile isWord).dropWhile isBlank).tail, ?_, ?_, fun c hc => ?_⟩
    · have hrest := cons_head?_tail hopen
      rw [hrest, append_assoc, takeWhile_append_dropWhile, takeWhile_append_dropWhile]
    · rw [length_append, Nat.add_assoc]
    · rcases mem_append.mp hc with hc | hc
      · exact .inl (mem_takeWhile_imp hc)
      · exact .inr (mem_takeWhile_imp hc)
  next => exact nomatch h

/-- Words and blanks are passed over. -/
theorem through_of_words (h : ∀ c ∈ x, isWord c ∨ isBlank c) (depth : Nat) :
    through (depth, none) x = some (depth, none) := by
  induction x with
  | nil => rfl
  | cons c x ih =>
    have hc := h c (.head _)
    have hquote : isQuote c = false := hc.elim isQuote_of_isWord isQuote_of_isBlank
    have hparens : c ≠ '(' ∧ c ≠ ')' := by
      refine ⟨?_, ?_⟩ <;> rintro rfl <;> exact absurd hc (by decide)
    have hstep : scanStep (depth, none) c = some (depth, none) := by
      simp [scanStep, hquote, hparens.1, hparens.2]
    rw [through_cons, hstep]
    exact ih (forall_mem_cons.mp h).2

/-- Whether no call in the text has to be converted. -/
def callFree (s : List Char) : Bool := (sites none 0 s).all (!isLive ·.word)

/-- Where a text stands makes no difference to its words. -/
theorem map_word_sites (s : List Char) : ∀ (before : Option Char) (pos pos' : Nat),
    (sites before pos s).map (·.word) = (sites before pos' s).map (·.word) := by
  have hsite : ∀ (s : List Char) (pos pos' : Nat),
      (site? pos s).toList.map (·.word) = (site? pos' s).toList.map (·.word) := by
    intro s pos pos'
    unfold site?
    dsimp only
    split <;> rfl
  induction s with
  | nil => exact fun _ _ _ => rfl
  | cons c s ih =>
    intro before pos pos'
    rw [sites, sites]
    split
    · rw [map_append, map_append, hsite _ pos pos', ih _ (pos + 1) (pos' + 1)]
    · exact ih _ _ _

/-- The text is closed, and there is no call to convert in its literals. -/
structure Guarded (s : List Char) : Prop where
  closed : Closed s
  free : ∀ ℓ ∈ literals s, callFree ℓ

/-- A word in a literal is that of no call to convert. -/
theorem isLive_of_mem_sites (hq : isQuote q) (hfree : callFree (quoted q body))
    {before : Option Char} {pos : Nat} {site : Site} (h : site ∈ sites before pos (q :: body)) :
    isLive site.word = false := by
  have hstops := stops_quote hq
  rw [sites_of_head (hstops body).word] at h
  have hword : site.word ∈ (sites none 0 (q :: body)).map (·.word) := by
    rw [map_word_sites (q :: body) none 0 pos]
    exact mem_map_of_mem h
  obtain ⟨other, hother, hsame⟩ := mem_map.mp hword
  have hmem : other ∈ sites none 0 (quoted q body) := by
    rw [quoted, ← cons_append, sites_append (hstops [])]
    exact mem_append_left _ hother
  have hdead := all_eq_true.mp hfree other hmem
  rw [← hsame]
  simpa using hdead

/-- Every call to convert begins outside literals. -/
theorem Guarded.closed_of_mem_sites (h : Guarded s) :
    ∀ (before : Option Char) (pos : Nat), ∀ site ∈ sites before pos s, isLive site.word →
      ∃ front rest, s = front ++ rest ∧ pos + front.length = site.start ∧ Closed front := by
  obtain ⟨hs, hfree⟩ := h
  induction hs with
  | nil => exact fun _ _ _ hsite => nomatch hsite
  | @plain c s hc _ ih =>
    rw [literals_plain hc] at hfree
    intro before pos site hsite hlive
    rw [sites] at hsite
    have hlater : site ∈ sites (some c) (pos + 1) s → ∃ front rest, c :: s = front ++ rest
        ∧ pos + front.length = site.start ∧ Closed front := by
      intro hsite
      obtain ⟨front, rest, rfl, hlength, hfront⟩ := ih hfree _ _ site hsite hlive
      refine ⟨c :: front, rest, rfl, ?_, .plain hc hfront⟩
      rw [length_cons]
      omega
    split at hsite
    · rcases mem_append.mp hsite with hhere | hsite
      · refine ⟨[], c :: s, rfl, ?_, .nil⟩
        exact (split_of_site? (Option.mem_toList.mp hhere)).1.symm
      · exact hlater hsite
    · exact hlater hsite
  | @literal q body s hq hbody _ ih =>
    rw [literals_literal hq hbody] at hfree
    intro before pos site hsite hlive
    rw [← cons_append, sites_append (stops_quote hq s)] at hsite
    -- a word can neither reach into the literal nor out of it, since a quote stands between
    rcases mem_append.mp hsite with hsite | hsite
    · have hdead := isLive_of_mem_sites hq (hfree _ (.head _)) hsite
      exact absurd hlive (by simp [hdead])
    · have hword : isWord q = false := (stops_quote hq s).word q rfl
      rw [sites, hword, Bool.false_and, if_neg (by simp)] at hsite
      obtain ⟨front, rest, rfl, hlength, hfront⟩ :=
        ih (forall_mem_cons.mp hfree).2 _ _ site hsite hlive
      refine ⟨q :: (body ++ q :: front), rest, by simp, ?_, .literal hq hbody hfront⟩
      simp only [length_cons, length_append] at hlength ⊢
      omega

/-- The text of a call that is converted: no literal is open where the call begins, nor between its
parentheses, nor behind it. Its parentheses belong together. -/
structure Call.Splits (c : Call) (s front head back : List Char) : Prop where
  text : s = front ++ (head ++ (c.inside s ++ ')' :: back))
  replace : ∀ sql, c.replace sql s = front ++ (sql ++ back)
  front : Closed front
  opens : ∀ depth, through (depth, none) head = some (depth + 1, none)
  head : ∀ d ∈ head, isQuote d = false
  level : through (0, none) (c.inside s) = some (0, none)
  inside : Closed (c.inside s)
  back : Closed back

theorem Guarded.splits (h : Guarded s) {c : Call} (hc : nextCall? s = some c) :
    c.function ∈ functions ∧ ∃ front head back, c.Splits s front head back := by
  obtain ⟨hf, site, hsite, -, hstart, hopening, hclosing⟩ :=
    site_of_mem_openCalls (mem_openCalls_of_nextCall? hc)
  obtain ⟨hmem, hlive⟩ := mem_filter.mp hsite
  obtain ⟨front, rest, rfl, hlength, hfront⟩ := h.closed_of_mem_sites none 0 site hmem hlive
  obtain ⟨front', d, rest', hsplit, -, hsite'⟩ := mem_sites _ none 0 hmem
  obtain ⟨hstart', head, rest'', hrest, hopening', hhead⟩ := split_of_site? hsite'
  -- both ways to find the beginning of the call find the same
  obtain ⟨rfl, rfl⟩ := append_inj hsplit (by omega)
  refine ⟨hf, front, head ++ ['('], ?_⟩
  have hopen : site.opening + 1 = (front ++ (head ++ ['('])).length := by
    simp only [length_append, length_singleton]
    omega
  have htext : front ++ d :: rest' = front ++ (head ++ ['(']) ++ rest'' := by
    rw [hrest]
    simp
  rw [matching?, htext, hopen, drop_left] at hclosing
  obtain ⟨i, hi, hiclosing⟩ := Option.map_eq_some_iff.mp hclosing
  obtain ⟨inside, back, rfl, rfl, hinside⟩ := split_of_closing? rest'' (p := (0, none)) hi
  have hfound : c.inside (front ++ d :: rest') = inside := by
    rw [Call.inside, htext, hopening, hopen, drop_left, ← hiclosing, Nat.add_sub_cancel, take_left]
  have hplain : ∀ e ∈ head ++ ['('], isQuote e = false := by
    intro e he
    rcases mem_append.mp he with he | he
    · exact (hhead e he).elim isQuote_of_isWord isQuote_of_isBlank
    · exact mem_singleton.mp he ▸ by decide
  have hquotes : Closed inside := closed_iff.mpr (foldl_nextQuote_of_through inside hinside)
  have hclosed := h.closed
  rw [htext] at hclosed
  refine ⟨back, ⟨?_, fun sql => ?_, hfront, fun depth => ?_, hplain, hfound ▸ hinside,
    hfound ▸ hquotes, ?_⟩⟩
  · rw [hfound, htext, append_assoc]
  · have hbehind : c.closing + 1 = (front ++ (head ++ ['(']) ++ (inside ++ [')'])).length := by
      rw [← hiclosing]
      simp only [length_append, length_singleton]
      omega
    have htext' : front ++ d :: rest' = front ++ (head ++ ['(']) ++ (inside ++ [')']) ++ back := by
      rw [htext]
      simp
    rw [Call.replace, hstart, hstart', Nat.zero_add, take_left, htext', hbehind,
      drop_left, append_assoc]
  · rw [through_append, through_of_words hhead]
    rfl
  · have hbefore := hfront.append (closed_of_plain hplain).1
    have hrest' := hquotes.of_append (hbefore.of_append hclosed)
    cases hrest' with
    | plain _ hback => exact hback
    | literal hquote _ _ => exact absurd hquote (by decide)

end Replatform.Formula

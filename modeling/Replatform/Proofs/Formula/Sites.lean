import Mathlib.Data.List.Basic
import Mathlib.Data.List.TakeWhile
import Replatform.Formula.Convert
/-!
# Sites of calls, piece by piece

A site is a word with a parenthesis behind it, and a formula is put together from pieces: where do
the sites of the pieces become sites of the whole, and where does a seam make a new one? Two seams
are safe.

* Behind a piece stands a text that `Stops` words and calls. Then no site begins in the piece and
  ends behind it, and the sites of both parts are those of the whole (`sites_append`).
* No word runs across the seam. Then a site that begins in the piece is at least one of its words
  (`sites_text`), which is enough where the words of the piece are known.

A word is *live* if a call of it has to be converted: it names a function of the table, and does
not count as SQL already. The pieces that conversion writes have no live words, so that the live
sites of a formula (`liveSites`) are those of the calls that are still to be converted.
-/

namespace Replatform.Formula

open List
open Text (isWord isBlank atWordStart)

variable {z x y s : List Char} {c : Call}

/-! ## Seams -/

/-- What can stand behind a piece of text without making its last word longer or a call. -/
structure Stops (z : List Char) : Prop where
  word : ∀ c, z.head? = some c → isWord c = false
  call : (z.dropWhile isBlank).head? ≠ some '('

/-- No word runs from one text into the next. -/
def Seam (x y : List Char) : Prop :=
  (∀ c, y.head? = some c → isWord c = false) ∨ ∃ c, x.getLast? = some c ∧ isWord c = false

theorem Stops.seam (h : Stops z) (x : List Char) : Seam x z := Or.inl h.word

/-- Nothing stops words and calls. -/
theorem stops_nil : Stops [] := ⟨fun _ h => by simp at h, by simp⟩

/-- A text stops words and calls whatever comes behind it, if it has a character that is no
blank. -/
theorem Stops.append (h : Stops x) (hx : x.any (!isBlank ·)) (y : List Char) :
    Stops (x ++ y) := by
  have hne : x.dropWhile isBlank ≠ [] := by
    intro h0
    obtain ⟨c, hc, hb⟩ := any_eq_true.mp hx
    have := dropWhile_eq_nil_iff.mp h0 c hc
    simp [this] at hb
  constructor
  · intro c hc
    cases x with
    | nil => simp at hx
    | cons d x => exact h.word c hc
  · rw [List.dropWhile_append, if_neg (by rw [List.isEmpty_iff]; exact hne),
      List.head?_append_of_ne_nil _ hne]
    exact h.call

/-- The word at the beginning of a text ends at a seam. -/
theorem takeWhile_append_of_seam (h : Seam x y) :
    (x ++ y).takeWhile isWord = x.takeWhile isWord := by
  rw [takeWhile_append]
  split
  next hlen =>
    have hfront : x.takeWhile isWord <+: x := takeWhile_prefix isWord
    have hall := hfront.eq_of_length hlen
    rcases h with hy | ⟨c, hc, hw⟩
    · have hy0 : y.takeWhile isWord = [] := by
        cases y with
        | nil => rfl
        | cons d y => rw [takeWhile_cons_of_neg (by simp [hy d rfl])]
      rw [hy0, append_nil, hall]
    · have hmem : c ∈ x := mem_of_getLast? hc
      rw [← hall] at hmem
      have := mem_takeWhile_imp hmem
      simp [this] at hw
  next => rfl

/-! ## Sites of the parts -/

/-- A site that a text begins with is not made or changed by what stops words and calls. -/
theorem site?_append (hz : Stops z) (pos : Nat) (x : List Char) :
    site? pos (x ++ z) = site? pos x := by
  have hdropz : z.dropWhile isWord = z := by
    cases z with
    | nil => rfl
    | cons d z => rw [dropWhile_cons_of_neg (by simp [hz.word d rfl])]
  have hdrop : (x ++ z).dropWhile isWord = x.dropWhile isWord ++ z := by
    rw [dropWhile_append, hdropz]
    split
    next h => rw [isEmpty_iff.mp h, nil_append]
    next => rfl
  unfold site?
  dsimp only
  rw [takeWhile_append_of_seam (hz.seam x), hdrop]
  generalize x.dropWhile isWord = y
  by_cases hy : y.dropWhile isBlank = []
  · -- only blanks are left of the piece, and behind them there is no parenthesis
    have hall : ∀ c ∈ y, isBlank c := dropWhile_eq_nil_iff.mp hy
    rw [hy, dropWhile_append_of_pos hall, if_neg hz.call, if_neg (by simp)]
  · have htake : (y ++ z).takeWhile isBlank = y.takeWhile isBlank := by
      rw [takeWhile_append, if_neg]
      intro hlen
      have hfront : y.takeWhile isBlank <+: y := takeWhile_prefix isBlank
      have hall := hfront.eq_of_length hlen
      apply hy
      apply dropWhile_eq_nil_iff.mpr
      intro c hc
      rw [← hall] at hc
      exact mem_takeWhile_imp hc
    have hrest : (y ++ z).dropWhile isBlank = y.dropWhile isBlank ++ z := by
      rw [List.dropWhile_append, if_neg (by rw [List.isEmpty_iff]; exact hy)]
    rw [hrest, List.head?_append_of_ne_nil _ hy, htake]

/-- Where a word can begin, the character before does not matter. -/
theorem sites_of_atWordStart {before : Option Char} (h : atWordStart before) (pos : Nat)
    (s : List Char) : sites before pos s = sites none pos s := by
  cases s with
  | nil => rfl
  | cons c s =>
    rw [sites, sites, h]
    rfl

/-- Where no word begins, the character before does not matter. -/
theorem sites_of_head (hz : ∀ c, z.head? = some c → isWord c = false) (before : Option Char)
    (pos : Nat) : sites before pos z = sites none pos z := by
  cases z with
  | nil => rfl
  | cons c z =>
    rw [sites, sites, hz c rfl]
    rfl

/-- The sites of two parts, when the second stops words and calls. -/
theorem sites_append (hz : Stops z) (x : List Char) :
    ∀ (before : Option Char) (pos : Nat),
      sites before pos (x ++ z) = sites before pos x ++ sites none (pos + x.length) z := by
  induction x with
  | nil =>
    intro before pos
    exact sites_of_head hz.word before pos
  | cons c x ih =>
    intro before pos
    have hpos : pos + 1 + x.length = pos + (c :: x).length := by
      rw [length_cons]
      omega
    rw [cons_append, sites, sites, ih, ← cons_append, site?_append hz, hpos]
    split
    next => rw [append_assoc]
    next => rfl

/-- A text without an opening parenthesis has no site. -/
theorem sites_of_no_parenthesis (hx : '(' ∉ x) (before : Option Char) (pos : Nat) :
    sites before pos x = [] := by
  induction x generalizing before pos with
  | nil => rfl
  | cons c x ih =>
    have hsite : site? pos (c :: x) = none := by
      unfold site?
      dsimp only
      rw [if_neg]
      intro h
      apply hx
      have h1 := mem_of_head? h
      exact (dropWhile_sublist _).subset ((dropWhile_sublist _).subset h1)
    rw [sites, hsite, ih fun h => hx (.tail _ h)]
    split <;> rfl

/-- The words of a text that stands behind the character `before`. -/
def wordsFrom (before : Option Char) : List Char → List (List Char)
  | [] => []
  | c :: s =>
    if isWord c && atWordStart before then (c :: s).takeWhile isWord :: wordsFrom (some c) s
    else wordsFrom (some c) s

/-- A site that begins in a text is at one of its words, if no word runs out of the text. -/
theorem sites_text (x : List Char) : Seam x y →
    ∀ (before : Option Char) (pos : Nat),
    ∃ front, sites before pos (x ++ y) = front ++ sites none (pos + x.length) y ∧
      ∀ site ∈ front, site.word ∈ wordsFrom before x := by
  induction x with
  | nil =>
    intro h before pos
    rcases h with hy | ⟨c, hc, _⟩
    · exact ⟨[], sites_of_head hy before pos, by simp⟩
    · simp at hc
  | cons c x ih =>
    intro h before pos
    have hpos : pos + 1 + x.length = pos + (c :: x).length := by
      rw [length_cons]
      omega
    obtain ⟨front, hfront, hwords⟩ : ∃ front,
        sites (some c) (pos + 1) (x ++ y) = front ++ sites none (pos + (c :: x).length) y ∧
          ∀ site ∈ front, site.word ∈ wordsFrom (some c) x := by
      -- the character before the seam decides only if the piece ends here
      by_cases hx : x = []
      · subst hx
        refine ⟨[], ?_, by simp⟩
        rcases h with hy | ⟨d, hd, hw⟩
        · exact sites_of_head hy (some c) (pos + 1)
        · rw [getLast?_singleton, Option.some.injEq] at hd
          subst hd
          exact sites_of_atWordStart (by simp [atWordStart, hw]) (pos + 1) y
      · rw [← hpos]
        refine ih ?_ (some c) (pos + 1)
        rcases h with hy | ⟨d, hd, hw⟩
        · exact Or.inl hy
        · rw [getLast?_cons_of_ne_nil hx] at hd
          exact Or.inr ⟨d, hd, hw⟩
    rw [cons_append, sites, hfront, wordsFrom]
    split
    next hstart =>
      refine ⟨(site? pos (c :: (x ++ y))).toList ++ front, by rw [append_assoc], ?_⟩
      intro site hsite
      rcases mem_append.mp hsite with hhere | hlater
      · have hword : site.word = (c :: (x ++ y)).takeWhile isWord := by
          unfold site? at hhere
          dsimp only at hhere
          split at hhere
          next => rw [mem_singleton.mp hhere]
          next => simp at hhere
        rw [hword, ← cons_append, takeWhile_append_of_seam h]
        exact .head _
      · exact .tail _ (hwords site hlater)
    next => exact ⟨front, rfl, hwords⟩

/-- Inside a word no site begins; the next can begin behind the parenthesis. -/
theorem sites_inside_word (w : List Char) (rest : List Char) :
    ∀ (c : Char) (pos : Nat), isWord c → (∀ d ∈ w, isWord d) →
      sites (some c) pos (w ++ '(' :: rest) = sites none (pos + w.length + 1) rest := by
  induction w with
  | nil =>
    intro c pos _ _
    rw [nil_append, sites]
    exact sites_of_atWordStart (by decide) (pos + 1) rest
  | cons d w ih =>
    intro c pos hc hw
    have hd := hw d (.head _)
    have hstart : atWordStart (some c) = false := by simp [atWordStart, hc]
    rw [cons_append, sites, hstart, Bool.and_false, if_neg (by simp),
      ih d (pos + 1) hd (forall_mem_cons.mp hw).2, length_cons]
    congr 1
    omega

/-- The site of a call, and those behind its opening parenthesis. -/
theorem sites_call {name : List Char} (hne : name ≠ []) (hname : ∀ c ∈ name, isWord c)
    (pos : Nat) (rest : List Char) :
    sites none pos (name ++ '(' :: rest)
      = ⟨pos, name, pos + name.length⟩ :: sites none (pos + name.length + 1) rest := by
  cases name with
  | nil => exact absurd rfl hne
  | cons c w =>
    have hc := hname c (.head _)
    have hparen : isWord '(' = false := by decide
    have hblank : isBlank '(' = false := by decide
    have hsite : site? pos (c :: w ++ '(' :: rest) = some ⟨pos, c :: w, pos + (c :: w).length⟩ := by
      unfold site?
      dsimp only
      rw [takeWhile_append_of_pos hname, dropWhile_append_of_pos hname,
        takeWhile_cons_of_neg (by simp [hparen]), dropWhile_cons_of_neg (by simp [hparen]),
        dropWhile_cons_of_neg (by simp [hblank]), takeWhile_cons_of_neg (by simp [hblank]),
        append_nil]
      rfl
    have hstart : (isWord c && atWordStart none) := by simp [hc, atWordStart]
    rw [cons_append, sites, ← cons_append, hsite, if_pos hstart,
      sites_inside_word w rest c (pos + 1) hc (forall_mem_cons.mp hname).2]
    show _ :: sites none (pos + 1 + w.length + 1) rest = _ :: sites none _ rest
    congr 2
    rw [length_cons]
    omega

/-! ## The word of a site -/

/-- No range of letters meets a range of blanks. -/
theorem letterRanges_apart :
    (Text.letterRanges.all fun r =>
      Text.blankRanges.all fun b => r.2 < b.1 || b.2 < r.1) := by
  decide +kernel

theorem isBlank_of_isWord {c : Char} (h : isWord c) : isBlank c = false := by
  by_cases hascii : c.toNat < 128
  · have hall : ∀ n < 128, isWord (Char.ofNat n) → isBlank (Char.ofNat n) = false := by
      decide +kernel
    have hc := hall c.toNat hascii
    rw [Char.ofNat_toNat] at hc
    exact hc h
  · unfold isWord Text.isLetter at h
    rw [if_neg hascii] at h
    rcases Bool.or_eq_true_iff.mp h with h | h
    · rw [beq_iff_eq.mp h] at hascii
      exact absurd (by decide) hascii
    · obtain ⟨r, hr, hin⟩ := any_eq_true.mp h
      by_contra hb
      rw [Bool.not_eq_false] at hb
      obtain ⟨b, hb, hinb⟩ := any_eq_true.mp hb
      have hapart := all_eq_true.mp (all_eq_true.mp letterRanges_apart r hr) b hb
      simp only [Bool.and_eq_true, Bool.or_eq_true, decide_eq_true_eq] at hin hinb hapart
      omega

/-- A word keeps its characters when blanks behind it are stripped. -/
theorem strip_word_append {w blanks : List Char} (hw : ∀ c ∈ w, isWord c)
    (hblanks : ∀ c ∈ blanks, isBlank c) (hne : w ≠ []) :
    Text.strip (w ++ blanks) = w := by
  have hdrop : ∀ {u v : List Char}, (∀ c ∈ u, isWord c) → u ≠ [] →
      (u ++ v).dropWhile isBlank = u ++ v := by
    intro u v hu hu0
    cases u with
    | nil => exact absurd rfl hu0
    | cons c u =>
      rw [cons_append, dropWhile_cons_of_neg (by simp [isBlank_of_isWord (hu c (.head _))])]
  have hrev := hdrop (u := w.reverse) (v := []) (fun c hc => hw c (mem_reverse.mp hc))
    (by simpa using hne)
  rw [append_nil] at hrev
  rw [Text.strip, Text.trimWhile, hdrop hw hne, Text.dropEndWhile, reverse_append,
    dropWhile_append_of_pos fun c hc => hblanks c (mem_reverse.mp hc), hrev, reverse_reverse]

/-- A site of a text begins with a character of a word. -/
theorem mem_sites {site : Site} (s : List Char) : ∀ (before : Option Char) (pos : Nat),
    site ∈ sites before pos s →
    ∃ front c rest, s = front ++ c :: rest ∧ isWord c ∧
      site? (pos + front.length) (c :: rest) = some site := by
  induction s with
  | nil =>
    intro before pos h
    simp [sites] at h
  | cons d s ih =>
    intro before pos h
    have hlater : site ∈ sites (some d) (pos + 1) s →
        ∃ front c rest, d :: s = front ++ c :: rest ∧ isWord c ∧
          site? (pos + front.length) (c :: rest) = some site := by
      intro hs
      obtain ⟨front, c, rest, hsplit, hc, hsite⟩ := ih _ _ hs
      refine ⟨d :: front, c, rest, by rw [hsplit, cons_append], hc, ?_⟩
      rw [length_cons, show pos + (front.length + 1) = pos + 1 + front.length by omega]
      exact hsite
    rw [sites] at h
    split at h
    next hstart =>
      rcases mem_append.mp h with hhere | hs
      · exact ⟨[], d, s, rfl, (Bool.and_eq_true_iff.mp hstart).1, Option.mem_toList.mp hhere⟩
      · exact hlater hs
    next => exact hlater h

/-- What stands between the beginning of a site and its parenthesis is its word, but for blanks. -/
theorem strip_site {site : Site} (h : site ∈ sites none 0 s) :
    Text.strip ((s.drop site.start).take (site.opening - site.start)) = site.word := by
  obtain ⟨front, c, rest, rfl, hc, hsite⟩ := mem_sites s none 0 h
  unfold site? at hsite
  dsimp only at hsite
  split at hsite
  next =>
    rw [Option.some.injEq] at hsite
    subst hsite
    dsimp only
    rw [Nat.zero_add, drop_left, Nat.add_assoc, Nat.add_sub_cancel_left]
    have hfront : (c :: rest).takeWhile isWord ++ ((c :: rest).dropWhile isWord).takeWhile isBlank
        <+: c :: rest :=
      ⟨((c :: rest).dropWhile isWord).dropWhile isBlank, by
        rw [append_assoc, takeWhile_append_dropWhile, takeWhile_append_dropWhile]⟩
    rw [← length_append, ← prefix_iff_eq_take.mp hfront]
    apply strip_word_append
    · intro d hd
      exact mem_takeWhile_imp hd
    · intro d hd
      exact mem_takeWhile_imp hd
    · rw [takeWhile_cons_of_pos hc]
      simp
  next => exact absurd hsite (by simp)

/-! ## Calls to convert -/

/-- Whether a call of the word `w` has to be converted: a function of the table has this name, and
the word does not count as SQL. -/
def isLive (w : List Char) : Bool :=
  functions.any fun f =>
    Text.afterName? f.name.toList w == some []
      && !(Text.allCapital w && w != f.name.toList)

/-- The sites of a text at position `pos` whose words are live. -/
def liveSites (pos : Nat) (s : List Char) : List Site :=
  (sites none pos s).filter fun site => isLive site.word

/-- The live sites of two parts, when the second stops words and calls. -/
theorem liveSites_append (hz : Stops z) (pos : Nat) (x : List Char) :
    liveSites pos (x ++ z) = liveSites pos x ++ liveSites (pos + x.length) z := by
  rw [liveSites, sites_append hz, filter_append]
  rfl

/-- A text without live words has no live site, if no word runs out of it. -/
theorem liveSites_text (h : Seam x y) (hdead : ∀ w ∈ wordsFrom none x, isLive w = false)
    (pos : Nat) : liveSites pos (x ++ y) = liveSites (pos + x.length) y := by
  obtain ⟨front, hfront, hwords⟩ := sites_text x h none pos
  have hnone : front.filter (fun site => isLive site.word) = [] := by
    rw [filter_eq_nil_iff]
    intro site hsite
    simp [hdead _ (hwords site hsite)]
  rw [liveSites, hfront, filter_append, hnone, nil_append]
  rfl

/-- The live sites of a call by a live name: its own, and those behind its parenthesis. -/
theorem liveSites_call {name : List Char} (hne : name ≠ []) (hname : ∀ c ∈ name, isWord c)
    (hlive : isLive name) (pos : Nat) (rest : List Char) :
    liveSites pos (name ++ '(' :: rest)
      = ⟨pos, name, pos + name.length⟩ :: liveSites (pos + name.length + 1) rest := by
  rw [liveSites, sites_call hne hname, filter_cons, if_pos hlive]
  rfl

/-- The calls of a text that can be converted. -/
def openCalls (s : List Char) : List Call := functions.flatMap fun f => callsOf f s (sites none 0 s)

/-- What makes a call one that can be converted. -/
theorem mem_openCalls :
    c ∈ openCalls s ↔ c.function ∈ functions ∧ ∃ site ∈ sites none 0 s,
      site.isFor c.function.name.toList ∧ c.start = site.start ∧
      c.opening = site.opening ∧ matching? s site.opening = some c.closing ∧
      c.isSql s = false := by
  unfold openCalls callsOf
  constructor
  · intro h
    obtain ⟨f, hf, hc⟩ := mem_flatMap.mp h
    obtain ⟨site, hsite, hcall⟩ := mem_filterMap.mp hc
    obtain ⟨hmem, hfor⟩ := mem_filter.mp hsite
    split at hcall
    next closing hclosing =>
      dsimp only at hcall
      split at hcall
      next => exact absurd hcall (by simp)
      next hsql =>
        rw [Option.some.injEq] at hcall
        subst hcall
        exact ⟨hf, site, hmem, hfor, rfl, rfl, hclosing, Bool.not_eq_true _ ▸ hsql⟩
    next => exact absurd hcall (by simp)
  · rintro ⟨hf, site, hmem, hfor, hstart, hopening, hclosing, hsql⟩
    refine mem_flatMap.mpr ⟨c.function, hf, mem_filterMap.mpr
      ⟨site, mem_filter.mpr ⟨hmem, hfor⟩, ?_⟩⟩
    rw [hclosing]
    dsimp only
    rw [← hstart, ← hopening, if_neg]
    rw [Bool.not_eq_true]
    exact hsql

/-- A call that can be converted stands at a live site. -/
theorem site_of_mem_openCalls (h : c ∈ openCalls s) :
    c.function ∈ functions ∧ ∃ site ∈ liveSites 0 s,
      site.isFor c.function.name.toList ∧ c.start = site.start ∧
      c.opening = site.opening ∧ matching? s site.opening = some c.closing := by
  obtain ⟨hf, site, hmem, hfor, hstart, hopening, hclosing, hsql⟩ := mem_openCalls.mp h
  refine ⟨hf, site, mem_filter.mpr ⟨hmem, ?_⟩, hfor, hstart, hopening, hclosing⟩
  have hname : c.name s = site.word := by
    rw [Call.name, hstart, hopening]
    exact strip_site hmem
  rw [Call.isSql, hname] at hsql
  rw [isLive, any_eq_true]
  refine ⟨c.function, hf, ?_⟩
  rw [Bool.and_eq_true]
  exact ⟨hfor, by rw [hsql]; rfl⟩

/-- The call that begins furthest to the right is one of them. -/
theorem mem_of_rightmost {cs : List Call} {d : Call} (h : rightmost cs = some d) : d ∈ cs := by
  induction cs generalizing d with
  | nil => exact absurd h (by simp [rightmost])
  | cons c cs ih =>
    rw [rightmost] at h
    split at h
    next e he =>
      split at h
      next =>
        rw [Option.some.injEq] at h
        subst h
        exact .tail _ (ih he)
      next =>
        rw [Option.some.injEq] at h
        subst h
        exact .head _
    next =>
      rw [Option.some.injEq] at h
      subst h
      exact .head _

/-- The call to convert next is one that can be converted. -/
theorem mem_openCalls_of_nextCall? (h : nextCall? s = some c) : c ∈ openCalls s := by
  unfold nextCall? at h
  dsimp only at h
  split at h
  next d hd =>
    rw [Option.some.injEq] at h
    subst h
    exact mem_of_find?_eq_some hd
  next => exact mem_of_rightmost h

/-- There is a call to convert next, as long as one can be converted. -/
theorem openCalls_eq_nil_of_nextCall? (h : nextCall? s = none) : openCalls s = [] := by
  unfold nextCall? at h
  dsimp only at h
  split at h
  next => exact absurd h (by simp)
  next =>
    show (functions.flatMap (callsOf · s (sites none 0 s))) = []
    cases hcalls : functions.flatMap (callsOf · s (sites none 0 s)) with
    | nil => rfl
    | cons c cs =>
      rw [hcalls, rightmost] at h
      split at h
      next => split at h <;> exact absurd h (by simp)
      next => exact absurd h (by simp)

end Replatform.Formula

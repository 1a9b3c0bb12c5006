import Replatform.Proofs.Formula.Alignment
/-!
# Names in other letters

The names of functions are met whatever the case of their letters. Two texts are *respelled* if they
differ only in the letters of such names, each in front of a parenthesis (`Respelled`). The
condition `P` on the spellings sees the character before the name too.

Respelled texts have their words, blanks, quotes and parentheses at the same places. If no spelling
is in capitals, so that none counts as SQL, they have the same calls, and the same one is converted
next (`Respelled.nextCall?_eq`).
-/

namespace Replatform.Formula

open List
open Text (isWord isBlank atWordStart allCapital afterName? sameLetter)

variable {c p : Char} {y z x : List Char}

/-! ## Spellings of a name -/

/-- The word is the name of the function, case ignored. -/
def Function.Spells (f : Function) (w : List Char) : Prop := afterName? f.name.toList w = some []

instance (f : Function) (w : List Char) : Decidable (f.Spells w) :=
  inferInstanceAs (Decidable (afterName? f.name.toList w = some []))

theorem toLower_ascii (h : c.toNat < 128) :
    isWord c.toLower = isWord c ∧ c.toLower.toNat < 128 := by
  have hall : ∀ n < 128, isWord (Char.ofNat n).toLower = isWord (Char.ofNat n)
      ∧ (Char.ofNat n).toLower.toNat < 128 := by decide +kernel
  have hc := hall c.toNat h
  rwa [Char.ofNat_toNat] at hc

theorem toLower_of_not_ascii (h : ¬c.toNat < 128) : c.toLower = c := by
  unfold Char.toLower
  rw [dif_neg]
  rintro ⟨-, hle⟩
  have hle' : c.toNat ≤ 90 := hle
  omega

/-- A letter of another script that counts as an ASCII letter. -/
theorem letter_of_not_ascii (hp : p.toNat < 128) (hc : ¬c.toNat < 128) (h : sameLetter p c) :
    p.toLower = 'i' ∧ (c = '\u0130' ∨ c = '\u0131') ∨ p.toLower = 's' ∧ c = '\u017f'
      ∨ p.toLower = 'k' ∧ c = '\u212a' := by
  unfold sameLetter at h
  rcases Bool.or_eq_true_iff.mp h with hlower | hother
  · have heq := beq_iff_eq.mp hlower
    rw [toLower_of_not_ascii hc] at heq
    rw [heq] at hc
    exact absurd (toLower_ascii hp).2 hc
  · split at hother
    next hi =>
      rw [Bool.or_eq_true, beq_iff_eq, beq_iff_eq] at hother
      exact .inl ⟨hi, hother⟩
    next hs => exact .inr (.inl ⟨hs, beq_iff_eq.mp hother⟩)
    next hk => exact .inr (.inr ⟨hk, beq_iff_eq.mp hother⟩)
    next => cases hother

theorem toLower_eq_of_ascii (hc : c.toNat < 128) (h : sameLetter p c) :
    c.toLower = p.toLower := by
  unfold sameLetter at h
  rcases Bool.or_eq_true_iff.mp h with hlower | hother
  · exact beq_iff_eq.mp hlower
  · have hno : ∀ d : Char, ¬d.toNat < 128 → (c == d) = false := fun d hd =>
      beq_eq_false_iff_ne.mpr fun heq => hd (heq ▸ hc)
    rw [hno _ (by decide), hno _ (by decide), hno _ (by decide), hno _ (by decide)] at hother
    split at hother <;> cases hother

/-- What counts as a letter of a name can stand in a word. -/
theorem isWord_of_sameLetter (hp : isWord p) (hascii : p.toNat < 128)
    (h : sameLetter p c) : isWord c := by
  by_cases hc : c.toNat < 128
  · rw [← (toLower_ascii hc).1, toLower_eq_of_ascii hc h, (toLower_ascii hascii).1]
    exact hp
  · rcases letter_of_not_ascii hascii hc h with ⟨-, rfl | rfl⟩ | ⟨-, rfl⟩ | ⟨-, rfl⟩ <;>
      decide +kernel

/-- A character counts as one letter only. -/
theorem toLower_eq_of_sameLetter {q : Char} (hp : p.toNat < 128) (hq : q.toNat < 128)
    (hpc : sameLetter p c) (hqc : sameLetter q c) : p.toLower = q.toLower := by
  by_cases hc : c.toNat < 128
  · rw [← toLower_eq_of_ascii hc hpc, toLower_eq_of_ascii hc hqc]
  · rcases letter_of_not_ascii hp hc hpc with ⟨hp', rfl | rfl⟩ | ⟨hp', rfl⟩ | ⟨hp', rfl⟩ <;>
      rcases letter_of_not_ascii hq hc hqc with ⟨hq', h | h⟩ | ⟨hq', h⟩ | ⟨hq', h⟩ <;>
      first
      | exact absurd h (by decide)
      | rw [hp', hq']

/-- A name is met letter by letter. -/
theorem forall₂_of_afterName? : ∀ {name w : List Char}, afterName? name w = some [] →
    Forall₂ (fun p c => sameLetter p c) name w
  | [], w, h => by
    cases h
    exact .nil
  | _ :: _, [], h => by cases h
  | p :: name, c :: w, h => by
    rw [afterName?] at h
    split at h
    next hsame => exact .cons hsame (forall₂_of_afterName? h)
    next => cases h

namespace Function.Spells

variable {f g : Function} {v w : List Char}

theorem length_eq (h : f.Spells w) : w.length = f.name.toList.length :=
  (forall₂_of_afterName? h).length_eq.symm

theorem letters (hf : f ∈ functions) (h : f.Spells w) : ∀ c ∈ w, isWord c := by
  have hname := (name_of_mem hf).2
  have hsame := forall₂_of_afterName? h
  clear h
  generalize f.name.toList = name at hname hsame
  induction hsame with
  | nil => exact forall_mem_nil _
  | @cons p c name w hpc _ ih =>
    obtain ⟨hp, hascii⟩ := hname p (.head _)
    exact forall_mem_cons.mpr ⟨isWord_of_sameLetter hp hascii hpc, ih (forall_mem_cons.mp hname).2⟩

/-- A word is the name of one function only. -/
theorem unique (hf : f ∈ functions) (hg : g ∈ functions) (h : f.Spells w) (h' : g.Spells w) :
    f = g := by
  refine inj_on_of_nodup_map functions_sound.2 hf hg ?_
  have hfname := fun c hc => ((name_of_mem hf).2 c hc).2
  have hgname := fun c hc => ((name_of_mem hg).2 c hc).2
  have hfsame := forall₂_of_afterName? h
  have hgsame := forall₂_of_afterName? h'
  clear h h'
  show nameKey f.name.toList = nameKey g.name.toList
  generalize f.name.toList = p at hfname hfsame
  generalize g.name.toList = q at hgname hgsame
  induction hfsame generalizing q with
  | nil =>
    cases hgsame
    rfl
  | @cons a c p w hac _ ih =>
    cases hgsame with
    | @cons b _ q _ hbc hqw =>
      have hletter := toLower_eq_of_sameLetter (hfname a (.head _))
        (hgname b (.head _)) hac hbc
      have hrest : nameKey p = nameKey q := ih (forall_mem_cons.mp hfname).2 q
        (forall_mem_cons.mp hgname).2 hqw
      show a.toLower.toNat + 128 * nameKey p = b.toLower.toNat + 128 * nameKey q
      rw [hletter, hrest]

/-- Two spellings of a name call the same functions. -/
theorem iff (hf : f ∈ functions) (hg : g ∈ functions) (hv : f.Spells v) (hw : f.Spells w) :
    g.Spells w ↔ g.Spells v := by
  constructor
  · intro h
    rw [unique hg hf h hw]
    exact hv
  · intro h
    rw [unique hg hf h hv]
    exact hw

end Function.Spells

/-! ## Respelled texts -/

/-- The last character of a text that stands behind `b`. -/
def lastFrom (b : Option Char) (x : List Char) : Option Char := x.foldl (fun _ c => some c) b

/-- Two texts that stand behind `b` and differ only in the letters of names of functions in front of
parentheses, where the names and the characters before them fulfil `P`. -/
inductive Respelled (P : Option Char → List Char → Prop) :
    Option Char → List Char → List Char → Prop
  | nil {b : Option Char} : Respelled P b [] []
  | char {b : Option Char} {c : Char} {s t : List Char} :
    Respelled P (some c) s t → Respelled P b (c :: s) (c :: t)
  | name {b : Option Char} {f : Function} {v w gap s t : List Char} :
    f ∈ functions → f.Spells v → f.Spells w → atWordStart b → P b v → P b w →
    (∀ c ∈ gap, isBlank c) → Respelled P (some '(') s t →
    Respelled P b (v ++ (gap ++ '(' :: s)) (w ++ (gap ++ '(' :: t))

theorem append_token (v gap s : List Char) : v ++ (gap ++ '(' :: s) = v ++ (gap ++ ['(']) ++ s := by
  rw [append_assoc, append_assoc, singleton_append]

/-- The characters are the same, or both can stand in a word. -/
def Similar (c d : Char) : Prop := c = d ∨ isWord c ∧ isWord d

theorem similar_self (x : List Char) : Forall₂ Similar x x := forall₂_same.mpr fun _ _ => .inl rfl

theorem similar_of_words {v w : List Char} (hlength : v.length = w.length)
    (hv : ∀ c ∈ v, isWord c) (hw : ∀ c ∈ w, isWord c) :
    Forall₂ Similar v w :=
  forall₂_iff_get.mpr ⟨hlength, fun _ _ _ =>
    .inr ⟨hv _ (get_mem ..), hw _ (get_mem ..)⟩⟩

theorem Similar.eq {d : Char} (h : Similar c d) (hc : isWord c = false) : d = c := by
  rcases h with rfl | ⟨hword, -⟩
  · rfl
  · rw [hc] at hword
    cases hword

/-- Similar characters are told apart by characters of words only. -/
theorem Similar.eq_iff {d : Char} (h : Similar c d) (hp : isWord p = false) : p = d ↔ p = c := by
  rcases h with rfl | ⟨hc, hd⟩
  · rfl
  · have hne : ∀ {e : Char}, isWord e → p ≠ e := by
      rintro e he rfl
      rw [hp] at he
      cases he
    exact iff_of_false (hne hd) (hne hc)

/-- A property that all characters of words have in common does not tell similar characters
apart. -/
theorem Similar.apply_eq {d : Char} (h : Similar c d) {α : Type} {p : Char → α} {a : α}
    (hp : ∀ e, isWord e → p e = a) : p d = p c := by
  rcases h with rfl | ⟨hc, hd⟩
  · rfl
  · rw [hp c hc, hp d hd]

variable {P : Option Char → List Char → Prop} {b : Option Char} {s t : List Char}

namespace Respelled

protected theorem refl : ∀ {b : Option Char} (s : List Char), Respelled P b s s
  | _, [] => .nil
  | _, _ :: s => .char (Respelled.refl s)

protected theorem symm (h : Respelled P b s t) : Respelled P b t s := by
  induction h with
  | nil => exact .nil
  | char _ ih => exact .char ih
  | name hf hv hw hb hPv hPw hgap _ ih => exact .name hf hw hv hb hPw hPv hgap ih

theorem similar (h : Respelled P b s t) : Forall₂ Similar s t := by
  induction h with
  | nil => exact .nil
  | char _ ih => exact .cons (.inl rfl) ih
  | name hf hv hw _ _ _ _ _ ih =>
    have hname := similar_of_words (hv.length_eq.trans hw.length_eq.symm) (hv.letters hf)
      (hw.letters hf)
    exact rel_append hname (rel_append (similar_self _) (.cons (.inl rfl) ih))

theorem length_eq (h : Respelled P b s t) : t.length = s.length := h.similar.length_eq.symm

/-- Inside a word nothing is respelled. -/
theorem takeWhile_eq (h : Respelled P b s t) (hb : atWordStart b = false) :
    t.takeWhile isWord = s.takeWhile isWord
      ∧ Forall₂ Similar (s.dropWhile isWord) (t.dropWhile isWord) := by
  induction h with
  | nil => exact ⟨rfl, .nil⟩
  | @char b c s t h ih =>
    by_cases hc : isWord c
    · obtain ⟨htake, hdrop⟩ := ih (by simp [atWordStart, hc])
      rw [takeWhile_cons_of_pos hc, takeWhile_cons_of_pos hc,
        dropWhile_cons_of_pos hc, dropWhile_cons_of_pos hc, htake]
      exact ⟨rfl, hdrop⟩
    · rw [takeWhile_cons_of_neg hc, takeWhile_cons_of_neg hc,
        dropWhile_cons_of_neg hc, dropWhile_cons_of_neg hc]
      exact ⟨rfl, .cons (.inl rfl) h.similar⟩
  | name _ _ _ hstart =>
    rw [hstart] at hb
    cases hb

end Respelled

/-! ## Sites -/

theorem takeWhile_isBlank_eq (h : Forall₂ Similar y z) :
    z.takeWhile isBlank = y.takeWhile isBlank
      ∧ Forall₂ Similar (y.dropWhile isBlank) (z.dropWhile isBlank) := by
  induction h with
  | nil => exact ⟨rfl, .nil⟩
  | @cons c d y z hcd hyz ih =>
    by_cases hc : isBlank c
    · have hd := hcd.eq (isWord_of_isBlank hc)
      rw [hd, takeWhile_cons_of_pos hc, takeWhile_cons_of_pos hc,
        dropWhile_cons_of_pos hc, dropWhile_cons_of_pos hc, ih.1]
      exact ⟨rfl, ih.2⟩
    · have hd : ¬isBlank d := by
        rw [hcd.apply_eq fun e => isBlank_of_isWord]
        exact hc
      rw [takeWhile_cons_of_neg hc, takeWhile_cons_of_neg hd,
        dropWhile_cons_of_neg hc, dropWhile_cons_of_neg hd]
      exact ⟨rfl, .cons hcd hyz⟩

theorem head?_eq_some_iff (h : Forall₂ Similar y z) (hc : isWord c = false) :
    z.head? = some c ↔ y.head? = some c := by
  cases h with
  | nil => rfl
  | @cons d e y z hde _ =>
    rw [head?_cons, head?_cons, Option.some.injEq, Option.some.injEq, eq_comm, hde.eq_iff hc,
      eq_comm]

/-- The site at a word, blanks and a parenthesis, and those behind the parenthesis. -/
theorem sites_token (hb : atWordStart b) {word gap : List Char} (hne : word ≠ [])
    (hword : ∀ c ∈ word, isWord c) (hgap : ∀ c ∈ gap, isBlank c) (pos : Nat) (rest : List Char) :
    sites b pos (word ++ (gap ++ '(' :: rest))
      = ⟨pos, word, pos + word.length + gap.length⟩
        :: sites (some '(') (pos + word.length + gap.length + 1) rest := by
  have hblanks : ∀ (gap : List Char) (b : Option Char) (pos : Nat), (∀ c ∈ gap, isBlank c) →
      sites b pos (gap ++ '(' :: rest) = sites (some '(') (pos + gap.length + 1) rest := by
    intro gap
    induction gap with
    | nil =>
      intro b pos _
      rw [nil_append, sites]
      rfl
    | cons c gap ih =>
      intro b pos hgap
      have hc := isWord_of_isBlank (hgap c (.head _))
      rw [cons_append, sites, hc, ih _ _ (forall_mem_cons.mp hgap).2,
        length_cons, Nat.add_right_comm pos 1]
      rfl
  have hinside : ∀ (word : List Char) (c : Char) (pos : Nat), isWord c →
      (∀ d ∈ word, isWord d) → sites (some c) pos (word ++ (gap ++ '(' :: rest))
        = sites (some '(') (pos + word.length + gap.length + 1) rest := by
    intro word
    induction word with
    | nil => exact fun c pos _ _ => hblanks gap (some c) pos hgap
    | cons d word ih =>
      intro c pos hc hword
      have hstart : atWordStart (some c) = false := by simp [atWordStart, hc]
      rw [cons_append, sites, hstart, Bool.and_false, if_neg Bool.false_ne_true,
        ih d (pos + 1) (hword d (.head _)) (forall_mem_cons.mp hword).2, length_cons,
        Nat.add_right_comm pos 1, Nat.add_assoc pos]
  obtain ⟨c, cs, rfl⟩ := exists_cons_of_ne_nil hne
  have hc := hword c (.head _)
  have hsite : site? pos (c :: (cs ++ (gap ++ '(' :: rest)))
      = some ⟨pos, c :: cs, pos + (c :: cs).length + gap.length⟩ :=
    site?_eq_some_iff.mpr ⟨gap, rest, rfl, rfl, rfl, hword, hgap⟩
  rw [cons_append, sites, hsite, hc, hb, Bool.and_self, if_pos rfl,
    hinside cs c (pos + 1) hc (forall_mem_cons.mp hword).2, length_cons, Nat.add_right_comm pos 1]
  rfl

/-- Two sites at the same place, with the same word or two spellings of a name. -/
structure Site.Alike (P : Option Char → List Char → Prop) (x y : Site) : Prop where
  start : y.start = x.start
  opening : y.opening = x.opening
  word : y.word = x.word ∨ ∃ f ∈ functions, ∃ b, f.Spells x.word ∧ f.Spells y.word
    ∧ P b x.word ∧ P b y.word

theorem Site.Alike.isFor_eq {x y : Site} (h : x.Alike P y)
    {f : Function} (hf : f ∈ functions) : y.isFor f.name.toList = x.isFor f.name.toList := by
  rcases h.word with hword | ⟨g, hg, -, hx, hy, -⟩
  · rw [Site.isFor, hword, Site.isFor]
  · rw [Bool.eq_iff_iff, Site.isFor, Site.isFor, beq_iff_eq, beq_iff_eq]
    exact Function.Spells.iff hg hf hx hy

namespace Respelled

/-- The sites of respelled texts are alike. -/
theorem sites_forall₂ (h : Respelled P b s t) :
    ∀ pos, Forall₂ (Site.Alike P) (sites b pos s) (sites b pos t) := by
  induction h with
  | nil => exact fun _ => .nil
  | @char b c s t h ih =>
    intro pos
    have hsite : isWord c → site? pos (c :: t) = site? pos (c :: s) := by
      intro hc
      obtain ⟨htake, hdrop⟩ := h.takeWhile_eq (by simp [atWordStart, hc])
      obtain ⟨hblank, hrest⟩ := takeWhile_isBlank_eq hdrop
      unfold site?
      rw [takeWhile_cons_of_pos hc, takeWhile_cons_of_pos hc,
        dropWhile_cons_of_pos hc, dropWhile_cons_of_pos hc, htake]
      dsimp only
      rw [hblank]
      simp only [head?_eq_some_iff hrest (show isWord '(' = false by decide)]
    rw [sites, sites]
    split
    next hstart =>
      rw [hsite (Bool.and_eq_true_iff.mp hstart).1]
      exact rel_append (forall₂_same.mpr fun x _ => ⟨rfl, rfl, .inl rfl⟩) (ih (pos + 1))
    next => exact ih (pos + 1)
  | @name b f v w gap s t hf hv hw hb hPv hPw hgap _ ih =>
    intro pos
    rw [sites_token hb (ne_nil_of_afterName? hf hv) (hv.letters hf) hgap,
      sites_token hb (ne_nil_of_afterName? hf hw) (hw.letters hf) hgap,
      hw.length_eq, ← hv.length_eq]
    exact .cons ⟨rfl, rfl, .inr ⟨f, hf, b, hv, hw, hPv, hPw⟩⟩ (ih _)

end Respelled

/-! ## Parentheses -/

/-- A character that is no quote and no parenthesis makes no difference to a scan. -/
theorem scanStep_of_plain {p : Nat × Option Char} (hp : p.2.all isQuote)
    (hquote : isQuote c = false) (hopen : c ≠ '(') (hclose : c ≠ ')') : scanStep p c = some p := by
  obtain ⟨depth, quote⟩ := p
  unfold scanStep
  cases quote with
  | none => simp [hquote, hopen, hclose]
  | some q =>
    have hq : c ≠ q := by
      rintro rfl
      rw [Option.all_some, hquote] at hp
      cases hp
    simp [nextQuote, hq]

theorem scanStep_of_isWord {p : Nat × Option Char} (hp : p.2.all isQuote)
    (hc : isWord c) : scanStep p c = some p := by
  have hne : ∀ {d : Char}, isWord d = false → c ≠ d := by
    rintro d hd rfl
    rw [hd] at hc
    cases hc
  exact scanStep_of_plain hp (isQuote_of_isWord hc) (hne (by decide)) (hne (by decide))

theorem all_isQuote_nextQuote {quote : Option Char} (hquote : quote.all isQuote)
    (c : Char) : (nextQuote quote c).all isQuote := by
  unfold nextQuote
  cases quote with
  | none =>
    dsimp only
    split
    next hc => exact hc
    next => rfl
  | some q =>
    dsimp only
    split
    next => rfl
    next => exact hquote

theorem closing?_similar (h : Forall₂ Similar s t) :
    ∀ {p : Nat × Option Char}, p.2.all isQuote →
      closing? p.1 p.2 t = closing? p.1 p.2 s := by
  induction h with
  | nil => exact fun _ => rfl
  | @cons c d s t hcd _ ih =>
    intro p hp
    rw [closing?_cons, closing?_cons, hcd.apply_eq fun e => scanStep_of_isWord hp]
    cases hstep : scanStep p c with
    | none => rfl
    | some q =>
      dsimp only
      rw [ih]
      rw [← (scanStep_eq_some_iff.mp hstep).2]
      exact all_isQuote_nextQuote hp c

theorem matching?_similar (h : Forall₂ Similar s t) (i : Nat) :
    matching? t i = matching? s i := by
  have hclosing : closing? 0 none (t.drop (i + 1)) = closing? 0 none (s.drop (i + 1)) :=
    closing?_similar (forall₂_drop (i + 1) h) (p := (0, none)) rfl
  rw [matching?, matching?, hclosing]

/-! ## Names in capitals -/

theorem nameKey_append (x y : List Char) :
    nameKey (x ++ y) = nameKey x + 128 ^ x.length * nameKey y := by
  induction x with
  | nil => simp [nameKey]
  | cons c x ih =>
    show c.toLower.toNat + 128 * nameKey (x ++ y)
      = c.toLower.toNat + 128 * nameKey x + 128 ^ (x.length + 1) * nameKey y
    rw [ih, Nat.pow_succ, Nat.mul_add, ← Nat.mul_assoc, Nat.mul_comm 128 (128 ^ x.length),
      Nat.add_assoc]

theorem nameKey_lt (hx : ∀ c ∈ x, c.toNat < 128) : nameKey x < 128 ^ x.length := by
  induction x with
  | nil => exact Nat.one_pos
  | cons c x ih =>
    have hc := (toLower_ascii (hx c (.head _))).2
    have hrest := ih (forall_mem_cons.mp hx).2
    show c.toLower.toNat + 128 * nameKey x < 128 ^ (x.length + 1)
    rw [Nat.pow_succ]
    omega

/-- A part of a name has its number in that of the name. -/
theorem holdsKey_of_part {u part r g : List Char} (hne : part ≠ [])
    (hascii : ∀ c ∈ u ++ (part ++ r), c.toNat < 128) (hlength : part.length = g.length)
    (hkey : nameKey part = nameKey g) : holdsKey (u ++ (part ++ r)) g := by
  have hu := nameKey_lt fun c hc => hascii c (mem_append_left _ hc)
  have hpart := nameKey_lt fun c hc => hascii c
    (mem_append_right _ (mem_append_left _ hc))
  refine any_eq_true.mpr ⟨u.length, mem_range.mpr ?_, beq_iff_eq.mpr ?_⟩
  · have hpos := length_pos_iff.mpr hne
    rw [length_append, length_append]
    omega
  · rw [nameKey_append, nameKey_append, Nat.add_mul_div_left _ _ (Nat.pow_pos (by decide)),
      Nat.div_eq_of_lt hu, Nat.zero_add, ← hlength, Nat.add_mul_mod_self_left,
      Nat.mod_eq_of_lt hpart, hkey]

theorem afterName?_of_forall₂ {name w : List Char}
    (h : Forall₂ (fun p c => sameLetter p c) name w) : afterName? name w = some [] := by
  induction h with
  | nil => rfl
  | cons hpc _ ih => rw [afterName?, if_pos hpc, ih]

/-- A name in capitals is held by no name but itself. -/
theorem Function.Spells.eq_of_part {f g : Function} (hf : f ∈ functions) (hg : g ∈ functions)
    (hcapital : allCapital g.name.toList) {v : List Char} (hv : f.Spells v)
    (h : g.name.toList <:+: v) : v = g.name.toList := by
  obtain ⟨u, r, hsplit⟩ := h
  have hapart := all_eq_true.mp functions_cased g hg
  rw [if_pos hcapital, Bool.and_eq_true, Bool.and_eq_true, all_eq_true] at hapart
  have hlength := hv.length_eq
  rcases Bool.or_eq_true_iff.mp (hapart.1.1 f hf) with hsame | hnone
  · rw [beq_iff_eq.mp hsame, ← hsplit] at hlength
    simp only [length_append] at hlength
    have hu : u = [] := length_eq_zero_iff.mp (by omega)
    have hr : r = [] := length_eq_zero_iff.mp (by omega)
    rw [hu, hr, nil_append, append_nil] at hsplit
    exact hsplit.symm
  · have hsame := forall₂_of_afterName? hv
    rw [← hsplit, append_assoc] at hsame
    have hpart := forall₂_take g.name.toList.length (forall₂_drop u.length hsame)
    rw [drop_left, take_left] at hpart
    have hkey := nameKey_of_afterName? (fun c hc => ((name_of_mem hg).2 c hc).2)
      (afterName?_of_forall₂ hpart)
    have hname : f.name.toList = f.name.toList.take u.length
        ++ ((f.name.toList.drop u.length).take g.name.toList.length
          ++ (f.name.toList.drop u.length).drop g.name.toList.length) := by
      rw [take_append_drop, take_append_drop]
    have hfilled : (f.name.toList.drop u.length).take g.name.toList.length ≠ [] := fun hnil => by
      rw [hnil] at hpart
      exact (name_of_mem hg).1 (forall₂_nil_left_iff.mp hpart)
    have hholds := holdsKey_of_part hfilled
      (fun c hc => ((name_of_mem hf).2 c (hname ▸ hc)).2) hpart.length_eq hkey
    rw [← hname] at hholds
    rw [hholds] at hnone
    cases hnone

/-- A name that is not spelled in capitals holds no name in capitals. -/
theorem Function.Spells.not_part {f g : Function} (hf : f ∈ functions) (hg : g ∈ functions)
    (hcapital : allCapital g.name.toList) {v : List Char} (hv : f.Spells v)
    (hsmall : allCapital v = false) : ¬g.name.toList <:+: v := fun h => by
  rw [hv.eq_of_part hf hg hcapital h, hcapital] at hsmall
  cases hsmall

theorem head?_dropWhile_eq (h : Forall₂ Similar y z)
    (hy : ∀ c, y.head? = some c → isWord c = false) : z.head? = y.head? := by
  cases h with
  | nil => rfl
  | @cons c d y z hcd _ =>
    rw [head?_cons, head?_cons, hcd.eq (hy c rfl)]

namespace Respelled

/-- Names in capitals are not touched. -/
theorem inCapitals_eq (hP : ∀ b v, P b v → allCapital v = false) (h : Respelled P b s t)
    {f : Function} (hf : f ∈ functions) (hcapital : IsCapitalName f.name.toList) :
    inCapitals f.name.toList t = inCapitals f.name.toList s := by
  induction h with
  | nil => rfl
  | @char b c s t h ih =>
    by_cases hc : isWord c
    · -- the word that begins here is the same in both texts, and so is the character behind it
      obtain ⟨htake, hdrop⟩ := h.takeWhile_eq (by simp [atWordStart, hc])
      have hplain : ∀ d, (s.dropWhile isWord).head? = some d → isWord d = false := fun d hd => by
        have := head?_dropWhile_not isWord s
        rw [hd] at this
        simpa using this
      have hhead := head?_dropWhile_eq hdrop hplain
      have hs : c :: s = c :: s.takeWhile isWord ++ s.dropWhile isWord := by
        rw [cons_append, takeWhile_append_dropWhile]
      have ht : c :: t = c :: s.takeWhile isWord ++ t.dropWhile isWord := by
        rw [← htake, cons_append, takeWhile_append_dropWhile]
      by_cases hstart : f.name.toList <+: c :: s.takeWhile isWord
      · obtain ⟨r, hr⟩ := hstart
        rw [hs, ht, ← hr, append_assoc, append_assoc, hcapital.inCapitals_self,
          hcapital.inCapitals_self]
        unfold beginsSmall
        rw [head?_append, head?_append, hhead]
      · have hseam : Seam (c :: s.takeWhile isWord) (s.dropWhile isWord) := .inl hplain
        have hseam' : Seam (c :: s.takeWhile isWord) (t.dropWhile isWord) :=
          .inl fun d hd => hplain d (hhead ▸ hd)
        rw [inCapitals_cons, inCapitals_cons, if_neg, if_neg, ih]
        · exact fun hp => hstart (prefix_of_seam hcapital.letters hseam (hs ▸ hp))
        · exact fun hp => hstart (prefix_of_seam hcapital.letters hseam' (ht ▸ hp))
    · rw [Bool.not_eq_true] at hc
      rw [hcapital.inCapitals_cons_of_not hc, hcapital.inCapitals_cons_of_not hc, ih]
  | @name b g v w gap s t hg hv hw _ hPv hPw hgap _ ih =>
    have hskip : ∀ {v : List Char}, g.Spells v → P b v → ∀ s,
        inCapitals f.name.toList (v ++ (gap ++ '(' :: s)) = inCapitals f.name.toList s := by
      intro v hv hPv s
      have hgapseam : ∀ d, (gap ++ '(' :: s).head? = some d → isWord d = false := by
        intro d hd
        cases gap with
        | nil =>
          cases hd
          decide
        | cons e gap =>
          cases hd
          exact isWord_of_isBlank (hgap _ (.head _))
      rw [hcapital.inCapitals_append (.inl hgapseam)
        (hv.not_part hg hf hcapital.capital (hP b v hPv))]
      clear hgapseam
      induction gap with
      | nil => exact hcapital.inCapitals_cons_of_not (by decide)
      | cons e gap ihgap =>
        rw [cons_append, hcapital.inCapitals_cons_of_not (isWord_of_isBlank (hgap e (.head _)))]
        exact ihgap (forall_mem_cons.mp hgap).2
    rw [hskip hv hPv, hskip hw hPw, ih]

end Respelled

/-! ## Cutting texts -/

/-- No word with its blanks and its parenthesis runs from one text into the other. -/
def Cut (x y : List Char) : Prop :=
  ∀ z z' word gap : List Char, z <:+ x → z ≠ [] → z' <+: y → z' ≠ [] →
    (∀ c ∈ word, isWord c) → (∀ c ∈ gap, isBlank c) →
    z ++ z' ≠ word ++ (gap ++ ['('])

theorem Cut.of_cons (h : Cut (c :: x) y) : Cut x y :=
  fun z z' word gap hz => h z z' word gap (hz.trans (suffix_cons c x))

theorem prefix_of_append_concat {z' a : List Char} (hz' : z' ≠ []) (h : z ++ z' = a ++ [c]) :
    z <+: a := by
  obtain ⟨y, d, rfl⟩ := eq_nil_or_concat z' |>.resolve_left hz'
  rw [concat_eq_append, ← append_assoc] at h
  exact ⟨y, (append_inj' h rfl).1⟩

/-- A text can be cut behind a character that is neither of a word nor blank. -/
theorem cut_of_last (h : ∀ c, x.getLast? = some c → isWord c = false ∧ isBlank c = false) :
    Cut x y := by
  intro z z' word gap hz hne _ hz' hword hgap heq
  obtain ⟨c, hc⟩ := Option.isSome_iff_exists.mp (getLast?_isSome.mpr hne)
  have hlast : x.getLast? = some c := by
    obtain ⟨u, rfl⟩ := hz
    rw [getLast?_append, hc, Option.some_or]
  rw [← append_assoc] at heq
  have hmem := (prefix_of_append_concat hz' heq).subset (mem_of_getLast? hc)
  rcases mem_append.mp hmem with hmem | hmem
  · exact absurd (hword c hmem) (by rw [(h c hlast).1]; decide)
  · exact absurd (hgap c hmem) (by rw [(h c hlast).2]; decide)

/-- A name, blanks and a parenthesis hold no character of another kind. -/
theorem notMem_token {v gap : List Char} (hv : ∀ c ∈ v, isWord c)
    (hgap : ∀ c ∈ gap, isBlank c) {d : Char} (hword : isWord d = false)
    (hblank : isBlank d = false) (hparen : d ≠ '(') : d ∉ v ++ (gap ++ ['(']) := by
  intro hmem
  rcases mem_append.mp hmem with hmem | hmem
  · rw [hv d hmem] at hword
    cases hword
  · rcases mem_append.mp hmem with hmem | hmem
    · rw [hgap d hmem] at hblank
      cases hblank
    · exact hparen (mem_singleton.mp hmem)

/-- A text can be cut before a character that is none of a word, not blank and no parenthesis. -/
theorem cut_of_head (h : ∀ c, y.head? = some c → isWord c = false ∧ isBlank c = false ∧ c ≠ '(') :
    Cut x y := by
  intro z z' word gap _ _ hz' hne hword hgap heq
  obtain ⟨c, cs, rfl⟩ := exists_cons_of_ne_nil hne
  obtain ⟨r, rfl⟩ := hz'
  obtain ⟨hplain, hblank, hparen⟩ := h c rfl
  exact notMem_token hword hgap hplain hblank hparen (heq ▸ mem_append_right _ (.head _))

/-- A text can be cut before one without a parenthesis. -/
theorem cut_of_notMem (h : '(' ∉ y) : Cut x y := by
  intro z z' word gap _ _ hz' hne _ _ heq
  have hlast := congrArg getLast? heq
  rw [getLast?_append_of_ne_nil _ hne, ← append_assoc, getLast?_concat] at hlast
  exact h (hz'.subset (mem_of_getLast? hlast))

/-- A text can be cut where a word begins. -/
theorem cut_of_start (hx : ∀ c, x.getLast? = some c → isWord c = false)
    (hy : ∀ c, y.head? = some c → isWord c) : Cut x y := by
  intro z z' word gap hz hne hz' hne' hword hgap heq
  obtain ⟨c, hc⟩ := Option.isSome_iff_exists.mp (getLast?_isSome.mpr hne)
  have hlast : isWord c = false := by
    obtain ⟨u, rfl⟩ := hz
    exact hx c (by rw [getLast?_append, hc, Option.some_or])
  obtain ⟨d, ds, rfl⟩ := exists_cons_of_ne_nil hne'
  have hhead : isWord d := by
    obtain ⟨r, rfl⟩ := hz'
    exact hy d rfl
  rcases append_eq_append_iff.mp heq with ⟨a, rfl, hrest⟩ | ⟨a, rfl, hrest⟩
  · exact absurd (hword c (mem_append_left _ (mem_of_getLast? hc)))
      (by rw [hlast]; decide)
  · -- the first text ends in the blanks, so the second begins with a blank or the parenthesis
    have hmem : d ∈ gap ++ ['('] := hrest ▸ mem_append_right _ (.head _)
    rcases mem_append.mp hmem with hmem | hmem
    · rw [isWord_of_isBlank (hgap d hmem)] at hhead
      cases hhead
    · rw [mem_singleton.mp hmem] at hhead
      exact absurd hhead (by decide)

theorem lastFrom_cons (b : Option Char) (c : Char) (x : List Char) :
    lastFrom b (c :: x) = lastFrom (some c) x := rfl

theorem lastFrom_append (b : Option Char) (x y : List Char) :
    lastFrom b (x ++ y) = lastFrom (lastFrom b x) y := foldl_append

theorem lastFrom_eq (x : List Char) : ∀ b : Option Char, lastFrom b x = x.getLast?.or b := by
  induction x with
  | nil => exact fun b => rfl
  | cons c x ih =>
    intro b
    rw [lastFrom_cons, ih, getLast?_cons]
    cases x.getLast? <;> rfl

namespace Respelled

/-- Respelled texts can be cut at the same place. -/
theorem split (h : Respelled P b (x ++ y) t) (hcut : Cut x y) :
    ∃ x' y', t = x' ++ y' ∧ Respelled P b x x' ∧ Respelled P (lastFrom b x) y y' := by
  generalize hs : x ++ y = s at h
  induction h generalizing x with
  | nil =>
    obtain ⟨rfl, rfl⟩ := append_eq_nil_iff.mp hs
    exact ⟨[], [], rfl, .nil, .nil⟩
  | @char b c s t h ih =>
    cases x with
    | nil =>
      rw [nil_append] at hs
      rw [hs]
      exact ⟨[], c :: t, rfl, .nil, .char h⟩
    | cons d x =>
      rw [cons_append, cons.injEq] at hs
      obtain ⟨x', y', rfl, hx, hy⟩ := ih hcut.of_cons hs.2
      rw [hs.1]
      exact ⟨c :: x', y', rfl, .char hx, hy⟩
  | @name b f v w gap s t hf hv hw hb hPv hPw hgap h ih =>
    rw [append_token] at hs
    rcases append_eq_append_iff.mp hs with ⟨a, ha, rfl⟩ | ⟨a, rfl, rfl⟩
    · by_cases hx : x = []
      · rw [hx, nil_append] at ha
        rw [hx, ← ha, ← append_token]
        exact ⟨[], _, rfl, .nil, .name hf hv hw hb hPv hPw hgap h⟩
      by_cases hne : a = []
      · -- the first text ends with the parenthesis
        rw [hne, append_nil] at ha
        rw [hne, ← ha, append_token]
        refine ⟨w ++ (gap ++ ['(']), t, rfl, .name hf hv hw hb hPv hPw hgap .nil, ?_⟩
        rw [lastFrom_append, lastFrom_append]
        exact h
      · exact absurd ha.symm (hcut x a v gap (suffix_refl x) hx (prefix_append a s) hne
          (hv.letters hf) hgap)
    · obtain ⟨x', y', rfl, hx, hy⟩ := ih (fun z z' word gap hz => hcut z z' word gap
        (hz.trans (suffix_append _ a))) rfl
      refine ⟨w ++ (gap ++ ['(']) ++ x', y', (append_token ..).trans (append_assoc ..).symm, ?_, ?_⟩
      · rw [← append_token, ← append_token]
        exact .name hf hv hw hb hPv hPw hgap hx
      · rw [lastFrom_append, lastFrom_append, lastFrom_append]
        exact hy

theorem append {x' y' : List Char} (hx : Respelled P b x x')
    (hy : Respelled P (lastFrom b x) y y') : Respelled P b (x ++ y) (x' ++ y') := by
  induction hx with
  | nil => exact hy
  | char _ ih => exact .char (ih hy)
  | @name b f v w gap s t hf hv hw hb hPv hPw hgap _ ih =>
    rw [lastFrom_append, lastFrom_append] at hy
    have hrest := ih hy
    rw [append_assoc, append_assoc, append_assoc, append_assoc]
    exact .name hf hv hw hb hPv hPw hgap hrest

/-- A character that is none of a word is not respelled. -/
theorem cons_inv (hc : isWord c = false) (h : Respelled P b (c :: s) t) :
    ∃ t', t = c :: t' ∧ Respelled P (some c) s t' := by
  generalize hcs : c :: s = u at h
  cases h with
  | nil => cases hcs
  | char h =>
    cases hcs
    exact ⟨_, rfl, h⟩
  | name hf hv =>
    obtain ⟨d, ds, rfl⟩ := exists_cons_of_ne_nil (ne_nil_of_afterName? hf hv)
    cases hcs
    rw [hv.letters hf c (.head _)] at hc
    cases hc

/-- The parts of a text around a call and those of a respelled one. -/
theorem of_stands (h : Respelled P none s t) {c : Call} {front word gap inside back : List Char}
    (hs : c.Stands s front word gap inside back) (hne : word ≠ []) :
    ∃ front' back', Respelled P none front front'
      ∧ Respelled P (some '(') inside (c.inside t) ∧ Respelled P (some ')') back back'
      ∧ Respelled P (some '(') (s.drop (c.opening + 1)) (t.drop (c.opening + 1))
      ∧ Respelled P (lastFrom none front) (c.text s) (c.text t)
      ∧ ∀ sql, c.replace sql t = front' ++ (sql ++ back') := by
  have htext : s = front ++ ((word ++ (gap ++ ['('])) ++ (inside ++ ')' :: back)) := by
    rw [hs.text]
    simp
  have hstart : ∀ d, front.getLast? = some d → isWord d = false := fun d hd => by
    have := hs.starts
    rw [hd] at this
    simpa [atWordStart] using this
  have hword : ∀ d, ((word ++ (gap ++ ['('])) ++ (inside ++ ')' :: back)).head? = some d →
      isWord d := by
    obtain ⟨e, es, rfl⟩ := exists_cons_of_ne_nil hne
    intro d hd
    cases hd
    exact hs.letters e (.head _)
  rw [htext] at h
  obtain ⟨front', rest, rfl, hfront, h⟩ := h.split (cut_of_start hstart hword)
  obtain ⟨token, rest, rfl, htoken, h⟩ := h.split (cut_of_last fun d hd => by
    rw [← append_assoc, getLast?_concat, Option.some.injEq] at hd
    rw [← hd]
    decide)
  have hopen : lastFrom (lastFrom none front) (word ++ (gap ++ ['('])) = some '(' := by
    rw [lastFrom_append, lastFrom_append]
    rfl
  rw [hopen] at h
  have hwhole := h
  obtain ⟨inside', rest, rfl, hinside, h⟩ := h.split (cut_of_head fun d hd => by
    rw [head?_cons, Option.some.injEq] at hd
    rw [← hd]
    decide)
  obtain ⟨back', rfl, hback⟩ := h.cons_inv (by decide)
  have hlength : (front' ++ token).length = c.opening + 1 := by
    rw [length_append, hfront.length_eq, htoken.length_eq, hs.opening_eq]
    simp
    omega
  have hdrop : (front' ++ (token ++ (inside' ++ ')' :: back'))).drop (c.opening + 1)
      = inside' ++ ')' :: back' := by
    rw [← append_assoc, ← hlength, drop_left]
  have hsplit : front' ++ (token ++ (inside' ++ ')' :: back'))
      = front' ++ (token ++ (inside' ++ [')']) ++ back') := by simp
  have hclose : c.closing - (c.opening + 1) = inside'.length := by
    rw [hs.closing_eq, hs.opening_eq, hinside.length_eq]
    omega
  have hcall : c.closing + 1 - c.start = (token ++ (inside' ++ [')'])).length := by
    rw [hs.closing_eq, hs.start_eq, length_append, htoken.length_eq]
    simp [hinside.length_eq]
    omega
  have hstart : c.start = front'.length := hs.start_eq.trans hfront.length_eq.symm
  have hbehind : c.closing + 1 = front'.length + (token ++ (inside' ++ [')'])).length := by
    rw [← hcall, ← hstart, hs.closing_eq, hs.start_eq]
    omega
  refine ⟨front', back', hfront, ?_, hback, ?_, ?_, fun sql => ?_⟩
  · rw [Call.inside, hdrop, hclose, take_left]
    exact hinside
  · rw [hdrop, hs.drop_opening]
    exact hwhole
  · have htext : c.text s = word ++ (gap ++ ['(']) ++ (inside ++ [')']) := by
      rw [hs.text_eq]
      simp
    rw [htext, Call.text, hsplit, hcall, hstart, drop_left, take_left]
    refine htoken.append ?_
    rw [hopen]
    exact hinside.append (.char .nil)
  · rw [Call.replace, hsplit, hbehind, hstart, take_left, drop_length_add_append, drop_left,
      append_assoc]

/-! ## The next call -/

variable (hP : ∀ b v, P b v → allCapital v = false)
include hP

/-- If no spelling is in capitals, respelled texts have the same calls. -/
theorem aligned (h : Respelled P none s t) : Aligned id s t where
  mono := Iff.rfl
  sites := by
    refine (h.sites_forall₂ 0).imp fun x y hxy =>
      ⟨hxy.start, hxy.opening, fun f hf => hxy.isFor_eq hf, fun f _ => ?_⟩
    rcases hxy.word with hword | ⟨g, -, b, -, -, hx, hy⟩
    · rw [hword]
    · rw [hP b _ hx, hP b _ hy]
      rfl
  closing := fun x _ => by
    rw [Option.map_id]
    exact matching?_similar h.similar x.opening
  waits := fun c hc => by
    obtain ⟨front, word, gap, inside, back, hs, hnamed⟩ := mem_openCalls_iff.mp hc
    have hne := ne_nil_of_afterName? hnamed.listed hnamed.named
    obtain ⟨-, -, -, hinside, -, hrest, -⟩ := h.of_stands hs hne
    have hany : ∀ f ∈ functions, ∀ {xs ys : List Site}, Forall₂ (Site.Alike P) xs ys →
        ys.any (·.isFor f.name.toList) = xs.any (·.isFor f.name.toList) := by
      intro f hf xs ys hsites
      induction hsites with
      | nil => rfl
      | cons hxy _ ih => rw [any_cons, any_cons, ih, hxy.isFor_eq hf]
    rw [← hs.inside_eq] at hinside
    have hsites := hinside.sites_forall₂ 0
    have hopen : ∀ x, sites (some '(') 0 x = sites none 0 x := sites_of_atWordStart (by decide) 0
    rw [hopen, hopen] at hsites
    exact Call.waits_congr (fun f hf => hany f hf hsites) fun f hf hcapital =>
      hrest.inCapitals_eq hP hf hcapital

theorem openCalls_eq (h : Respelled P none s t) : openCalls t = openCalls s :=
  (h.aligned hP).openCalls_eq.trans (map_id _)

/-- The same call is converted next. -/
theorem nextCall?_eq (h : Respelled P none s t) : nextCall? t = nextCall? s :=
  (h.aligned hP).nextCall?_eq.trans (congrFun Option.map_id _)

end Respelled

end Replatform.Formula

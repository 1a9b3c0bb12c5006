import Replatform.Proofs.Formula.Layout
/-!
# Drafts

While the calls of a formula are converted, its text is a mixture: some calls are converted, the
others are as they were written, in any combination that the order of conversion leads to. A
`Draft` of an expression is such a text, with the number of the calls that are still to be
converted. Nothing is asked about the order, so that the choice of the next call does not matter.

Two facts carry the argument. The live sites of a draft are its unconverted calls, one each
(`Draft.shows`). And a draft stays one when any of them is converted, which is what the sites
are collected with (`Redex`).
-/

namespace Replatform.Formula

open List
open Text (isWord isBlank)

variable {x : List Char} {c : Char} {n : Nat}

/-! ## Texts that the scans pass over -/

/-- Whether the scans for parentheses and commas take no notice of `c`. -/
def isPlain (c : Char) : Bool := !isQuote c && c != '(' && c != ')' && c != ','

/-- Plain text is scanned without effect. -/
theorem scan_plain (hx : ∀ c ∈ x, isPlain c) (depth : Nat) :
    through (depth, none) x = some (depth, none) ∧
      uncut (depth : Int) none x = some ((depth : Int), none) := by
  induction x with
  | nil => exact ⟨rfl, rfl⟩
  | cons c x ih =>
    obtain ⟨hthrough, huncut⟩ := ih (forall_mem_cons.mp hx).2
    have hc := hx c (.head _)
    simp only [isPlain, Bool.and_eq_true, Bool.not_eq_true', bne_iff_ne] at hc
    obtain ⟨⟨⟨hquote, hopen⟩, hclose⟩, hcomma⟩ := hc
    constructor
    · rw [through_cons]
      simpa [scanStep, hquote, hopen, hclose] using hthrough
    · rw [uncut]
      simpa [nextDepth, nextQuote, hquote, hopen, hclose, hcomma] using huncut

/-- Inside a literal, the scans wait for its quote. -/
theorem scan_quoted {q : Char} (hx : q ∉ x) (depth : Nat) :
    through (depth, some q) x = some (depth, some q) ∧
      uncut (depth : Int) (some q) x = some ((depth : Int), some q) := by
  induction x with
  | nil => exact ⟨rfl, rfl⟩
  | cons c x ih =>
    obtain ⟨hthrough, huncut⟩ := ih fun h => hx (.tail _ h)
    have hc : c ≠ q := fun h => hx (h ▸ mem_cons_self ..)
    constructor
    · rw [through_cons]
      simpa [scanStep, nextQuote, hc] using hthrough
    · rw [uncut]
      simpa [nextDepth, nextQuote, hc] using huncut

theorem isPlain_of_isWord (h : isWord c) : isPlain c := by
  have hne : ∀ d : Char, isWord d = false → c ≠ d := fun d hd e => by simp [e, hd] at h
  have hdouble : c ≠ '\x22' := hne _ (by decide)
  have hsingle : c ≠ '\x27' := hne _ (by decide)
  have hopen : c ≠ '(' := hne _ (by decide)
  have hclose : c ≠ ')' := hne _ (by decide)
  have hcomma : c ≠ ',' := hne _ (by decide)
  simp [isPlain, isQuote, hdouble, hsingle, hopen, hclose, hcomma]

theorem isWord_of_isAlphanum (h : c.isAlphanum) : isWord c := by
  have hascii : c.toNat < 128 := by
    have hbelow : ∀ d : Char, d.toNat < 128 → c.val ≤ d.val → c.toNat < 128 := fun d hd hle =>
      Nat.lt_of_le_of_lt (UInt32.le_iff_toNat_le.mp hle) hd
    rcases Bool.or_eq_true_iff.mp h with halpha | hdigit
    · rcases Bool.or_eq_true_iff.mp halpha with hupper | hlower
      · exact hbelow 'Z' (by decide) (of_decide_eq_true hupper).2
      · exact hbelow 'z' (by decide) (of_decide_eq_true (Bool.and_eq_true_iff.mp hlower).2)
    · exact hbelow '9' (by decide) (of_decide_eq_true (Bool.and_eq_true_iff.mp hdigit).2)
  simp [isWord, Text.isLetter, hascii, h]

/-- A text in double quotes, without one inside, is an argument. -/
theorem argument_quoted (hx : '\x22' ∉ x) : Argument ('\x22' :: (x ++ ['\x22'])) := by
  obtain ⟨hthrough, huncut⟩ := scan_quoted hx 0
  refine ⟨⟨?_, ?_, ?_, cons_ne_nil _ _⟩, ?_⟩
  · show uncut 0 (some '\x22') (x ++ ['\x22']) = some (0, none)
    rw [uncut_append, show uncut 0 (some '\x22') x = _ from huncut]
    rfl
  · intro c hc
    rw [head?_cons, Option.some.injEq] at hc
    subst hc
    decide
  · intro c hc
    rw [← cons_append, getLast?_concat, Option.some.injEq] at hc
    subst hc
    decide
  · show through (0, some '\x22') (x ++ ['\x22']) = some (0, none)
    rw [through_append, hthrough]
    rfl

theorem argument_word (hx : ∀ c ∈ x, isWord c) (hne : x ≠ []) : Argument x := by
  obtain ⟨hthrough, huncut⟩ := scan_plain (fun c hc => isPlain_of_isWord (hx c hc)) 0
  exact ⟨⟨huncut, fun c hc => isBlank_of_isWord (hx c (mem_of_head? hc)),
    fun c hc => isBlank_of_isWord (hx c (mem_of_getLast? hc)), hne⟩, hthrough⟩

/-- Two arguments with an operator between them are an argument. -/
theorem argument_binary (op : Operator) {y : List Char} (hx : Argument x) (hy : Argument y) :
    Argument (x ++ ' ' :: op.sign :: ' ' :: y) := by
  have hplain : [' ', op.sign, ' '].all isPlain := by
    cases op <;> decide
  obtain ⟨hthrough, huncut⟩ := scan_plain (all_eq_true.mp hplain) 0
  have hsplit : x ++ ' ' :: op.sign :: ' ' :: y = x ++ ([' ', op.sign, ' '] ++ y) := rfl
  rw [hsplit]
  refine ⟨⟨?_, ?_, ?_, ?_⟩, ?_⟩
  · rw [uncut_append, hx.uncut, Option.bind_some, uncut_append,
      show uncut 0 none [' ', op.sign, ' '] = _ from huncut]
    exact hy.uncut
  · rw [head?_append_of_ne_nil _ hx.filled]
    exact hx.first
  · rw [getLast?_append_of_ne_nil _ (by simp), getLast?_append_of_ne_nil _ hy.filled]
    exact hy.last
  · exact append_ne_nil_of_left_ne_nil hx.filled _
  · rw [through_append, hx.closed, Option.bind_some, through_append, hthrough]
    exact hy.closed

theorem argument_call (f : Callee) {s : Fin f.count → List Char} (hs : ∀ i, Argument (s i)) :
    Argument (writeCall f.function.name.toList (List.ofFn s)) := by
  obtain ⟨hne, hname⟩ := name_of_mem f.listed
  have hplain := fun depth => scan_plain (fun c hc => isPlain_of_isWord (hname c hc).1) depth
  -- the call has the layout of a counterpart with the name of the function
  have hfill : writeCall f.function.name.toList (List.ofFn s)
      = (Target.call f.function.name).fill (List.ofFn s) := rfl
  have hsolid : Solid f.count ((Target.call f.function.name).layout f.count) := by
    apply solid_call
    · show (f.function.name ++ "(").toList.head?.any (!isBlank ·)
      rw [String.toList_append, head?_append_of_ne_nil _ hne, head?_eq_some_head hne]
      simp [isBlank_of_isWord (hname _ (head_mem hne)).1]
    · rw [String.toList_append, through_append, (hplain 0).1]
      rfl
    · rw [String.toList_append, uncut_append, show uncut 0 none _ = _ from (hplain 0).2]
      rfl
  rw [hfill, fill_eq_spread]
  apply hsolid.argument_spread
  intro i hi
  rw [valueAt_of_lt s hi]
  exact hs _

/-! ## Drafts -/

/-- `Draft e k s`: the text `s` is the expression `e` with some of its calls converted and `k` of
them not. -/
inductive Draft : Expression → Nat → List Char → Prop
  | field (name : FieldName) : Draft (.field name) 0 ('\x22' :: (name.chars ++ ['\x22']))
  | number (n : Numeral) : Draft (.number n) 0 n.digits
  | binary (op : Operator) {left right : Expression} {j k : Nat} {x y : List Char} :
    Draft left j x → Draft right k y →
      Draft (.binary op left right) (j + k) (x ++ ' ' :: op.sign :: ' ' :: y)
  | written (f : Callee) {args : Fin f.count → Expression} {k : Fin f.count → Nat}
    {s : Fin f.count → List Char} : (∀ i, Draft (args i) (k i) (s i)) →
      Draft (.call f args) ((∑ i, k i) + 1) (writeCall f.function.name.toList (List.ofFn s))
  | converted (f : Callee) {args : Fin f.count → Expression} {k : Fin f.count → Nat}
    {s : Fin f.count → List Char} : (∀ i, Draft (args i) (k i) (s i)) →
      Draft (.call f args) (∑ i, k i) (f.function.target.fill (List.ofFn s))

variable (name : FieldName)

theorem FieldName.no_quote : '\x22' ∉ name.chars := fun h => absurd (name.plain _ h) (by decide)

theorem FieldName.no_parenthesis : '(' ∉ name.chars := fun h => absurd (name.plain _ h) (by decide)

/-- The name of a field is made of words and spaces. -/
theorem FieldName.isWord_of_mem (h : c ∈ name.chars) : isWord c ∨ c = ' ' := by
  have hc := name.plain c h
  simp only [isFieldChar, Bool.or_eq_true, beq_iff_eq] at hc
  rcases hc with (halnum | rfl) | rfl
  · exact Or.inl (isWord_of_isAlphanum halnum)
  · exact Or.inl (by decide)
  · exact Or.inr rfl

theorem Numeral.isWord_of_mem (n : Numeral) (h : c ∈ n.digits) : isWord c :=
  isWord_of_isAlphanum (by simp [Char.isAlphanum, n.plain c h])

namespace Draft

variable {e : Expression} {k : Nat} {s : List Char}

/-- A draft can stand as an argument. -/
theorem argument (h : Draft e k s) : Argument s := by
  induction h with
  | field name => exact argument_quoted name.no_quote
  | number n => exact argument_word (fun c hc => n.isWord_of_mem hc) n.filled
  | binary op _ _ hx hy => exact argument_binary op hx hy
  | written f _ ih => exact argument_call f ih
  | @converted f args k s _ ih =>
    rw [fill_eq_spread]
    apply f.fitting.argument_spread
    intro i hi
    rw [valueAt_of_lt s hi]
    exact ih _

/-- A draft with nothing left to convert is the translation. -/
theorem eq_sql (h : Draft e k s) (hk : k = 0) : s = e.sql := by
  induction h with
  | field name => rfl
  | number n => rfl
  | binary op _ _ hx hy =>
    rw [hx (by omega), hy (by omega)]
    rfl
  | written f _ _ => exact absurd hk (by omega)
  | @converted f args k s _ ih =>
    have hs : s = fun i => (args i).sql := by
      funext i
      exact ih i ((Finset.sum_eq_zero_iff.mp hk) i (Finset.mem_univ i))
    rw [hs]
    rfl

end Draft

/-! ## Live sites -/

/-- In front of what stops words and calls, the text `s` has `k` live sites of its own, all of them
with the property `P`, which also knows where the text begins. -/
def Shows (s : List Char) (k : Nat) (P : Nat → Site → Prop) : Prop :=
  ∀ (pos : Nat) (z : List Char), Stops z →
    ∃ found, liveSites pos (s ++ z) = found ++ liveSites (pos + s.length) z ∧
      found.length = k ∧ ∀ site ∈ found, P pos site

/-- A text without an opening parenthesis has no live sites. -/
theorem shows_of_no_parenthesis (hx : '(' ∉ x) (P : Nat → Site → Prop) : Shows x 0 P := by
  intro pos z hz
  refine ⟨[], ?_, rfl, by simp⟩
  rw [liveSites_append hz, liveSites, sites_of_no_parenthesis hx]
  rfl

/-- The live sites of tidy pieces are those of the arguments in their places. -/
theorem shows_spread {s : Nat → List Char} {k : Nat → Nat} {P : Nat → Nat → Site → Prop}
    {ps : List Piece} (htidy : tidy ps) (h : ∀ i ∈ places ps, Shows (s i) (k i) (P i)) :
    Shows (spread ps s) ((places ps).map k).sum fun pos site =>
      ∃ qs i qs', ps = qs ++ .arg i :: qs' ∧ P i (pos + (spread qs s).length) site := by
  induction ps with
  | nil =>
    intro pos z hz
    exact ⟨[], rfl, rfl, by simp⟩
  | cons p ps ih =>
    intro pos z hz
    cases p with
    | text t =>
      -- The text has no live words, and no word runs out of it.
      simp only [tidy, Bool.and_eq_true, all_eq_true] at htidy
      obtain ⟨⟨hdead, hend⟩, hps⟩ := htidy
      have hseam : Seam t.toList (spread ps s ++ z) := by
        rcases Bool.or_eq_true_iff.mp hend with hempty | hlast
        · rw [isEmpty_iff.mp hempty]
          exact hz.seam _
        · obtain ⟨c, hc, hw⟩ := (Option.any_eq_true _ _).mp hlast
          exact Or.inr ⟨c, hc, by simpa using hw⟩
      obtain ⟨found, hfound, hlength, hsites⟩ := ih hps h (pos + t.toList.length) z hz
      refine ⟨found, ?_, hlength, ?_⟩
      · rw [spread_text, append_assoc,
          liveSites_text hseam fun w hw => isLive_of_isDead (hdead w hw), hfound,
          length_append, Nat.add_assoc]
      · intro site hsite
        obtain ⟨qs, i, qs', hsplit, hP⟩ := hsites site hsite
        refine ⟨.text t :: qs, i, qs', by rw [hsplit]; rfl, ?_⟩
        rwa [spread_text, length_append, ← Nat.add_assoc]
    | arg i =>
      -- What stands behind an argument stops its words and calls.
      simp only [tidy, Bool.and_eq_true] at htidy
      obtain ⟨hstop, hps⟩ := htidy
      obtain ⟨own, hown, hownLength, hownSites⟩ :=
        h i (.head _) pos _ (stops_of_stopsPieces hstop s hz)
      obtain ⟨found, hfound, hlength, hsites⟩ :=
        ih hps (forall_mem_cons.mp h).2 (pos + (s i).length) z hz
      refine ⟨own ++ found, ?_, ?_, ?_⟩
      · rw [spread_arg, append_assoc, hown, hfound, append_assoc, length_append, Nat.add_assoc]
      · rw [length_append, hownLength, hlength]
        rfl
      · intro site hsite
        rcases mem_append.mp hsite with hhere | hthere
        · exact ⟨[], i, ps, rfl, hownSites site hhere⟩
        · obtain ⟨qs, j, qs', hsplit, hP⟩ := hsites site hthere
          refine ⟨.arg i :: qs, j, qs', by rw [hsplit]; rfl, ?_⟩
          rwa [spread_arg, length_append, ← Nat.add_assoc]

/-- With one text replaced in its place, the pieces around it stay as they are. -/
theorem spread_update {qs qs' : List Piece} {i : Nat} (hi : i < n)
    (hnodup : (places (qs ++ .arg i :: qs')).Nodup) (s : Fin n → List Char) (t : List Char) :
    spread (qs ++ .arg i :: qs') (valueAt (Function.update s ⟨i, hi⟩ t))
      = spread qs (valueAt s) ++ (t ++ spread qs' (valueAt s)) := by
  have hother : ∀ j, j ≠ i → valueAt (Function.update s ⟨i, hi⟩ t) j = valueAt s j := by
    intro j hj
    unfold valueAt
    split
    next hlt => exact Function.update_of_ne (fun h => hj (Fin.mk.inj h)) ..
    next => rfl
  rw [places_append, places, nodup_middle, nodup_cons, mem_append, not_or] at hnodup
  obtain ⟨⟨hqs, hqs'⟩, -⟩ := hnodup
  rw [spread_append, spread_arg, valueAt_of_lt _ hi, Function.update_self,
    spread_congr fun j hj => hother j (ne_of_mem_of_not_mem hj hqs),
    spread_congr fun j hj => hother j (ne_of_mem_of_not_mem hj hqs')]

theorem Shows.imp {s : List Char} {k : Nat} {P Q : Nat → Site → Prop} (h : Shows s k P)
    (hPQ : ∀ pos site, P pos site → Q pos site) : Shows s k Q := by
  intro pos z hz
  obtain ⟨found, hfound, hlength, hsites⟩ := h pos z hz
  exact ⟨found, hfound, hlength, fun site hsite => hPQ pos site (hsites site hsite)⟩

/-- The live sites of arguments in their places. Of each is said in which argument it is, and what
stands around the argument. -/
theorem shows_args {s : Fin n → List Char} {k : Fin n → Nat} {P : Fin n → Nat → Site → Prop}
    (h : ∀ i, Shows (s i) (k i) (P i)) {ps : List Piece} (htidy : tidy ps)
    (hplaces : (places ps).Perm (range n)) :
    Shows (spread ps (valueAt s)) (∑ i, k i) fun pos site =>
      ∃ front back i, P i (pos + front.length) site ∧
        spread ps (valueAt s) = front ++ (s i ++ back) ∧
        ∀ t, spread ps (valueAt (Function.update s i t)) = front ++ (t ++ back) := by
  have hlt : ∀ i ∈ places ps, i < n := fun i hi => mem_range.mp (hplaces.subset hi)
  have hcount : ((places ps).map (valueAt k)).sum = ∑ i, k i := by
    rw [(hplaces.map (valueAt k)).sum_eq, map_range_valueAt, sum_ofFn]
  have hshows := shows_spread (s := valueAt s) (k := valueAt k)
    (P := fun i pos site => ∃ hi : i < n, P ⟨i, hi⟩ pos site) htidy (by
      intro i hi
      rw [valueAt_of_lt s (hlt i hi), valueAt_of_lt k (hlt i hi)]
      exact (h ⟨i, hlt i hi⟩).imp fun _ _ hP => ⟨hlt i hi, hP⟩)
  rw [hcount] at hshows
  refine hshows.imp ?_
  rintro pos site ⟨qs, i, qs', hsplit, hi, hP⟩
  refine ⟨spread qs (valueAt s), spread qs' (valueAt s), ⟨i, hi⟩, hP, ?_, ?_⟩
  · rw [hsplit, spread_append, spread_arg, valueAt_of_lt s hi]
  · intro t
    have hnodup : (places ps).Nodup := hplaces.nodup_iff.mpr nodup_range
    rw [hsplit] at hnodup ⊢
    exact spread_update hi hnodup s t

/-- The live sites on both sides of an operator. -/
theorem shows_binary (op : Operator) {y : List Char} {j k : Nat} {P Q : Nat → Site → Prop}
    (hx : Shows x j P) (hy : Shows y k Q) :
    Shows (x ++ ' ' :: op.sign :: ' ' :: y) (j + k) fun pos site =>
      P pos site ∨ Q (pos + (x ++ [' ', op.sign, ' ']).length) site := by
  intro pos z hz
  have hstop : Stops ([' ', op.sign, ' '] ++ (y ++ z)) :=
    stops_of_stopsText (by cases op <;> decide) _
  have hwords : wordsFrom none [' ', op.sign, ' '] = [] := by cases op <;> decide
  have hseam : Seam [' ', op.sign, ' '] (y ++ z) := Or.inr ⟨' ', rfl, by decide⟩
  have hsplit : x ++ ' ' :: op.sign :: ' ' :: y = x ++ [' ', op.sign, ' '] ++ y := by
    rw [append_assoc]
    rfl
  obtain ⟨first, hfirst, hfirstLength, hfirstSites⟩ := hx pos _ hstop
  obtain ⟨second, hsecond, hsecondLength, hsecondSites⟩ :=
    hy (pos + (x ++ [' ', op.sign, ' ']).length) z hz
  refine ⟨first ++ second, ?_, ?_, ?_⟩
  · rw [hsplit, append_assoc, append_assoc, hfirst, liveSites_text hseam (by simp [hwords]),
      Nat.add_assoc, ← length_append, hsecond, append_assoc, Nat.add_assoc, ← length_append]
  · rw [length_append, hfirstLength, hsecondLength]
  · intro site hsite
    rcases mem_append.mp hsite with hl | hr
    · exact Or.inl (hfirstSites site hl)
    · exact Or.inr (hsecondSites site hr)

/-- The live sites of a call that is not converted: its own, and those of its arguments. -/
theorem shows_call (f : Callee) {s : Fin f.count → List Char} {k : Fin f.count → Nat}
    {P : Fin f.count → Nat → Site → Prop} (h : ∀ i, Shows (s i) (k i) (P i)) :
    Shows (writeCall f.function.name.toList (List.ofFn s)) ((∑ i, k i) + 1) fun pos site =>
      site = ⟨pos, f.function.name.toList, pos + f.function.name.toList.length⟩ ∨
      ∃ front back i, P i (pos + front.length) site ∧
        writeCall f.function.name.toList (List.ofFn s) = front ++ (s i ++ back) ∧
        ∀ t, writeCall f.function.name.toList (List.ofFn (Function.update s i t))
          = front ++ (t ++ back) := by
  obtain ⟨hne, hname⟩ := name_of_mem f.listed
  have hargs := shows_args h (tidy_argPieces (range f.count)) (by rw [places_argPieces])
  intro pos z hz
  obtain ⟨found, hfound, hlength, hsites⟩ := hargs (pos + f.function.name.toList.length + 1) z hz
  refine ⟨⟨pos, f.function.name.toList, pos + f.function.name.toList.length⟩ :: found, ?_, ?_, ?_⟩
  · rw [writeCall_eq_spread, append_assoc, append_assoc, singleton_append,
      liveSites_call hne (fun c hc => (hname c hc).1) (isLive_name f.listed), hfound,
      length_append, length_append, length_singleton, cons_append]
    simp only [Nat.add_assoc]
  · rw [length_cons, hlength]
  · intro site hsite
    rcases mem_cons.mp hsite with rfl | hsite
    · exact Or.inl rfl
    · obtain ⟨front, back, i, hP, htext, hupdate⟩ := hsites site hsite
      refine Or.inr ⟨f.function.name.toList ++ ['('] ++ front, back, i, ?_, ?_, ?_⟩
      · rw [length_append, length_append, ← Nat.add_assoc, ← Nat.add_assoc]
        exact hP
      · rw [writeCall_eq_spread, htext]
        exact (append_assoc ..).symm
      · intro t
        rw [writeCall_eq_spread, hupdate]
        exact (append_assoc ..).symm

/-! ## Redexes -/

/-- A call in a text that can be converted: what it calls and with which arguments, and what stands
around it. -/
structure Redex where
  callee : Callee
  args : Fin callee.count → List Char
  arguments : ∀ i, Argument (args i)
  front : List Char
  back : List Char

namespace Redex

def text (r : Redex) : List Char :=
  r.front ++ (writeCall r.callee.function.name.toList (List.ofFn r.args) ++ r.back)

/-- The text with the call converted. -/
def next (r : Redex) : List Char :=
  r.front ++ (r.callee.function.target.fill (List.ofFn r.args) ++ r.back)

/-- The site of the call, in a text at position `pos`. -/
def site (r : Redex) (pos : Nat) : Site :=
  ⟨pos + r.front.length, r.callee.function.name.toList,
    pos + r.front.length + r.callee.function.name.toList.length⟩

/-- The same call in a longer text. -/
def within (r : Redex) (front back : List Char) : Redex :=
  { r with front := front ++ r.front, back := r.back ++ back }

variable (r : Redex) (front back : List Char)

theorem text_within : (r.within front back).text = front ++ (r.text ++ back) := by
  simp only [text, within, append_assoc]

theorem next_within : (r.within front back).next = front ++ (r.next ++ back) := by
  simp only [next, within, append_assoc]

theorem site_within (pos : Nat) : (r.within front back).site pos = r.site (pos + front.length) := by
  simp only [site, within, length_append, Nat.add_assoc]

end Redex

/-- In a draft `s` at position `pos`, the site is that of a call that is still to be converted: with
the call converted, the text is a draft with one call less to convert. -/
def IsRedex (e : Expression) (k : Nat) (s : List Char) (pos : Nat) (site : Site) : Prop :=
  ∃ (r : Redex) (left : Nat), s = r.text ∧ site = r.site pos ∧ k = left + 1 ∧ Draft e left r.next

/-- A call that is still to be converted in a part of a draft is one of the whole draft. -/
theorem IsRedex.within {e e' : Expression} {k k' pos : Nat} {s front back : List Char} {site : Site}
    (h : IsRedex e k s (pos + front.length) site) (extra : Nat) (hk : k' = extra + k)
    (hdraft : ∀ left t, Draft e left t → Draft e' (extra + left) (front ++ (t ++ back))) :
    IsRedex e' k' (front ++ (s ++ back)) pos site := by
  obtain ⟨r, left, rfl, rfl, rfl, hnext⟩ := h
  refine ⟨r.within front back, extra + left, (r.text_within ..).symm, (r.site_within ..).symm, hk,
    ?_⟩
  rw [r.next_within]
  exact hdraft left _ hnext

/-- The arguments of a call, when one of them is replaced by another draft. -/
theorem drafts_update {args : Fin n → Expression} {k : Fin n → Nat} {s : Fin n → List Char}
    (h : ∀ j, Draft (args j) (k j) (s j)) {i : Fin n} {left : Nat} {t : List Char}
    (hi : Draft (args i) left t) (j : Fin n) :
    Draft (args j) (Function.update k i left j) (Function.update s i t j) := by
  by_cases hj : j = i
  · subst hj
    rw [Function.update_self, Function.update_self]
    exact hi
  · rw [Function.update_of_ne hj, Function.update_of_ne hj]
    exact h j

theorem sum_update (k : Fin n → Nat) (i : Fin n) (left : Nat) :
    ∑ j, Function.update k i left j = (∑ j ∈ Finset.univ \ {i}, k j) + left := by
  rw [Finset.sum_update_of_mem (Finset.mem_univ i), Nat.add_comm]

theorem sum_eq_rest_add (k : Fin n → Nat) (i : Fin n) :
    ∑ j, k j = (∑ j ∈ Finset.univ \ {i}, k j) + k i := by
  rw [← sum_update, Function.update_eq_self]

/-- The live sites of a draft are those of the calls that are still to be converted. -/
theorem Draft.shows {e : Expression} {k : Nat} {s : List Char} (h : Draft e k s) :
    Shows s k (IsRedex e k s) := by
  induction h with
  | field name =>
    apply shows_of_no_parenthesis
    simpa using name.no_parenthesis
  | number n =>
    apply shows_of_no_parenthesis
    exact fun h => absurd (n.isWord_of_mem h) (by decide)
  | @binary op left right j k x y hx hy ihx ihy =>
    refine (shows_binary op ihx ihy).imp ?_
    rintro pos site (hsite | hsite)
    · have hleft : ∀ i t, Draft left i t →
          Draft (.binary op left right) (k + i) ([] ++ (t ++ ' ' :: op.sign :: ' ' :: y)) := by
        intro i t ht
        rw [Nat.add_comm]
        exact .binary op ht hy
      exact hsite.within k (Nat.add_comm j k) hleft
    · have hright : ∀ i t, Draft right i t →
          Draft (.binary op left right) (j + i) (x ++ [' ', op.sign, ' '] ++ (t ++ [])) := by
        intro i t ht
        rw [append_assoc, append_nil]
        exact .binary op hx ht
      have hwhole := hsite.within j rfl hright
      rwa [append_assoc, append_nil] at hwhole
  | @written f args k s hs ih =>
    refine (shows_call f ih).imp ?_
    rintro pos site (rfl | ⟨front, back, i, hsite, htext, hupdate⟩)
    · -- the call itself
      refine ⟨⟨f, s, fun i => (hs i).argument, [], []⟩, _, (append_nil _).symm, rfl, rfl, ?_⟩
      show Draft _ _ (f.function.target.fill (List.ofFn s) ++ [])
      rw [append_nil]
      exact .converted f hs
    · -- a call in one of the arguments: the others and the call itself are left as they are
      rw [htext]
      apply hsite.within ((∑ j ∈ Finset.univ \ {i}, k j) + 1)
      · rw [sum_eq_rest_add k i]
        omega
      · intro left t ht
        rw [← hupdate, Nat.add_right_comm, ← sum_update]
        exact .written f (drafts_update hs ht)
  | @converted f args k s hs ih =>
    rw [fill_eq_spread]
    refine (shows_args ih f.fitting.tidy f.fitting.places).imp ?_
    rintro pos site ⟨front, back, i, hsite, htext, hupdate⟩
    rw [htext]
    apply hsite.within (∑ j ∈ Finset.univ \ {i}, k j) (sum_eq_rest_add k i)
    intro left t ht
    rw [← hupdate, ← fill_eq_spread, ← sum_update]
    exact .converted f (drafts_update hs ht)

end Replatform.Formula

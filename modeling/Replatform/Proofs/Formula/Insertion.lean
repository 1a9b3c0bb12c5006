import Replatform.Proofs.Formula.Spelling
/-!
# Texts with something put in

Where may blanks, a comma or a remark be put into a text, so that no call of it is made, lost or
changed? It must have no quotes and no parentheses, and it must not part a word or come between a
word and its parenthesis, unless it is blank (`Insertable`). Then the text with it has the same
calls, all moved by its length that stand behind it (`Insertable.aligned`), and so the same call is
converted next (`Insertable.leads_iff`).
-/

namespace Replatform.Formula

open List
open Text (isWord isBlank isSmall isInitial atWordStart)

variable {p i k : Nat} {f : Function}

/-- Where a place is when `k` characters are put in at place `p`. -/
def shift (p k i : Nat) : Nat := if i < p then i else i + k

theorem shift_of_lt (h : i < p) (k : Nat) : shift p k i = i := if_pos h

theorem shift_of_le (h : p ≤ i) (k : Nat) : shift p k i = i + k := if_neg (Nat.not_lt.mpr h)

theorem shift_lt_iff {j : Nat} : shift p k i < shift p k j ↔ i < j := by
  unfold shift
  split <;> split <;> omega

/-- A text that can be put between two others. -/
structure Insertable (x m y : List Char) : Prop where
  plain : ∀ c ∈ m, isQuote c = false ∧ c ≠ '(' ∧ c ≠ ')'
  first : ∀ c, m.head? = some c → isWord c = false ∧ (isSmall c || isInitial c) = false
  last : ∀ c, m.getLast? = some c → isWord c = false
  seam : (∀ c, x.getLast? = some c → isWord c = false)
    ∨ ∀ c, y.head? = some c → isWord c = false ∧ (isSmall c || isInitial c) = false
  call : (y.dropWhile isBlank).head? = some '(' → ∀ c ∈ m, isBlank c

def Site.move (φ : Nat → Nat) (x : Site) : Site := ⟨φ x.start, x.word, φ x.opening⟩

/-! ## Sites -/

theorem dropWhile_append_of_seam {x y : List Char} (h : Seam x y) :
    (x ++ y).dropWhile isWord = x.dropWhile isWord ++ y := by
  have hsame := takeWhile_append_of_seam h
  have hleft := takeWhile_append_dropWhile (p := isWord) (l := x ++ y)
  rw [hsame] at hleft
  conv_rhs at hleft => rw [← takeWhile_append_dropWhile (p := isWord) (l := x)]
  rwa [append_assoc, append_cancel_left_eq] at hleft

/-- What stands behind a character that is not blank makes no difference to the blanks before. -/
theorem span_blank_append {w : List Char} (h : ¬∀ c ∈ w, isBlank c) (z : List Char) :
    (w ++ z).takeWhile isBlank = w.takeWhile isBlank
      ∧ (w ++ z).dropWhile isBlank = w.dropWhile isBlank ++ z
      ∧ (w.takeWhile isBlank).length < w.length := by
  have hne : w.dropWhile isBlank ≠ [] := fun hnil => h (dropWhile_eq_nil_iff.mp hnil)
  have hlength := congrArg List.length (takeWhile_append_dropWhile (p := isBlank) (l := w))
  rw [length_append] at hlength
  have hpos := length_pos_iff.mpr hne
  refine ⟨?_, ?_, by omega⟩
  · rw [takeWhile_append, if_neg (by omega)]
  · rw [List.dropWhile_append, if_neg (by rw [List.isEmpty_iff]; exact hne)]

/-- No parenthesis follows blanks where another character stands in its place. -/
theorem head?_dropWhile_append_ne {w : List Char} (h : ¬∀ c ∈ w, isBlank c)
    (hopen : '(' ∉ w) (z : List Char) : ((w ++ z).dropWhile isBlank).head? ≠ some '(' := by
  obtain ⟨d, ds, hds⟩ := exists_cons_of_ne_nil
    (fun hnil => h (dropWhile_eq_nil_iff.mp hnil))
  rw [(span_blank_append h z).2.1, hds]
  rintro ⟨⟩
  exact hopen ((dropWhile_sublist _).subset (hds ▸ mem_cons_self ..))

/-- Where a word can begin, or none does, it makes no difference what stands before. -/
theorem sites_eq_none {b : Option Char} {y : List Char}
    (h : atWordStart b ∨ ∀ c, y.head? = some c → isWord c = false) (pos : Nat) :
    sites b pos y = sites none pos y := by
  rcases h with hb | hhead
  · exact sites_of_atWordStart hb pos y
  · exact sites_of_head hhead b pos

theorem move_site? {pos : Nat} (h : p ≤ pos) (s : List Char) :
    (site? pos s).map (Site.move (shift p k)) = site? (pos + k) s := by
  unfold site?
  dsimp only
  split
  · rw [Option.map_some, Site.move]
    dsimp only
    rw [shift_of_le h, shift_of_le (by omega)]
    simp only [Option.some.injEq, Site.mk.injEq, true_and]
    omega
  · rfl

/-- The sites of a text that stands behind what is put in are moved. -/
theorem move_sites (s : List Char) : ∀ {b : Option Char} {pos : Nat}, p ≤ pos →
    (sites b pos s).map (Site.move (shift p k)) = sites b (pos + k) s := by
  induction s with
  | nil => exact fun _ => rfl
  | cons c s ih =>
    intro b pos h
    have hrest : (sites (some c) (pos + 1) s).map (Site.move (shift p k))
        = sites (some c) (pos + k + 1) s := by
      rw [ih (Nat.le_add_right_of_le h), Nat.add_right_comm]
    rw [sites, sites, ← hrest, ← move_site? h]
    split
    · rw [map_append]
      cases site? pos (c :: s) <;> rfl
    · rfl

namespace Insertable

variable {x m y : List Char}

theorem of_cons {c : Char} (h : Insertable (c :: x) m y) : Insertable x m y where
  plain := h.plain
  first := h.first
  last := h.last
  seam := h.seam.imp_left fun hlast d hd => hlast d (by rw [getLast?_cons, hd]; rfl)
  call := h.call

/-- What stands before need not be there in full. -/
protected theorem drop (h : Insertable x m y) (n : Nat) : Insertable (x.drop n) m y := by
  induction n generalizing x with
  | zero => exact h
  | succ n ih =>
    cases x with
    | nil => exact h
    | cons c x => exact ih h.of_cons

/-- What is read from a place on, if it is behind what is put in. -/
theorem drop_behind (hi : x.length ≤ i) :
    (x ++ (m ++ y)).drop (i + m.length) = (x ++ y).drop i := by
  obtain ⟨j, rfl⟩ := Nat.exists_eq_add_of_le hi
  rw [Nat.add_assoc, Nat.add_comm j, drop_length_add_append, drop_length_add_append,
    drop_length_add_append]

variable (h : Insertable x m y)
include h

/-- What follows need not be there in full. -/
theorem take (n : Nat) : Insertable x m (y.take n) where
  plain := h.plain
  first := h.first
  last := h.last
  seam := h.seam.imp_right fun hhead c hc => hhead c (by
    cases n with
    | zero => cases hc
    | succ n =>
      cases y with
      | nil => exact hc
      | cons d y => exact hc)
  call := fun hopen => h.call (by
    obtain ⟨r, hr⟩ := take_prefix n y
    rw [← hr, dropWhile_append]
    cases hdrop : (y.take n).dropWhile isBlank with
    | nil =>
      rw [hdrop] at hopen
      cases hopen
    | cons d ds =>
      rw [hdrop] at hopen
      exact hopen)

theorem seam_right (hx : x ≠ []) : Seam x y := by
  obtain ⟨e, he⟩ := Option.isSome_iff_exists.mp (getLast?_isSome.mpr hx)
  exact h.seam.symm.imp (fun hhead c hc => (hhead c hc).1) fun hlast => ⟨e, he, hlast e he⟩

theorem seam_left (hx : x ≠ []) : Seam x (m ++ y) := by
  cases m with
  | nil => exact h.seam_right hx
  | cons c m =>
    refine .inl fun d hd => ?_
    cases hd
    exact (h.first c rfl).1

/-- A site that begins before what is put in. -/
theorem move_site?_before (hx : x ≠ []) (pos : Nat) :
    site? pos (x ++ (m ++ y))
      = (site? pos (x ++ y)).map (Site.move (shift (pos + x.length) m.length)) := by
  have hpos := length_pos_iff.mpr hx
  have hlength := congrArg length (takeWhile_append_dropWhile (p := isWord) (l := x))
  rw [length_append] at hlength
  unfold site?
  rw [takeWhile_append_of_seam (h.seam_left hx), takeWhile_append_of_seam (h.seam_right hx),
    dropWhile_append_of_seam (h.seam_left hx), dropWhile_append_of_seam (h.seam_right hx)]
  dsimp only
  by_cases hall : ∀ c ∈ x.dropWhile isWord, isBlank c
  · rw [dropWhile_append_of_pos hall, dropWhile_append_of_pos hall,
      takeWhile_append_of_pos hall, takeWhile_append_of_pos hall]
    by_cases hopen : (y.dropWhile isBlank).head? = some '('
    · -- the parenthesis stands behind, so what is put in is blank and moves it
      have hblank := h.call hopen
      rw [dropWhile_append_of_pos hblank, takeWhile_append_of_pos hblank, if_pos hopen,
        if_pos hopen, Option.map_some, Site.move]
      dsimp only
      rw [shift_of_lt (by omega), shift_of_le (by rw [length_append]; omega)]
      simp only [length_append, Option.some.injEq, Site.mk.injEq, true_and]
      omega
    · rw [if_neg hopen, if_neg, Option.map_none]
      by_cases hblank : ∀ c ∈ m, isBlank c
      · rwa [dropWhile_append_of_pos hblank]
      · exact head?_dropWhile_append_ne hblank (fun hmem => (h.plain '(' hmem).2.1 rfl) y
  · obtain ⟨htake, hdrop, hless⟩ := span_blank_append hall y
    obtain ⟨htake', hdrop', -⟩ := span_blank_append hall (m ++ y)
    obtain ⟨d, ds, hds⟩ := exists_cons_of_ne_nil
      (fun hnil => hall (dropWhile_eq_nil_iff.mp hnil))
    rw [htake, hdrop, htake', hdrop', hds]
    rw [cons_append, cons_append, head?_cons, head?_cons]
    by_cases hopen : some d = some '('
    · rw [if_pos hopen, Option.map_some, Site.move]
      dsimp only
      rw [shift_of_lt (by omega), shift_of_lt (by omega)]
    · rw [if_neg hopen, Option.map_none]

/-- No site begins in what is put in. -/
theorem sites_skip : ∀ (b : Option Char) (pos : Nat),
    (m = [] → atWordStart b ∨ ∀ c, y.head? = some c → isWord c = false) →
    sites b pos (m ++ y) = sites none (pos + m.length) y := by
  obtain ⟨hplain, -, hlast, -, hcall⟩ := h
  induction m with
  | nil => exact fun b pos hb => sites_eq_none (hb rfl) pos
  | cons c m ih =>
    intro b pos _
    have hrest : sites (some c) (pos + 1) (m ++ y) = sites none (pos + (c :: m).length) y := by
      rw [ih (forall_mem_cons.mp hplain).2
        (fun d hd => hlast d (by rw [getLast?_cons, hd]; rfl))
        (fun hopen d hd => hcall hopen d (.tail _ hd)), length_cons]
      · congr 1
        omega
      · rintro rfl
        exact .inl (by simp [atWordStart, hlast c rfl])
    -- a word that begins here ends here, and a parenthesis can follow it only behind blanks
    have hnone : isWord c → site? pos (c :: m ++ y) = none := by
      intro hc
      obtain ⟨e, he⟩ := Option.isSome_iff_exists.mp
        (getLast?_isSome.mpr (cons_ne_nil c m))
      have hseam : Seam (c :: m) y := .inr ⟨e, he, hlast e he⟩
      unfold site?
      rw [takeWhile_append_of_seam hseam, dropWhile_append_of_seam hseam]
      dsimp only
      rw [if_neg]
      by_cases hall : ∀ d ∈ (c :: m).dropWhile isWord, isBlank d
      · rw [dropWhile_append_of_pos hall]
        intro hopen
        have hblank := hcall hopen c (.head _)
        rw [isBlank_of_isWord hc] at hblank
        cases hblank
      · exact head?_dropWhile_append_ne hall
          (fun hmem => (hplain '(' ((dropWhile_sublist _).subset hmem)).2.1 rfl) y
    rw [cons_append, sites, hrest]
    split
    next hstart =>
      rw [← cons_append, hnone (Bool.and_eq_true_iff.mp hstart).1]
      rfl
    next => rfl

/-- The sites of a text with something put in. -/
theorem sites_eq : ∀ (b : Option Char) (pos : Nat),
    (x = [] → atWordStart b ∨ ∀ c, y.head? = some c → isWord c = false) →
    sites b pos (x ++ (m ++ y))
      = (sites b pos (x ++ y)).map (Site.move (shift (pos + x.length) m.length)) := by
  induction x with
  | nil =>
    intro b pos hb
    rw [nil_append, nil_append, h.sites_skip b pos fun _ => hb rfl, sites_eq_none (hb rfl) pos]
    exact (move_sites y (Nat.le_refl pos)).symm
  | cons c x ih =>
    intro b pos _
    have hrest := ih h.of_cons (some c) (pos + 1) fun hnil => by
      subst hnil
      exact h.seam.imp (fun hlast => by simp [atWordStart, hlast c rfl])
        fun hhead d hd => (hhead d hd).1
    have hpos : pos + 1 + x.length = pos + (c :: x).length := by
      rw [length_cons]
      omega
    rw [cons_append, cons_append, sites, sites, hrest, hpos]
    split
    · have hsite := h.move_site?_before (cons_ne_nil c x) pos
      rw [cons_append, cons_append] at hsite
      rw [hsite, map_append]
      cases site? pos (c :: (x ++ y)) <;> rfl
    · rfl

/-! ## Parentheses -/

theorem through_eq {p : Nat × Option Char} (hp : p.2.all isQuote) :
    through p m = some p := by
  have hplain := h.plain
  clear h
  induction m with
  | nil => rfl
  | cons c m ih =>
    obtain ⟨hquote, hopen, hclose⟩ := hplain c (.head _)
    rw [through_cons, scanStep_of_plain hp hquote hopen hclose, Option.bind_some]
    exact ih (forall_mem_cons.mp hplain).2

theorem closing?_eq : ∀ {p : Nat × Option Char}, p.2.all isQuote →
    closing? p.1 p.2 (x ++ (m ++ y))
      = (closing? p.1 p.2 (x ++ y)).map (shift x.length m.length) := by
  induction x with
  | nil =>
    intro p hp
    rw [nil_append, nil_append, closing?_append m y (h.through_eq hp)]
    exact Option.map_congr fun i _ => (shift_of_le (Nat.zero_le i) _).symm
  | cons c x ih =>
    intro p hp
    rw [cons_append, cons_append, closing?_cons, closing?_cons]
    cases hstep : scanStep p c with
    | none => rfl
    | some q =>
      have hq : q.2.all isQuote := by
        rw [← (scanStep_eq_some_iff.mp hstep).2]
        exact all_isQuote_nextQuote hp c
      dsimp only
      rw [ih h.of_cons hq, Option.map_map, Option.map_map]
      refine Option.map_congr fun i _ => ?_
      show shift x.length m.length i + 1 = shift (x.length + 1) m.length (i + 1)
      unfold shift
      split <;> split <;> omega

theorem matching?_eq (i : Nat) :
    matching? (x ++ (m ++ y)) (shift x.length m.length i)
      = (matching? (x ++ y) i).map (shift x.length m.length) := by
  rcases Nat.lt_or_ge i x.length with hi | hi
  · have hle : i + 1 ≤ x.length := hi
    have hclosing : closing? 0 none (x.drop (i + 1) ++ (m ++ y))
        = (closing? 0 none (x.drop (i + 1) ++ y)).map (shift (x.drop (i + 1)).length m.length) :=
      (h.drop (i + 1)).closing?_eq (p := (0, none)) rfl
    rw [shift_of_lt hi, matching?, matching?, drop_append_of_le_length hle,
      drop_append_of_le_length hle, hclosing, Option.map_map, Option.map_map]
    refine Option.map_congr fun j _ => ?_
    show shift (x.drop (i + 1)).length m.length j + (i + 1)
      = shift x.length m.length (j + (i + 1))
    rw [length_drop]
    unfold shift
    split <;> split <;> omega
  · rw [shift_of_le hi, matching?, matching?, Nat.add_right_comm,
      drop_behind (Nat.le_succ_of_le hi), Option.map_map]
    refine Option.map_congr fun j _ => ?_
    show j + (i + 1 + m.length) = shift x.length m.length (j + (i + 1))
    rw [shift_of_le (by omega)]
    omega

/-! ## Calls -/

/-- The text between the parentheses of a call has the same calls. -/
theorem any_inside (c : Call) (name : List Char) :
    (sites none 0 ((c.move (shift x.length m.length)).inside (x ++ (m ++ y)))).any (·.isFor name)
      = (sites none 0 (c.inside (x ++ y))).any (·.isFor name) := by
  unfold Call.inside Call.move
  dsimp only
  rcases Nat.lt_or_ge c.opening x.length with hopen | hopen
  · have hle : c.opening + 1 ≤ x.length := hopen
    have hlength := length_drop (l := x) (i := c.opening + 1)
    rw [shift_of_lt hopen, drop_append_of_le_length hle, drop_append_of_le_length hle]
    rcases Nat.lt_or_ge c.closing x.length with hclose | hclose
    · -- the call stands before what is put in
      rw [shift_of_lt hclose, take_append_of_le_length (by omega),
        take_append_of_le_length (by omega)]
    · -- the call stands around what is put in
      obtain ⟨j, hj⟩ := Nat.exists_eq_add_of_le
        (show (x.drop (c.opening + 1)).length ≤ c.closing - (c.opening + 1) by omega)
      rw [shift_of_le hclose, show c.closing + m.length - (c.opening + 1)
          = (x.drop (c.opening + 1)).length + (m.length + j) by omega, hj,
        take_length_add_append, take_length_add_append, take_length_add_append,
        ((h.drop _).take j).sites_eq none 0 fun _ => .inl rfl, any_map]
      rfl
  · -- the call stands behind what is put in, or does not close
    rw [shift_of_le hopen, Nat.add_right_comm, drop_behind (Nat.le_succ_of_le hopen)]
    rcases Nat.lt_or_ge c.closing x.length with hclose | hclose
    · rw [shift_of_lt hclose, show c.closing - (c.opening + 1 + m.length) = 0 by omega,
        show c.closing - (c.opening + 1) = 0 by omega]
    · rw [shift_of_le hclose, Nat.add_sub_add_right]

/-- The names in capitals that stand behind a place are the same. -/
theorem inCapitals_eq {g : List Char} (hg : IsCapitalName g)
    (hnames : inCapitals g (m ++ y) = inCapitals g y) (i : Nat) :
    inCapitals g ((x ++ (m ++ y)).drop (shift x.length m.length i + 1))
      = inCapitals g ((x ++ y).drop (i + 1)) := by
  rcases Nat.lt_or_ge i x.length with hi | hi
  · have hle : i + 1 ≤ x.length := hi
    rw [shift_of_lt hi, drop_append_of_le_length hle, drop_append_of_le_length hle]
    refine hg.inCapitals_append_congr ?_ hnames
    cases m with
    | nil => exact (h.drop _).seam.imp_right fun hhead =>
        ⟨fun c hc => (hhead c hc).1, fun c hc => (hhead c hc).1, rfl⟩
    | cons d m =>
      obtain ⟨hword, hsmall⟩ := h.first d rfl
      refine (h.drop _).seam.imp_right fun hhead => ⟨fun c hc => (hhead c hc).1, ?_, ?_⟩
      · intro c hc
        cases hc
        exact hword
      · have hy : beginsSmall y = false := by
          cases y with
          | nil => rfl
          | cons c y => exact (hhead c rfl).2
        rw [hy]
        exact hsmall
  · rw [shift_of_le hi, Nat.add_right_comm, drop_behind (Nat.le_succ_of_le hi)]

/-- A text with something put in has the same calls. -/
theorem aligned (hnames : ∀ f ∈ functions, IsCapitalName f.name.toList →
      inCapitals f.name.toList (m ++ y) = inCapitals f.name.toList y) :
    Aligned (shift x.length m.length) (x ++ y) (x ++ (m ++ y)) where
  mono := shift_lt_iff
  sites := by
    rw [h.sites_eq none 0 fun _ => .inl rfl, Nat.zero_add, forall₂_map_right_iff, forall₂_same]
    exact fun site _ => ⟨rfl, rfl, fun _ _ => rfl, fun _ _ => rfl⟩
  closing := fun site _ => h.matching?_eq site.opening
  waits := fun c _ => Call.waits_congr (fun f _ => h.any_inside c f.name.toList)
    fun f hf hcapital => h.inCapitals_eq hcapital (hnames f hf hcapital) c.opening

end Insertable

/-! ## The next call -/

/-- The next call is one of `f` that begins at place `i`. -/
def Leads (f : Function) (i : Nat) (s : List Char) : Prop :=
  ∃ c, nextCall? s = some c ∧ c.function = f ∧ c.start = i

theorem Aligned.leads_iff {φ : Nat → Nat} {s t : List Char} (h : Aligned φ s t) :
    Leads f (φ i) t ↔ Leads f i s := by
  have hinj : ∀ {j : Nat}, φ j = φ i → j = i := fun {j} hj => by
    rcases Nat.lt_trichotomy j i with hlt | heq | hlt
    · exact absurd (h.mono.mpr hlt) (by omega)
    · exact heq
    · exact absurd (h.mono.mpr hlt) (by omega)
  unfold Leads
  rw [h.nextCall?_eq]
  constructor
  · rintro ⟨d, hd, hf, hstart⟩
    obtain ⟨c, hc, rfl⟩ := Option.map_eq_some_iff.mp hd
    exact ⟨c, hc, hf, hinj hstart⟩
  · rintro ⟨c, hc, hf, hstart⟩
    exact ⟨c.move φ, by rw [hc, Option.map_some], hf, congrArg φ hstart⟩

theorem Respelled.leads_iff {P : Option Char → List Char → Prop}
    (hP : ∀ b v, P b v → Text.allCapital v = false) {s t : List Char} (h : Respelled P none s t) :
    Leads f i t ↔ Leads f i s := (h.aligned hP).leads_iff

/-- A text of which no character can stand in a word holds no name. -/
theorem IsCapitalName.inCapitals_plain {g m : List Char} (hg : IsCapitalName g)
    (hm : ∀ c ∈ m, isWord c = false) (y : List Char) : inCapitals g (m ++ y) = inCapitals g y := by
  induction m with
  | nil => rfl
  | cons c m ih =>
    rw [cons_append, hg.inCapitals_cons_of_not (hm c (.head _)), ih (forall_mem_cons.mp hm).2]

/-- A call that begins before is still next when something without words is put in. -/
theorem Insertable.leads_iff {x m y : List Char} (h : Insertable x m y)
    (hm : ∀ c ∈ m, isWord c = false) (hi : i < x.length) :
    Leads f i (x ++ (m ++ y)) ↔ Leads f i (x ++ y) := by
  have haligned := h.aligned fun g _ hg => hg.inCapitals_plain hm y
  rw [← haligned.leads_iff, shift_of_lt hi]

end Replatform.Formula

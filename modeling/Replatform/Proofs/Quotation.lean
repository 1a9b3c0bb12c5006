import Replatform.Number.Digit
import Replatform.Proofs.Value
/-!
# Texts in quotes

A text in quotes is read unit by unit up to the quote that ends it. Most units are a character that
stands for itself; a backslash begins longer ones, which stand for something else.

A writer that puts a text between quotes, with or without backslashes in front of the quotes in it,
leaves the other characters as they are. Its text is read back if and only if each of these
characters is a unit that stands for itself (`read?_closed_iff`). No accident makes good for a unit
that does not: what is read falls behind the text, and never catches up (`eq_of_read?`), not even
where the closing quote is taken for a part of the text.
-/

namespace Replatform.Text

open List

variable {c : Char} {s out : List Char} {n : Nat}

/-- How a text in quotes is read: the quote that ends it, and what a character stands for. Of the
characters that follow it, some may belong to the same unit. -/
structure Quotation where
  quote : Char
  /-- What the unit at a character stands for, and how many of the following characters belong
  to it. -/
  unit? : Char → List Char → Option (List Char × Nat)

namespace Quotation

variable (q : Quotation)

/-- The text up to the quote that ends it, and what follows the quote. The first `skip` characters
belong to a unit that is already read. -/
def readGo : Nat → List Char → Option (List Char × List Char)
  | _, [] => none
  | skip + 1, _ :: s => readGo skip s
  | 0, c :: s =>
    if c = q.quote then some ([], s)
    else (q.unit? c s).bind fun u => (readGo u.2 s).map fun r => (u.1 ++ r.1, r.2)

/-- The text behind an opening quote, and what follows the quote that ends it. -/
def read? (s : List Char) : Option (List Char × List Char) := q.readGo 0 s

/-- A text as it stands behind an opening quote, with the closing quote and what follows. The quotes
in it may be escaped or not. -/
def closed (escaped : Bool) (k : List Char) : List Char → List Char
  | [] => q.quote :: k
  | c :: s => if c = q.quote ∧ escaped then '\\' :: c :: closed escaped k s
    else c :: closed escaped k s

/-- All characters of a text are units that stand for themselves, but for escaped quotes. -/
def Keeps (escaped : Bool) (k : List Char) : List Char → Prop
  | [] => True
  | c :: s =>
    (if c = q.quote then escaped = true else q.unit? c (q.closed escaped k s) = some ([c], 0))
      ∧ Keeps escaped k s

/-- The `n` characters of `s` that a unit takes are neither quotes nor backslashes, and it stands
for one character at most. -/
def Fits (s out : List Char) (n : Nat) : Prop :=
  n ≤ s.length ∧ (∀ d ∈ s.take n, d ≠ q.quote ∧ d ≠ '\\') ∧ out.length ≤ 1

/-- What the units of a quotation have in common. -/
structure Regular : Prop where
  quote_ne : q.quote ≠ '\\'
  escaped_quote : ∀ s, q.unit? '\\' (q.quote :: s) = some ([q.quote], 1)
  escaped_backslash : ∀ s, q.unit? '\\' ('\\' :: s) = some (['\\'], 1)
  /-- All other units fit. -/
  fits : ∀ {c s out n}, q.unit? c s = some (out, n) →
    (c = '\\' → s.head? ≠ some q.quote ∧ s.head? ≠ some '\\') → q.Fits s out n

variable {q} {escaped : Bool} {k : List Char}

/-! ## Reading unit by unit -/

theorem readGo_skip (n : Nat) (s : List Char) : q.readGo n s = q.read? (s.drop n) := by
  induction s generalizing n with
  | nil => rw [drop_nil, read?, readGo, readGo]
  | cons c s ih =>
    cases n with
    | zero => rfl
    | succ n => rw [readGo, ih, drop_succ_cons]

theorem read?_quote (s : List Char) : q.read? (q.quote :: s) = some ([], s) := by
  rw [read?, readGo, if_pos rfl]

theorem read?_unit (hc : c ≠ q.quote) (h : q.unit? c s = some (out, n)) :
    q.read? (c :: s) = (q.read? (s.drop n)).map fun r => (out ++ r.1, r.2) := by
  rw [read?, readGo, if_neg hc, h, Option.bind_some, readGo_skip]

theorem exists_unit {r : List Char × List Char} (hc : c ≠ q.quote) (h : q.read? (c :: s) = some r) :
    ∃ out n text, q.unit? c s = some (out, n)
      ∧ q.read? (s.drop n) = some (text, r.2) ∧ r.1 = out ++ text := by
  cases hunit : q.unit? c s with
  | none =>
    rw [read?, readGo, if_neg hc, hunit, Option.bind_none] at h
    cases h
  | some u =>
    rw [read?_unit hc hunit] at h
    obtain ⟨r', hr', rfl⟩ := Option.map_eq_some_iff.mp h
    exact ⟨u.1, u.2, r'.1, rfl, hr', rfl⟩

theorem closed_cons_of_ne (hc : c ≠ q.quote) (s : List Char) :
    q.closed escaped k (c :: s) = c :: q.closed escaped k s := by
  rw [closed, if_neg fun h => hc h.1]

theorem closed_quote (s : List Char) : q.closed escaped k (q.quote :: s)
    = if escaped then '\\' :: q.quote :: q.closed escaped k s
      else q.quote :: q.closed escaped k s := by
  rw [closed]
  simp only [true_and]

/-- As far as there is neither a quote nor a backslash, a text stands as it is. -/
theorem closed_drop (hn : n ≤ (q.closed escaped k s).length)
    (h : ∀ d ∈ (q.closed escaped k s).take n, d ≠ q.quote ∧ d ≠ '\\') :
    n ≤ s.length ∧ (q.closed escaped k s).take n = s.take n
      ∧ (q.closed escaped k s).drop n = q.closed escaped k (s.drop n) := by
  induction n generalizing s with
  | zero => exact ⟨Nat.zero_le _, rfl, rfl⟩
  | succ n ih =>
    cases s with
    | nil => exact absurd rfl (h q.quote (.head _)).1
    | cons c s =>
      by_cases hc : c = q.quote
      · rw [hc, closed_quote] at h
        cases escaped with
        | true => exact absurd rfl (h '\\' (.head _)).2
        | false => exact absurd rfl (h q.quote (.head _)).1
      · rw [closed_cons_of_ne hc] at h hn ⊢
        obtain ⟨hlength, htake, hdrop⟩ := ih (Nat.le_of_succ_le_succ hn)
          (forall_mem_cons.mp h).2
        refine ⟨Nat.succ_le_succ hlength, ?_, ?_⟩
        · rw [take_succ_cons, take_succ_cons, htake]
        · rw [drop_succ_cons, drop_succ_cons, hdrop]

/-! ## Units that do not stand for themselves -/

/-- How reading goes on behind a unit that stands for `out` and takes `n` characters of what
follows. -/
inductive Goes (q : Quotation) (escaped : Bool) (k : List Char) (c : Char) (s out : List Char)
    (n : Nat) : Prop
  /-- The closing quote, or one that is not escaped, is taken for a part of the text. -/
  | overrun (hc : c = '\\') (hout : out = [q.quote])
  /-- The backslash of an escaped quote belongs to the character, and the text ends at the quote. -/
  | cut (t : List Char) (hc : c = '\\') (hs : s = q.quote :: t) (hout : out = ['\\'])
      (hrest : q.read? ((q.closed escaped k s).drop n) = some ([], q.closed escaped k t))
  /-- The text goes on behind `part`. -/
  | on (part t : List Char) (hs : s = part ++ t) (hpart : q.quote ∉ part) (hn : part.length = n)
      (hout : out.length ≤ 1) (hrest : (q.closed escaped k s).drop n = q.closed escaped k t)

theorem Regular.goes (hq : q.Regular) (h : q.unit? c (q.closed escaped k s) = some (out, n)) :
    Goes q escaped k c s out n := by
  -- the general case, in which neither a quote nor a backslash follows a backslash
  have hon : (c = '\\' → (q.closed escaped k s).head? ≠ some q.quote
        ∧ (q.closed escaped k s).head? ≠ some '\\') → Goes q escaped k c s out n := by
    intro hhead
    obtain ⟨hlength, hpart, hone⟩ := hq.fits h hhead
    obtain ⟨hn, htake, hdrop⟩ := closed_drop hlength hpart
    rw [htake] at hpart
    exact .on (s.take n) (s.drop n) (take_append_drop n s).symm
      (fun hmem => (hpart _ hmem).1 rfl) (length_take_of_le hn) hone hdrop
  by_cases hc : c = '\\'
  · subst hc
    cases s with
    | nil =>
      rw [closed, hq.escaped_quote] at h
      cases h
      exact .overrun rfl rfl
    | cons d t =>
      by_cases hd : d = q.quote
      · subst hd
        rw [closed_quote] at h
        cases escaped with
        | true =>
          rw [if_pos rfl, hq.escaped_backslash] at h
          cases h
          refine .cut t rfl rfl rfl ?_
          rw [closed_quote]
          exact read?_quote _
        | false =>
          rw [if_neg Bool.false_ne_true, hq.escaped_quote] at h
          cases h
          exact .overrun rfl rfl
      · by_cases hback : d = '\\'
        · subst hback
          rw [closed_cons_of_ne hd, hq.escaped_backslash] at h
          cases h
          refine .on ['\\'] t rfl ?_ rfl (Nat.le_refl _) ?_
          · exact fun hmem => hd (mem_singleton.mp hmem).symm
          · rw [closed_cons_of_ne hd]
            rfl
        · refine hon fun _ => ?_
          rw [closed_cons_of_ne hd]
          exact ⟨fun he => hd (Option.some.inj he), fun he => hback (Option.some.inj he)⟩
  · exact hon fun he => absurd he hc

/-- The part of a text that reading is behind. -/
theorem exists_behind {P text t : List Char} (h : out ++ text = P ++ t)
    (hlt : out.length < P.length) : ∃ P', P' ≠ [] ∧ P' ⊆ P ∧ text = P' ++ t := by
  refine ⟨P.drop out.length, ?_, drop_subset _ _, ?_⟩
  · exact ne_nil_of_length_pos (by rw [length_drop]; exact Nat.sub_pos_of_lt hlt)
  · have hdrop := congrArg (drop out.length) h
    rwa [drop_left, drop_append_of_le_length (Nat.le_of_lt hlt)] at hdrop

/-- Reading that is behind a text by some characters `P` never catches up with it; if it is not
behind, then all characters stand for themselves. -/
theorem Regular.eq_of_read? (hq : q.Regular) {P rest : List Char} (hquote : q.quote ∉ P)
    (h : q.read? (q.closed escaped k s) = some (P ++ s, rest)) :
    P = [] ∧ q.Keeps escaped k s ∧ rest = k := by
  induction hn : s.length using Nat.strongRecOn generalizing P s with
  | ind n ih =>
  subst hn
  cases s with
  | nil =>
    rw [closed, read?_quote, append_nil] at h
    cases h
    exact ⟨rfl, trivial, rfl⟩
  | cons c s =>
    -- a quote cannot be the first of the characters that reading is behind
    have hhead : ∀ {text : List Char}, P ++ c :: s = q.quote :: text → P = [] ∧ c = q.quote := by
      intro text heq
      cases P with
      | nil => exact ⟨rfl, (cons.inj heq).1⟩
      | cons p P => exact absurd ((cons.inj heq).1 ▸ mem_cons_self ..) hquote
    by_cases hc : c = q.quote
    · subst hc
      rw [closed_quote] at h
      cases escaped with
      | true =>
        obtain ⟨out, m, text, hunit, hread, htext⟩ := exists_unit hq.quote_ne.symm h
        rw [hq.escaped_quote] at hunit
        cases hunit
        obtain ⟨rfl, -⟩ := hhead htext
        obtain rfl : s = text := (cons.inj htext).2
        obtain ⟨-, hkeeps, hrest⟩ := ih s.length (Nat.lt_succ_self _) hquote hread rfl
        exact ⟨rfl, ⟨by rw [if_pos rfl], hkeeps⟩, hrest⟩
      | false =>
        rw [if_neg Bool.false_ne_true, read?_quote, Option.some.injEq, Prod.mk.injEq] at h
        exact absurd h.1.symm (append_ne_nil_of_right_ne_nil P (cons_ne_nil _ _))
    · rw [closed_cons_of_ne hc] at h
      obtain ⟨out, m, text, hunit, hread, htext⟩ := exists_unit hc h
      cases hq.goes hunit with
      | overrun _ hout =>
        rw [hout] at htext
        exact absurd (hhead htext).2 hc
      | cut t _ hs hout hrest =>
        rw [hrest, Option.some.injEq, Prod.mk.injEq] at hread
        have hlength := congrArg length htext
        rw [hout, ← hread.1, hs] at hlength
        simp only [length_append, length_cons, length_nil] at hlength
        omega
      | on part t hs hpart hm hone hrest =>
        have hwhole : out ++ text = (P ++ c :: part) ++ t := by
          rw [← htext, hs, append_assoc, cons_append]
        have hlt : t.length < (c :: s).length := by
          rw [hs, length_cons, length_append]
          omega
        have hquote' : q.quote ∉ P ++ c :: part := by
          simpa [hquote, hpart] using fun he => hc he.symm
        rw [hrest] at hread
        by_cases hbehind : out.length < (P ++ c :: part).length
        · obtain ⟨P', hne, hsub, rfl⟩ := exists_behind hwhole hbehind
          exact absurd (ih _ hlt (fun hmem => hquote' (hsub hmem)) hread rfl).1 hne
        · -- the unit is the character alone, and it stands for itself
          simp only [length_append, length_cons] at hbehind
          obtain rfl : P = [] := eq_nil_of_length_eq_zero (by omega)
          obtain rfl : part = [] := eq_nil_of_length_eq_zero (by omega)
          obtain ⟨d, rfl⟩ := length_eq_one_iff.mp (Nat.le_antisymm hone (by omega))
          obtain ⟨rfl, rfl⟩ := cons.inj hwhole
          obtain rfl : s = text := hs
          obtain ⟨-, hkeeps, hrest⟩ := ih _ hlt hquote hread rfl
          refine ⟨rfl, ⟨?_, hkeeps⟩, hrest⟩
          rw [if_neg hc, hunit, ← hm, length_nil]

/-! ## Texts that are read back -/

theorem Keeps.read? (hq : q.Regular) (h : q.Keeps escaped k s) :
    q.read? (q.closed escaped k s) = some (s, k) := by
  induction s with
  | nil => exact read?_quote k
  | cons c s ih =>
    obtain ⟨hc, hs⟩ := h
    split at hc
    next hquote =>
      subst hquote
      rw [closed_quote, if_pos hc, read?_unit hq.quote_ne.symm (hq.escaped_quote _),
        drop_succ_cons, drop_zero, ih hs]
      rfl
    next hquote =>
      rw [closed_cons_of_ne hquote, read?_unit hquote hc, drop_zero, ih hs]
      rfl

/-- A text is read back if and only if its characters stand for themselves; then all of it is read
up to the closing quote. -/
theorem Regular.read?_closed_iff (hq : q.Regular) {rest : List Char} :
    q.read? (q.closed escaped k s) = some (s, rest) ↔ q.Keeps escaped k s ∧ rest = k := by
  constructor
  · exact fun h => (hq.eq_of_read? (P := []) not_mem_nil h).2
  · rintro ⟨h, rfl⟩
    exact h.read? hq

theorem closed_false (k s : List Char) : q.closed false k s = s ++ q.quote :: k := by
  induction s with
  | nil => rfl
  | cons c s ih => rw [closed, if_neg fun h => Bool.false_ne_true h.2, ih, cons_append]

/-! ## Escapes -/

/-- How many hexadecimal digits follow the letter of an escape by number. -/
def hexLengths : List (Char × Nat) := [('x', 2), ('u', 4), ('U', 8)]

/-- The character whose number is written in the next `count` hexadecimal digits. -/
def hexEscape? (count : Nat) (s : List Char) : Option (List Char × Nat) :=
  let ds := s.take count
  let n := ds.foldl (fun n d => 16 * n + (Number.hexValue? d).getD 0) 0
  if ds.length = count ∧ ds.all (Number.hexValue? · |>.isSome) ∧ n.isValidChar then
    some ([Char.ofNat n], count)
  else none

/-- What the escape behind a backslash stands for, and how long it is: one of a table, or one by
number. -/
def escape? (short : List (Char × List Char)) : List Char → Option (List Char × Nat)
  | [] => none
  | d :: s =>
    match short.lookup d with
    | some out => some (out, 1)
    | none =>
      (hexLengths.lookup d).bind fun count => (hexEscape? count s).map fun u => (u.1, u.2 + 1)

theorem escape?_pos {short : List (Char × List Char)} (h : escape? short s = some (out, n)) :
    0 < n := by
  cases s with
  | nil => cases h
  | cons d s =>
    rw [escape?] at h
    split at h
    next => cases h; exact Nat.one_pos
    next =>
      obtain ⟨count, -, h⟩ := Option.bind_eq_some_iff.mp h
      obtain ⟨u, -, he⟩ := Option.map_eq_some_iff.mp h
      cases he
      exact Nat.succ_pos _

theorem escape?_fits {short : List (Char × List Char)}
    (hshort : ∀ e ∈ short, e.2.length ≤ 1) (hquote : Number.hexValue? q.quote = none)
    (hhead : s.head? ≠ some q.quote ∧ s.head? ≠ some '\\') (h : escape? short s = some (out, n)) :
    q.Fits s out n := by
  cases s with
  | nil => cases h
  | cons d s =>
    have hd : d ≠ q.quote ∧ d ≠ '\\' :=
      ⟨fun he => hhead.1 (congrArg some he), fun he => hhead.2 (congrArg some he)⟩
    rw [escape?] at h
    split at h
    next out' hout =>
      cases h
      refine ⟨Nat.le_add_left 1 _, ?_, hshort _ (mem_of_lookup hout)⟩
      simpa using hd
    next =>
      obtain ⟨count, -, h⟩ := Option.bind_eq_some_iff.mp h
      obtain ⟨⟨out', m⟩, h, he⟩ := Option.map_eq_some_iff.mp h
      cases he
      rw [hexEscape?] at h
      split at h
      next hhex =>
        cases h
        obtain ⟨hlength, hdigits, -⟩ := hhex
        rw [length_take] at hlength
        refine ⟨Nat.succ_le_succ (by omega), fun e he => ?_, Nat.le_refl _⟩
        rcases mem_cons.mp he with rfl | he
        · exact hd
        · refine ⟨fun heq => ?_, fun heq => ?_⟩ <;> subst heq
          · exact absurd (all_eq_true.mp hdigits _ he) (by rw [hquote]; decide)
          · exact absurd (all_eq_true.mp hdigits _ he) (by decide)
      next => cases h

end Quotation

end Replatform.Text

import Replatform.Project.Conditional
import Replatform.Proofs.Formula.Balance
/-!
# Parentheses that belong together, and arguments that come apart

Two scans read a formula. One looks for the parenthesis that closes a call. What it finds is said
without the scan by the characters outside literals (`Matches`): the parenthesis is the only one
that matches (`matchingFrom_eq_iff`).

The other cuts a text into arguments at its commas. It undoes the joining of arguments in which it
finds nothing to cut at, if it is outside literals and parentheses behind each of them
(`splitArgs_joinArgs_inverse`).
-/

namespace Replatform.Formula

open List
open Text (isBlank strip)

variable {x y : List Char}

/-! ## Characters outside literals -/

/-- The characters of a text that stand outside literals, where `quote` is open before it. -/
def unquoted (quote : Option Char) : List Char → List Char
  | [] => []
  | c :: s =>
    if quote.isSome || isQuote c then unquoted (nextQuote quote c) s else c :: unquoted none s

/-- The depth is the number of parentheses that are opened less that of those that are closed. -/
theorem level_eq (s : List Char) : ∀ (depth : Int) (quote : Option Char),
    level (depth, quote) s = (depth + (unquoted quote s).count '(' - (unquoted quote s).count ')',
      s.foldl nextQuote quote) := by
  induction s with
  | nil => simp [level, unquoted]
  | cons c s ih =>
    intro depth quote
    rw [level_cons, ih, unquoted, foldl_cons]
    split
    next hquote =>
      have hsame : nextDepth depth quote c = depth := by grind [nextDepth, isQuote]
      rw [hsame]
    next hquote =>
      obtain ⟨rfl, hc⟩ : quote = none ∧ isQuote c = false := by simpa using hquote
      have hnext : nextQuote none c = none := by simp [nextQuote, hc]
      rw [hnext, Prod.mk.injEq, count_cons, count_cons, nextDepth]
      grind

/-- A text is balanced if its literals are closed, as many parentheses are opened as closed outside
them, and none is closed before it is opened. -/
theorem balanced_iff_count : Balanced x ↔ Closed x
    ∧ (unquoted none x).count '(' = (unquoted none x).count ')'
    ∧ ∀ front, front <+: x → (unquoted none front).count ')' ≤ (unquoted none front).count '(' := by
  have hdepth : ∀ y, (level (0, none) y).1
      = (unquoted none y).count '(' - (unquoted none y).count ')' := fun y => by simp [level_eq]
  constructor
  · rintro ⟨hnonneg, hends⟩
    have hzero := hdepth x
    rw [hends] at hzero
    rw [level_eq, Prod.mk.injEq] at hends
    refine ⟨closed_iff.mpr hends.2, by omega, fun front hfront => ?_⟩
    have := hdepth front ▸ hnonneg front hfront
    omega
  · rintro ⟨hclosed, hequal, hopened⟩
    refine ⟨fun front hfront => ?_, ?_⟩
    · have := hopened front hfront
      rw [hdepth]
      omega
    · rw [level_eq, closed_iff.mp hclosed, hequal]
      simp

/-! ## The closing parenthesis -/

/-- What stands between two places. -/
def between (s : List Char) (start stop : Nat) : List Char :=
  (s.drop (start + 1)).take (stop - (start + 1))

/-- The parenthesis at place `stop` closes one at place `start`: outside literals, as many are
opened as closed between them, and up to no place more are closed than opened. -/
structure Matches (s : List Char) (start stop : Nat) : Prop where
  behind : start < stop
  closes : s[stop]? = some ')'
  outside : Closed (between s start stop)
  equal : (unquoted none (between s start stop)).count '('
    = (unquoted none (between s start stop)).count ')'
  opened : ∀ front, front <+: between s start stop →
    (unquoted none front).count ')' ≤ (unquoted none front).count '('

theorem closing?_eq_some_iff {i : Nat} :
    closing? 0 none x = some i ↔ x[i]? = some ')' ∧ Balanced (x.take i) := by
  rw [balanced_iff]
  constructor
  · intro h
    obtain ⟨inside, back, rfl, rfl, hinside⟩ := split_of_closing? x (p := (0, none)) h
    exact ⟨by simp, by rwa [take_left]⟩
  · rintro ⟨hclose, hinside⟩
    obtain ⟨hi, hclose⟩ := List.getElem?_eq_some_iff.mp hclose
    have hsplit : x = x.take i ++ ')' :: x.drop (i + 1) := by
      rw [← hclose, ← drop_eq_getElem_cons, take_append_drop]
    have hfound := closing?_of_through hinside (x.drop (i + 1))
    rwa [← hsplit, length_take_of_le hi.le] at hfound

theorem matches_iff {s : List Char} {start stop : Nat} : Matches s start stop ↔
    ∃ i, closing? 0 none (s.drop (start + 1)) = some i ∧ stop = start + 1 + i := by
  have hat : ∀ i, closing? 0 none (s.drop (start + 1)) = some i
      ↔ s[start + 1 + i]? = some ')' ∧ Balanced (between s start (start + 1 + i)) := by
    intro i
    rw [closing?_eq_some_iff, getElem?_drop, between, Nat.add_sub_cancel_left]
  constructor
  · intro h
    obtain ⟨i, rfl⟩ := Nat.exists_eq_add_of_le h.behind
    exact ⟨i, (hat i).mpr ⟨h.closes, balanced_iff_count.mpr ⟨h.outside, h.equal, h.opened⟩⟩, rfl⟩
  · rintro ⟨i, hi, rfl⟩
    obtain ⟨hcloses, hbalanced⟩ := (hat i).mp hi
    obtain ⟨houtside, hequal, hopened⟩ := balanced_iff_count.mp hbalanced
    exact ⟨by omega, hcloses, houtside, hequal, hopened⟩

/-- Without quotes, the scan that knows of none finds the same. -/
theorem closingParen?_eq (s : List Char) (h : ∀ c ∈ s, isQuote c = false) : ∀ depth,
    Project.closingParen? depth s = closing? depth none s := by
  induction s with
  | nil => exact fun _ => rfl
  | cons c s ih =>
    intro depth
    obtain ⟨hc, hs⟩ := forall_mem_cons.mp h
    rw [Project.closingParen?.eq_def, closing?.eq_def]
    cases depth <;>
      simp only [hc, ih hs, Option.isSome_none, Bool.or_self, Bool.false_eq_true, if_false]

/-- What is found behind a place is the one parenthesis that matches, and -1 if there is none. In a
text without quotes, the scan of conditions finds the same. -/
theorem matchingFrom_eq_iff (s : List Char) (start : Nat) :
    (∀ stop : Nat, matchingFrom s start = .ok (stop : Int) ↔ Matches s start stop)
      ∧ (∀ stop stop', Matches s start stop → Matches s start stop' → stop' = stop)
      ∧ (matchingFrom s start = .ok (-1) ↔ ¬∃ stop, Matches s start stop)
      ∧ ((∀ c ∈ s, isQuote c = false) → Project.matchingParen s start = matchingFrom s start) := by
  have hread : readFrom s start = .ok (s.drop (start + 1)) := if_pos (by omega)
  have hplain : (∀ c ∈ s, isQuote c = false) →
      Project.matchingParen s start = matchingFrom s start := fun h => by
    have hsame := closingParen?_eq (s.drop (start + 1)) (fun c hc => h c (mem_of_mem_drop hc)) 0
    cases hfind : closing? 0 none (s.drop (start + 1)) <;>
      rw [Project.matchingParen, matchingFrom, hread, Except.map, Except.map, hsame, hfind]
  cases hfind : closing? 0 none (s.drop (start + 1)) with
  | none =>
    have hresult : matchingFrom s start = .ok (-1) := by
      rw [matchingFrom, hread, Except.map, hfind]
    have hnone : ∀ stop, ¬Matches s start stop := by simp [matches_iff, hfind]
    refine ⟨fun stop => iff_of_false ?_ (hnone stop), fun _ _ h => absurd h (hnone _), ?_, hplain⟩
    · rw [hresult, Except.ok.injEq]
      omega
    · exact iff_of_true hresult fun ⟨stop, h⟩ => hnone stop h
  | some i =>
    have hresult : matchingFrom s start = .ok ((start + 1 + i : Nat) : Int) := by
      rw [matchingFrom, hread, Except.map, hfind]
      simp
    have honly : ∀ stop, Matches s start stop ↔ stop = start + 1 + i := by simp [matches_iff, hfind]
    refine ⟨fun stop => ?_, fun stop stop' h h' => ?_, ?_, hplain⟩
    · rw [hresult, honly, Except.ok.injEq]
      omega
    · rw [(honly stop).mp h, (honly stop').mp h']
    · rw [hresult, Except.ok.injEq]
      exact iff_of_false (by omega) fun h => h ⟨_, (honly _).mpr rfl⟩

/-- Parentheses in a literal do not count. -/
theorem matchingFrom_quotedParen :
    Matches "(a, ')', (b))".toList 0 12 ∧ (∀ c ∈ "(a, (b))".toList, isQuote c = false)
      ∧ Project.matchingParen "(a, (b))".toList 0 = matchingFrom "(a, (b))".toList 0 := by
  have hplain := all_eq_true.mp (by decide : "(a, (b))".toList.all (!isQuote ·))
  refine ⟨((matchingFrom_eq_iff _ 0).1 12).mp (by decide), by simpa using hplain, ?_⟩
  exact (matchingFrom_eq_iff _ 0).2.2.2 (by simpa using hplain)

/-! ## Arguments -/

/-- A text is cut at the first comma that stands outside literals at depth 0, if there is one. -/
theorem pieces_cases (x : List Char) : ∀ (depth : Int) (quote : Option Char),
    (∃ r, uncut depth quote x = some r ∧ pieces depth quote x = [x])
      ∨ ∃ p y, x = p ++ ',' :: y ∧ uncut depth quote p = some (0, none)
        ∧ pieces depth quote x = p :: pieces 0 none y := by
  induction x with
  | nil => exact fun _ _ => .inl ⟨_, rfl, rfl⟩
  | cons c x ih =>
    intro depth quote
    by_cases hcut : (quote.isNone && c == ',' && depth == 0)
    · refine .inr ⟨[], x, ?_⟩
      rw [pieces, if_pos hcut]
      simp only [Bool.and_eq_true, Option.isNone_iff_eq_none, beq_iff_eq] at hcut
      obtain ⟨⟨rfl, rfl⟩, rfl⟩ := hcut
      exact ⟨rfl, rfl, rfl⟩
    · have hstep := ih (nextDepth depth quote c) (nextQuote quote c)
      rw [uncut, pieces, if_neg hcut, if_neg hcut]
      dsimp only
      rw [← nextDepth]
      rcases hstep with ⟨r, hr, hpieces⟩ | ⟨p, y, rfl, hp, hpieces⟩
      · exact .inl ⟨r, hr, by rw [hpieces]⟩
      · exact .inr ⟨c :: p, y, rfl, by rw [uncut, if_neg hcut, hp], by rw [hpieces]⟩

theorem countP_strip (x : List Char) : (strip x).countP (!isBlank ·) = x.countP (!isBlank ·) := by
  obtain ⟨front, back, hx, hfront, hback⟩ := exists_strip x
  have hnone : ∀ {y : List Char}, (∀ c ∈ y, isBlank c) → y.countP (!isBlank ·) = 0 :=
    fun hy => countP_eq_zero.mpr fun c hc => by simp [hy c hc]
  conv => rhs; rw [hx, countP_append, countP_append, hnone hfront, hnone hback]
  omega

/-- A piece that is an argument but for blanks ends where the argument does. -/
theorem eq_of_strip_eq {p a z w : List Char} (hstrip : strip p = a)
    (h : a ++ ',' :: z = p ++ ',' :: w) : p = a ∧ w = z := by
  have hcount := countP_strip p
  have hcomma : ∀ u, 0 < (',' :: u).countP (!isBlank ·) :=
    fun u => countP_pos_iff.mpr ⟨',', .head _, by decide⟩
  rw [hstrip] at hcount
  -- the longer of the two would have a comma more
  rcases append_eq_append_iff.mp h with ⟨u, rfl, hu⟩ | ⟨u, rfl, hu⟩ <;> cases u with
  | nil => simp_all
  | cons c u =>
    obtain ⟨rfl, -⟩ := cons.inj hu
    have := hcomma u
    rw [countP_append] at hcount
    omega

theorem splitArgs_of_pieces {p : List Char} (h : pieces 0 none x = p :: pieces 0 none y) :
    splitArgs x = strip p :: splitArgs y := by
  rw [splitArgs, h, map_cons, splitArgs]
  obtain ⟨q, qs, hq⟩ := exists_cons_of_ne_nil (pieces_ne_nil y 0 none)
  rw [hq]
  rfl

theorem splitArgs_eq_cons {a b : List Char} {rest : List (List Char)}
    (h : splitArgs (a ++ ',' :: ' ' :: x) = a :: b :: rest) :
    uncut 0 none a = some (0, none) ∧ splitArgs x = b :: rest := by
  rcases pieces_cases (a ++ ',' :: ' ' :: x) 0 none with ⟨r, -, hp⟩ | ⟨p, y, hsplit, hu, hp⟩
  · rw [splitArgs, hp, map_singleton, dropLastBlank.eq_2] at h
    split at h <;> simp at h
  · rw [splitArgs_of_pieces hp, cons.injEq] at h
    obtain ⟨rfl, rfl⟩ := eq_of_strip_eq h.1 hsplit
    have hspace : splitArgs (' ' :: x) = splitArgs x :=
      congrArg dropLastBlank (strip_pieces_space x)
    exact ⟨hu, hspace ▸ h.2⟩

/-- Behind an argument that comes apart from the next one the scan is outside literals at
depth 0. -/
theorem uncut_of_splitArgs : ∀ {args : List (List Char)}, splitArgs (joinArgs args) = args →
    ∀ a ∈ args.dropLast, uncut 0 none a = some (0, none)
  | [], _ => by simp
  | [_], _ => by simp
  | a :: b :: args, h => by
    rw [joinArgs_cons] at h
    obtain ⟨ha, hrest⟩ := splitArgs_eq_cons h
    rw [dropLast_cons_cons, forall_mem_cons]
    exact ⟨ha, uncut_of_splitArgs hrest⟩

/-- Joined arguments are split into what they were if each of them is stripped and not empty, has no
comma to cut at, and ends outside literals at depth 0. The last two are needed of all arguments but
the last one. -/
theorem splitArgs_joinArgs_inverse {args : List (List Char)} (hne : args ≠ [])
    (hargs : ∀ a ∈ args, a ≠ [] ∧ strip a = a) :
    ((∀ a ∈ args, uncut 0 none a = some (0, none)) → splitArgs (joinArgs args) = args)
      ∧ (splitArgs (joinArgs args) = args → ∀ a ∈ args.dropLast,
        uncut 0 none a = some (0, none)) := by
  refine ⟨fun h => ?_, uncut_of_splitArgs⟩
  rw [splitArgs, strip_pieces_joinArgs args hne fun a ha => ⟨h a ha, (hargs a ha).2⟩]
  exact dropLastBlank_eq_self fun a ha => (hargs a ha).1

/-- Calls, commas and quotes of the other kind stay in their arguments. -/
theorem splitArgs_joinArgs_quotes :
    let args := ["f(a, b)", "'x, (\"'", "\"it's, \"", "[c]"].map String.toList
    splitArgs (joinArgs args) = args ∧ ∀ a ∈ args.dropLast, uncut 0 none a = some (0, none) := by
  intro args
  have hargs : ∀ a ∈ args, (a ≠ [] ∧ strip a = a) ∧ uncut 0 none a = some (0, none) := by
    simp only [args, map_cons, map_nil, forall_mem_cons]
    decide
  have h := splitArgs_joinArgs_inverse (cons_ne_nil _ _) fun a ha => (hargs a ha).1
  have happart := h.1 fun a ha => (hargs a ha).2
  exact ⟨happart, h.2 happart⟩

end Replatform.Formula

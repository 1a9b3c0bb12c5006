/-!
# Numbers in a text

A whole number that was written is read back, whatever follows it, unless that begins with a digit.
-/

namespace Replatform.Number

open List

/-- The whole number at the front of a text, and what follows its digits. -/
def numeral? (s : List Char) : Option (Int × List Char) :=
  let negative := s.head? = some '-'
  let body := if negative then s.tail else s
  match body.takeWhile Char.isDigit with
  | [] => none
  | ds =>
    let n : Int := Nat.ofDigitChars 10 ds 0
    some (if negative then -n else n, body.dropWhile Char.isDigit)

/-- The text does not begin with a digit. -/
def NoDigit (s : List Char) : Prop := ∀ c ∈ s.head?, c.isDigit = false

variable {k : List Char}

theorem noDigit_cons {c : Char} (hc : c.isDigit = false) : NoDigit (c :: k) :=
  fun _ hd => Option.some.inj hd ▸ hc

theorem takeWhile_of_noDigit (hk : NoDigit k) : k.takeWhile Char.isDigit = [] := by
  cases k with
  | nil => rfl
  | cons c k => rw [takeWhile_cons, hk c rfl, if_neg Bool.false_ne_true]

theorem dropWhile_of_noDigit (hk : NoDigit k) : k.dropWhile Char.isDigit = k := by
  cases k with
  | nil => rfl
  | cons c k => rw [dropWhile_cons, hk c rfl, if_neg Bool.false_ne_true]

/-- The digits of a number are all that is taken of a text. -/
theorem digits_append (n : Nat) (hk : NoDigit k) :
    (Nat.toDigits 10 n ++ k).takeWhile Char.isDigit = Nat.toDigits 10 n
      ∧ (Nat.toDigits 10 n ++ k).dropWhile Char.isDigit = k := by
  have hdigit : ∀ c ∈ Nat.toDigits 10 n, c.isDigit := fun _ =>
    Nat.isDigit_of_mem_toDigits (by decide) (by decide)
  rw [takeWhile_append_of_pos hdigit, dropWhile_append_of_pos hdigit,
    takeWhile_of_noDigit hk, dropWhile_of_noDigit hk, append_nil]
  exact ⟨rfl, rfl⟩

theorem toList_toString_ofNat (n : Nat) :
    (toString (Int.ofNat n)).toList = Nat.toDigits 10 n := String.toList_ofList

theorem toList_toString_negSucc (n : Nat) :
    (toString (Int.negSucc n)).toList = '-' :: Nat.toDigits 10 (n + 1) := by
  show ("-" ++ (n + 1).repr).toList = _
  rw [String.toList_append]
  exact congrArg ('-' :: ·) String.toList_ofList

/-- A number is made of digits, with a sign or not. -/
theorem digit_of_mem_toString {i : Int} {c : Char} (hc : c ∈ (toString i).toList) :
    c = '-' ∨ c.isDigit := by
  have hdigit : ∀ {n}, c ∈ Nat.toDigits 10 n → c.isDigit :=
    Nat.isDigit_of_mem_toDigits (by decide) (by decide)
  cases i with
  | ofNat n =>
    rw [toList_toString_ofNat] at hc
    exact .inr (hdigit hc)
  | negSucc n =>
    rw [toList_toString_negSucc] at hc
    exact (mem_cons.mp hc).imp_right hdigit

theorem exists_toString (i : Int) : ∃ c t, (toString i).toList = c :: t := by
  cases i with
  | ofNat n =>
    rw [toList_toString_ofNat]
    exact exists_cons_of_ne_nil Nat.toDigits_ne_nil
  | negSucc n => exact ⟨'-', _, toList_toString_negSucc n⟩

theorem toDigits_head_ne (n : Nat) : (Nat.toDigits 10 n ++ k).head? ≠ some '-' := by
  obtain ⟨c, t, ht⟩ := exists_cons_of_ne_nil (Nat.toDigits_ne_nil (n := n) (b := 10))
  have hdigit := Nat.isDigit_of_mem_toDigits (b := 10) (n := n) (c := c) (by decide) (by decide)
    (ht ▸ mem_cons_self ..)
  rw [ht, cons_append, head?_cons]
  rintro ⟨⟩
  exact absurd hdigit (by decide)

theorem numeral?_toString (i : Int) (hk : NoDigit k) :
    numeral? ((toString i).toList ++ k) = some (i, k) := by
  cases i with
  | ofNat n =>
    obtain ⟨htake, hdrop⟩ := digits_append n hk
    rw [toList_toString_ofNat, numeral?]
    simp only [toDigits_head_ne, if_false, htake, hdrop]
    split
    next hnone => exact absurd hnone Nat.toDigits_ne_nil
    next => rw [Nat.ofDigitChars_toDigits (by decide) (by decide)]; rfl
  | negSucc n =>
    obtain ⟨htake, hdrop⟩ := digits_append (n + 1) hk
    rw [toList_toString_negSucc, numeral?]
    simp only [cons_append, head?_cons, if_true, tail_cons, htake, hdrop]
    split
    next hnone => exact absurd hnone Nat.toDigits_ne_nil
    next => rw [Nat.ofDigitChars_toDigits (by decide) (by decide)]; rfl

end Replatform.Number

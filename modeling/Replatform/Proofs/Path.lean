import Replatform.Proofs.Files
import Replatform.Proofs.Splitting
/-!
# Paths below a directory

A name without slashes is one part of a path. Paths that go on from a directory by different names
lead to different places.
-/

namespace Replatform.Path

/-- The path that goes on from a directory by some names. -/
def below (dir : Path) (names : List String) : Path := { dir with parts := dir.parts ++ names }

/-- The text is read as a path with one part. -/
def IsPart (s : String) : Prop := ofString s = ⟨"", [s]⟩

instance (s : String) : Decidable (IsPart s) := inferInstanceAs (Decidable (_ = _))

theorem isPart_of_notMem {s : String} (hslash : '/' ∉ s.toList) (hempty : s.toList ≠ [])
    (hdot : s.toList ≠ ['.']) : IsPart s := by
  have hroot : rootOf s.toList = "" := by
    unfold rootOf
    cases hs : s.toList with
    | nil => rfl
    | cons c cs =>
      have hc : (c == '/') = false :=
        beq_eq_false_iff_ne.mpr fun he => hslash (hs ▸ he ▸ List.mem_cons_self ..)
      rw [List.takeWhile_cons_of_neg (by simp [hc])]
  unfold IsPart ofString
  rw [hroot, Text.splitWhen_of_notMem hslash]
  simp [hempty, hdot]

theorem div_eq_below (dir : Path) {s : String} (h : IsPart s) : dir / s = dir.below [s] := by
  show dir.append (ofString s) = _
  rw [h]
  rfl

theorem below_div (dir : Path) (names : List String) {s : String} (h : IsPart s) :
    dir.below names / s = dir.below (names ++ [s]) := by
  rw [div_eq_below _ h]
  simp [below]

theorem div_div_eq_below (dir : Path) {s t : String} (hs : IsPart s) (ht : IsPart t) :
    dir / s / t = dir.below [s, t] := by
  rw [div_eq_below dir hs, below_div _ _ ht]
  rfl

/-- The place of a path below a directory lies below the place of the directory. -/
theorem placeOf_below (fs : Files) (dir : Path) {names : List String} (hup : ".." ∉ names) :
    fs.placeOf (dir.below names) = fs.placeOf dir ++ names := by
  have hclimb : ∀ (names place : List String), ".." ∉ names →
      names.foldl climb place = place ++ names := by
    intro names
    induction names with
    | nil => simp
    | cons name names ih =>
      intro place hup
      rw [List.mem_cons, not_or] at hup
      rw [List.foldl_cons, ih _ hup.2, climb, if_neg fun he => hup.1 he.symm]
      simp
  have hparts : (fs.cwd.append (dir.below names)).parts = (fs.cwd.append dir).parts ++ names := by
    unfold append below isAbsolute
    dsimp only
    split
    · rfl
    · rw [List.append_assoc]
  show (fs.cwd.append (dir.below names)).parts.foldl climb [] = _
  rw [hparts, List.foldl_append, hclimb _ _ hup]
  rfl

end Replatform.Path

namespace Replatform

/-- A name that is too long for a file. -/
def longName : String := String.ofList (List.replicate 256 'x')

end Replatform

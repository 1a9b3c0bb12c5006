import Replatform.Session
import Replatform.Proofs.Stateful
/-!
# What a session keeps

To look at files changes nothing, to print and to ask leaves the files as they are (`SameDisk`), and
a change of the files that fails is no change. A question takes the next line of the input, and it
always gets a reply.
-/

namespace Replatform

open Stateful

def SameDisk (s s' : Session) : Prop := s'.files = s.files

instance : IsPreorder Session SameDisk where
  refl _ := rfl
  trans _ _ _ h₁ h₂ := h₂.trans h₁

theorem run_look {α : Type} (f : Files → Except Failure α) (s : Session) :
    result (Run.look f) s = f s.files ∧ state (Run.look f) s = s := by
  unfold Run.look
  rw [result_get_bind, state_get_bind]
  cases f s.files with
  | ok a => exact ⟨rfl, rfl⟩
  | error e => exact ⟨rfl, rfl⟩

@[grind ←] theorem sameDisk_look {α : Type} (f : Files → Except Failure α) :
    Within SameDisk (Run.look f) := fun s => congrArg Session.files (run_look f s).2

@[grind ←] theorem sameDisk_ask (question : String) : Within SameDisk (Run.ask question) := by
  refine within_bind (within_modify fun _ => rfl) fun _ => ?_
  intro s
  rw [state_get_bind]
  split <;> rfl

/-- A change that fails leaves the session as it was. -/
theorem run_change (f : Files → Except Failure Files) (s : Session) :
    (result (Run.change f) s, state (Run.change f) s) = match f s.files with
      | .ok files => (.ok (), { s with files })
      | .error e => (.error e, s) := by
  have hrun := run_bind (Run.look f)
    (fun files => (modify fun s => { s with files } : Run Unit)) s
  rw [(run_look f s).1, (run_look f s).2] at hrun
  cases hf : f s.files with
  | ok files =>
    rw [hf] at hrun
    exact hrun
  | error e =>
    rw [hf] at hrun
    exact hrun

theorem within_change {R : Session → Session → Prop} [IsPreorder Session R]
    {f : Files → Except Failure Files}
    (hf : ∀ s files, f s.files = .ok files → R s { s with files }) : Within R (Run.change f) := by
  intro s
  have hrun := congrArg Prod.snd (run_change f s)
  cases hfiles : f s.files with
  | error e =>
    rw [hfiles] at hrun
    rw [show state (Run.change f) s = s from hrun]
    exact refl_of R s
  | ok files =>
    rw [hfiles] at hrun
    rw [show state (Run.change f) s = { s with files } from hrun]
    exact hf s files hfiles

/-- A question takes one line off the input, if there is one. -/
theorem run_ask (question : String) (s : Session) :
    ∃ reply, result (Run.ask question) s = .ok reply
      ∧ (state (Run.ask question) s).input = s.input.drop 1
      ∧ ∀ line, reply = .line line → s.input ≠ [] := by
  unfold Run.ask Run.print
  rw [result_modify_bind, state_modify_bind, result_get_bind, state_get_bind]
  cases hinput : s.input with
  | nil => exact ⟨.ended, rfl, rfl, fun _ h => by cases h⟩
  | cons line rest =>
    cases line with
    | none => exact ⟨.interrupted, rfl, rfl, fun _ h => by cases h⟩
    | some line => exact ⟨.line line, rfl, rfl, fun _ _ => List.cons_ne_nil _ _⟩

end Replatform

import Mathlib.Data.List.Forall2
import Mathlib.Order.Defs.Unbundled
import Replatform.Failure
/-!
# Steps on a state that may fail

A step answers or fails, and leaves a state behind in both cases. Two things are said about steps:

* `Within R x`: whatever comes of it, `x` leads from a state to one that `R` allows;
* `Gives x Q`: if `x` answers, `Q` holds of the answer.

Both go through sequences of steps and through the loops over lists, so that what a long step does
follows from what its parts do. What does so for any sequence is a `Trait`. Where more has to be
known about the state, stronger forms do the same: `Yields` for a step that cannot fail as long as a
property holds, `Ensures` for one that may fail and keeps the property anyway, and `Leads` for a
step that brings a property about, such as that a log has some entries more (`Puts`). `Obeys` says
all at once, where a property holds: what the step can change, what it answers and how it fails.
`Steady` compares two runs of one step: states that look the same to it lead to the same.
-/

namespace Replatform

open List

/-- A step on a state that may fail. -/
abbrev Stateful (σ α : Type) := ExceptT Failure (StateM σ) α

namespace Stateful

variable {σ α β : Type} {x : Stateful σ α} {f : α → Stateful σ β} {s : σ} {xs : List α}

/-- What a step answers. -/
def result (x : Stateful σ α) (s : σ) : Except Failure α := (x.run.run s).1

/-- The state behind a step. -/
def state (x : Stateful σ α) (s : σ) : σ := (x.run.run s).2

variable {c : Prop} {a : α} {e : Failure}

theorem run_eq_of_result (h : result x s = .ok a) : x.run.run s = (.ok a, state x s) :=
  Prod.ext h rfl

theorem result_get_bind (f : σ → Stateful σ α) (s : σ) :
    result (get >>= f) s = result (f s) s := rfl

theorem state_get_bind (f : σ → Stateful σ α) (s : σ) : state (get >>= f) s = state (f s) s := rfl

theorem result_modify_bind (f : σ → σ) (g : PUnit → Stateful σ α) (s : σ) :
    result (modify f >>= g) s = result (g ()) (f s) := rfl

theorem state_modify_bind (f : σ → σ) (g : PUnit → Stateful σ α) (s : σ) :
    state (modify f >>= g) s = state (g ()) (f s) := rfl

/-- Behind a step that fails, the steps that should follow are not taken. -/
theorem run_bind (x : Stateful σ α) (f : α → Stateful σ β) (s : σ) :
    (result (x >>= f) s, state (x >>= f) s) = match result x s with
      | .ok a => (result (f a) (state x s), state (f a) (state x s))
      | .error e => (.error e, state x s) := by
  unfold result state ExceptT.run StateT.run
  simp only [bind, ExceptT.bind, ExceptT.mk, StateT.bind]
  rcases x s with ⟨_ | a, s'⟩ <;> rfl

theorem result_bind_of_ok
    (h : result x s = .ok a) : result (x >>= f) s = result (f a) (state x s) := by
  have hrun := congrArg Prod.fst (run_bind x f s)
  rw [h] at hrun
  exact hrun

theorem result_bind_of_error (h : result x s = .error e) : result (x >>= f) s = .error e := by
  have hrun := congrArg Prod.fst (run_bind x f s)
  rw [h] at hrun
  exact hrun

theorem state_bind_of_ok
    (h : result x s = .ok a) : state (x >>= f) s = state (f a) (state x s) := by
  have hrun := congrArg Prod.snd (run_bind x f s)
  rw [h] at hrun
  exact hrun

theorem state_bind_of_error (h : result x s = .error e) : state (x >>= f) s = state x s := by
  have hrun := congrArg Prod.snd (run_bind x f s)
  rw [h] at hrun
  exact hrun

theorem bind_ok {c : β} (h : result (x >>= f) s = .ok c) :
    ∃ a, result x s = .ok a ∧ result (f a) (state x s) = .ok c ∧
      state (x >>= f) s = state (f a) (state x s) := by
  cases hx : result x s with
  | error e => exact nomatch (result_bind_of_error hx).symm.trans h
  | ok a => exact ⟨a, rfl, (result_bind_of_ok hx).symm.trans h, state_bind_of_ok hx⟩

/-! ## What holds of steps that are put together -/

/-- A property of steps that a sequence of steps has if each of them has it. -/
structure Trait (σ : Type) where
  Holds : {α : Type} → Stateful σ α → Prop
  holds_pure : ∀ {α : Type} (a : α), Holds (pure a)
  holds_throw : ∀ {α : Type} (e : Failure), Holds (throw e : Stateful σ α)
  holds_bind : ∀ {α β : Type} {x : Stateful σ α} {f : α → Stateful σ β}, Holds x →
    (∀ a, Holds (f a)) → Holds (x >>= f)

namespace Trait

attribute [grind ←] holds_pure holds_throw holds_bind

variable {T : Trait σ}

theorem holds_ite [Decidable c] {x y : Stateful σ α} (hx : T.Holds x) (hy : T.Holds y) :
    T.Holds (if c then x else y) := by
  split <;> assumption

@[grind ←] theorem holds_mapM (hf : ∀ x ∈ xs, T.Holds (f x)) : T.Holds (xs.mapM f) := by
  induction xs with
  | nil => exact T.holds_pure []
  | cons x xs ih =>
    rw [mapM_cons]
    refine T.holds_bind (hf x (.head _)) fun y => ?_
    exact T.holds_bind (ih (forall_mem_cons.mp hf).2) fun ys => T.holds_pure _

@[grind ←] theorem holds_forM {f : α → Stateful σ PUnit}
    (hf : ∀ x ∈ xs, T.Holds (f x)) : T.Holds (xs.forM f) := by
  induction xs with
  | nil => exact T.holds_pure _
  | cons x xs ih =>
    exact T.holds_bind (hf x (.head _)) fun _ =>
      ih (forall_mem_cons.mp hf).2

@[grind ←] theorem holds_foldlM {f : β → α → Stateful σ β}
    (hf : ∀ y, ∀ x ∈ xs, T.Holds (f y x)) : ∀ y, T.Holds (xs.foldlM f y) := by
  induction xs with
  | nil => exact fun y => T.holds_pure y
  | cons x xs ih =>
    intro y
    rw [foldlM_cons]
    exact T.holds_bind (hf y x (.head _)) fun z =>
      ih (fun y' z' hz' => hf y' z' (.tail _ hz')) z

end Trait

/-! ## What a step can change -/

/-- Whatever comes of the step, it leads from each state to one that the relation allows. -/
def Within (R : σ → σ → Prop) (x : Stateful σ α) : Prop := ∀ s, R s (state x s)

section Within

variable {R : σ → σ → Prop}

theorem within_modify {f : σ → σ} (hf : ∀ s, R s (f s)) :
    Within R (modify f : Stateful σ PUnit) := hf

theorem within_ite [Decidable c] {x y : Stateful σ α} (hx : Within R x)
    (hy : Within R y) : Within R (if c then x else y) := by
  split <;> assumption

variable [IsPreorder σ R]

@[grind ←] theorem within_pure (a : α) : Within R (pure a) := fun s => refl_of R s

@[grind ←] theorem within_throw (e : Failure) : Within R (throw e : Stateful σ α) :=
  fun s => refl_of R s

@[grind ←] theorem within_get : Within R (get : Stateful σ σ) := fun s => refl_of R s

/-- Later steps may use what is known of the answer. -/
theorem within_bind_of (hx : Within R x)
    (hf : ∀ s a, result x s = .ok a → Within R (f a)) : Within R (x >>= f) := by
  intro s
  cases hresult : result x s with
  | error e =>
    rw [state_bind_of_error hresult]
    exact hx s
  | ok a =>
    rw [state_bind_of_ok hresult]
    exact trans_of R (hx s) (hf s a hresult _)

@[grind ←] theorem within_bind (hx : Within R x)
    (hf : ∀ a, Within R (f a)) : Within R (x >>= f) := within_bind_of hx fun _ a _ => hf a

/-- To keep within a relation is a trait. -/
def Trait.within (R : σ → σ → Prop) [IsPreorder σ R] : Trait σ where
  Holds := Within R
  holds_pure := within_pure
  holds_throw := within_throw
  holds_bind := within_bind

@[grind ←] theorem within_mapM (hf : ∀ x ∈ xs, Within R (f x)) : Within R (xs.mapM f) :=
  Trait.holds_mapM (T := .within R) hf

@[grind ←] theorem within_forM {f : α → Stateful σ PUnit}
    (hf : ∀ x ∈ xs, Within R (f x)) : Within R (xs.forM f) :=
  Trait.holds_forM (T := .within R) hf

end Within

/-! ## What a step answers -/

/-- If the step answers, the answer has the property. -/
def Gives (x : Stateful σ α) (Q : α → Prop) : Prop := ∀ s a, result x s = .ok a → Q a

variable {Q : α → Prop}

theorem gives_pure (h : Q a) : Gives (pure a : Stateful σ α) Q := fun _ _ h' => Except.ok.inj h' ▸ h

theorem gives_bind {R : β → Prop}
    (hx : Gives x Q) (hf : ∀ a, Q a → Gives (f a) R) : Gives (x >>= f) R := by
  intro s c h
  obtain ⟨a, ha, hc, -⟩ := bind_ok h
  exact hf a (hx s a ha) _ c hc

theorem gives_true (x : Stateful σ α) : Gives x fun _ => True := fun _ _ _ => trivial

/-- What is known of each answer is known of the list of answers. -/
theorem gives_mapM {γ : Type} {g : β → γ} {h : α → γ}
    (hf : ∀ x ∈ xs, Gives (f x) fun y => g y = h x) :
    Gives (xs.mapM f) fun ys => ys.map g = xs.map h := by
  induction xs with
  | nil => exact gives_pure rfl
  | cons x xs ih =>
    rw [mapM_cons]
    refine gives_bind (hf x (.head _)) fun y hy => ?_
    refine gives_bind (ih (forall_mem_cons.mp hf).2) fun ys hys => ?_
    exact gives_pure (by rw [map_cons, map_cons, hy, hys])

/-! ## What a step answers as long as a property holds -/

/-- Where the property holds, the step answers `a` and keeps the property. -/
def Yields (I : σ → Prop) (x : Stateful σ α) (a : α) : Prop :=
  ∀ s, I s → result x s = .ok a ∧ I (state x s)

section Yields

variable {I : σ → Prop}

theorem yields_pure (a : α) : Yields I (pure a) a := fun _ h => ⟨rfl, h⟩

theorem yields_bind {c : β} (hx : Yields I x a) (hf : Yields I (f a) c) : Yields I (x >>= f) c := by
  intro s hs
  obtain ⟨hresult, hstate⟩ := hx s hs
  rw [result_bind_of_ok hresult, state_bind_of_ok hresult]
  exact hf _ hstate

theorem yields_mapM {g : α → β}
    (hf : ∀ x ∈ xs, Yields I (f x) (g x)) : Yields I (xs.mapM f) (xs.map g) := by
  induction xs with
  | nil => exact yields_pure []
  | cons x xs ih =>
    rw [mapM_cons]
    refine yields_bind (hf x (.head _)) ?_
    exact yields_bind (ih (forall_mem_cons.mp hf).2) (yields_pure _)

theorem yields_foldlM {f : β → α → Stateful σ β} {g : β → α → β}
    (hf : ∀ y, ∀ x ∈ xs, Yields I (f y x) (g y x)) :
    ∀ y, Yields I (xs.foldlM f y) (xs.foldl g y) := by
  induction xs with
  | nil => exact fun y => yields_pure y
  | cons x xs ih =>
    intro y
    rw [foldlM_cons]
    refine yields_bind (hf y x (.head _)) ?_
    exact ih (fun y' z hz => hf y' z (.tail _ hz)) _

end Yields

/-! ## What a step answers, and keeps however it ends -/

/-- Where the property holds it holds behind the step too, and an answer has the other property. -/
def Ensures (I : σ → Prop) (x : Stateful σ α) (Q : α → Prop) : Prop :=
  ∀ s, I s → I (state x s) ∧ ∀ a, result x s = .ok a → Q a

section Ensures

variable {I : σ → Prop}

theorem ensures_pure (h : Q a) : Ensures I (pure a) Q :=
  fun _ hs => ⟨hs, fun _ h' => Except.ok.inj h' ▸ h⟩

theorem ensures_of_within (hx : Within (fun s s' => I s → I s') x) :
    Ensures I x fun _ => True := fun s hs => ⟨hx s hs, fun _ _ => trivial⟩

theorem ensures_bind {R : β → Prop}
    (hx : Ensures I x Q) (hf : ∀ a, Q a → Ensures I (f a) R) : Ensures I (x >>= f) R := by
  intro s hs
  obtain ⟨hstate, hanswer⟩ := hx s hs
  cases hresult : result x s with
  | error e =>
    rw [result_bind_of_error hresult, state_bind_of_error hresult]
    exact ⟨hstate, fun _ h => nomatch h⟩
  | ok a =>
    rw [result_bind_of_ok hresult, state_bind_of_ok hresult]
    exact hf a (hanswer a hresult) _ hstate

theorem ensures_mapM {P : β → α → Prop} (hf : ∀ x ∈ xs, Ensures I (f x) (P · x)) :
    Ensures I (xs.mapM f) fun ys => Forall₂ P ys xs := by
  induction xs with
  | nil => exact ensures_pure .nil
  | cons x xs ih =>
    rw [mapM_cons]
    refine ensures_bind (hf x (.head _)) fun y hy => ?_
    refine ensures_bind (ih (forall_mem_cons.mp hf).2) fun ys hys => ?_
    exact ensures_pure (.cons hy hys)

theorem ensures_forM {f : α → Stateful σ PUnit}
    (hf : ∀ x ∈ xs, Ensures I (f x) fun _ => True) : Ensures I (xs.forM f) fun _ => True := by
  induction xs with
  | nil => exact ensures_pure trivial
  | cons x xs ih =>
    exact ensures_bind (hf x (.head _)) fun _ _ =>
      ih (forall_mem_cons.mp hf).2

end Ensures

/-! ## What a step leads to -/

/-- If the first property holds and the step answers, the second holds then. -/
def Leads (P Q : σ → Prop) (x : Stateful σ α) : Prop :=
  ∀ s a, P s → result x s = .ok a → Q (state x s)

theorem leads_bind {P Q R : σ → Prop} (hx : Leads P Q x)
    (hf : ∀ a, Leads Q R (f a)) : Leads P R (x >>= f) := by
  intro s c hs h
  obtain ⟨a, ha, hc, hstate⟩ := bind_ok h
  rw [hstate]
  exact hf a _ c (hx s a hs ha) hc

theorem leads_of_within {P : σ → Prop} (hx : Within (fun s s' => P s → P s') x) :
    Leads P P x := fun s _ hs _ => hx s hs

/-- If the state tells of a log and the step answers, the state tells then of the log with the new
entries at its end. -/
def Puts {ε : Type} (S : List ε → σ → Prop) (x : Stateful σ α) (new : List ε) : Prop :=
  ∀ log, Leads (S log) (S (log ++ new)) x

section Puts

variable {ε : Type} {S : List ε → σ → Prop} {new new₁ new₂ : List ε}

/-- A step that keeps what the state tells adds nothing. -/
theorem puts_of_within (h : Within (fun s s' => ∀ log, S log s → S log s') x) : Puts S x [] := by
  intro log s a hs _
  rw [append_nil]
  exact h s log hs

theorem puts_pure (a : α) : Puts S (pure a : Stateful σ α) [] := puts_of_within fun _ _ h => h

theorem puts_bind (hx : Puts S x new₁)
    (hQ : Gives x Q) (hf : ∀ a, Q a → Puts S (f a) new₂) : Puts S (x >>= f) (new₁ ++ new₂) := by
  intro log s c hs h
  obtain ⟨a, ha, hc, hstate⟩ := bind_ok h
  rw [hstate, ← append_assoc]
  exact hf a (hQ s a ha) _ _ c (hx log s a hs ha) hc

/-- Steps that add nothing can be passed over. -/
theorem puts_after (hx : Puts S x []) (hf : ∀ a, Puts S (f a) new) : Puts S (x >>= f) new :=
  puts_bind hx (gives_true x) fun a _ => hf a

/-- So can those that follow. -/
theorem puts_before (hx : Puts S x new) (hf : ∀ a, Puts S (f a) []) : Puts S (x >>= f) new := by
  have h := puts_bind hx (gives_true x) fun a _ => hf a
  rwa [append_nil] at h

/-- A step that goes on with the state may use what the state tells. -/
theorem puts_get_bind {f : σ → Stateful σ α} (hf : ∀ log s, S log s → Puts S (f s) new) :
    Puts S (get >>= f) new := fun log s a hs h => hf log s hs log s a hs h

theorem puts_forM {f : α → Stateful σ PUnit} {g : α → List ε}
    (hf : ∀ x ∈ xs, Puts S (f x) (g x)) : Puts S (xs.forM f) (xs.flatMap g) := by
  induction xs with
  | nil => exact puts_pure _
  | cons x xs ih =>
    rw [flatMap_cons]
    exact puts_bind (hf x (.head _)) (gives_true _) fun _ _ =>
      ih (forall_mem_cons.mp hf).2

theorem puts_mapM {g : α → List ε}
    (hf : ∀ x ∈ xs, Puts S (f x) (g x)) : Puts S (xs.mapM f) (xs.flatMap g) := by
  induction xs with
  | nil => exact puts_pure _
  | cons x xs ih =>
    rw [mapM_cons, flatMap_cons]
    refine puts_bind (hf x (.head _)) (gives_true _) fun _ _ => ?_
    exact puts_before (ih (forall_mem_cons.mp hf).2) fun _ => puts_pure _

end Puts

/-! ## What a step does where a property holds -/

/-- Where `P` holds, the step leads to a state that `R` allows, however it ends. If it answers, `Q`
holds of the answer and the state then; if it fails, `E` holds of the failure. -/
def Obeys (P : σ → Prop) (R : σ → σ → Prop) (E : Failure → Prop) (x : Stateful σ α)
    (Q : α → σ → Prop) : Prop :=
  ∀ s, P s → R s (state x s) ∧ match result x s with
    | .ok a => Q a (state x s)
    | .error e => E e

section Obeys

variable {P P' : σ → Prop} {R : σ → σ → Prop} {E : Failure → Prop} {Q Q' : α → σ → Prop}

theorem Obeys.error (hx : Obeys P R E x Q) (hs : P s) (h : result x s = .error e) : E e := by
  have hresult := (hx s hs).2
  rw [h] at hresult
  exact hresult

theorem Obeys.pre (hx : Obeys P R E x Q) (hP : ∀ s, P' s → P s) :
    Obeys P' R E x Q := fun s hs => hx s (hP s hs)

theorem Obeys.imp (hx : Obeys P R E x Q) (hP : ∀ s, P' s → P s)
    (hQ : ∀ a s, Q a s → Q' a s) : Obeys P' R E x Q' := by
  intro s hs
  obtain ⟨hR, hresult⟩ := hx s (hP s hs)
  refine ⟨hR, ?_⟩
  cases h : result x s with
  | ok a =>
    rw [h] at hresult
    exact hQ a _ hresult
  | error e =>
    rw [h] at hresult
    exact hresult

/-- A property that a stricter relation keeps can be carried along. -/
theorem Obeys.carry {S : σ → σ → Prop} (hx : Obeys (fun _ => True) S E x Q)
    (hS : ∀ s s', S s s' → R s s') (hP : ∀ s s', S s s' → P s → P s') :
    Obeys P R E x fun a s => Q a s ∧ P s := by
  intro s hs
  obtain ⟨hstate, hresult⟩ := hx s trivial
  refine ⟨hS _ _ hstate, ?_⟩
  cases h : result x s with
  | ok a =>
    rw [h] at hresult
    exact ⟨hresult, hP _ _ hstate hs⟩
  | error e =>
    rw [h] at hresult
    exact hresult

theorem obeys_ite [Decidable c] {x y : Stateful σ α} (hx : c → Obeys P R E x Q)
    (hy : ¬c → Obeys P R E y Q) : Obeys P R E (if c then x else y) Q := by
  split
  · exact hx ‹c›
  · exact hy ‹¬c›

/-- A step that goes on with the state may use what is known of it. -/
theorem obeys_get_bind {f : σ → Stateful σ α} (hf : ∀ s, P s → Obeys (· = s) R E (f s) Q) :
    Obeys P R E (get >>= f) Q := fun s hs => hf s hs s rfl

variable [IsPreorder σ R]

theorem obeys_pure (h : ∀ s, P s → Q a s) : Obeys P R E (pure a) Q :=
  fun s hs => ⟨refl_of R s, h s hs⟩

theorem obeys_bind {T : β → σ → Prop}
    (hx : Obeys P R E x Q) (hf : ∀ a, Obeys (Q a) R E (f a) T) : Obeys P R E (x >>= f) T := by
  intro s hs
  obtain ⟨hR, hresult⟩ := hx s hs
  cases h : result x s with
  | error e =>
    rw [h] at hresult
    rw [result_bind_of_error h, state_bind_of_error h]
    exact ⟨hR, hresult⟩
  | ok a =>
    rw [h] at hresult
    obtain ⟨hR', hresult'⟩ := hf a _ hresult
    rw [result_bind_of_ok h, state_bind_of_ok h]
    exact ⟨trans_of R hR hR', hresult'⟩

end Obeys

/-! ## Two runs of a step -/

/-- From states that the relation joins, the step answers the same or fails in the same way, and
leads to states that the relation joins. -/
def Steady (R : σ → σ → Prop) (x : Stateful σ α) : Prop :=
  ∀ s s', R s s' → result x s = result x s' ∧ R (state x s) (state x s')

section Steady

variable {R : σ → σ → Prop}

theorem steady_pure (a : α) : Steady R (pure a) := fun _ _ h => ⟨rfl, h⟩

theorem steady_throw (e : Failure) : Steady R (throw e : Stateful σ α) := fun _ _ h => ⟨rfl, h⟩

theorem steady_modify {f : σ → σ} (hf : ∀ s s', R s s' → R (f s) (f s')) :
    Steady R (modify f : Stateful σ PUnit) := fun s s' h => ⟨rfl, hf s s' h⟩

/-- A step that goes on with the state may read what the relation fixes. -/
theorem steady_get_bind {f : σ → Stateful σ α} (hsame : ∀ s s', R s s' → f s = f s')
    (hf : ∀ s, Steady R (f s)) : Steady R (get >>= f) := by
  intro s s' h
  rw [result_get_bind, result_get_bind, state_get_bind, state_get_bind, ← hsame s s' h]
  exact hf s s s' h

theorem steady_bind (hx : Steady R x) (hf : ∀ a, Steady R (f a)) : Steady R (x >>= f) := by
  intro s s' h
  obtain ⟨hresult, hstate⟩ := hx s s' h
  cases h : result x s with
  | error e =>
    have h' := hresult.symm.trans h
    rw [result_bind_of_error h, result_bind_of_error h', state_bind_of_error h,
      state_bind_of_error h']
    exact ⟨rfl, hstate⟩
  | ok a =>
    have h' := hresult.symm.trans h
    rw [result_bind_of_ok h, result_bind_of_ok h', state_bind_of_ok h, state_bind_of_ok h']
    exact hf a _ _ hstate

/-- So is to be steady. -/
def Trait.steady (R : σ → σ → Prop) : Trait σ where
  Holds := Steady R
  holds_pure := steady_pure
  holds_throw := steady_throw
  holds_bind := steady_bind

/-- What a step keeps on each side goes along with what two runs of it have in common. -/
theorem Steady.of_within {S T : σ → σ → Prop} (hx : Steady S x)
    (hwithin : Within T x) (hleft : ∀ s s', R s s' → S s s')
    (hback : ∀ s s' t t', R s s' → S t t' → T s t → T s' t' → R t t') : Steady R x := by
  intro s s' h
  obtain ⟨hresult, hstate⟩ := hx s s' (hleft s s' h)
  exact ⟨hresult, hback s s' _ _ h hstate (hwithin s) (hwithin s')⟩

end Steady

end Stateful

end Replatform

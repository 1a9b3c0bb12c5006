import Replatform.CommandLine.Analyze
import Replatform.Proofs.Macro.Prompting
import Replatform.Proofs.Project.Record
/-!
# Who uses a macro

The inventory counts a use of a macro for each reference that was sought, under the name of the file
that the reference leads to. A reference is sought once for a workflow, and not at all if it was to
be passed over when the workflow came, or if the search failed (`Visit.sought`). So the users of a
macro are known exactly (`usage_collectAll`), but they are not always the workflows that refer to
it: two references of a workflow to files of one name make two uses, and a reference to pass over
makes none. The inventory is exact just when each workflow has one reference that was sought for
each name that it refers to, and then a macro is shared just when two workflows refer to it.
-/

namespace Replatform

open List Stateful Project

variable {infos : MacroInfos} {w : Workflow}

def fileName (reference : String) : String := (Path.ofString reference).name

/-! ## Inventories -/

namespace MacroInventory

variable {inv : MacroInventory}

theorem usersOf_add (inv : MacroInventory) (info : MacroInfo) (user name : String) :
    (inv.add info user).usersOf name
      = inv.usersOf name ++ if info.name = name then [user] else [] := by
  unfold usersOf add
  dsimp only
  rw [lookup_setField]
  by_cases h : name = info.name
  · rw [if_pos h, if_pos h.symm, h]
    rfl
  · rw [if_neg h, if_neg fun h' => h h'.symm, append_nil]

/-- One use for each macro with the name. -/
theorem usersOf_addAll (inv : MacroInventory) (infos : MacroInfos) (user name : String) :
    (inv.addAll infos user).usersOf name
      = inv.usersOf name ++ replicate (infos.countP (·.2.name == name)) user := by
  induction infos generalizing inv with
  | nil => exact (append_nil _).symm
  | cons x infos ih =>
    show ((inv.add x.2 user).addAll infos user).usersOf name = _
    rw [ih, usersOf_add, append_assoc, countP_cons]
    by_cases h : x.2.name = name
    · rw [if_pos h, if_pos (beq_iff_eq.mpr h), replicate_succ, singleton_append]
    · rw [if_neg h, if_neg fun h' => h (beq_iff_eq.mp h'), nil_append, Nat.add_zero]

/-- There is one entry for each name, and it is about a macro of that name. -/
structure Sound (inv : MacroInventory) : Prop where
  keys : inv.macros.map (·.1) = inv.usage.map (·.1)
  nodup : (inv.usage.map (·.1)).Nodup
  named : ∀ x ∈ inv.macros, x.2.name = x.1

theorem sound_empty : Sound {} := ⟨rfl, .nil, forall_mem_nil _⟩

theorem Sound.add (h : inv.Sound) (info : MacroInfo) (user : String) :
    (inv.add info user).Sound := by
  have hkeys : (inv.add info user).usage.map (·.1)
      = if info.name ∈ inv.usage.map (·.1) then inv.usage.map (·.1)
        else inv.usage.map (·.1) ++ [info.name] := map_fst_setField ..
  by_cases hmem : info.name ∈ inv.usage.map (·.1)
  · have hmacros : (inv.add info user).macros = inv.macros :=
      if_pos (isSome_lookup_iff.mpr (h.keys ▸ hmem))
    rw [if_pos hmem] at hkeys
    exact ⟨by rw [hmacros, hkeys, h.keys], hkeys ▸ h.nodup, hmacros ▸ h.named⟩
  · have hmacros : (inv.add info user).macros = inv.macros ++ [(info.name, info)] :=
      if_neg fun hsome => hmem (h.keys ▸ isSome_lookup_iff.mp hsome)
    rw [if_neg hmem] at hkeys
    refine ⟨by rw [hmacros, hkeys, map_append, h.keys]; rfl, ?_, fun x hx => ?_⟩
    · rw [hkeys, ← concat_eq_append]
      exact h.nodup.concat hmem
    · rw [hmacros] at hx
      rcases mem_append.mp hx with hx | hx
      · exact h.named x hx
      · rw [mem_singleton.mp hx]

theorem Sound.addAll (h : inv.Sound) (infos : MacroInfos) (user : String) :
    (inv.addAll infos user).Sound := by
  induction infos generalizing inv with
  | nil => exact h
  | cons x infos ih => exact ih (h.add x.2 user)

/-- The shared macros are those with more than one use. -/
theorem mem_shared_iff (h : inv.Sound) (name : String) :
    name ∈ inv.shared.map (·.name) ↔ 1 < (inv.usersOf name).length := by
  have hlookup : ∀ {k users}, (k, users) ∈ inv.usage → inv.usage.lookup k = some users :=
    fun hmem => lookup_of_mem h.nodup hmem
  unfold shared usersOf
  constructor
  · intro hmem
    obtain ⟨info, hinfo, rfl⟩ := mem_map.mp hmem
    obtain ⟨⟨k, users⟩, hentry, hshared⟩ := mem_filterMap.mp hinfo
    dsimp only at hshared
    split at hshared
    next hmany =>
      rw [h.named _ (mem_of_lookup hshared), hlookup hentry]
      exact hmany
    next => cases hshared
  · intro hmany
    cases husers : inv.usage.lookup name with
    | none =>
      rw [husers] at hmany
      exact absurd hmany (Nat.not_lt_zero _)
    | some users =>
      rw [husers] at hmany
      have hentry := mem_of_lookup husers
      have hkey : name ∈ inv.macros.map (·.1) := h.keys ▸ mem_map.mpr ⟨_, hentry, rfl⟩
      obtain ⟨info, hinfo⟩ := Option.isSome_iff_exists.mp (isSome_lookup_iff.mpr hkey)
      refine mem_map.mpr ⟨info, mem_filterMap.mpr ⟨_, hentry, ?_⟩, ?_⟩
      · exact (if_pos hmany).trans hinfo
      · exact h.named _ (mem_of_lookup hinfo)

end MacroInventory

/-! ## The macros of a workflow -/

namespace Quest

/-- The macros that a search answers with: one for each reference that was not to be passed over
from the start. A reference that is passed over only later on has its answer by then. -/
theorem Course.keys {refs front skipped : List String} {infos' : MacroInfos} {q q' : Quest}
    {outcome : Except Failure MacroInfos} (h : Course refs infos q outcome q')
    (hok : outcome = .ok infos') (hfront : infos.map (·.1) = distinct front)
    (hold : skipped ⊆ q.resolver.skipped)
    (hnew : ∀ x ∈ q.resolver.skipped, x ∈ skipped ∨ x ∈ front) :
    infos'.map (·.1) = distinct (front ++ refs.filter (· ∉ skipped)) := by
  induction h generalizing front with
  | done =>
    cases hok
    rw [hfront, filter_nil, append_nil]
  | @pass reference rest infos q q' outcome hskip _ ih =>
    by_cases hmem : reference ∈ skipped
    · rw [filter_cons_of_neg (by simpa using hmem)]
      exact ih hok hfront hold hnew
    · -- It was sought before, so that it is there already.
      have hfound : reference ∈ front := (hnew _ hskip).resolve_left hmem
      rw [filter_cons_of_pos (by simpa using hmem), ← singleton_append, ← append_assoc]
      refine ih hok ?_ hold fun x hx => (hnew x hx).imp_right (mem_append_left _)
      rw [distinct_concat, if_pos (mem_distinct.mpr hfound), hfront]
  | fail => cases hok
  | @find reference rest infos q q₁ q' info outcome hskip hdeals hpath hname _ ih =>
    have hmem : reference ∉ skipped := fun h => hskip (hold h)
    have hresolver : (q₁.note reference info).resolver = q₁.resolver := by
      unfold note
      split <;> rfl
    rw [filter_cons_of_pos (by simpa using hmem), ← singleton_append, ← append_assoc]
    refine ih hok ?_ ?_ fun x hx => ?_
    · rw [map_fst_setField, distinct_concat, hfront]
    · rw [hresolver]
      exact Subset.trans hold hdeals.heeds.known.skipped
    · rw [hresolver] at hx
      rcases hdeals.skips x hx with hx | rfl
      · exact (hnew x hx).imp_right (mem_append_left _)
      · exact .inr (mem_append_right _ (mem_singleton.mpr rfl))

/-- Each macro bears the name of the file that its reference leads to. -/
theorem Course.named {refs : List String} {infos' : MacroInfos} {q q' : Quest}
    {outcome : Except Failure MacroInfos} (h : Course refs infos q outcome q')
    (hok : outcome = .ok infos') (hinfos : ∀ x ∈ infos, x.2.name = fileName x.1) :
    ∀ x ∈ infos', x.2.name = fileName x.1 := by
  induction h with
  | done =>
    cases hok
    exact hinfos
  | pass _ _ ih => exact ih hok hinfos
  | fail => cases hok
  | @find reference _ _ _ _ _ info _ _ _ _ hname _ ih =>
    refine ih hok fun x hx => ?_
    rcases mem_of_mem_setField hx with rfl | hx
    · exact hname
    · exact hinfos x hx

end Quest

/-- What is to be known of a workflow for the inventory: the references to pass over when it came,
and whether all its references were dealt with. -/
structure Visit where
  workflow : Workflow
  skipped : List String
  served : Bool

variable {v : Visit}

namespace Visit

/-- The references that were sought, each once. -/
def sought (v : Visit) : List String :=
  if v.served then distinct (v.workflow.macros.filter (· ∉ v.skipped)) else []

/-- How many of them lead to a file of that name. -/
def uses (v : Visit) (name : String) : Nat := v.sought.countP (fileName · == name)

theorem uses_eq_zero {name : String} (h : name ∉ v.workflow.macros.map fileName) :
    v.uses name = 0 := by
  refine countP_eq_zero.mpr fun reference hmem hname => h ?_
  unfold sought at hmem
  split at hmem
  · exact mem_map.mpr ⟨reference, mem_of_mem_filter (mem_distinct.mp hmem), beq_iff_eq.mp hname⟩
  · exact absurd hmem not_mem_nil

end Visit

namespace CommandLine

variable {c : Collected}

def visit (c : Collected) (w : Workflow) (s : Session) : Visit where
  workflow := w
  skipped := c.resolver.skipped
  served := (result (Seek.resolveWorkflow w) { session := s, resolver := c.resolver }).toBool

theorem run_resolveWorkflow (r : Resolver) (w : Workflow) (s : Session) :
    let q : Quest := { session := s, resolver := r }
    result (r.resolveWorkflow w) s = .ok
        { infos := result (Seek.resolveWorkflow w) q
          workflow := { w with missing := (state (Seek.resolveWorkflow w) q).missing }
          resolver := (state (Seek.resolveWorkflow w) q).resolver }
      ∧ state (r.resolveWorkflow w) s = (state (Seek.resolveWorkflow w) q).session := ⟨rfl, rfl⟩

theorem sought_visit_ok {s : Session}
    (h : result (Seek.resolveWorkflow w) { session := s, resolver := c.resolver } = .ok infos) :
    infos.map (·.1) = (visit c w s).sought ∧ ∀ x ∈ infos, x.2.name = fileName x.1 := by
  have hcourse := Quest.course_resolveWorkflow w { session := s, resolver := c.resolver }
  refine ⟨?_, hcourse.named h (forall_mem_nil _)⟩
  have hkeys := @Quest.Course.keys _ _ [] c.resolver.skipped _ _ _ _ hcourse h rfl
    (Subset.refl _) fun x hx => .inl hx
  have hserved : (visit c w s).served := by
    rw [visit, h]
    rfl
  rw [hkeys, Visit.sought, if_pos hserved]
  rfl

theorem sought_visit_error {s : Session} {e : Failure}
    (h : result (Seek.resolveWorkflow w) { session := s, resolver := c.resolver } = .error e) :
    (visit c w s).sought = [] := by
  rw [Visit.sought, visit, h]
  rfl

theorem sought_visit_nil (s : Session) (h : w.macros = []) : (visit c w s).sought = [] := by
  unfold Visit.sought visit
  rw [h]
  split <;> rfl

variable (c : Collected)

/-- A workflow adds the macros that were sought for it. -/
theorem inventory_addWorkflow (w : Workflow) (s : Session) :
    ∃ c' failure infos, result (addWorkflow c w) s = .ok (c', failure)
      ∧ c'.inventory = c.inventory.addAll infos w.metadata.name
      ∧ infos.map (·.1) = (visit c w s).sought ∧ ∀ x ∈ infos, x.2.name = fileName x.1 := by
  have hnone : ∀ x ∈ ([] : MacroInfos), x.2.name = fileName x.1 := forall_mem_nil _
  unfold addWorkflow
  by_cases hempty : w.macros.isEmpty
  · rw [if_pos hempty]
    exact ⟨_, none, [], rfl, rfl, (sought_visit_nil s (isEmpty_iff.mp hempty)).symm, hnone⟩
  · rw [if_neg hempty, result_bind_of_ok (run_resolveWorkflow c.resolver w s).1]
    cases h : result (Seek.resolveWorkflow w) { session := s, resolver := c.resolver } with
    | error e => exact ⟨_, some e, [], rfl, rfl, (sought_visit_error h).symm, hnone⟩
    | ok infos =>
      dsimp only
      split
      · exact ⟨_, none, infos, rfl, rfl, sought_visit_ok h⟩
      · exact ⟨_, none, infos, rfl, rfl, sought_visit_ok h⟩

/-- The workflows with the files they were read from, one after the other. -/
def collectAll (c : Collected) (ws : List (Path × Workflow)) : Run Collected :=
  ws.foldlM (fun c x => collectWorkflow c x.1 x.2) c

/-- The visits to workflows, one after the other. -/
def visits (c : Collected) (s : Session) : List (Path × Workflow) → List Visit
  | [] => []
  | (file, w) :: rest =>
    visit c w (state (sayParts w) s) ::
      match result (collectWorkflow c file w) s with
      | .ok c' => visits c' (state (collectWorkflow c file w) s) rest
      | .error _ => []

theorem inventory_collectWorkflow (file : Path) (w : Workflow) (s : Session) :
    ∃ c' infos, result (collectWorkflow c file w) s = .ok c'
      ∧ c'.inventory = c.inventory.addAll infos w.metadata.name
      ∧ infos.map (·.1) = (visit c w (state (sayParts w) s)).sought
      ∧ ∀ x ∈ infos, x.2.name = fileName x.1 := by
  obtain ⟨c', failure, infos, hresult, hadded⟩ := inventory_addWorkflow c w (state (sayParts w) s)
  refine ⟨c', infos, ?_, hadded⟩
  have hsay : result (sayParts w) s = .ok () := rfl
  rw [collectWorkflow, result_bind_of_ok hsay, result_bind_of_ok hresult]
  cases failure <;> rfl

/-! ## All workflows -/

theorem countP_infos (hkeys : infos.map (·.1) = v.sought)
    (hnamed : ∀ x ∈ infos, x.2.name = fileName x.1) (name : String) :
    infos.countP (·.2.name == name) = v.uses name := by
  rw [Visit.uses, ← hkeys, countP_map]
  refine countP_congr fun x hx => ?_
  rw [hnamed x hx]
  rfl

/-- Every workflow adds its name to the users of a macro as often as it uses the macro. -/
theorem usersOf_collectAll (s : Session) (ws : List (Path × Workflow)) :
    ∃ c', result (collectAll c ws) s = .ok c' ∧ (c.inventory.Sound → c'.inventory.Sound)
      ∧ ∀ name, c'.inventory.usersOf name = c.inventory.usersOf name
          ++ (visits c s ws).flatMap fun v =>
              replicate (v.uses name) v.workflow.metadata.name := by
  induction ws generalizing c s with
  | nil => exact ⟨c, rfl, id, fun _ => (append_nil _).symm⟩
  | cons x ws ih =>
    obtain ⟨file, w⟩ := x
    obtain ⟨c₁, infos, hresult, hadded, hkeys, hnamed⟩ := inventory_collectWorkflow c file w s
    obtain ⟨c', hrest, hsound, husers⟩ := ih c₁ (state (collectWorkflow c file w) s)
    refine ⟨c', ?_, fun h => hsound (hadded ▸ h.addAll infos _), fun name => ?_⟩
    · unfold collectAll at hrest ⊢
      rw [foldlM_cons, result_bind_of_ok hresult, hrest]
    · rw [husers, hadded, MacroInventory.usersOf_addAll, countP_infos hkeys hnamed, visits, hresult,
        flatMap_cons, append_assoc]
      rfl

theorem map_workflow_visits (s : Session) (ws : List (Path × Workflow)) :
    (visits c s ws).map (·.workflow) = ws.map (·.2) := by
  induction ws generalizing c s with
  | nil => rfl
  | cons x ws ih =>
    obtain ⟨c₁, _, hresult, -⟩ := inventory_collectWorkflow c x.1 x.2 s
    rw [visits, hresult, map_cons, map_cons, ih]
    rfl

/-- Where no name occurs twice, a name is there as often as its own visit has it. -/
theorem count_flatMap_visits {vs : List Visit} (hnames : (vs.map (·.workflow.metadata.name)).Nodup)
    (hv : v ∈ vs) (name : String) :
    (vs.flatMap fun v => replicate (v.uses name) v.workflow.metadata.name).count
      v.workflow.metadata.name = v.uses name := by
  induction vs with
  | nil => exact absurd hv not_mem_nil
  | cons v₁ vs ih =>
    rw [map_cons, nodup_cons] at hnames
    rw [flatMap_cons, count_append, count_replicate]
    rcases mem_cons.mp hv with rfl | hv
    · have hzero : v.workflow.metadata.name ∉ vs.flatMap fun v =>
          replicate (v.uses name) v.workflow.metadata.name := by
        intro hmem
        obtain ⟨v', hv', hname⟩ := mem_flatMap.mp hmem
        rw [eq_of_mem_replicate hname] at hnames
        exact hnames.1 (mem_map.mpr ⟨v', hv', rfl⟩)
      rw [if_pos (beq_self_eq_true _), count_eq_zero_of_not_mem hzero, Nat.add_zero]
    · have hne : v₁.workflow.metadata.name ≠ v.workflow.metadata.name :=
        fun h => hnames.1 (h ▸ mem_map.mpr ⟨v, hv, rfl⟩)
      rw [if_neg (by simpa using hne), Nat.zero_add, ih hnames.2 hv]

/-- The users of a macro are the workflows that refer to a file of its name, each of them once. -/
def Exact (inv : MacroInventory) (ws : List Workflow) : Prop :=
  ∀ name, (∀ w ∈ ws, (inv.usersOf name).count w.metadata.name
        = if name ∈ w.macros.map fileName then 1 else 0)
    ∧ ∀ user ∈ inv.usersOf name, ∃ w ∈ ws, w.metadata.name = user

/-- Each workflow has one reference that was sought for each name that it refers to. -/
def Plain (vs : List Visit) : Prop :=
  ∀ v ∈ vs, ∀ reference ∈ v.workflow.macros, v.uses (fileName reference) = 1

instance (vs : List Visit) : Decidable (Plain vs) := inferInstanceAs (Decidable (∀ v ∈ vs, _))

theorem Plain.uses_eq {vs : List Visit} (h : Plain vs) (hv : v ∈ vs) (name : String) :
    v.uses name = if name ∈ v.workflow.macros.map fileName then 1 else 0 := by
  split
  next hmem =>
    obtain ⟨reference, hreference, rfl⟩ := mem_map.mp hmem
    exact h v hv reference hreference
  next hmem => exact Visit.uses_eq_zero hmem

section Exactness

variable {vs : List Visit} {inv : MacroInventory}
  (husers : ∀ name, inv.usersOf name
    = vs.flatMap fun v => replicate (v.uses name) v.workflow.metadata.name)

include husers

theorem exact_iff_plain (hnames : (vs.map (·.workflow.metadata.name)).Nodup) :
    Exact inv (vs.map (·.workflow)) ↔ Plain vs := by
  constructor
  · intro h v hv reference hreference
    have hcount := (h (fileName reference)).1 v.workflow (mem_map.mpr ⟨v, hv, rfl⟩)
    rwa [husers, count_flatMap_visits hnames hv,
      if_pos (mem_map.mpr ⟨reference, hreference, rfl⟩)] at hcount
  · intro h name
    refine ⟨fun w hw => ?_, fun user huser => ?_⟩
    · obtain ⟨v, hv, rfl⟩ := mem_map.mp hw
      rw [husers, count_flatMap_visits hnames hv, h.uses_eq hv]
    · rw [husers] at huser
      obtain ⟨v, hv, hmem⟩ := mem_flatMap.mp huser
      exact ⟨v.workflow, mem_map.mpr ⟨v, hv, rfl⟩, (eq_of_mem_replicate hmem).symm⟩

theorem length_usersOf (h : Plain vs) (name : String) :
    (inv.usersOf name).length = vs.countP fun v => name ∈ v.workflow.macros.map fileName := by
  rw [husers]
  clear husers
  induction vs with
  | nil => rfl
  | cons v vs ih =>
    rw [flatMap_cons, length_append, length_replicate, h.uses_eq (.head _),
      ih (forall_mem_cons.mp h).2, countP_cons, Nat.add_comm]
    simp only [decide_eq_true_eq]

end Exactness

/-- The users of a macro after workflows with different names, and what it takes for them to be
exact. A macro is shared if it has two uses, be it by two workflows or by one. -/
theorem usage_collectAll (c : Collected) (s : Session) (ws : List (Path × Workflow))
    (hempty : c.inventory = {}) (hnames : (ws.map (·.2.metadata.name)).Nodup) :
    ∃ c', result (collectAll c ws) s = .ok c'
      ∧ (∀ name, c'.inventory.usersOf name = (visits c s ws).flatMap fun v =>
          replicate (v.uses name) v.workflow.metadata.name)
      ∧ (∀ name, name ∈ c'.inventory.shared.map (·.name) ↔ 1 < (c'.inventory.usersOf name).length)
      ∧ (Exact c'.inventory (ws.map (·.2)) ↔ Plain (visits c s ws))
      ∧ (Exact c'.inventory (ws.map (·.2)) → ∀ name, name ∈ c'.inventory.shared.map (·.name)
          ↔ 1 < ws.countP fun x => name ∈ x.2.macros.map fileName) := by
  obtain ⟨c', hresult, hsound, husers⟩ := usersOf_collectAll c s ws
  rw [hempty] at hsound husers
  have hworkflows := map_workflow_visits c s ws
  have hnames' : ((visits c s ws).map (·.workflow.metadata.name)).Nodup := by
    have heq := congrArg (map (·.metadata.name)) hworkflows
    rw [map_map, map_map] at heq
    exact heq ▸ hnames
  have hshared := MacroInventory.mem_shared_iff (hsound MacroInventory.sound_empty)
  have hexact := exact_iff_plain husers hnames'
  rw [hworkflows] at hexact
  refine ⟨c', hresult, husers, hshared, hexact, fun h name => ?_⟩
  rw [hshared, length_usersOf husers (hexact.mp h)]
  have hcount := congrArg (countP fun w => name ∈ w.macros.map fileName) hworkflows
  rw [countP_map, countP_map] at hcount
  exact hcount ▸ Iff.rfl

/-- A workflow that refers to files of one name in two directories counts as two users. -/
theorem usage_twoDirectories :
    let c : Collected := { resolver := { interactive := false } }
    let s := Quest.emptySession []
    let ws := [(Path.ofString "w.yxmd", Quest.userOf ["a/m.yxmc", "b/m.yxmc"])]
    ∃ c', result (collectAll c ws) s = .ok c' ∧ c'.inventory.usersOf "m.yxmc" = ["w", "w"]
      ∧ "m.yxmc" ∈ c'.inventory.shared.map (·.name) ∧ ¬Exact c'.inventory (ws.map (·.2)) := by
  intro c s ws
  have hvisits : (visits c s ws).flatMap (fun v =>
      replicate (v.uses "m.yxmc") v.workflow.metadata.name) = ["w", "w"] := by decide +kernel
  have hplain : ¬Plain (visits c s ws) := by decide +kernel
  obtain ⟨c', hresult, husers, hshared, hexact, -⟩ := usage_collectAll c s ws rfl (by decide)
  refine ⟨c', hresult, (husers _).trans hvisits, ?_, fun h => hplain (hexact.mp h)⟩
  rw [hshared, husers, hvisits]
  decide

end CommandLine

end Replatform

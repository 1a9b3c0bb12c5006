import Mathlib.Data.List.Chain
import Replatform.Proofs.Project.Coverage
/-!
# How chains run

A chain is made longer as long as there is a tool to go on to, so what stops it is only that tools
are taken on the way. `Grown` and `Chained` describe the two loops as they run without a bound, and
`chained_iff` says that they come to an end with the chains of the layer: each round takes a tool
that was free (`free_lt`).

Where a chain goes on from one tool to the next, the second reads from the first and from no other
tool of the layer (`Linked`). Each chain gets one model (`chains_linked`).
-/

namespace Replatform.Project

open List Stateful Workflow

variable {taken : List Int} {t : Tool}

variable {w : Workflow} {layer : Tool → Bool}

/-! ## The loops -/

/-- The rest of a chain behind a tool, and what is taken in the end, when some numbers are taken
before. -/
inductive Grown (w : Workflow) (layer : Tool → Bool) : List Int → Tool → List Tool → List Int → Prop
  | stop {taken : List Int} {t : Tool} : nextInChain? w layer taken t = none →
      Grown w layer taken t [] taken
  | go {taken taken' : List Int} {t n : Tool} {rest : List Tool} :
      nextInChain? w layer taken t = some n → Grown w layer (n.id :: taken) n rest taken' →
      Grown w layer taken t (n :: rest) taken'

/-- The chains that begin with the tools, when some numbers are taken before. -/
inductive Chained (w : Workflow) (layer : Tool → Bool) :
    List Int → List Tool → List (List Tool) → Prop
  | nil {taken : List Int} : Chained w layer taken [] []
  | skip {taken : List Int} {t : Tool} {ts : List Tool} {cs : List (List Tool)} :
      t.id ∈ taken → Chained w layer taken ts cs → Chained w layer taken (t :: ts) cs
  | start {taken taken' : List Int} {t : Tool} {rest ts : List Tool} {cs : List (List Tool)} :
      t.id ∉ taken → Grown w layer (t.id :: taken) t rest taken' →
      Chained w layer taken' ts cs → Chained w layer taken (t :: ts) ((t :: rest) :: cs)

def free (w : Workflow) (taken : List Int) : List Tool :=
  w.tools.filter fun t => !taken.contains t.id

/-- There are fewer free tools when one of them is taken. -/
theorem free_lt {n : Tool} (hn : n ∈ w.tools) (hfree : n.id ∉ taken) :
    (free w (n.id :: taken)).length < (free w taken).length := by
  have hsub : (free w (n.id :: taken)).Sublist (free w taken) := by
    refine monotone_filter_right w.tools fun t ht => ?_
    simp only [contains_cons, Bool.not_or, Bool.and_eq_true] at ht
    exact ht.2
  refine lt_of_le_of_ne hsub.length_le fun hlength => ?_
  have hmem : n ∈ free w taken := mem_filter.mpr ⟨hn, by simpa using hfree⟩
  rw [← hsub.eq_of_length hlength] at hmem
  simpa using (mem_filter.mp hmem).2

/-- As many rounds as there are free tools suffice. -/
theorem grown_growChain (fuel : Nat) : ∀ {taken : List Int} {t : Tool},
    (free w taken).length < fuel →
    Grown w layer taken t (growChain w layer fuel taken t).1
      (growChain w layer fuel taken t).2 := by
  induction fuel with
  | zero => exact fun h => absurd h (Nat.not_lt_zero _)
  | succ fuel ih =>
    intro taken t hfuel
    rw [growChain]
    cases hnext : nextInChain? w layer taken t with
    | none => exact .stop hnext
    | some n =>
      -- the tool that is taken was free, so fewer are free in the next round
      obtain ⟨hn, -, hfree⟩ := nextInChain?_eq_some hnext
      have hless := free_lt hn hfree
      exact .go hnext (ih (by omega))

theorem Grown.unique {taken₁ taken₂ : List Int} {rest₁ rest₂ : List Tool}
    (h₁ : Grown w layer taken t rest₁ taken₁) (h₂ : Grown w layer taken t rest₂ taken₂) :
    rest₁ = rest₂ ∧ taken₁ = taken₂ := by
  induction h₁ generalizing rest₂ taken₂ with
  | stop hstop =>
    cases h₂ with
    | stop => exact ⟨rfl, rfl⟩
    | go hgo => exact absurd (hstop.symm.trans hgo) (by simp)
  | go hgo _ ih =>
    cases h₂ with
    | stop hstop => exact absurd (hgo.symm.trans hstop) (by simp)
    | go hgo' hrest =>
      obtain rfl := Option.some.inj (hgo.symm.trans hgo')
      obtain ⟨rfl, rfl⟩ := ih hrest
      exact ⟨rfl, rfl⟩

theorem Chained.unique {ts : List Tool} {cs₁ cs₂ : List (List Tool)}
    (h₁ : Chained w layer taken ts cs₁) (h₂ : Chained w layer taken ts cs₂) : cs₁ = cs₂ := by
  induction h₁ generalizing cs₂ with
  | nil =>
    cases h₂
    rfl
  | skip htaken _ ih =>
    cases h₂ with
    | skip _ hrest => exact ih hrest
    | start hfree => exact absurd htaken hfree
  | start hfree hgrown _ ih =>
    cases h₂ with
    | skip htaken => exact absurd htaken hfree
    | start _ hgrown' hrest =>
      obtain ⟨rfl, rfl⟩ := hgrown.unique hgrown'
      rw [ih hrest]

theorem chained_chainsFrom (ts : List Tool) : ∀ taken : List Int,
    Chained w layer taken ts (chainsFrom w layer taken ts) := by
  induction ts with
  | nil => exact fun _ => .nil
  | cons t ts ih =>
    intro taken
    rw [chainsFrom]
    split
    next htaken => exact .skip (contains_iff_mem.mp htaken) (ih taken)
    next hfree =>
      have hfuel : (free w (t.id :: taken)).length < w.tools.length + 1 :=
        Nat.lt_succ_of_le (length_filter_le _ _)
      exact .start (fun h => hfree (contains_iff_mem.mpr h)) (grown_growChain _ hfuel) (ih _)

/-- The loops come to an end with the chains of the layer, and with no others. -/
theorem chained_iff (l : Layer) (cs : List (List Tool)) :
    Chained w (w.isIn l) [] (w.inLayer l) cs ↔ cs = chains w l := by
  have hchains : Chained w (w.isIn l) [] (w.inLayer l) (chains w l) := chained_chainsFrom _ _
  constructor
  · exact fun h => h.unique hchains
  · exact fun h => h ▸ hchains

/-! ## Neighbours -/

/-- A connection leads from the first tool to the second, which reads from no other of the layer. -/
structure Linked (w : Workflow) (layer : Tool → Bool) (u v : Tool) : Prop where
  feeds : w.Feeds u.id v.id
  only : (w.upstream v.id).filter layer = [u]

/-- A chain goes on to a tool that reads from its last. -/
theorem linked_of_nextInChain? {n : Tool} (ht : t ∈ w.tools) (hlayer : layer t)
    (h : nextInChain? w layer taken t = some n) : Linked w layer t n := by
  unfold nextInChain? at h
  split at h
  next m hnext =>
    have hm : m ∈ (w.downstream t.id).filter fun n => layer n && !taken.contains n.id := by
      rw [hnext]
      exact mem_singleton_self m
    have hfeeds := (mem_downstream.mp (mem_filter.mp hm).1).2
    split at h
    next hone =>
      cases h
      -- there is one tool of the layer before the next, and the last of the chain is such a tool
      have hmem : t ∈ (w.upstream n.id).filter layer :=
        mem_filter.mpr ⟨mem_upstream.mpr ⟨ht, hfeeds⟩, hlayer⟩
      obtain ⟨u, hu⟩ := length_eq_one_iff.mp hone
      rw [hu, mem_singleton] at hmem
      exact ⟨hfeeds, hmem ▸ hu⟩
    next => cases h
  next => cases h

theorem Grown.isChain {taken' : List Int} {rest : List Tool} (h : Grown w layer taken t rest taken')
    (ht : t ∈ w.tools) (hlayer : layer t) : (t :: rest).IsChain (Linked w layer) := by
  induction h with
  | stop => exact .singleton _
  | go hnext _ ih =>
    obtain ⟨hn, hin, -⟩ := nextInChain?_eq_some hnext
    exact isChain_cons_cons.mpr ⟨linked_of_nextInChain? ht hlayer hnext, ih hn hin⟩

theorem Chained.isChain {ts : List Tool} {cs : List (List Tool)} (h : Chained w layer taken ts cs)
    (hts : ∀ t ∈ ts, t ∈ w.tools ∧ layer t) :
    ∀ chain ∈ cs, chain.IsChain (Linked w layer) := by
  induction h with
  | nil => exact forall_mem_nil _
  | skip _ _ ih => exact ih (forall_mem_cons.mp hts).2
  | start _ hgrown _ ih =>
    intro chain hchain
    rcases mem_cons.mp hchain with rfl | hchain
    · obtain ⟨ht, hlayer⟩ := hts _ (.head _)
      exact hgrown.isChain ht hlayer
    · exact ih (forall_mem_cons.mp hts).2 chain hchain

/-! ## Models -/

/-- The tasks of the middle layer are its chains. -/
theorem map_tools_filter_tasks (w : Workflow) :
    ((tasks w).filter (·.planned.layer == .silver)).map (·.tools) = chains w .silver := by
  have hchains := flatMap_silverPlan w (sanitize w.metadata.name) (chains w .silver)
    (ne_nil_of_mem_chainsFrom w _ _ [])
  have hsilver : ∀ task ∈ (chains w .silver).flatMap (fun chain =>
      (silverPlan w (sanitize w.metadata.name) chain).map (Task.mk · chain)),
      (task.planned.layer == .silver) := by
    intro task htask
    obtain ⟨chain, -, htask⟩ := mem_flatMap.mp htask
    obtain ⟨p, hp, rfl⟩ := mem_map.mp htask
    exact beq_iff_eq.mpr (mem_silverPlan hp).1
  have hnone : ∀ (f : Tool → Planned) (ts : List Tool), (∀ t, (f t).layer ≠ .silver) →
      (ts.map fun t => Task.mk (f t) [t]).filter (·.planned.layer == .silver) = [] := by
    intro f ts hf
    refine filter_eq_nil_iff.mpr fun task htask => ?_
    obtain ⟨t, -, rfl⟩ := mem_map.mp htask
    simpa using hf t
  unfold tasks
  dsimp only
  rw [filter_append, filter_append, hnone _ _ (fun _ => by simp [bronzePlan]),
    hnone _ _ (fun _ => by simp [goldPlan]), filter_eq_self.mpr hsilver, nil_append,
    append_nil, hchains]

/-- The loops over the tools of the middle layer come to an end. The chains that they find are lines
of tools, none of them empty, and have each tool of the layer once. However the work on the models
ends, those of the middle layer stand for chains, one for each in their order, so that no tool has
two; and if it comes to its end, every chain has a model. -/
theorem chains_linked (w : Workflow) (hids : w.Distinct) :
    let cs := chains w .silver
    (∀ ds, Chained w (w.isIn .silver) [] (w.inLayer .silver) ds ↔ ds = cs)
      ∧ (∀ chain ∈ cs, chain ≠ [] ∧ chain.IsChain (Linked w (w.isIn .silver)))
      ∧ cs.flatten.Perm (w.inLayer .silver)
      ∧ ∀ b, ∃ new done, (state (Work.writeWorkflow w) b).files = b.files ++ new ∧ done <+: cs
        ∧ Forall₂ (ModelFile.StandsFor w) (new.filter (·.model.layer == .silver)) done
        ∧ (done.flatten.map (·.id)).Nodup
        ∧ (result (Work.writeWorkflow w) b = .ok () → done = cs) := by
  intro cs
  have hperm : cs.flatten.Perm (w.inLayer .silver) := flatten_chains_perm hids .silver
  have hlines : ∀ chain ∈ cs, chain.IsChain (Linked w (w.isIn .silver)) :=
    ((chained_iff .silver cs).mpr rfl).isChain fun t ht => mem_filter.mp ht
  refine ⟨chained_iff .silver, fun chain hchain =>
    ⟨ne_nil_of_mem_chainsFrom w _ _ [] chain hchain, hlines chain hchain⟩, hperm, fun b => ?_⟩
  obtain ⟨new, done, hfiles, hfront, hmeets, hall⟩ := Work.emits_writeWorkflow w b
  have hsilver : Forall₂ ModelFile.Meets (new.filter (·.model.layer == .silver))
      (done.filter (·.planned.layer == .silver)) := by
    refine List.rel_filter (fun f task hmeet => ?_) hmeets
    have hlayer : f.model.layer = task.planned.layer := congrArg Outline.layer hmeet.outline
    dsimp only
    rw [hlayer]
  have hcs : ((tasks w).filter (·.planned.layer == .silver)).map (·.tools) = cs :=
    map_tools_filter_tasks w
  have hdone : (done.filter (·.planned.layer == .silver)).map (·.tools) <+: cs := by
    rw [← hcs]
    exact (hfront.filter _).map _
  refine ⟨new, _, hfiles, hdone, standsFor_of_meets hsilver fun task htask =>
    hfront.subset (mem_filter.mp htask).1, ?_, fun h => ?_⟩
  · have hnodup : (cs.flatten.map (·.id)).Nodup :=
      (hperm.map _).nodup_iff.mpr (hids.sublist (filter_sublist.map _))
    obtain ⟨rest, hrest⟩ := hdone
    rw [← hrest, flatten_append, map_append] at hnodup
    exact (nodup_append.mp hnodup).1
  · rw [hall () h, hcs]

/-- Three tools that read each other in a circle. The one that comes first in the list reads from
the last. -/
def circle : Workflow :=
  { metadata := { name := "w", path := "w.yxmd" }
    tools := [
      { id := 3, name := "Formula", category := .preparation },
      { id := 2, name := "Filter", category := .preparation },
      { id := 4, name := "Sort", category := .preparation },
      { id := 1, name := "Input Data", category := .input, table := some "t" }]
    connections := [⟨1, "Output", 2, "Input"⟩, ⟨2, "True", 3, "Input"⟩,
      ⟨3, "Output", 4, "Input"⟩, ⟨4, "Output", 2, "Input"⟩] }

/-- The circle is cut before the tool that comes first in the list. -/
theorem chains_circle : circle.Distinct
    ∧ (chains circle .silver).map (·.map (·.id)) = [[3, 4, 2]]
    ∧ (chains circle .silver).flatten.Perm (circle.inLayer .silver)
    ∧ ∀ chain ∈ chains circle .silver, chain.IsChain (Linked circle (circle.isIn .silver)) := by
  have hids : circle.Distinct := by decide
  obtain ⟨-, hlines, hperm, -⟩ := chains_linked circle hids
  exact ⟨hids, by decide, hperm, fun chain hchain => (hlines chain hchain).2⟩

end Replatform.Project

import Replatform.Proofs.Project.Integrity
import Replatform.Proofs.Project.Links
/-!
# Who reads from inside a chain

A chain goes on from a tool if one tool of the layer that reads from it is free. The others that
read from it are not asked: they may be of another layer, and they may be taken. A tool that is
taken and does not begin its chain reads from no tool of the layer but the one before it (`Linked`),
so those that are taken begin a chain (`readers_inside_chain`).
-/

namespace Replatform.Project

open List Stateful Workflow

variable {taken : List Int} {t n m u v : Tool} {rest chain c d : List Tool}
  {before after : List (List Tool)} {task : Task}

variable {w : Workflow} {layer : Tool → Bool}

/-! ## What is taken where a chain goes on -/

/-- Where a chain goes on to a tool, the others of the layer that read from its last are taken. -/
theorem taken_of_nextInChain? (h : nextInChain? w layer taken t = some n)
    (hm : m ∈ w.downstream t.id) (hlayer : layer m) : m = n ∨ m.id ∈ taken := by
  unfold nextInChain? at h
  split at h
  next k hnext =>
    split at h
    next =>
      cases h
      by_cases hfree : m.id ∈ taken
      · exact .inr hfree
      · left
        have hmem : m ∈ (w.downstream t.id).filter fun n => layer n && !taken.contains n.id :=
          mem_filter.mpr ⟨hm, by simp [hlayer, hfree]⟩
        rw [hnext] at hmem
        exact mem_singleton.mp hmem
    next => cases h
  next => cases h

/-- A chain takes the numbers of its tools. -/
theorem Grown.mem_taken {taken' : List Int} (h : Grown w layer taken t rest taken') (id : Int) :
    id ∈ taken' ↔ id ∈ taken ∨ id ∈ rest.map (·.id) := by
  induction h with
  | stop => simp
  | go _ _ ih =>
    rw [ih, mem_cons, map_cons, mem_cons]
    constructor
    · rintro ((rfl | h) | h)
      · exact .inr (.inl rfl)
      · exact .inl h
      · exact .inr (.inr h)
    · rintro (h | rfl | h)
      · exact .inl (.inr h)
      · exact .inl (.inl rfl)
      · exact .inr h

theorem Grown.taken_of_reader {taken' : List Int} (h : Grown w layer taken t rest taken')
    (huv : [u, v] <:+: t :: rest) (hm : m ∈ w.downstream u.id) (hlayer : layer m) :
    m = v ∨ m.id ∈ taken' := by
  induction h with
  | stop =>
    have hlength := huv.length_le
    simp at hlength
  | @go taken taken' t n rest hnext hrest ih =>
    rcases infix_cons_iff.mp huv with hfront | hback
    · obtain ⟨rfl, hnextfront⟩ := cons_prefix_cons.mp hfront
      obtain ⟨rfl, -⟩ := cons_prefix_cons.mp hnextfront
      rcases taken_of_nextInChain? hnext hm hlayer with rfl | htaken
      · exact .inl rfl
      · exact .inr ((hrest.mem_taken _).mpr (.inl (.tail _ htaken)))
    · exact ih hback

/-- What is taken where a chain goes on was taken before all chains, or is in this chain or in one
before it. -/
theorem Chained.taken_of_reader {ts : List Tool} {cs : List (List Tool)}
    (h : Chained w layer taken ts cs) (hcs : cs = before ++ chain :: after)
    (huv : [u, v] <:+: chain) (hm : m ∈ w.downstream u.id) (hlayer : layer m) :
    m = v ∨ m.id ∈ taken ∨ m.id ∈ (before ++ [chain]).flatten.map (·.id) := by
  induction h generalizing before with
  | nil => simp at hcs
  | skip _ _ ih => exact ih hcs
  | @start taken taken' t rest ts cs _ hgrown _ ih =>
    cases before with
    | nil =>
      obtain ⟨rfl, -⟩ := cons.inj hcs
      rcases hgrown.taken_of_reader huv hm hlayer with rfl | htaken
      · exact .inl rfl
      · rcases (hgrown.mem_taken _).mp htaken with htaken | hrest
        · rcases mem_cons.mp htaken with hid | htaken
          · exact .inr (.inr (by simp [hid]))
          · exact .inr (.inl htaken)
        · refine .inr (.inr ?_)
          rw [nil_append, flatten_singleton, map_cons]
          exact .tail _ hrest
    | cons first before =>
      obtain ⟨rfl, hlater⟩ := cons.inj hcs
      rw [cons_append, flatten_cons, map_append, mem_append, map_cons, mem_cons]
      rcases ih hlater with rfl | htaken | hlater
      · exact .inl rfl
      · rcases (hgrown.mem_taken _).mp htaken with htaken | hrest
        · rcases mem_cons.mp htaken with hid | htaken
          · exact .inr (.inr (.inl (.inl hid)))
          · exact .inr (.inl htaken)
        · exact .inr (.inr (.inl (.inr hrest)))
      · exact .inr (.inr (.inr hlater))

/-! ## Chains of a layer -/

section Layer

variable (hids : w.Distinct) {l : Layer} (hc : c ∈ chains w l)

include hids in
theorem nodup_flatten_chains : (chains w l).flatten.Nodup :=
  (flatten_chains_perm hids l).nodup_iff.mpr (hids.of_map.filter _)

theorem mem_chains_of_before (hchains : chains w l = before ++ chain :: after)
    (hd : d ∈ before ++ [chain]) : d ∈ chains w l := by
  rw [hchains, ← singleton_append, ← append_assoc]
  exact mem_append_left _ hd

include hc

theorem isChain_of_mem_chains : c.IsChain (Linked w (w.isIn l)) :=
  ((chained_iff l (chains w l)).mpr rfl).isChain (fun _ ht => mem_filter.mp ht) c hc

theorem isIn_of_mem_chain (ht : t ∈ c) : t ∈ w.tools ∧ w.isIn l t :=
  mem_chainsFrom w _ _ (fun _ ht => mem_filter.mp ht) [] t (mem_flatten.mpr ⟨c, hc, ht⟩)

theorem linked_of_neighbours (huv : [u, v] <:+: c) : Linked w (w.isIn l) u v := by
  have hpair := List.IsChain.infix (isChain_of_mem_chains hc) huv
  exact isChain_pair.mp hpair

include hids

theorem nodup_of_mem_chains : c.Nodup := (nodup_flatten.mp (nodup_flatten_chains hids)).1 c hc

/-- Two chains of a layer that share a tool are the same. -/
theorem chain_unique (hd : d ∈ chains w l) (htc : t ∈ c) (htd : t ∈ d) : c = d := by
  by_contra hne
  have hsymm : Std.Symm (List.Disjoint (α := Tool)) := ⟨fun _ _ h => h.symm⟩
  have hdisjoint := (nodup_flatten.mp (nodup_flatten_chains hids (l := l))).2
  exact hdisjoint.forall hc hd hne htc htd

/-- A tool has one tool behind it in the chains of a layer. -/
theorem next_unique (hd : d ∈ chains w l) {v' : Tool} (hv : [u, v] <:+: c)
    (hv' : [u, v'] <:+: d) : v = v' := by
  obtain rfl := chain_unique hids hc hd (hv.subset (.head _))
    (hv'.subset (.head _))
  have hnodup : c.Nodup := nodup_of_mem_chains hids hc
  obtain ⟨x, y, hxy⟩ := hv
  obtain ⟨x', y', hxy'⟩ := hv'
  have hsplit : ∀ {v : Tool} {x y : List Tool}, x ++ [u, v] ++ y = c → u ∉ x ∧ u ∉ v :: y := by
    rintro v x y rfl
    rw [append_assoc, cons_append, nodup_middle, nodup_cons, mem_append, not_or] at hnodup
    exact hnodup.1
  have heq : x' ++ u :: (v' :: y') = x ++ u :: (v :: y) := by
    simpa using hxy'.trans hxy.symm
  obtain ⟨hx', hy'⟩ := hsplit hxy'
  obtain ⟨-, -, hrest⟩ := (append_cons_inj_of_notMem hx' hy').mp heq
  exact (cons.inj hrest).1.symm

/-- A tool of the layer that reads from inside a chain is the next of the chain or begins one. -/
theorem next_or_first (huv : [u, v] <:+: c) (hd : d ∈ chains w l)
    (hmd : m ∈ d) (hfeeds : w.Feeds u.id m.id) : m = v ∨ ∃ rest, d = m :: rest := by
  obtain ⟨front, back, rfl⟩ := append_of_mem hmd
  rcases eq_nil_or_concat' front with rfl | ⟨front, p, rfl⟩
  · exact .inr ⟨back, rfl⟩
  · -- the tool before it is the only one of the layer that it reads from
    have hpm : [p, m] <:+: front ++ [p] ++ m :: back := ⟨front, back, by simp⟩
    have hu := isIn_of_mem_chain hc (huv.subset (.head _))
    have hmem : u ∈ (w.upstream m.id).filter (w.isIn l) :=
      mem_filter.mpr ⟨mem_upstream.mpr ⟨hu.1, hfeeds⟩, hu.2⟩
    rw [(linked_of_neighbours hd hpm).only, mem_singleton] at hmem
    subst hmem
    exact .inl (next_unique hids hd hc hpm huv)

/-- The second of two neighbours does not begin a chain. -/
theorem not_first_of_neighbours (huv : [u, v] <:+: c) (rest : List Tool) :
    v :: rest ∉ chains w l := by
  intro hrest
  obtain rfl := chain_unique hids hc hrest (huv.subset (by simp)) (.head _)
  have hnodup : (v :: rest).Nodup := nodup_of_mem_chains hids hrest
  obtain ⟨front, back, hsplit⟩ := huv
  cases front with
  | nil =>
    obtain ⟨rfl, rfl⟩ := cons.inj hsplit
    exact (nodup_cons.mp hnodup).1 (.head _)
  | cons first front =>
    obtain ⟨-, rfl⟩ := cons.inj hsplit
    exact (nodup_cons.mp hnodup).1 (by simp)

omit hc in
/-- A tool of the layer that reads from inside a chain is the next of the chain, or begins the same
chain or one before it. -/
theorem next_or_first_before (hchains : chains w l = before ++ chain :: after)
    (huv : [u, v] <:+: chain) (hn : n ∈ w.downstream u.id) (hlayer : w.isIn l n) :
    n = v ∨ ∃ rest, n :: rest ∈ before ++ [chain] := by
  have hchain : chain ∈ chains w l := mem_chains_of_before hchains (by simp)
  rcases ((chained_iff l _).mpr rfl).taken_of_reader hchains huv hn hlayer with heq | hnone | hid
  · exact .inl heq
  · exact absurd hnone not_mem_nil
  · obtain ⟨m, hm, hid⟩ := mem_map.mp hid
    obtain ⟨d, hd, hmd⟩ := mem_flatten.mp hm
    obtain ⟨htool, hfeeds⟩ := mem_downstream.mp hn
    have hfound := mem_chains_of_before hchains hd
    obtain rfl : m = n := inj_on_of_nodup_map hids (isIn_of_mem_chain hfound hmd).1 htool hid
    rcases next_or_first hids hchain huv hfound hmd hfeeds with heq | ⟨rest, rfl⟩
    · exact .inl heq
    · exact .inr ⟨rest, hd⟩

/-- A tool inside a chain is read by the next tool alone if all that read from it are of the layer
and begin no chain. -/
theorem downstream_eq_singleton_iff (huv : [u, v] <:+: c) :
    w.downstream u.id = [v]
      ↔ ∀ n ∈ w.downstream u.id, w.isIn l n ∧ ∀ rest, n :: rest ∉ chains w l := by
  have hv := isIn_of_mem_chain hc (huv.subset (by simp : v ∈ [u, v]))
  have hreads : v ∈ w.downstream u.id :=
    mem_downstream.mpr ⟨hv.1, (linked_of_neighbours hc huv).feeds⟩
  constructor
  · intro hone n hn
    rw [hone, mem_singleton] at hn
    subst hn
    exact ⟨hv.2, not_first_of_neighbours hids hc huv⟩
  · intro hall
    obtain ⟨before, after, hchains⟩ := append_of_mem hc
    have hnodup : (w.downstream u.id).Nodup := hids.of_map.filter _
    refine perm_singleton.mp
      ((perm_ext_iff_of_nodup hnodup (nodup_singleton v)).mpr fun n => ?_)
    rw [mem_singleton]
    constructor
    · intro hn
      rcases next_or_first_before hids hchains huv hn (hall n hn).1 with heq | ⟨rest, hrest⟩
      · exact heq
      · exact absurd (mem_chains_of_before hchains hrest) ((hall n hn).2 rest)
    · rintro rfl
      exact hreads

end Layer

/-! ## Models that ask for a tool inside a chain -/

theorem mem_tasks : task ∈ tasks w ↔
    (∃ t ∈ w.inLayer .bronze, t.category = .input
        ∧ ⟨bronzePlan (sanitize w.metadata.name) t, [t]⟩ = task)
      ∨ (∃ chain ∈ chains w .silver, ∃ p ∈ silverPlan w (sanitize w.metadata.name) chain,
          ⟨p, chain⟩ = task)
      ∨ ∃ t ∈ w.inLayer .gold, ⟨goldPlan w (sanitize w.metadata.name) t, [t]⟩ = task := by
  simp only [tasks, mem_append, mem_map, mem_flatMap, mem_filter, beq_iff_eq, or_assoc, and_assoc]

theorem layer_unique {l l' : Layer} (h : w.isIn l t) (h' : w.isIn l' t) : l = l' := by
  rw [isIn, Bool.and_eq_true, beq_iff_eq] at h h'
  exact Option.some.inj (h.2.symm.trans h'.2)

/-- What a model reads is read by the first of its tools. -/
theorem feeds_of_mem_reads (htask : task ∈ tasks w) (hu : u ∈ task.planned.reads) :
    ∃ n rest, task.tools = n :: rest ∧ n ∈ w.tools ∧ w.Feeds u.id n.id
      ∧ (w.isIn .gold n ∨ task.tools ∈ chains w .silver) := by
  rcases mem_tasks.mp htask with ⟨t, -, -, rfl⟩ | ⟨chain, hchain, p, hp, rfl⟩ | ⟨t, ht, rfl⟩
  · exact absurd hu not_mem_nil
  · rcases chain with _ | ⟨first, _ | ⟨second, rest⟩⟩
    · exact absurd hp not_mem_nil
    · have hfirst := (isIn_of_mem_chain hchain (.head _)).1
      cases mem_singleton.mp hp
      refine ⟨first, [], rfl, hfirst, ?_, .inr hchain⟩
      change u ∈ silverReads w first at hu
      rw [silverReads] at hu
      split at hu
      next => exact (feeds_of_mem_joinSides hu).2
      next => exact (mem_upstream.mp hu).2
    · have hfirst := (isIn_of_mem_chain hchain (.head _)).1
      cases mem_singleton.mp hp
      exact ⟨first, second :: rest, rfl, hfirst, (mem_upstream.mp hu).2, .inr hchain⟩
  · obtain ⟨htool, hgold⟩ := mem_filter.mp ht
    exact ⟨t, [], rfl, htool, (mem_upstream.mp hu).2, .inl hgold⟩

/-- The model of a chain that begins with a tool other than a join reads all that the tool reads. -/
theorem reads_of_silverPlan (workflow : String) (rest : List Tool) (hjoin : n.name ≠ "Join") :
    ∃ p, silverPlan w workflow (n :: rest) = [p]
      ∧ p.reads = w.upstream n.id ∧ p.workflow = workflow := by
  cases rest with
  | nil =>
    have hreads : silverReads w n = w.upstream n.id := if_neg (by simp [hjoin])
    exact ⟨_, rfl, hreads, rfl⟩
  | cons second rest => exact ⟨_, rfl, rfl, rfl⟩

theorem reads_of_goldPlan (workflow : String) (n : Tool) :
    (goldPlan w workflow n).reads = w.upstream n.id ∧ (goldPlan w workflow n).workflow = workflow :=
  ⟨rfl, rfl⟩

theorem reads_of_first (hchain : n :: rest ∈ chains w .silver) (hjoin : n.name ≠ "Join") :
    ∃ task ∈ tasks w, task.tools = n :: rest ∧ task.planned.reads = w.upstream n.id
      ∧ task.planned.workflow = sanitize w.metadata.name := by
  obtain ⟨p, hp, hreads, hworkflow⟩ :=
    reads_of_silverPlan (sanitize w.metadata.name) rest hjoin (w := w)
  refine ⟨⟨p, n :: rest⟩, ?_, rfl, hreads, hworkflow⟩
  exact mem_tasks.mpr (.inr (.inl ⟨_, hchain, p, hp ▸ mem_singleton_self p, rfl⟩))

/-- A tool inside a chain has no model but that of the chain. -/
theorem tools_eq_of_mem_chain (hids : w.Distinct) (hchain : chain ∈ chains w .silver)
    (hu : u ∈ chain) (htask : task ∈ tasks w) (hmem : u ∈ task.tools) : task.tools = chain := by
  have hlayer : task.planned.layer = .silver := layer_unique
    ((layer_of_mem_tasks htask).1 u hmem) (isIn_of_mem_chain hchain hu).2
  have htools : task.tools ∈ chains w .silver := by
    rw [← map_tools_filter_tasks]
    exact mem_map_of_mem (mem_filter.mpr ⟨htask, beq_iff_eq.mpr hlayer⟩)
  exact chain_unique hids htools hchain hmem hu

/-- Work that comes to its end has written a file for each task. -/
theorem exists_file_of_mem_tasks (htask : task ∈ tasks w) {b : Build}
    (hrun : result (Work.writeWorkflow w) b = .ok ()) :
    ∃ new, (state (Work.writeWorkflow w) b).files = b.files ++ new
      ∧ ∃ f ∈ new, ModelFile.Meets f task := by
  obtain ⟨new, hfiles, hmeets⟩ := Work.fulfils_writeWorkflow w b () hrun
  refine ⟨new, hfiles, ?_⟩
  obtain ⟨i, hi, rfl⟩ := mem_iff_getElem.mp htask
  have hlength := hmeets.length_eq
  exact ⟨_, getElem_mem (by omega), hmeets.get (by omega) hi⟩

/-- A tool inside a chain has no model but that of the chain. Of the tools that read from it, one is
the next of the chain; the others are of another layer, or they begin this chain or one that was
found before. It is read by the next tool alone if all that read from it are of the middle layer and
begin no chain, and then no model asks for it. Any other tool that gets a model, and is no join that
may leave it out, has a file that refers to it. -/
theorem readers_inside_chain (w : Workflow) (hids : w.Distinct) {before after : List (List Tool)}
    {chain : List Tool} (hchains : chains w .silver = before ++ chain :: after) {u v : Tool}
    (huv : [u, v] <:+: chain) :
    v ∈ w.downstream u.id
      ∧ (∀ n ∈ w.downstream u.id,
        n = v ∨ w.isIn .silver n = false ∨ ∃ rest, n :: rest ∈ before ++ [chain])
      ∧ (w.downstream u.id = [v] ↔ ∀ n ∈ w.downstream u.id,
        w.isIn .silver n ∧ ∀ rest, n :: rest ∉ chains w .silver)
      ∧ (∀ task ∈ tasks w, u ∈ task.tools → task.tools = chain)
      ∧ (w.downstream u.id = [v] → ∀ task ∈ tasks w, u ∉ task.planned.reads)
      ∧ ∀ n ∈ w.downstream u.id, n ≠ v → n.name ≠ "Join" →
        w.isIn .silver n ∨ w.isIn .gold n →
        ∀ b, result (Work.writeWorkflow w) b = .ok () →
          ∃ new, (state (Work.writeWorkflow w) b).files = b.files ++ new
            ∧ ∃ f ∈ new, f.model.tool = n.id
              ∧ modelReference u (sanitize w.metadata.name) ∈ f.reads.map (·.model) := by
  have hchain : chain ∈ chains w .silver := mem_chains_of_before hchains (by simp)
  have hu := isIn_of_mem_chain hchain (huv.subset (.head _))
  have hv := isIn_of_mem_chain hchain (huv.subset (by simp : v ∈ [u, v]))
  have hone := downstream_eq_singleton_iff hids hchain huv
  refine ⟨mem_downstream.mpr ⟨hv.1, (linked_of_neighbours hchain huv).feeds⟩, fun n hn => ?_, hone,
    fun task htask => tools_eq_of_mem_chain hids hchain (huv.subset (.head _)) htask,
    fun hline task htask hreads => ?_, fun n hn hne hjoin hlayer b hrun => ?_⟩
  · cases hlayer : w.isIn .silver n with
    | false => exact .inr (.inl rfl)
    | true =>
      rcases next_or_first_before hids hchains huv hn hlayer with heq | hfirst
      · exact .inl heq
      · exact .inr (.inr hfirst)
  · -- the model would belong to the next tool, which is of the middle layer and begins no chain
    obtain ⟨n, rest, htools, htool, hfeeds, hplace⟩ := feeds_of_mem_reads htask hreads
    obtain ⟨hsilver, hnone⟩ := hone.mp hline n (mem_downstream.mpr ⟨htool, hfeeds⟩)
    rcases hplace with hgold | hfirst
    · cases layer_unique hsilver hgold
    · exact hnone rest (htools ▸ hfirst)
  · obtain ⟨htool, hfeeds⟩ := mem_downstream.mp hn
    have hmem : u ∈ w.upstream n.id := mem_upstream.mpr ⟨hu.1, hfeeds⟩
    obtain ⟨task, htask, hfirst, hreads, hworkflow⟩ : ∃ task ∈ tasks w,
        task.tools.head? = some n ∧ task.planned.reads = w.upstream n.id
          ∧ task.planned.workflow = sanitize w.metadata.name := by
      rcases hlayer with hsilver | hgold
      · rcases next_or_first_before hids hchains huv hn hsilver with heq | ⟨rest, hrest⟩
        · exact absurd heq hne
        · have hfirst := mem_chains_of_before hchains hrest
          obtain ⟨task, htask, htools, hreads, hworkflow⟩ := reads_of_first hfirst hjoin
          exact ⟨task, htask, by rw [htools, head?_cons], hreads, hworkflow⟩
      · refine ⟨⟨goldPlan w (sanitize w.metadata.name) n, [n]⟩, ?_, rfl, reads_of_goldPlan _ n⟩
        exact mem_tasks.mpr (.inr (.inr ⟨n, mem_filter.mpr ⟨htool, hgold⟩, rfl⟩))
    obtain ⟨new, hfiles, f, hf, hmeets⟩ := exists_file_of_mem_tasks htask hrun
    refine ⟨new, hfiles, f, hf, ?_, ?_⟩
    · have hid := hmeets.first
      rw [hfirst] at hid
      exact (Option.some.inj hid).symm
    · have hreferences : f.reads.map (·.model) = task.planned.references :=
        congrArg Outline.references hmeets.outline
      rw [hreferences, Planned.references, hworkflow, hreads]
      exact mem_map_of_mem hmem

/-- A filter whose rows go on to a formula, to a sort and to a result. The sort comes first in the
list. -/
def forked : Workflow :=
  { metadata := { name := "w", path := "w.yxmd" }
    tools := [
      { id := 1, name := "Input Data", category := .input, table := some "t" },
      { id := 4, name := "Sort", category := .preparation },
      { id := 2, name := "Filter", category := .preparation },
      { id := 3, name := "Formula", category := .preparation },
      { id := 5, name := "Output Data", category := .output, table := some "a" },
      { id := 6, name := "Output Data", category := .output, table := some "b" }]
    connections := [⟨1, "Output", 2, "Input"⟩, ⟨2, "True", 3, "Input"⟩, ⟨2, "True", 4, "Input"⟩,
      ⟨3, "Output", 5, "Input"⟩, ⟨4, "Output", 5, "Input"⟩, ⟨2, "False", 6, "Input"⟩] }

/-- The filter and the formula become one model, though the formula is not all that reads from the
filter: so do the sort, whose chain was found before, and a result. Their files refer to a model of
the filter. -/
theorem readers_forked : ∃ sort filter formula output, forked.Distinct
    ∧ chains forked .silver = [[sort], [filter, formula]]
    ∧ forked.downstream filter.id = [sort, formula, output]
    ∧ (∀ task ∈ tasks forked, filter ∈ task.tools → task.tools = [filter, formula])
    ∧ result (Work.writeWorkflow forked) emptyProject = .ok ()
    ∧ ∀ n ∈ [sort, output], ∃ f ∈ (state (Work.writeWorkflow forked) emptyProject).files,
      f.model.tool = n.id ∧ "int_w_filter" ∈ f.reads.map (·.model) := by
  have hids : forked.Distinct := by decide
  have hchains : chains forked .silver
      = [[forked.tools[1]], [forked.tools[2], forked.tools[3]]] := rfl
  have hreaders : forked.downstream forked.tools[2].id
      = [forked.tools[1], forked.tools[3], forked.tools[5]] := rfl
  have hname : modelReference forked.tools[2] (sanitize forked.metadata.name) = "int_w_filter" := by
    decide +kernel
  have hother : ∀ {m n : Tool}, m.id ≠ n.id → m ≠ n := fun h heq => h (congrArg Tool.id heq)
  have hrun : result (Work.writeWorkflow forked) emptyProject = .ok () := by
    -- so that the texts of the queries need not be searched
    unfold Work.writeWorkflow Work.writeSilver Work.writeGold
    simp only [Work.noteOpenEnds_eq]
    decide +kernel
  obtain ⟨-, -, -, hmodel, -, hfiles⟩ :=
    @readers_inside_chain forked hids [_] [] [_, _] hchains _ _ ⟨[], [], rfl⟩
  rw [hreaders, hname] at hfiles
  refine ⟨_, _, _, _, hids, hchains, hreaders, hmodel, hrun, fun n hn => ?_⟩
  have hfile : ∃ new, (state (Work.writeWorkflow forked) emptyProject).files = [] ++ new
      ∧ ∃ f ∈ new, f.model.tool = n.id ∧ "int_w_filter" ∈ f.reads.map (·.model) := by
    rcases mem_cons.mp hn with rfl | hn
    · exact hfiles _ (.head _) (hother (by decide)) (by decide) (by decide) _ hrun
    · obtain rfl := mem_singleton.mp hn
      exact hfiles _ (.tail _ (.tail _ (.head _))) (hother (by decide)) (by decide) (by decide) _
        hrun
  obtain ⟨new, hnew, f, hf, hrefers⟩ := hfile
  exact ⟨f, hnew ▸ hf, hrefers⟩

end Replatform.Project

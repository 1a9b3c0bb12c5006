import Replatform.Project.MacroFile
import Replatform.Proofs.Lineage.Steps
/-!
# The order of the tools of a macro

The tools of a macro are put in order by a tour that goes by their numbers. Seen through the numbers
it is a walk along the connections between them (`numbers_visit`), so that what holds of every walk
holds of the tour: each number comes once, and behind those that feed it unless a path leads back.
For all tools of a workflow it is the walk that gives its steps.

A number stands for the first tool that has it. Where a tour comes to a number from inside, it takes
that tool, whether or not it is the one of the list. So a tool of the list is lost if it is not the
first with its number and leads to a tool that comes before it (`mem_orderedTools_iff`).
-/

namespace Replatform.Project

open List Relation Workflow

variable {t : Tool} {front back : List Tool}

variable {w : Workflow} {ids : List Int} {ts : List Tool}

/-- A connection leads from one of the numbers to another. -/
def FeedsAmong (w : Workflow) (ids : List Int) (a b : Int) : Prop := w.Feeds a b ∧ a ∈ ids ∧ b ∈ ids

/-- The numbers of tools among `ids` that connections to a number come from. -/
def numbersBefore (w : Workflow) (ids : List Int) (id : Int) : List Int :=
  (w.previousIds id).filter fun p => ids.contains p && (w.tool? p).isSome

theorem mem_numbersBefore {a b : Int} :
    a ∈ numbersBefore w ids b ↔ w.Feeds a b ∧ a ∈ ids ∧ (w.tool? a).isSome := by
  unfold numbersBefore
  rw [mem_filter, mem_previousIds, Bool.and_eq_true, contains_iff_mem]

theorem id_of_tool? {id : Int} (h : w.tool? id = some t) : t.id = id := by
  simpa using find?_some h

theorem isSome_tool? (h : t ∈ w.tools) : (w.tool? t.id).isSome := by
  rw [tool?, find?_isSome]
  exact ⟨t, h, beq_self_eq_true _⟩

theorem map_id_filterMap_tool? (w : Workflow) (ids : List Int) :
    (ids.filterMap w.tool?).map (·.id) = ids.filter fun id => (w.tool? id).isSome := by
  induction ids with
  | nil => rfl
  | cons id ids ih =>
    cases h : w.tool? id with
    | none => rw [filterMap_cons_none h, filter_cons_of_neg (by rw [h]; simp), ih]
    | some t =>
      rw [filterMap_cons_some h, filter_cons_of_pos (by rw [h]; rfl), map_cons, ih, id_of_tool? h]

theorem map_id_feedersAmong (w : Workflow) (ids : List Int) (t : Tool) :
    (feedersAmong w ids t).map (·.id) = numbersBefore w ids t.id := by
  rw [feedersAmong, map_id_filterMap_tool?, filter_filter]
  unfold numbersBefore
  congr 1
  funext id
  rw [Bool.and_comm]

/-! ## A tour as a walk -/

namespace Tour

/-- The walk that a tour is when only numbers are looked at. -/
def numbers (tour : Tour) : Graph.Walk Int := ⟨tour.seen, tour.order.map (·.id)⟩

theorem numbers_foldl {f : Tour → Tool → Tour} {g : Graph.Walk Int → Int → Graph.Walk Int}
    (h : ∀ tour t, (f tour t).numbers = g tour.numbers t.id) (ts : List Tool) :
    ∀ tour, (ts.foldl f tour).numbers = (ts.map (·.id)).foldl g tour.numbers := by
  induction ts with
  | nil => exact fun _ => rfl
  | cons t ts ih =>
    intro tour
    rw [foldl_cons, ih, h]
    rfl

theorem numbers_visit (w : Workflow) (ids : List Int) (fuel : Nat) : ∀ (tour : Tour) (t : Tool),
    (visit w ids fuel tour t).numbers
      = Graph.visit (numbersBefore w ids) fuel tour.numbers t.id := by
  induction fuel with
  | zero => exact fun _ _ => rfl
  | succ fuel ih =>
    intro tour t
    rw [visit, Graph.visit]
    by_cases hseen : t.id ∈ tour.seen
    · rw [if_pos hseen]
      exact (if_pos hseen).symm
    · have hinner := numbers_foldl ih (feedersAmong w ids t) ⟨t.id :: tour.seen, tour.order⟩
      rw [map_id_feedersAmong] at hinner
      rw [if_neg hseen]
      refine Eq.trans ?_ (if_neg hseen).symm
      show _ = Graph.Walk.mk _ _
      rw [show (⟨t.id :: tour.numbers.seen, tour.numbers.order⟩ : Graph.Walk Int)
        = numbers ⟨t.id :: tour.seen, tour.order⟩ from rfl, ← hinner]
      unfold numbers
      rw [map_append]
      rfl

/-- The step adds tools at the end of the order: such as are in the list, or come from inside. -/
def Adds (w : Workflow) (tour tour' : Tour) (ts : List Tool) : Prop :=
  ∃ more, tour'.order = tour.order ++ more ∧ ∀ u ∈ more, u ∈ ts ∨ w.tool? u.id = some u

theorem adds_self (w : Workflow) (tour : Tour) (ts : List Tool) : Adds w tour tour ts :=
  ⟨[], (append_nil _).symm, forall_mem_nil _⟩

theorem adds_foldl {f : Tour → Tool → Tour} (hf : ∀ tour t, Adds w tour (f tour t) [t])
    (ts : List Tool) : ∀ tour, Adds w tour (ts.foldl f tour) ts := by
  induction ts with
  | nil => exact fun tour => adds_self w tour []
  | cons t ts ih =>
    intro tour
    obtain ⟨first, hfirst, hmem⟩ := hf tour t
    obtain ⟨more, hmore, hmem'⟩ := ih (f tour t)
    refine ⟨first ++ more, ?_, fun u hu => ?_⟩
    · rw [foldl_cons, hmore, hfirst, append_assoc]
    · rcases mem_append.mp hu with hu | hu
      · refine (hmem u hu).imp_left fun h => ?_
        rw [mem_singleton.mp h]
        exact .head _
      · exact (hmem' u hu).imp_left (mem_cons_of_mem _)

theorem adds_visit (w : Workflow) (ids : List Int) (fuel : Nat) : ∀ (tour : Tour) (t : Tool),
    Adds w tour (visit w ids fuel tour t) [t] := by
  induction fuel with
  | zero => exact fun tour t => adds_self w tour [t]
  | succ fuel ih =>
    intro tour t
    rw [visit]
    split
    next => exact adds_self w tour [t]
    next =>
      obtain ⟨more, hmore, hmem⟩ :=
        adds_foldl ih (feedersAmong w ids t) ⟨t.id :: tour.seen, tour.order⟩
      refine ⟨more ++ [t], ?_, fun u hu => ?_⟩
      · show _ ++ [t] = _
        rw [hmore, append_assoc]
      · rcases mem_append.mp hu with hu | hu
        · refine .inr ((hmem u hu).elim (fun hfeeder => ?_) id)
          obtain ⟨id, -, hid⟩ := mem_filterMap.mp hfeeder
          rw [id_of_tool? hid, hid]
        · exact .inl hu

/-- A tool that is met for the first time is among those that are left. -/
theorem mem_visit_order {tour : Tour} (h : t.id ∉ tour.seen) (fuel : Nat) :
    t ∈ (visit w ids (fuel + 1) tour t).order := by
  rw [visit, if_neg h]
  exact mem_append_right _ (mem_singleton.mpr rfl)

end Tour


/-! ## The tools in order -/

/-- The tour of the tools of a macro when it has been to the first of them. -/
def tourUpTo (w : Workflow) (ts front : List Tool) : Tour :=
  front.foldl (Tour.visit w (ts.map (·.id)) (ts.length + 1)) ⟨[], []⟩

theorem orderedTools_eq (w : Workflow) (ts : List Tool) :
    orderedTools w ts = (tourUpTo w ts ts).order := rfl

theorem numbers_tourUpTo (w : Workflow) (ts front : List Tool) :
    (tourUpTo w ts front).numbers = (front.map (·.id)).foldl
      (Graph.visit (numbersBefore w (ts.map (·.id))) (ts.length + 1)) ⟨[], []⟩ :=
  Tour.numbers_foldl (Tour.numbers_visit w (ts.map (·.id)) (ts.length + 1)) front ⟨[], []⟩

theorem map_id_orderedTools (w : Workflow) (ts : List Tool) :
    (orderedTools w ts).map (·.id)
      = Graph.visitOrder (numbersBefore w (ts.map (·.id))) ts.length (ts.map (·.id)) :=
  congrArg Graph.Walk.order (numbers_tourUpTo w ts ts)

theorem mem_of_mem_tourUpTo (h : t ∈ (tourUpTo w ts front).order) :
    t ∈ front ∨ w.tool? t.id = some t := by
  obtain ⟨more, hmore, hmem⟩ :=
    Tour.adds_foldl (Tour.adds_visit w (ts.map (·.id)) (ts.length + 1)) front ⟨[], []⟩
  rw [tourUpTo, hmore] at h
  exact hmem t h

/-- What the tour has left when it comes to a tool stays, and so does the tool if it is new. -/
theorem subset_orderedTools (hts : ts = front ++ t :: back) :
    (tourUpTo w ts front).order ⊆ orderedTools w ts
      ∧ (t.id ∉ (tourUpTo w ts front).seen → t ∈ orderedTools w ts) := by
  have hrun : tourUpTo w ts ts = back.foldl (Tour.visit w (ts.map (·.id)) (ts.length + 1))
      (Tour.visit w (ts.map (·.id)) (ts.length + 1) (tourUpTo w ts front) t) := by
    unfold tourUpTo
    nth_rewrite 3 [hts]
    rw [foldl_append, foldl_cons]
  have hadds := Tour.adds_visit w (ts.map (·.id)) (ts.length + 1)
  obtain ⟨first, hfirst, -⟩ := hadds (tourUpTo w ts front) t
  obtain ⟨more, hmore, -⟩ := Tour.adds_foldl hadds back
    (Tour.visit w (ts.map (·.id)) (ts.length + 1) (tourUpTo w ts front) t)
  rw [orderedTools_eq, hrun, hmore]
  constructor
  · rw [hfirst, append_assoc]
    exact subset_append_left ..
  · intro hnew
    exact mem_append_left _ (Tour.mem_visit_order hnew ts.length)

theorem numbersBefore_subset : ∀ x ∈ ids, ∀ y ∈ numbersBefore w ids x, y ∈ ids :=
  fun _ _ _ hy => (mem_numbersBefore.mp hy).2.1

theorem length_ids_le (ts : List Tool) : (ts.map (·.id)).length ≤ ts.length :=
  Nat.le_of_eq (length_map _)

theorem map_id_subset (hts : ts = front ++ t :: back) :
    ∀ x ∈ front.map (·.id), x ∈ ts.map (·.id) := by
  intro x hx
  rw [hts, map_append]
  exact mem_append_left _ hx

/-- Between two tools of the list, the tour has left all it has met. -/
theorem mem_seen_tourUpTo_iff (hfront : ∀ x ∈ front.map (·.id), x ∈ ts.map (·.id)) {id : Int} :
    id ∈ (tourUpTo w ts front).seen ↔ id ∈ (tourUpTo w ts front).order.map (·.id) := by
  have hwalk := numbers_tourUpTo w ts front
  have hseen : (tourUpTo w ts front).seen = _ := congrArg Graph.Walk.seen hwalk
  have horder : (tourUpTo w ts front).order.map (·.id) = _ := congrArg Graph.Walk.order hwalk
  obtain ⟨walk, rfl, -, hleft, -⟩ :=
    Graph.visitOrder_spec (numbersBefore_subset (w := w)) hfront (length_ids_le ts)
  rw [hseen, horder]
  exact hleft id

/-- A path along the numbers goes by connections between them. -/
theorem feedsAmong_of_path {x y : Int} (hy : y ∈ ids)
    (h : TransGen (Graph.Edge (numbersBefore w ids)) x y) : TransGen (FeedsAmong w ids) x y := by
  induction h with
  | single hedge =>
    obtain ⟨hfeeds, hmem, -⟩ := mem_numbersBefore.mp hedge
    exact .single ⟨hfeeds, hmem, hy⟩
  | tail _ hedge ih =>
    obtain ⟨hfeeds, hmem, -⟩ := mem_numbersBefore.mp hedge
    exact (ih hmem).tail ⟨hfeeds, hmem, hy⟩

/-- A tool of the list that comes in its turn: it is the first with its number, or it leads to no
tool that comes before it in the list. -/
def InTurn (w : Workflow) (ts : List Tool) (t : Tool) : Prop :=
  w.tool? t.id = some t
    ∨ ∀ u, [u, t].Sublist ts → ¬ TransGen (FeedsAmong w (ts.map (·.id))) t.id u.id

/-- Of a list without repetitions, the front before an element holds what comes before it. -/
theorem pair_sublist_iff {α : Type} {front back : List α} {x y : α}
    (hnodup : (front ++ y :: back).Nodup) : [x, y].Sublist (front ++ y :: back) ↔ x ∈ front := by
  constructor
  · intro h
    obtain ⟨r₁, r₂, hsplit, hx, hy⟩ := cons_sublist_iff.mp h
    rw [singleton_sublist] at hy
    have hdisjoint := (nodup_append.mp (hsplit ▸ hnodup)).2.2
    rcases append_eq_append_iff.mp hsplit with ⟨mid, rfl, hmid⟩ | ⟨mid, rfl, -⟩
    · -- the element is not among what comes before itself
      cases mid with
      | nil => rwa [append_nil] at hx
      | cons z mid =>
        have hz : y = z := (cons.inj hmid).1
        exact absurd rfl (hdisjoint y (by rw [hz]; simp) y hy)
    · exact mem_append_left _ hx
  · intro hx
    exact Sublist.append (singleton_sublist.mpr hx)
      (singleton_sublist.mpr (.head _))

section Ordered

variable (hids : (ts.map (·.id)).Nodup)

include hids

/-- Every number of the list comes once, and no other does. -/
theorem perm_ids_orderedTools : ((orderedTools w ts).map (·.id)).Perm (ts.map (·.id)) := by
  rw [map_id_orderedTools, perm_ext_iff_of_nodup
    (Graph.nodup_visitOrder numbersBefore_subset (fun _ h => h) (length_ids_le ts)) hids]
  intro id
  constructor
  · exact Graph.visitOrder_subset (P := (· ∈ ts.map (·.id))) numbersBefore_subset
      (fun _ h => h) id
  · intro h
    exact Graph.subset_visitOrder numbersBefore_subset (fun _ h => h) (length_ids_le ts) h

theorem eq_of_mem_orderedTools {u : Tool} (ht : t ∈ orderedTools w ts) (hu : u ∈ orderedTools w ts)
    (h : t.id = u.id) : t = u := by
  have hnodup := (perm_ids_orderedTools (w := w) hids).nodup_iff.mpr hids
  exact inj_on_of_nodup_map hnodup ht hu h

variable (htools : ∀ t ∈ ts, t ∈ w.tools)

include htools

/-- The tour has met the number of a tool before its turn just when a path leads from it to one of
the tools that came before. -/
theorem mem_seen_tourUpTo (hts : ts = front ++ t :: back) :
    t.id ∈ (tourUpTo w ts front).seen
      ↔ ∃ u ∈ front, TransGen (FeedsAmong w (ts.map (·.id))) t.id u.id := by
  have hfront := map_id_subset hts
  have horder : (tourUpTo w ts front).order.map (·.id) = _ :=
    congrArg Graph.Walk.order (numbers_tourUpTo w ts front)
  rw [mem_seen_tourUpTo_iff hfront, horder]
  refine (Graph.mem_visitOrder_iff numbersBefore_subset hfront (length_ids_le ts)).trans ?_
  constructor
  · rintro ⟨x, hx, hpath⟩
    obtain ⟨u, hu, rfl⟩ := mem_map.mp hx
    rcases reflTransGen_iff_eq_or_transGen.mp hpath with heq | hpath
    · -- no two tools of the list share a number
      rw [hts, map_append, map_cons, nodup_middle, nodup_cons] at hids
      exact absurd (mem_append_left _ (heq ▸ mem_map_of_mem hu)) hids.1
    · exact ⟨u, hu, feedsAmong_of_path (hfront _ (mem_map_of_mem hu)) hpath⟩
  · rintro ⟨u, hu, hpath⟩
    refine ⟨u.id, mem_map_of_mem hu, TransGen.to_reflTransGen (TransGen.mono ?_ _ _ hpath)⟩
    rintro a b ⟨hfeeds, ha, -⟩
    obtain ⟨v, hv, rfl⟩ := mem_map.mp ha
    exact mem_numbersBefore.mpr ⟨hfeeds, ha, isSome_tool? (htools v hv)⟩

theorem mem_orderedTools_iff (ht : t ∈ ts) : t ∈ orderedTools w ts ↔ InTurn w ts t := by
  obtain ⟨front, back, hts⟩ := append_of_mem ht
  have hbefore : ∀ u, [u, t].Sublist ts ↔ u ∈ front := by
    intro u
    have hnodup : ts.Nodup := Nodup.of_map _ hids
    rw [hts] at hnodup ⊢
    exact pair_sublist_iff hnodup
  have hseen := mem_seen_tourUpTo hids htools hts
  obtain ⟨hstays, hnew⟩ := subset_orderedTools (w := w) hts
  rw [InTurn]
  by_cases hmet : t.id ∈ (tourUpTo w ts front).seen
  · -- the tour came to the number from inside, and took the first tool that has it
    obtain ⟨s, hs, hid⟩ := mem_map.mp ((mem_seen_tourUpTo_iff (map_id_subset hts)).mp hmet)
    have hfirst : w.tool? t.id = some s := by
      rcases mem_of_mem_tourUpTo hs with hfront | hfirst
      · have hids' := hids
        rw [hts, map_append, map_cons, nodup_middle, nodup_cons] at hids'
        exact absurd (mem_append_left _ (hid ▸ mem_map_of_mem hfront)) hids'.1
      · rwa [hid] at hfirst
    constructor
    · intro hmem
      rw [eq_of_mem_orderedTools hids hmem (hstays hs) hid.symm] at hfirst ⊢
      exact .inl hfirst
    · rintro (hself | hnone)
      · rw [hself] at hfirst
        rw [Option.some.inj hfirst]
        exact hstays hs
      · obtain ⟨u, hu, hpath⟩ := hseen.mp hmet
        exact absurd hpath (hnone u ((hbefore u).mpr hu))
  · constructor
    · intro _
      refine .inr fun u hu hpath => hmet (hseen.mpr ⟨u, (hbefore u).mp hu, hpath⟩)
    · intro _
      exact hnew hmet

/-- The tools in order are those of the list just when each of these comes in its turn. -/
theorem perm_orderedTools_iff : (orderedTools w ts).Perm ts ↔ ∀ t ∈ ts, InTurn w ts t := by
  have hperm := perm_ids_orderedTools (w := w) hids
  constructor
  · intro h t ht
    exact (mem_orderedTools_iff hids htools ht).mp (h.mem_iff.mpr ht)
  · intro h
    have hsubset : ts ⊆ orderedTools w ts :=
      fun t ht => (mem_orderedTools_iff hids htools ht).mpr (h t ht)
    have hlength : (orderedTools w ts).length ≤ ts.length := by
      have := hperm.length_eq
      rw [length_map, length_map] at this
      omega
    exact ((subperm_of_subset (Nodup.of_map _ hids) hsubset).perm_of_length_le
      hlength).symm

/-- The origin of a connection comes before its target, unless a path leads back. -/
theorem orderedTools_behind {c : Connection} (hc : c ∈ w.connections)
    (horigin : c.origin ∈ ts.map (·.id)) (htarget : c.target ∈ ts.map (·.id)) :
    [c.origin, c.target].Sublist ((orderedTools w ts).map (·.id))
      ∨ TransGen (FeedsAmong w (ts.map (·.id))) c.target c.origin := by
  have hmem : c.target ∈ (orderedTools w ts).map (·.id) :=
    (perm_ids_orderedTools hids).mem_iff.mpr htarget
  have hedge : c.origin ∈ numbersBefore w (ts.map (·.id)) c.target := by
    obtain ⟨t, ht, hid⟩ := mem_map.mp horigin
    exact mem_numbersBefore.mpr ⟨⟨c, hc, rfl, rfl⟩, horigin, hid ▸ isSome_tool? (htools t ht)⟩
  rw [map_id_orderedTools] at hmem ⊢
  obtain ⟨walk, hwalk, hsound, -⟩ := Graph.visitOrder_spec
    (numbersBefore_subset (w := w)) (fun _ h => h) (length_ids_le ts)
  rw [Graph.visitOrder, ← hwalk] at hmem ⊢
  obtain ⟨front, back, hsplit⟩ := append_of_mem hmem
  rcases hsound.behind front c.target back hsplit c.origin hedge with hfront | hpath
  · rw [hsplit]
    exact .inl ((pair_sublist_iff (hsplit ▸ hsound.nodup)).mpr hfront)
  · exact .inr (feedsAmong_of_path horigin hpath)

end Ordered

/-! ## All tools of a workflow -/

/-- Every connection leads from a tool to a tool. -/
def Joined (w : Workflow) : Prop :=
  ∀ c ∈ w.connections, (w.tool? c.origin).isSome ∧ (w.tool? c.target).isSome

theorem numbersBefore_all (h : Joined w) :
    numbersBefore w (w.tools.map (·.id)) = w.previousIds := by
  funext id
  refine filter_eq_self.mpr fun p hp => ?_
  obtain ⟨c, hc, rfl, -⟩ := mem_previousIds.mp hp
  obtain ⟨t, ht⟩ := Option.isSome_iff_exists.mp (h c hc).1
  rw [(h c hc).1, Bool.and_true, contains_iff_mem, ← id_of_tool? ht]
  exact mem_map_of_mem (mem_of_find?_eq_some ht)

theorem map_id_orderedTools_all (h : Joined w) : (orderedTools w w.tools).map (·.id) = w.order := by
  rw [map_id_orderedTools, order]
  refine Eq.trans ?_ (congrArg (Graph.visitOrder · w.size _) (numbersBefore_all h))
  exact Graph.visitOrder_size numbersBefore_subset (fun _ h => h) (length_ids_le w.tools)
    (by unfold size; omega)

/-- The steps of a workflow have the numbers of its tools in the order of the walk. -/
theorem map_id_steps (h : Joined w) {macros : Bool} {steps : List Step}
    (hsteps : w.steps macros = .ok steps) : steps.map (·.tool.id) = w.order := by
  have htools : steps.map (·.tool) = w.order.filterMap w.tool? := by
    have hplaced := congrArg (List.map (·.1)) (map_stepsOf hsteps)
    rw [List.map_map, map_fst_placed] at hplaced
    exact hplaced
  have hids := congrArg (List.map (·.id)) htools
  rw [List.map_map, map_id_filterMap_tool?, List.filter_eq_self.mpr (found_of_mem_order h)] at hids
  exact hids

/-- What can be said of tools of a workflow that were put in order. -/
structure Arranged (w : Workflow) (ts ordered : List Tool) : Prop where
  /-- Every number comes once. -/
  numbers : (ordered.map (·.id)).Perm (ts.map (·.id))
  /-- A tool that is not of the list is the first with its number. -/
  known : ∀ t ∈ ordered, t ∈ ts ∨ w.tool? t.id = some t
  /-- They are the tools of the list just when each of these comes in its turn. -/
  tools : ordered.Perm ts ↔ ∀ t ∈ ts, InTurn w ts t
  /-- So they are if no two tools of the workflow share a number. -/
  distinct : w.Distinct → ordered.Perm ts
  /-- A tool comes behind one that feeds it, unless a path along the list leads back. -/
  behind : ∀ c ∈ w.connections, c.origin ∈ ts.map (·.id) → c.target ∈ ts.map (·.id) →
    [c.origin, c.target].Sublist (ordered.map (·.id))
      ∨ TransGen (FeedsAmong w (ts.map (·.id))) c.target c.origin
  /-- All tools of a workflow come in the order of its steps. -/
  steps : ts = w.tools → Joined w → ∀ macros steps, w.steps macros = .ok steps →
    ordered.map (·.id) = steps.map (·.tool.id)

/-- Tools of a workflow with different numbers are put in order, whatever the connections are. -/
theorem arranged_orderedTools (w : Workflow) (ts : List Tool) (htools : ∀ t ∈ ts, t ∈ w.tools)
    (hids : (ts.map (·.id)).Nodup) : Arranged w ts (orderedTools w ts) := by
  have hperm := perm_orderedTools_iff hids htools
  refine ⟨perm_ids_orderedTools hids, fun t ht => mem_of_mem_tourUpTo ht, hperm, ?_, ?_, ?_⟩
  · intro hdistinct
    exact hperm.mpr fun t ht => .inl ((tool?_eq_some_iff hdistinct).mpr ⟨htools t ht, rfl⟩)
  · intro c hc horigin htarget
    exact orderedTools_behind hids htools hc horigin htarget
  · rintro rfl hjoined macros steps hsteps
    rw [map_id_orderedTools_all hjoined, map_id_steps hjoined hsteps]

/-- Two tools that feed each other, behind the one that feeds both. -/
theorem arranged_circular : (∀ t ∈ circular.tools, t ∈ circular.tools)
    ∧ (circular.tools.map (·.id)).Nodup
    ∧ Arranged circular circular.tools (orderedTools circular circular.tools)
    ∧ (orderedTools circular circular.tools).map (·.id) = [1, 3, 2] :=
  ⟨fun _ h => h, by decide, arranged_orderedTools circular _ (fun _ h => h) (by decide), by decide⟩

/-- A macro in which an input and a filter share a number. -/
def twoOfOne : Workflow :=
  { metadata := { name := "m", path := "m.yxmc" }
    tools := [{ id := 1, name := "Macro Input" }, { id := 2, name := "Formula" },
      { id := 1, name := "Filter" }]
    connections := [⟨1, "True", 2, "Input"⟩] }

/-- The input takes the place of the filter. -/
theorem orderedTools_twoOfOne :
    (∀ t ∈ twoOfOne.tools.drop 1, t ∈ twoOfOne.tools)
    ∧ ((twoOfOne.tools.drop 1).map (·.id)).Nodup
    ∧ (twoOfOne.tools.drop 1).map (·.name) = ["Formula", "Filter"]
    ∧ (orderedTools twoOfOne (twoOfOne.tools.drop 1)).map (·.name) = ["Macro Input", "Formula"]
    ∧ ¬ (orderedTools twoOfOne (twoOfOne.tools.drop 1)).Perm (twoOfOne.tools.drop 1) := by
  have hordered : (orderedTools twoOfOne (twoOfOne.tools.drop 1)).map (·.name)
      = ["Macro Input", "Formula"] := by decide
  refine ⟨fun t ht => mem_of_mem_drop ht, by decide, by decide, hordered, fun hperm => ?_⟩
  have hnames := hperm.map (·.name)
  rw [hordered] at hnames
  exact absurd hnames (by decide)

end Replatform.Project

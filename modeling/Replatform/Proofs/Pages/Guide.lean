import Mathlib.Algebra.BigOperators.Group.List.Basic
import Mathlib.Algebra.GroupWithZero.Nat
import Replatform.Pages.Write
import Replatform.Proofs.Pages.Reading
import Replatform.Proofs.Project.Noted
/-!
# What the guide of a project lists

The layers of the guide are those of models. What is noted before a model is entered belongs to no
model, and its layer is unknown; the item of a validation has a layer of its own. Both are missing
in the counts of the layers, and the guide lists them only where their priority is high
(`guide_lists_iff`).
-/

namespace Replatform.Pages

open List Project

/-! ## The guide of a project -/

/-- The item as the guide lists it, if it knows the layer. -/
def entryOf (t : Todo) : Entry := entryUnder ((guideLayers.lookup t.layer).getD "") t

/-- The guide lists the item with its model. -/
def Guide.Lists (g : Guide) (t : Todo) : Prop :=
  mention t ∈ g.urgent ∨ ∃ e ∈ g.entries, e.model = t.model ∧ e.description = t.description

/-- Items by layer are all items, if there is no other layer. -/
theorem flatMap_itemsIn_perm {layers : List String} (hnodup : layers.Nodup) {todos : List Todo}
    (h : ∀ t ∈ todos, t.layer ∈ layers) : (layers.flatMap (itemsIn todos)).Perm todos := by
  induction layers generalizing todos with
  | nil =>
    have hnone : todos = [] := eq_nil_iff_forall_not_mem.mpr fun t ht =>
      absurd (h t ht) not_mem_nil
    rw [hnone]
    exact .refl _
  | cons layer layers ih =>
    obtain ⟨hnew, hnodup⟩ := nodup_cons.mp hnodup
    -- the other layers find the same items where those of the first layer are left out
    let others := todos.filter (!·.layer == layer)
    have hothers : layers.flatMap (itemsIn todos) = layers.flatMap (itemsIn others) := by
      refine flatMap_congr fun l hl => ?_
      have hne : l ≠ layer := fun heq => hnew (heq ▸ hl)
      rw [itemsIn, itemsIn, filter_filter]
      refine filter_congr fun t _ => ?_
      by_cases ht : t.layer = l <;> simp [ht, hne]
    have hlayers : ∀ t ∈ others, t.layer ∈ layers := by
      intro t ht
      obtain ⟨ht, hlayer⟩ := mem_filter.mp ht
      exact (mem_cons.mp (h t ht)).resolve_left (by simpa using hlayer)
    rw [flatMap_cons, hothers]
    exact ((ih hnodup hlayers).append_left _).trans (filter_append_perm _ todos)

theorem sum_sectionCounts (todos : List Todo) (layers : List String) :
    (layers.flatMap (sectionCounts todos)).sum = (layers.flatMap (itemsIn todos)).length := by
  induction layers with
  | nil => rfl
  | cons layer layers ih =>
    have hfirst : (sectionCounts todos layer).sum = (itemsIn todos layer).length := by
      unfold sectionCounts
      split
      next hempty => rw [isEmpty_iff.mp hempty, sum_nil, length_nil]
      next => exact sum_singleton
    rw [flatMap_cons, sum_append, hfirst, ih, flatMap_cons, length_append]

section

variable {todos early middle last : List Todo} (htodos : todos = early ++ middle ++ last)
  (hearly : ∀ t ∈ early, t.model = "" ∧ t.layer = "unknown") (hmiddle : ∀ t ∈ middle, t.OfModel)
  (hlast : ∀ t ∈ last, t.OfValidation)

include htodos hearly hlast in
/-- Only the items of models are in the layers of the guide. -/
theorem itemsIn_eq_middle {layer : String} (h : layer ∈ guideLayers.map (·.1)) :
    itemsIn todos layer = itemsIn middle layer := by
  have hother : ∀ {items : List Todo} {other : String}, (∀ t ∈ items, t.layer = other) →
      other ∉ guideLayers.map (·.1) → itemsIn items layer = [] := by
    intro items other hitems hout
    refine filter_eq_nil_iff.mpr fun t ht hlayer => hout ?_
    rw [← hitems t ht, beq_iff_eq.mp hlayer]
    exact h
  rw [htodos, itemsIn, filter_append, filter_append]
  have hfirst := hother (fun t ht => (hearly t ht).2) (by decide)
  have hthird := hother (fun t ht => (hlast t ht).2.1) (by decide)
  rw [itemsIn] at hfirst hthird
  rw [hfirst, hthird, nil_append, append_nil, itemsIn]

include hmiddle in
theorem flatMap_middle_perm : ((guideLayers.map (·.1)).flatMap (itemsIn middle)).Perm middle := by
  refine flatMap_itemsIn_perm (by decide) fun t ht => ?_
  obtain ⟨-, layer, hlayer⟩ := hmiddle t ht
  rw [hlayer]
  cases layer <;> decide

include htodos hearly hmiddle hlast in
theorem entries_perm : (readGuide (guideLines todos)).entries.Perm (middle.map entryOf) := by
  rw [readGuide_guideLines]
  show (guideLayers.flatMap fun x => (sectionItems todos x.1).map (entryUnder x.2)).Perm _
  have hsection : ∀ x ∈ guideLayers, ((sectionItems todos x.1).map (entryUnder x.2)).Perm
      ((itemsIn middle x.1).map entryOf) := by
    intro x hx
    have hitems := sectionItems_perm todos x.1
    rw [itemsIn_eq_middle htodos hearly hlast (mem_map_of_mem hx)] at hitems
    refine (hitems.map _).trans (.of_eq (map_congr_left fun t ht => ?_))
    have hlayer : t.layer = x.1 := beq_iff_eq.mp (mem_filter.mp ht).2
    have htitle : (guideLayers.lookup x.1).getD "" = x.2 := by
      rw [lookup_of_mem (by decide) hx]
      rfl
    rw [entryOf, hlayer, htitle]
  refine (Perm.flatMap_left _ hsection).trans ?_
  have hflat := (flatMap_middle_perm hmiddle).map entryOf
  rwa [map_flatMap, flatMap_map] at hflat

include htodos hearly hmiddle hlast in
theorem counts_eq : ∃ counts : List Nat, (readGuide (guideLines todos)).counts = counts.map toString
    ∧ counts.sum = middle.length := by
  refine ⟨(guideLayers.map (·.1)).flatMap (sectionCounts todos), ?_, ?_⟩
  · rw [readGuide_guideLines, flatMap_map]
    rfl
  · have hsame : (guideLayers.map (·.1)).flatMap (itemsIn todos)
        = (guideLayers.map (·.1)).flatMap (itemsIn middle) :=
      flatMap_congr fun layer h => itemsIn_eq_middle htodos hearly hlast h
    rw [sum_sectionCounts, hsame, (flatMap_middle_perm hmiddle).length_eq]

include htodos hearly hmiddle hlast in
/-- An item of no model is listed only where one of high priority says the same. -/
theorem lists_iff : (∀ t ∈ todos, (readGuide (guideLines todos)).Lists t)
    ↔ ∀ t ∈ early, ∃ u ∈ early, u.priority = "high" ∧ u.description = t.description := by
  have hurgent : (readGuide (guideLines todos)).urgent = (urgentItems todos).map mention := by
    rw [readGuide_guideLines]
    exact append_nil _
  have hentries := entries_perm htodos hearly hmiddle hlast
  have hmem : ∀ {t : Todo}, t ∈ todos ↔ (t ∈ early ∨ t ∈ middle) ∨ t ∈ last := by
    intro t
    rw [htodos, mem_append, mem_append]
  have hlisted : ∀ {t : Todo}, t ∈ todos → t.priority = "high" →
      mention t ∈ (readGuide (guideLines todos)).urgent := by
    intro t ht hpriority
    rw [hurgent]
    exact mem_map_of_mem (mem_filter.mpr ⟨ht, beq_iff_eq.mpr hpriority⟩)
  constructor
  · intro h t ht
    have hmodel := (hearly t ht).1
    rcases h t (hmem.mpr (.inl (.inl ht))) with hmention | ⟨e, he, hsame, -⟩
    · rw [hurgent] at hmention
      obtain ⟨u, hu, heq⟩ := mem_map.mp hmention
      obtain ⟨hu, hpriority⟩ := mem_filter.mp hu
      have hempty : u.model = "" := (congrArg Mention.model heq).trans hmodel
      refine ⟨u, ?_, beq_iff_eq.mp hpriority, congrArg Mention.description heq⟩
      -- items of models and that of a validation name a model
      rcases hmem.mp hu with (hu | hu) | hu
      · exact hu
      · exact absurd hempty (hmiddle u hu).1
      · exact absurd (hempty.symm.trans (hlast u hu).1) (by decide)
    · obtain ⟨u, hu, rfl⟩ := mem_map.mp (hentries.mem_iff.mp he)
      exact absurd (hsame.trans hmodel) (hmiddle u hu).1
  · intro h t ht
    rcases hmem.mp ht with (hearlier | hmodels) | hvalidation
    · obtain ⟨u, hu, hpriority, hdescription⟩ := h t hearlier
      have hmention : mention u = mention t := by
        rw [mention, mention, hdescription, (hearly u hu).1, (hearly t hearlier).1]
      exact .inl (hmention ▸ hlisted (hmem.mpr (.inl (.inl hu))) hpriority)
    · have hentry := hentries.mem_iff.mpr (mem_map_of_mem hmodels)
      exact .inr ⟨_, hentry, rfl, rfl⟩
    · exact .inl (hlisted ht (hlast t hvalidation).2.2)

end

/-! ## The file of the guide -/

section

open Stateful

def HoldsPage (dir : Path) (name text : String) (s : Session) : Prop :=
  s.files.read (dir / name) = .ok (.text text)

theorem leads_writePage (dir : Path) (name : String) (hpart : Path.IsPart name) (hup : name ≠ "..")
    (text : String) :
    Leads (fun _ => True) (HoldsPage dir name text) (writePage dir name text) := by
  intro s a _ h
  have hrun := run_change (fun fs => fs.write (dir / name) (.text text)) s
  rw [writePage] at h ⊢
  cases hwrite : s.files.write (dir / name) (.text text) with
  | error e =>
    rw [hwrite] at hrun
    rw [(Prod.mk.inj hrun).1] at h
    cases h
  | ok files =>
    rw [hwrite] at hrun
    have hparts : (dir / name).parts = dir.parts ++ [name] := by
      rw [Path.div_eq_below dir hpart]
      rfl
    rw [HoldsPage, (Prod.mk.inj hrun).2]
    exact Files.read_of_write hparts hup hwrite

/-- Where there are items, the pages that are written have the guide among them. -/
theorem leads_writeAll (dir : Path) (ws : List Workflow) (inv : Option MacroInventory)
    {todos : List Todo} (hne : todos ≠ []) :
    Leads (fun _ => True) (HoldsPage dir "todo_guide.md" (todoGuide todos))
      (writeAll dir ws inv todos) := by
  have hskip : ∀ {α : Type} {x : Run α}, Leads (fun _ => True) (fun _ => True) x :=
    fun _ _ _ _ => trivial
  have hguide := leads_writePage dir "todo_guide.md" (by decide) (by decide) (todoGuide todos)
  -- behind the guide only a line is said, which leaves the files alone
  have hend : Leads (fun _ => True) (HoldsPage dir "todo_guide.md" (todoGuide todos)) (do
      writePage dir "medallion_mapping.md" (layersPage ws)
      writePage dir "todo_guide.md" (todoGuide todos)
      Run.say ("Documentation generated at: " ++ dir.toString)) :=
    leads_bind hskip fun _ => leads_bind hguide fun _ => fun _ _ h _ => h
  have hfilled : (!todos.isEmpty) := by simpa using hne
  unfold writeAll
  rw [hfilled]
  refine leads_bind hskip fun _ => leads_bind hskip fun _ => leads_bind hskip fun _ =>
    leads_bind hskip fun _ => leads_bind hskip fun _ => leads_bind hskip fun _ => ?_
  cases inv with
  | none => exact hend
  | some inv => exact leads_bind hskip fun _ => hend

/-- The guide to the items of a project, when it is written, is in its file, and its lines tell how
many items there are, all items of high priority, and all items of models under the titles of their
layers. So what is noted before a model is entered is not in the count of any layer, nor is the item
of a validation, and the guide lists all items exactly if each that belongs to no model says the
same as one of high priority. -/
theorem guide_lists_iff (home : Path) (ws : List Workflow) (inv : Option MacroInventory) {b : Build}
    (hplace : b.place = ⟨"", ""⟩) (htodos : b.todos = []) :
    let todos := (state (Work.generate home ws inv) b).todos
    let early := (state ((opening home ws inv).forM Part.run) b).todos
    let guide := readGuide (guideLines todos)
    (∀ dir s, todos ≠ [] → result (writeAll dir ws inv todos) s = .ok () →
      (state (writeAll dir ws inv todos) s).files.read (dir / "todo_guide.md")
        = .ok (.text (Text.lines (guideLines todos))))
    ∧ ∃ middle last, todos = early ++ middle ++ last
      ∧ (∀ t ∈ early, t.model = "" ∧ t.layer = "unknown")
      ∧ (∀ t ∈ middle, t.OfModel) ∧ (∀ t ∈ last, t.OfValidation)
      ∧ guide.totals = [toString todos.length]
      ∧ guide.urgent = (urgentItems todos).map mention
      ∧ guide.entries.Perm (middle.map entryOf)
      ∧ (∃ counts : List Nat, guide.counts = counts.map toString
        ∧ counts.sum + early.length + last.length = todos.length)
      ∧ ((∀ t ∈ todos, guide.Lists t)
        ↔ ∀ t ∈ early, ∃ u ∈ early, u.priority = "high" ∧ u.description = t.description) := by
  intro todos early guide
  obtain ⟨hearly, middle, last, hgroups, hmiddle, hlast⟩ :=
    todos_generate_groups home ws inv hplace htodos
  have hgroups : todos = early ++ middle ++ last := hgroups
  refine ⟨fun dir s hne h => leads_writeAll dir ws inv hne s () trivial h, middle, last, hgroups,
    hearly, hmiddle, hlast, ?_, ?_, entries_perm hgroups hearly hmiddle hlast, ?_,
    lists_iff hgroups hearly hmiddle hlast⟩
  · rw [show guide.totals = _ from congrArg Guide.totals (readGuide_guideLines todos)]
    rfl
  · rw [show guide.urgent = _ from congrArg Guide.urgent (readGuide_guideLines todos)]
    exact append_nil _
  · obtain ⟨counts, hcounts, hsum⟩ := counts_eq hgroups hearly hmiddle hlast
    refine ⟨counts, hcounts, ?_⟩
    rw [hsum, hgroups, length_append, length_append]
    omega

def sortTool : Tool :=
  { id := 1, name := "Sort", category := .preparation
    settings := [("sort_fields",
      .list [.record [("field", .text "x"), ("order", .text "Ascending")]])] }

def sortingMacro : MacroInfo :=
  { name := "m.yxmc", path := "m.yxmc", found := true
    workflow := some
      { metadata := { name := "m", path := "m.yxmc" }, tools := [sortTool], connections := [] } }

def sortingInventory : MacroInventory :=
  { macros := [("m.yxmc", sortingMacro)], usage := [("m.yxmc", ["w"])] }

/-- The reminder to sort again is in no list of the guide. -/
theorem guide_misses_sortTool :
    let todos := (state (Work.generate ⟨"/", ["h"]⟩ [] (some sortingInventory)) emptyProject).todos
    ¬∀ t ∈ todos, (readGuide (guideLines todos)).Lists t := by
  intro todos hlists
  have hearly : let early :=
        (state ((opening ⟨"/", ["h"]⟩ [] (some sortingInventory)).forM Part.run) emptyProject).todos
      early ≠ [] ∧ ∀ t ∈ early, t.priority ≠ "high" := by
    decide +kernel
  obtain ⟨-, middle, last, -, -, -, -, -, -, -, -, hiff⟩ :=
    guide_lists_iff ⟨"/", ["h"]⟩ [] (some sortingInventory) (b := emptyProject) rfl rfl
  obtain ⟨t, ht⟩ := exists_mem_of_ne_nil _ hearly.1
  obtain ⟨u, hu, hpriority, -⟩ := hiff.mp hlists t ht
  exact hearly.2 u hu hpriority

end

end Replatform.Pages

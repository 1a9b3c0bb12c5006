import Replatform.Proofs.Failure
import Replatform.Proofs.Value
import Replatform.Workflow.Document
/-!
# The shape of what is read from documents

Settings are values of any kind, and a workflow that is put together by hand may have anything in
them. A workflow that is read from a document has tables under the keys that others look into: lists
of records in which every entry is there and is a text. The sums of a tool are complete in the same
way (`shaped_of_load`).

Which settings a tool gets depends on its name, and the name of a macro is that of its file, so the
shape is not one for each kind of tool: every reader keeps it, whichever of them is chosen. It keeps
the number of the tool as well, which lies in no container before all are read (`Read`).
-/

namespace Replatform

open List Markup

/-- The value is a list of records, each of which has a text under each of the keys, in this order,
and nothing else. -/
def IsTable (keys : List String) (v : Value) : Prop :=
  ∃ rows : List (List (String × String)), v = .list (rows.map Workflow.record)
    ∧ ∀ row ∈ rows, row.map (·.1) = keys

/-- The formulas and sort keys of a tool are tables, as far as there are any, and its sums are
complete. -/
structure Tool.Shaped (t : Tool) : Prop where
  formulas : ∀ v, t.setting? "formulas" = some v → IsTable ["field", "expression", "type"] v
  sorts : ∀ v, t.setting? "sort_fields" = some v → IsTable ["field", "order"] v
  sums : ∀ s ∈ t.summaries, s.field.isSome ∧ s.action.isSome ∧ s.output.isSome

theorem isTable_of_mem {keys : List String} {vs : List Value}
    (h : ∀ v ∈ vs, ∃ row, v = Workflow.record row ∧ row.map (·.1) = keys) :
    IsTable keys (.list vs) := by
  induction vs with
  | nil => exact ⟨[], rfl, forall_mem_nil _⟩
  | cons v vs ih =>
    obtain ⟨⟨row, rfl, hrow⟩, hrest⟩ := forall_mem_cons.mp h
    obtain ⟨rows, hrows, hkeys⟩ := ih hrest
    cases hrows
    exact ⟨row :: rows, rfl, forall_mem_cons.mpr ⟨hrow, hkeys⟩⟩

/-- A record of texts has a text under each of its keys. -/
theorem isSome_fieldText?_record {row : List (String × String)} {key : String}
    (h : key ∈ row.map (·.1)) : (fieldText? (Workflow.record row).fields key).isSome := by
  have hfields : (Workflow.record row).fields = row.map fun x => (x.1, .text x.2) := rfl
  rw [hfields]
  induction row with
  | nil => exact absurd h not_mem_nil
  | cons entry row ih =>
    obtain ⟨k, v⟩ := entry
    rw [fieldText?, map_cons]
    by_cases hk : key = k
    · rw [hk, lookup_cons_self]
      rfl
    · rw [lookup_cons_of_ne hk]
      rw [map_cons, mem_cons] at h
      exact ih (h.resolve_left hk) rfl

/-- In a table, each record has a text under each of the keys. -/
theorem IsTable.isSome_fieldText? {keys : List String} {v : Value} (h : IsTable keys v)
    {r : List (String × Value)} (hr : r ∈ v.items.map Value.fields) {key : String}
    (hkey : key ∈ keys) : (fieldText? r key).isSome := by
  obtain ⟨rows, rfl, hrows⟩ := h
  obtain ⟨item, hitem, rfl⟩ := mem_map.mp hr
  obtain ⟨row, hrow, rfl⟩ := mem_map.mp hitem
  exact isSome_fieldText?_record (hrows row hrow ▸ hkey)

namespace Tool

variable {t : Tool}

theorem setting?_set (t : Tool) (key k : String) (v : Value) :
    (t.set key v).setting? k = if k = key then some v else t.setting? k :=
  lookup_setField t.settings key k v

/-- A tool without settings and sums. -/
theorem Shaped.of_empty (hsettings : t.settings = []) (hsums : t.summaries = []) : t.Shaped := by
  have hnone : ∀ k, t.setting? k = none := by
    intro k
    rw [setting?, hsettings]
    rfl
  refine ⟨fun v hv => ?_, fun v hv => ?_, fun s hs => ?_⟩
  · rw [hnone] at hv
    cases hv
  · rw [hnone] at hv
    cases hv
  · rw [hsums] at hs
    exact absurd hs not_mem_nil

/-- The shape is one of the settings and the sums. -/
theorem Shaped.of_eq {t' : Tool} (h : t.Shaped) (hsettings : t'.settings = t.settings)
    (hsums : t'.summaries = t.summaries) : t'.Shaped := by
  have hsame : t'.setting? = t.setting? := by
    funext k
    rw [setting?, setting?, hsettings]
  exact ⟨hsame ▸ h.formulas, hsame ▸ h.sorts, hsums ▸ h.sums⟩

/-- The shape of a tool with a number that lies in no container. -/
structure Formed (number : Int) (t : Tool) : Prop extends t.Shaped where
  id : t.id = number
  outside : t.container = none

variable {n : Int}

/-- What the readers change besides is of no matter. -/
theorem Formed.of_eq {t' : Tool} (h : t.Formed n)
    (hsame : (t'.id, t'.container, t'.settings, t'.summaries)
      = (t.id, t.container, t.settings, t.summaries)) : t'.Formed n := by
  simp only [Prod.mk.injEq] at hsame
  obtain ⟨hid, hcontainer, hsettings, hsums⟩ := hsame
  exact ⟨h.toShaped.of_eq hsettings hsums, hid.trans h.id, hcontainer.trans h.outside⟩

theorem Formed.set (h : t.Formed n) {key : String} {v : Value}
    (hformulas : "formulas" = key → IsTable ["field", "expression", "type"] v)
    (hsorts : "sort_fields" = key → IsTable ["field", "order"] v) : (t.set key v).Formed n := by
  refine ⟨⟨fun u hu => ?_, fun u hu => ?_, h.sums⟩, h.id, h.outside⟩
  · rw [setting?_set] at hu
    split at hu
    next hkey => exact Option.some.inj hu ▸ hformulas hkey
    next => exact h.formulas u hu
  · rw [setting?_set] at hu
    split at hu
    next hkey => exact Option.some.inj hu ▸ hsorts hkey
    next => exact h.sorts u hu

/-- Under other keys there may be anything. -/
theorem Formed.set_other {t' : Tool} (h : t.Formed n) {key : String} {v : Value}
    (hsame : (t'.id, t'.container, t'.settings, t'.summaries)
      = (t.id, t.container, t.settings, t.summaries))
    (hkey : "formulas" ≠ key ∧ "sort_fields" ≠ key) : (t'.set key v).Formed n :=
  (h.of_eq hsame).set (absurd · hkey.1) (absurd · hkey.2)

/-- What a document may lack. -/
theorem Formed.elim {α : Type} {o : Option α} {f : α → Tool} (h : t.Formed n)
    (hf : ∀ a, (f a).Formed n) : (o.elim t f).Formed n := by
  cases o with
  | none => exact h
  | some a => exact hf a

end Tool

namespace Workflow

open Tool

/-! ## Readers -/

section Readers

variable {t : Tool} {n : Int} (h : t.Formed n) (e : Element)

include h

theorem formed_readLink : (readLink e t).Formed n :=
  h.elim fun _ => h.set_other rfl (by decide)

theorem formed_readTable : (readTable e t).Formed n :=
  (formed_readLink h e).elim fun _ => (formed_readLink h e).set_other rfl (by decide)

theorem formed_readSource : (readSource e t).Formed n :=
  h.elim fun _ => h.set_other rfl (by decide)

theorem formed_readInput : (readInput e t).Formed n := by
  have htable := formed_readTable (formed_readSource h e) e
  exact htable.elim fun _ => htable.set_other rfl (by decide)

theorem formed_readOutput : (readOutput e t).Formed n := by
  refine formed_readTable ?_ e
  exact h.elim fun _ => h.set_other rfl (by decide)

theorem formed_readFilter : (readFilter e t).Formed n :=
  h.elim fun _ => h.set_other rfl (by decide)

theorem formed_readFormulas : (readFormulas e t).Formed n := by
  unfold readFormulas
  split
  · exact h
  · refine Formed.set ?_ (fun _ => isTable_of_mem fun v hv => ?_)
      fun hkey => absurd hkey (by decide)
    · exact h.of_eq rfl
    · obtain ⟨f, -, rfl⟩ := mem_map.mp hv
      exact ⟨_, rfl, rfl⟩

theorem formed_readJoinInfo : (readJoinInfo e t).Formed n :=
  h.elim fun _ => h.set_other rfl (by decide)

theorem formed_readJoin : (readJoin e t).Formed n := by
  have hinfo := formed_readJoinInfo h e
  -- whether it joins by position, the keys and the kind of the join are set one behind the other
  have hposition : ∀ {u : Tool} {c : Bool}, u.Formed n →
      (if c then u.set "join_by_position" (.bool true) else u).Formed n := by
    intro u c hu
    split
    · exact hu.set_other rfl (by decide)
    · exact hu
  have hkeys : ∀ {u : Tool} {c : Bool} (keys : List String) (v : Value), u.Formed n →
      (if c then u else Tool.set { u with joinKeys := keys } "join_fields" v).Formed n := by
    intro u c keys v hu
    split
    · exact hu
    · exact hu.set_other rfl (by decide)
  unfold readJoin
  dsimp only
  split
  · exact Formed.of_eq (hkeys _ _ (hposition hinfo)) rfl
  · exact hkeys _ _ (hposition hinfo)

theorem formed_readSummaries : (readSummaries e t).Formed n := by
  refine Formed.set_other (Formed.set_other ?_ rfl ?_) rfl ?_
  · refine ⟨⟨h.formulas, h.sorts, fun s hs => ?_⟩, h.id, h.outside⟩
    obtain ⟨_, -, rfl⟩ := mem_map.mp hs
    exact ⟨rfl, rfl, rfl⟩
  all_goals decide

theorem formed_readSelection : (readSelection e t).Formed n := by
  refine Formed.set_other (Formed.set_other (Formed.set_other ?_ rfl ?_) rfl ?_) rfl ?_
  · exact h.of_eq rfl
  all_goals decide

theorem formed_readSort : (readSort e t).Formed n := by
  refine h.set (fun hkey => absurd hkey (by decide)) fun _ => isTable_of_mem fun v hv => ?_
  obtain ⟨f, -, hf⟩ := mem_filterMap.mp hv
  split at hf
  · cases hf
  · cases hf
    exact ⟨_, rfl, rfl⟩

theorem formed_readUnion : (readUnion e t).Formed n := h.elim fun _ => h.set_other rfl (by decide)

/-- Whatever the kind of a tool, reading its details keeps the shape. -/
theorem formed_readDetails : (readDetails e t).Formed n := by
  unfold readDetails
  split
  · exact formed_readInput h e
  · exact formed_readOutput h e
  · exact formed_readFilter h e
  · exact formed_readFormulas h e
  · exact formed_readFormulas h e
  · exact formed_readJoin h e
  · exact formed_readSummaries h e
  · exact formed_readSelection h e
  · exact formed_readSort h e
  · exact formed_readUnion h e
  · exact h

theorem formed_configure : (configure e t).Formed n := by
  unfold configure
  split
  · exact formed_readDetails (h.set_other rfl (by decide)) _
  · exact h

end Readers

/-! ## Tools and workflows -/

/-- What is known of a tool that was read from an element. -/
structure Read (e : Element) (t : Tool) : Prop extends t.Shaped where
  number : ∃ number, e.get? "ToolID" = some number ∧ readWhole number = .ok t.id
  outside : t.container = none
  members : t.category = .container → t.members = readMembers e

/-- An element stands for a tool if it has a number that is not empty. -/
def IsNumbered (e : Element) : Bool := (filled (e.get? "ToolID")).isSome

theorem readTool_eq_ok {e : Element} {found : Option Tool} (h : readTool e = .ok found) :
    found.isSome = IsNumbered e ∧ ∀ t, found = some t → Read e t := by
  unfold readTool at h
  unfold IsNumbered
  split at h
  next hnone =>
    cases h
    exact ⟨by rw [hnone]; rfl, fun t ht => by cases ht⟩
  next number hnumber =>
    obtain ⟨id, hid, h⟩ := bind_eq_ok.mp h
    obtain ⟨position, -, h⟩ := bind_eq_ok.mp h
    obtain rfl := Except.ok.inj h
    refine ⟨by rw [hnumber]; rfl, fun t ht => ?_⟩
    obtain rfl := Option.some.inj ht
    have hget : e.get? "ToolID" = some number := (Option.filter_eq_some_iff.mp hnumber).1
    have hformed := formed_configure (t := bareTool e id position)
      ⟨.of_empty rfl rfl, rfl, rfl⟩ e
    have hnumber : readWhole number = .ok (configure e (bareTool e id position)).id :=
      hid.trans (congrArg _ hformed.id.symm)
    split
    next => exact ⟨hformed.toShaped.of_eq rfl rfl, ⟨number, hget, hnumber⟩, hformed.outside,
      fun _ => rfl⟩
    next hbox => exact ⟨hformed.toShaped, ⟨number, hget, hnumber⟩, hformed.outside,
      fun h => absurd h hbox⟩

/-- The elements of a document that stand for tools. -/
def toolElements (root : Element) : List Element :=
  ((root.findBelow? "Nodes").toList.flatMap (·.findAll "Node")).filter IsNumbered

/-- Puts tools into containers, one member after the other. -/
def placeAll (boxes : List (Int × List Int)) (ts : List Tool) : List Tool :=
  boxes.foldl (fun ts b => b.2.foldl (putInto b.1) ts) ts

/-- The tools of a document are read from its elements, and then put into containers. -/
theorem readTools_eq_ok {root : Element} {tools : List Tool} (h : readTools root = .ok tools) :
    ∃ read, Forall₂ Read (toolElements root) read ∧ tools = placeAll (memberships read) read := by
  unfold readTools at h
  unfold toolElements
  split at h
  next hnone =>
    cases h
    exact ⟨[], by rw [hnone]; exact .nil, rfl⟩
  next nodes hnodes =>
    obtain ⟨found, hfound, h⟩ := bind_eq_ok.mp h
    refine ⟨found.filterMap id, ?_, (Except.ok.inj h).symm⟩
    rw [hnodes, Option.toList_some, flatMap_singleton]
    rw [mapM_eq_ok] at hfound
    generalize nodes.findAll "Node" = es at hfound
    clear h
    induction hfound with
    | nil => exact .nil
    | @cons e found es founds hread _ ih =>
      obtain ⟨hsome, hall⟩ := readTool_eq_ok hread
      rw [filter_cons, ← hsome]
      cases found with
      | none => exact ih
      | some t => exact .cons (hall t rfl) ih

/-- The document that a file holds. -/
def DocumentIn (fs : Files) (file : String) (root : Element) : Prop :=
  ∃ content source, fs.read (Path.ofString file) = .ok content
    ∧ decodeDocument content.toBytes = .ok source ∧ readDocument? source = some root

theorem document_of_load {fs : Files} {file : String} {w : Workflow} (h : load fs file = .ok w) :
    ∃ root, DocumentIn fs file root ∧ readTools root = .ok w.tools := by
  obtain ⟨there, -, h⟩ := bind_eq_ok.mp h
  split at h
  next => cases h
  next =>
    split at h
    next => cases h
    next =>
      obtain ⟨content, hcontent, h⟩ := bind_eq_ok.mp h
      obtain ⟨source, hsource, h⟩ := bind_eq_ok.mp h
      split at h
      next root hroot =>
        obtain ⟨tools, htools, h⟩ := bind_eq_ok.mp h
        obtain ⟨connections, -, h⟩ := bind_eq_ok.mp h
        cases h
        exact ⟨root, ⟨content, source, hcontent, hsource, hroot⟩, htools⟩
      next => cases h

theorem shaped_putInto {c : Int} {tools : List Tool} (h : ∀ t ∈ tools, t.Shaped) (id : Int) :
    ∀ t ∈ putInto c tools id, t.Shaped := by
  fun_induction putInto c tools id with
  | case1 => exact h
  | case2 t ts =>
    obtain ⟨hfirst, hrest⟩ := forall_mem_cons.mp h
    exact forall_mem_cons.mpr ⟨hfirst.of_eq rfl rfl, hrest⟩
  | case3 t ts hid ih =>
    obtain ⟨hfirst, hrest⟩ := forall_mem_cons.mp h
    exact forall_mem_cons.mpr ⟨hfirst, ih hrest⟩

/-- Every tool of a workflow that was read from a file has the shape. -/
theorem shaped_of_load {fs : Files} {file : String} {w : Workflow} (h : load fs file = .ok w) :
    ∀ t ∈ w.tools, t.Shaped := by
  obtain ⟨root, -, hread⟩ := document_of_load h
  obtain ⟨read, hread, htools⟩ := readTools_eq_ok hread
  have hshaped : ∀ t ∈ read, t.Shaped := by
    intro t ht
    obtain ⟨e, -, he⟩ := exists_of_mem_forall₂ hread ht
    exact he.toShaped
  rw [htools]
  refine foldlRecOn (motive := fun ts => ∀ t ∈ ts, Shaped t) _ _ hshaped fun ts hts b _ => ?_
  exact foldlRecOn (motive := fun ts => ∀ t ∈ ts, Shaped t) _ _ hts
    fun ts hts id _ => shaped_putInto hts id

end Workflow

end Replatform

import Replatform.Proofs.Pages.Diagram
import Replatform.Proofs.Workflow.Shape
/-!
# Which container a tool lies in

A document gives the members of each container, in up to three elements, and lists of members may
overlap. Tools are put into containers one member after the other, and the diagram goes through the
same lists again. In both loops the last round that writes wins (`view_foldl`), so a tool lies in the
last container that has its number, and is shown there (`container_of_load`).
-/

namespace Replatform

open List Markup Number

namespace Workflow

/-! ## Putting tools into containers -/

/-- A tool without its container. -/
def bare (t : Tool) : Tool := { t with container := none }

theorem map_bare_putInto (c : Int) (ts : List Tool) (id : Int) :
    (putInto c ts id).map bare = ts.map bare := by
  fun_induction putInto c ts id with
  | case1 => rfl
  | case2 t ts => rfl
  | case3 t ts hid ih => rw [map_cons, ih, map_cons]

theorem map_bare_members (c : Int) (members : List Int) (ts : List Tool) :
    (members.foldl (putInto c) ts).map bare = ts.map bare :=
  foldlRecOn (motive := fun us => us.map bare = ts.map bare) _ _ rfl fun us hus id _ =>
    (map_bare_putInto c us id).trans hus

theorem map_bare_placeAll (boxes : List (Int × List Int)) (ts : List Tool) :
    (placeAll boxes ts).map bare = ts.map bare :=
  foldlRecOn (motive := fun us => us.map bare = ts.map bare) _ _ rfl fun us hus b _ =>
    (map_bare_members b.1 b.2 us).trans hus

/-- The container of the first tool with a number. -/
def containerAt (ts : List Tool) (k : Int) : Option Int := (ts.find? (·.id == k)).bind (·.container)

theorem containerAt_putInto {c k id : Int} {ts : List Tool} (hk : k ∈ (ts.map bare).map (·.id)) :
    containerAt (putInto c ts id) k = if id = k then some c else containerAt ts k := by
  unfold containerAt
  fun_induction putInto c ts id with
  | case1 => exact absurd hk not_mem_nil
  | case2 t ts => grind
  | case3 t ts hid ih => grind [bare]

theorem containerAt_members {c k : Int} (members : List Int) {ts : List Tool}
    (hk : k ∈ (ts.map bare).map (·.id)) :
    containerAt (members.foldl (putInto c) ts) k
      = if members.contains k then some c else containerAt ts k := by
  induction members generalizing ts with
  | nil => rfl
  | cons id members ih =>
    rw [foldl_cons, ih (by rwa [map_bare_putInto]), containerAt_putInto hk]
    grind

/-- The containers with their members. -/
def boxesOf (ts : List Tool) : List (Int × List Int) :=
  (ts.filter (·.category == .container)).map fun t => (t.id, t.members)

theorem boxesOf_map_bare (ts : List Tool) : boxesOf (ts.map bare) = boxesOf ts := by
  rw [boxesOf, filter_map, map_map]
  rfl

/-- Without numbers that are given twice, the members stand under the numbers of all containers. -/
theorem memberships_eq {ts : List Tool} (h : (ts.map (·.id)).Nodup) :
    memberships ts = boxesOf ts := by
  have hnew : ∀ (boxes : List Tool) (m : List (Int × List Int)),
      (m.map (·.1) ++ boxes.map (·.id)).Nodup →
      boxes.foldl (fun m t => setField m t.id t.members) m
        = m ++ boxes.map fun t => (t.id, t.members) := by
    intro boxes
    induction boxes with
    | nil => exact fun m _ => (append_nil m).symm
    | cons box boxes ih =>
      intro m hm
      have hkey : box.id ∉ m.map (·.1) := fun hmem =>
        disjoint_of_nodup_append hm hmem (.head _)
      rw [foldl_cons, setField_of_notMem hkey, ih _ (by simpa using hm), append_assoc]
      rfl
  exact hnew _ [] (h.sublist (filter_sublist.map _))

/-- Behind the rounds in which tools are put into containers, a tool lies in the last container that
has its number among its members. -/
theorem container_eq_holder? {w : Workflow} (hids : w.Distinct) {read : List Tool}
    (hout : ∀ t ∈ read, t.container = none) (htools : w.tools = placeAll (memberships read) read)
    {t : Tool} (ht : t ∈ w.tools) : t.container = Pages.holder? w t.id := by
  have hbare : w.tools.map bare = read.map bare := by rw [htools, map_bare_placeAll]
  have hnumbers : ∀ ts : List Tool, (ts.map bare).map (·.id) = ts.map (·.id) := fun _ => map_map
  have hsame : w.tools.map (·.id) = read.map (·.id) := by
    rw [← hnumbers, hbare, hnumbers]
  have hboxes : memberships read = boxesOf w.tools := by
    rw [memberships_eq (hsame ▸ hids), ← boxesOf_map_bare, ← hbare, boxesOf_map_bare]
  have hfirst : containerAt read t.id = none := by
    unfold containerAt
    cases hfind : read.find? (·.id == t.id) with
    | none => rfl
    | some u => exact hout u (mem_of_find?_eq_some hfind)
  have hfind : containerAt w.tools t.id = t.container := by
    show (w.tool? t.id).bind (·.container) = _
    rw [(tool?_eq_some_iff hids).mpr ⟨ht, rfl⟩]
    rfl
  have hlast := view_foldl (I := fun ts => t.id ∈ (ts.map bare).map (·.id)) (containerAt · t.id)
    (fun ts b hts => containerAt_members (c := b.1) b.2 hts)
    (fun ts b hts => by rwa [map_bare_members]) (memberships read)
    (s := read) (by rw [hnumbers, ← hsame]; exact mem_map_of_mem ht)
  rw [hfirst, Option.or_none, hboxes, boxesOf, filter_map, getLast?_map, Option.map_map] at hlast
  rw [← hfind, htools, hboxes]
  exact hlast

/-! ## Numbers in a text -/

def isSeparator (c : Char) : Bool := c == ',' || Text.isBlank c

/-- What stands before the first separator, or behind one and before the next, and is not empty. -/
def IsToken (s token : List Char) : Prop :=
  token ≠ [] ∧ (token = s.takeWhile (!isSeparator ·) ∨ ∃ front d rest, s = front ++ d :: rest
    ∧ isSeparator d ∧ token = rest.takeWhile (!isSeparator ·))

theorem splitWhen_eq_cons (p : Char → Bool) (s : List Char) : ∃ more,
    Text.splitWhen p s = s.takeWhile (!p ·) :: more ∧ ∀ piece, piece ∈ more ↔
      ∃ front d rest, s = front ++ d :: rest ∧ p d ∧ piece = rest.takeWhile (!p ·) := by
  induction s with
  | nil => exact ⟨[], rfl, by simp⟩
  | cons c s ih =>
    obtain ⟨more, hsplit, hmore⟩ := ih
    -- what follows a separator begins at the first character, or further behind
    have hcut : ∀ piece, (∃ front d rest, c :: s = front ++ d :: rest ∧ p d
        ∧ piece = rest.takeWhile (!p ·)) ↔ (p c ∧ piece = s.takeWhile (!p ·)) ∨ piece ∈ more := by
      intro piece
      rw [hmore]
      constructor
      · rintro ⟨_ | ⟨x, front⟩, d, rest, heq, hd, rfl⟩
        · obtain ⟨rfl, rfl⟩ := cons.inj heq
          exact .inl ⟨hd, rfl⟩
        · exact .inr ⟨front, d, rest, (cons.inj heq).2, hd, rfl⟩
      · rintro (⟨hc, rfl⟩ | ⟨front, d, rest, rfl, hd, rfl⟩)
        · exact ⟨[], c, s, rfl, hc, rfl⟩
        · exact ⟨c :: front, d, rest, rfl, hd, rfl⟩
    by_cases hc : p c
    · exact ⟨s.takeWhile (!p ·) :: more, by simp [Text.splitWhen, hc, hsplit], by simp [hcut, hc]⟩
    · exact ⟨more, by simp [Text.splitWhen, hc, hsplit], by simp [hcut, hc]⟩

theorem splitWhen_commas (s : List Char) :
    Text.splitWhen Text.isBlank (s.map fun c => if c == ',' then ' ' else c)
      = Text.splitWhen isSeparator s := by
  have hblank : Text.isBlank ' ' := by decide
  induction s with
  | nil => rfl
  | cons c s ih =>
    rw [map_cons, Text.splitWhen, Text.splitWhen, ih, isSeparator]
    by_cases hc : c = ',' <;> simp [hc, hblank]

theorem mem_readNumbers {s : String} {n : Int} : n ∈ readNumbers s
    ↔ ∃ token, IsToken s.toList token ∧ readInteger (String.ofList token) = .ok n := by
  have hok : ∀ x : Except IntegerError Int, x.toOption = some n ↔ x = .ok n := by
    intro x
    cases x <;> simp [Except.toOption]
  obtain ⟨more, hsplit, hmore⟩ := splitWhen_eq_cons isSeparator s.toList
  simp only [readNumbers, Text.words, mem_filterMap, mem_filter, splitWhen_commas, hsplit,
    mem_cons, hmore, hok, IsToken, decide_eq_true_eq, ne_eq, and_comm]

/-! ## Documents -/

/-- The elements that may name the members of a container. -/
def memberPlaces (e : Element) : List (Option Element) :=
  [e.findBelow? "ChildToolIds", e.findBelowIn? "Configuration" "ChildToolIds",
   e.findBelowIn? "Properties" "ChildToolIds"]

/-- The number is written in one of these elements. -/
def Lists (e : Element) (n : Int) : Prop :=
  ∃ x, some x ∈ memberPlaces e
    ∧ ∃ token, IsToken x.text.toList token ∧ readInteger (String.ofList token) = .ok n

theorem mem_readMembers {e : Element} {n : Int} : n ∈ readMembers e ↔ Lists e n := by
  have hadd : ∀ (xs known : List Int), n ∈ xs.foldl
      (fun known n => if known.contains n then known else known ++ [n]) known
        ↔ n ∈ known ∨ n ∈ xs := by
    intro xs
    induction xs with
    | nil => simp
    | cons x xs ih =>
      intro known
      rw [foldl_cons, ih]
      grind
  have hplace : ∀ x : Option Element, n ∈ readNumbers ((x.bind Element.text?).getD "")
      ↔ ∃ y, x = some y ∧ ∃ token, IsToken y.text.toList token
        ∧ readInteger (String.ofList token) = .ok n := by
    intro x
    cases x with
    | none => simp [readNumbers, Text.words, Text.splitWhen]
    | some y =>
      have htext : (y.text?).getD "" = y.text := by
        unfold Element.text?
        split
        next hempty => exact (String.isEmpty_iff.mp hempty).symm
        next => rfl
      simp [mem_readNumbers, htext]
  simp only [readMembers, hadd, hplace, Lists, memberPlaces, mem_cons, not_mem_nil, or_false]
  grind

/-- A tool has the number of its element and, if it is a container, the members that are written in
it. -/
structure StandsFor (e : Element) (t : Tool) : Prop where
  number : ∃ number, e.get? "ToolID" = some number ∧ readWhole number = .ok t.id
  members : t.category = .container → ∀ n, n ∈ t.members ↔ Lists e n

/-- In a workflow that is read from a file, each tool lies in the last container that has its number
among its members, and in none if no container has. The members of a container are the numbers that
are written in its element, and the diagram shows each tool where it lies. -/
theorem container_of_load {fs : Files} {file : String} {w : Workflow} (h : load fs file = .ok w)
    (hids : w.Distinct) :
    (∃ root, DocumentIn fs file root ∧ Forall₂ StandsFor (toolElements root) w.tools)
      ∧ ∀ t ∈ w.tools, t.container = Pages.holder? w t.id
        ∧ (Pages.boxMap w).lookup t.id = t.container := by
  obtain ⟨root, hroot, hread⟩ := document_of_load h
  obtain ⟨read, hread, htools⟩ := readTools_eq_ok hread
  have hbare : w.tools.map bare = read.map bare := by rw [htools, map_bare_placeAll]
  refine ⟨⟨root, hroot, ?_⟩, fun t ht => ?_⟩
  · have hstands : Forall₂ StandsFor (toolElements root) (read.map bare) := by
      refine forall₂_map_right_iff.mpr (hread.imp fun e t he => ⟨he.number, fun hbox n => ?_⟩)
      exact (he.members hbox ▸ mem_readMembers : n ∈ t.members ↔ _)
    rw [← hbare, forall₂_map_right_iff] at hstands
    exact hstands.imp fun _ _ hs => ⟨hs.number, hs.members⟩
  · have hout : ∀ u ∈ read, u.container = none := fun u hu => by
      obtain ⟨e, -, he⟩ := exists_of_mem_forall₂ hread hu
      exact he.outside
    have hcontainer := container_eq_holder? hids hout htools ht
    exact ⟨hcontainer, (Pages.lookup_boxMap w t.id).trans hcontainer.symm⟩

/-- Two containers, the second of which is in the first. Both list a tool. -/
def nestedContainers : String :=
  "<W><Nodes>"
    ++ "<Node ToolID='1'><GuiSettings Plugin='AlteryxGuiToolkit.ToolContainer.ToolContainer'/>"
    ++ "<ChildToolIds>3, x 2</ChildToolIds></Node>"
    ++ "<Node ToolID='2'><GuiSettings Plugin='AlteryxGuiToolkit.ToolContainer.ToolContainer'/>"
    ++ "<Properties><ChildToolIds>3</ChildToolIds></Properties></Node>"
    ++ "<Node ToolID='3'><GuiSettings Plugin='p'/></Node></Nodes></W>"

def containerFiles : Files :=
  { cwd := ⟨"/", []⟩, entries := [(["w.yxmd"], .file (.text nestedContainers))] }

set_option maxRecDepth 100000 in
/-- The tool that both list lies in the second. -/
theorem container_nested : ∃ w, load containerFiles "w.yxmd" = .ok w ∧ w.Distinct
    ∧ w.tools.map (fun t => (t.id, t.members, t.container))
      = [(1, [3, 2], none), (2, [3], some 1), (3, [], some 2)]
    ∧ ∀ t ∈ w.tools, (Pages.boxMap w).lookup t.id = t.container := by
  have hread : (load containerFiles "w.yxmd").toOption.map
      (fun w => w.tools.map fun t => (t.id, t.members, t.container))
      = some [(1, [3, 2], none), (2, [3], some 1), (3, [], some 2)] := by
    decide +kernel
  cases hload : load containerFiles "w.yxmd" with
  | error e =>
    rw [hload] at hread
    cases hread
  | ok w =>
    rw [hload] at hread
    have htools := Option.some.inj hread
    have hids : w.Distinct := by
      have hnumbers := congrArg (map Prod.fst) htools
      rw [map_map] at hnumbers
      rw [Workflow.Distinct, show w.tools.map (·.id) = [1, 2, 3] from hnumbers]
      decide
    exact ⟨w, rfl, hids, htools, fun t ht => ((container_of_load hload hids).2 t ht).2⟩

end Workflow

end Replatform

import Replatform.Pages.Diagram
import Replatform.Proofs.Numeral
import Replatform.Proofs.Project.Listing
import Replatform.Proofs.Project.Tour
import Replatform.Proofs.Value
/-!
# What a diagram shows

A reader of diagrams looks at the front of each line, and notes the boxes that are opened, the tools
that are defined with the box that they stand in, and the connections. Labels do not matter to it
unless they have line breaks, as what follows such a break has a front of its own.

No container and no tool is lost. From a text whose labels and anchors have no line breaks the
reader learns the containers and the connections in their order, and where the tools are defined:
only what lies in several containers, or several times in one, is defined more than once
(`diagram_complete`).
-/

namespace Replatform.Pages

open List Number Project

open Text (lines)

/-! ## Reading -/

/-- What the front of a line says. -/
inductive Stroke
  | box (id : Int)
  | close
  | node (id : Int)
  | edge (origin target : Int)
  | other
deriving DecidableEq

/-- The number of the tool that a line ends with. -/
def lastNumber? (s : List Char) : Option Int :=
  (numeral? (s.reverse.takeWhile (· != 'N')).reverse).map (·.1)

/-- A name that a space follows is the origin of a connection. -/
def stroke (line : List Char) : Stroke :=
  let s := line.dropWhile (· == ' ')
  if s.head? = some 'N' then
    match numeral? s.tail with
    | none => .other
    | some (id, rest) =>
      if rest.head? = some ' ' then (lastNumber? rest).elim .other (.edge id) else .node id
  else if s = "end".toList then .close
  else ((Text.after? "subgraph C".toList s).bind numeral?).elim .other fun r => .box r.1

/-- What is learned from a diagram: boxes, tools with the box that they are defined in, and
connections. -/
structure Chart where
  boxes : List Int := []
  nodes : List (Option Int × Int) := []
  edges : List (Int × Int) := []

/-- What is learned from lines that stand in a box, or in none. -/
def readChart (box : Option Int) : List Stroke → Chart
  | [] => {}
  | .box id :: ms =>
    let c := readChart (some id) ms
    { c with boxes := id :: c.boxes }
  | .close :: ms => readChart none ms
  | .node id :: ms =>
    let c := readChart box ms
    { c with nodes := (box, id) :: c.nodes }
  | .edge origin target :: ms =>
    let c := readChart box ms
    { c with edges := (origin, target) :: c.edges }
  | .other :: ms => readChart box ms

/-! ## The strokes of a diagram -/

/-- The lines of a diagram. -/
def diagramLines (w : Workflow) : List String :=
  "graph LR" :: (containers w).flatMap (boxLines w)
    ++ (looseTools w).map (fun t => "    " ++ toolShape t) ++ w.connections.map connectionLine

theorem stroke_name {line : List Char} {id : Int} {k : List Char}
    (h : line.dropWhile (· == ' ') = 'N' :: ((toString id).toList ++ k)) (hk : NoDigit k) :
    stroke line
      = if k.head? = some ' ' then (lastNumber? k).elim .other (.edge id) else .node id := by
  rw [stroke, h, head?_cons, if_pos rfl, tail_cons, numeral?_toString id hk]

/-- The front of a line says so, whatever follows. -/
def Begins (m : Stroke) (line : String) : Prop :=
  ∃ front rest, line.toList = front ++ rest ∧ '\n' ∉ front ∧ ∀ row, stroke (front ++ row) = m

variable {line : String}

theorem Begins.stroke_eq {m : Stroke} (h : Begins m line) :
    stroke line.toList = m := by
  obtain ⟨front, rest, hline, -, hstroke⟩ := h
  rw [hline, hstroke]

theorem Begins.mem {m : Stroke} (h : Begins m line) :
    m ∈ (rowsOf line).map stroke := by
  obtain ⟨front, rest, hline, hbreak, hstroke⟩ := h
  obtain ⟨row, rows, -, hrows⟩ := rowsOf_append hline hbreak
  rw [hrows, map_cons, hstroke]
  exact .head _

theorem newline_notMem_repr (id : Int) : '\n' ∉ id.repr.toList :=
  fun h => absurd (digit_of_mem_toString h) (by decide)

theorem toList_toolShape (t : Tool) : ∃ c rest, c ∈ ['[', '\x7b']
    ∧ (toolShape t).toList = 'N' :: ((toString t.id).toList ++ c :: rest) := by
  have hmark : ∃ x y, x ∈ ["[(", "[[", "\x7b\x7b", "["]
      ∧ toolShape t = "N" ++ toString t.id ++ (x ++ y) := by
    unfold toolShape
    simp only [String.append_assoc]
    repeat' split
    · exact ⟨"[(", _, by simp, rfl⟩
    · exact ⟨"[[", _, by simp, rfl⟩
    · exact ⟨"\x7b\x7b", _, by simp, rfl⟩
    · exact ⟨"[", _, by simp, rfl⟩
  obtain ⟨x, y, hx, hshape⟩ := hmark
  have hfront : ∀ x ∈ ["[(", "[[", "\x7b\x7b", "["],
      ∃ c r, c ∈ ['[', '\x7b'] ∧ x.toList = c :: r := by
    simp
  obtain ⟨c, r, hc, hlist⟩ := hfront x hx
  refine ⟨c, r ++ y.toList, hc, ?_⟩
  rw [hshape, String.toList_append, String.toList_append, String.toList_append, hlist]
  rfl

theorem begins_toolShape (t : Tool) (indent : String) (h : indent.toList.all (· == ' ')) :
    Begins (.node t.id) (indent ++ toolShape t) := by
  obtain ⟨c, rest, hc, hshape⟩ := toList_toolShape t
  have hmarks : ∀ c ∈ ['[', '\x7b'], c.isDigit = false ∧ c ≠ ' ' ∧ '\n' ≠ c := by
    simp only [mem_cons, not_mem_nil, or_false, forall_eq_or_imp, forall_eq]
    decide
  have hmark := hmarks c hc
  refine ⟨indent.toList ++ 'N' :: ((toString t.id).toList ++ [c]), rest, ?_, ?_, fun row => ?_⟩
  · rw [String.toList_append, hshape]
    simp
  · simp only [mem_append, mem_cons, not_mem_nil, or_false, not_or]
    refine ⟨fun hbreak => ?_, by decide, newline_notMem_repr t.id, hmark.2.2⟩
    exact absurd (all_eq_true.mp h _ hbreak) (by decide)
  · have hdrop : (indent.toList ++ 'N' :: ((toString t.id).toList ++ [c]) ++ row).dropWhile
        (· == ' ') = 'N' :: ((toString t.id).toList ++ c :: row) := by
      rw [append_assoc, dropWhile_append_of_pos (all_eq_true.mp h)]
      simp
    rw [stroke_name hdrop (noDigit_cons hmark.1), head?_cons,
      if_neg (hmark.2.1 <| Option.some.inj ·)]

theorem lastNumber?_toString (front : List Char) (id : Int) :
    lastNumber? (front ++ 'N' :: (toString id).toList) = some id := by
  have hname : ∀ c ∈ (toString id).toList.reverse, (c != 'N') := by
    intro c hc
    rw [bne_iff_ne]
    rintro rfl
    exact absurd (digit_of_mem_toString (mem_reverse.mp hc)) (by decide)
  have hnumber := numeral?_toString id (k := []) fun _ hc => by cases hc
  rw [append_nil] at hnumber
  rw [lastNumber?, reverse_append, reverse_cons, append_assoc, takeWhile_append_of_pos hname]
  show (numeral? ((toString id).toList.reverse ++ []).reverse).map _ = _
  rw [append_nil, reverse_reverse, hnumber, Option.map_some]

theorem stroke_edge (origin target : Int) (label : String) :
    stroke ("    N" ++ toString origin ++ " -->" ++ label ++ " N" ++ toString target).toList
      = .edge origin target := by
  have hdrop : ("    N" ++ toString origin ++ " -->" ++ label ++ " N"
      ++ toString target).toList.dropWhile (· == ' ')
      = 'N' :: ((toString origin).toList ++ ' ' :: (("-->".toList ++ label.toList ++ [' '])
        ++ 'N' :: (toString target).toList)) := by
    simp only [String.toList_append, append_assoc]
    rfl
  rw [stroke_name hdrop (noDigit_cons rfl), head?_cons, if_pos rfl, ← cons_append,
    lastNumber?_toString]
  rfl

variable (box : Option Int) (ts : List Tool) (id : Int)

theorem begins_boxLine (label : String) :
    Begins (.box id) ("    subgraph C" ++ toString id ++ "[\"" ++ label ++ "\"]") := by
  refine ⟨"    subgraph C".toList ++ ((toString id).toList ++ ['[']),
    '\x22' :: (label ++ "\"]").toList, ?_, ?_, fun row => ?_⟩
  · simp only [String.toList_append, append_assoc]
    rfl
  · simp only [mem_append, not_or]
    exact ⟨by decide, newline_notMem_repr id, by decide⟩
  · have hdrop : ("    subgraph C".toList ++ ((toString id).toList ++ ['[']) ++ row).dropWhile
        (· == ' ') = "subgraph C".toList ++ ((toString id).toList ++ '[' :: row) := by
      simp only [append_assoc]
      rfl
    rw [stroke, hdrop, if_neg (by simp), if_neg (by simp), after?_append, Option.bind_some,
      numeral?_toString id (noDigit_cons rfl)]
    rfl

/-! ## The chart of a diagram -/

/-- The tools that are defined, with the boxes that they stand in. -/
def definedNodes (w : Workflow) : List (Option Int × Int) :=
  (containers w).flatMap (fun c => (c.members.filterMap w.tool?).map fun t => (some c.id, t.id))
    ++ (looseTools w).map fun t => (none, t.id)

theorem readChart_nodes (ms : List Stroke) : readChart box (ts.map (fun t => .node t.id) ++ ms)
      = { readChart box ms with
          nodes := ts.map (fun t => (box, t.id)) ++ (readChart box ms).nodes } := by
  induction ts with
  | nil => rfl
  | cons t ts ih => rw [map_cons, cons_append, readChart, ih]; rfl

theorem readChart_edges (cs : List Connection) :
    readChart none (cs.map fun c => .edge c.origin c.target)
      = { edges := cs.map fun c => (c.origin, c.target) } := by
  induction cs with
  | nil => rfl
  | cons c cs ih => rw [map_cons, readChart, ih]; rfl

theorem map_stroke_toolShape {indent : String} (h : indent.toList.all (· == ' ')) :
    (ts.map fun t => indent ++ toolShape t).map (stroke ·.toList) = ts.map fun t => .node t.id := by
  rw [map_map]
  exact map_congr_left fun t _ => (begins_toolShape t _ h).stroke_eq

variable (w : Workflow)

theorem readChart_boxes (cs : List Tool) (ms : List Stroke) :
    readChart none ((cs.flatMap (boxLines w)).map (stroke ·.toList) ++ ms)
      = { readChart none ms with
          boxes := cs.map (·.id) ++ (readChart none ms).boxes
          nodes := cs.flatMap (fun c =>
            (c.members.filterMap w.tool?).map fun t => (some c.id, t.id))
              ++ (readChart none ms).nodes } := by
  induction cs with
  | nil => rfl
  | cons c cs ih =>
    have hend : stroke "    end".toList = .close := by decide
    rw [flatMap_cons, boxLines, map_append, map_append, map_cons, (begins_boxLine ..).stroke_eq,
      map_stroke_toolShape _ rfl, map_singleton, hend]
    simp only [cons_append, append_assoc, nil_append, readChart, readChart_nodes, ih]
    simp

theorem read_diagramLines :
    readChart none ((diagramLines w).map (stroke ·.toList)) = ⟨(containers w).map (·.id),
      definedNodes w, w.connections.map fun c => (c.origin, c.target)⟩ := by
  have hhead : stroke "graph LR".toList = .other := by decide
  have hedges : w.connections.map ((stroke ·.toList) ∘ connectionLine)
      = w.connections.map fun c => .edge c.origin c.target :=
    map_congr_left fun c _ => stroke_edge c.origin c.target _
  rw [diagramLines, map_append, map_append, map_cons, hhead, map_stroke_toolShape _ rfl, map_map,
    hedges, append_assoc, cons_append, readChart, readChart_boxes, readChart_nodes, readChart_edges]
  simp [definedNodes]

/-! ## Each tool -/

/-- The numbers that lie in containers, as often as they do. -/
def listed (w : Workflow) : List Int := (containers w).flatMap (·.members)

variable {w : Workflow} {t : Tool}

theorem countP_nodes :
    (ts.map fun t => (box, t.id)).countP (·.2 == id) = (ts.map (·.id)).count id := by
  rw [countP_map, count, countP_map]
  rfl

theorem count_members (ht : t ∈ w.tools) (box : Option Int) (ids : List Int) :
    ((ids.filterMap w.tool?).map fun m => (box, m.id)).countP (·.2 == t.id) = ids.count t.id := by
  rw [countP_nodes, map_id_filterMap_tool?,
    count_filter (p := fun id => (w.tool? id).isSome) (isSome_tool? ht)]

/-- The last of the containers with a number among its members. -/
def holder? (w : Workflow) (id : Int) : Option Int :=
  ((containers w).filter (·.members.contains id)).getLast?.map (·.id)

theorem lookup_boxMap (w : Workflow) (id : Int) : (boxMap w).lookup id = holder? w id := by
  have hlast := view_foldl (I := fun _ => True) (fun boxes : List (Int × Int) => boxes.lookup id)
    (fun boxes c _ => lookup_foldl_setField boxes c.members c.id id) (fun _ _ _ => trivial)
    (containers w) (s := []) trivial
  exact hlast.trans (Option.or_none ..)

theorem lookup_boxMap_eq_none {id : Int} : (boxMap w).lookup id = none ↔ id ∉ listed w := by
  rw [lookup_boxMap, holder?, Option.map_eq_none_iff, getLast?_eq_none_iff, filter_eq_nil_iff]
  simp [listed]

theorem mem_looseTools_iff (ht : t ∈ w.tools) (hcategory : t.category ≠ .container) :
    t.id ∈ (looseTools w).map (·.id) ↔ t.id ∉ listed w := by
  simp only [looseTools, mem_map, mem_filter, Bool.and_eq_true, bne_iff_ne,
    Option.isNone_iff_eq_none, lookup_boxMap_eq_none]
  constructor
  · rintro ⟨u, ⟨-, -, hu⟩, hid⟩
    exact hid ▸ hu
  · exact fun h => ⟨t, ⟨ht, hcategory, h⟩, rfl⟩

theorem count_looseTools (hids : w.Distinct) (ht : t ∈ w.tools)
    (hcategory : t.category ≠ .container) :
    ((looseTools w).map (·.id)).count t.id = if t.id ∈ listed w then 0 else 1 := by
  have hnodup : ((looseTools w).map (·.id)).Nodup := hids.sublist (filter_sublist.map _)
  rw [hnodup.count]
  simp only [mem_looseTools_iff ht hcategory, ite_not]

/-- A tool is defined as often as it lies in containers, and once if it lies in none. -/
theorem count_definedNodes (hids : w.Distinct) (ht : t ∈ w.tools)
    (hcategory : t.category ≠ .container) :
    (definedNodes w).countP (·.2 == t.id)
      = (listed w).count t.id + if t.id ∈ listed w then 0 else 1 := by
  rw [definedNodes, countP_append, countP_nodes, count_looseTools hids ht hcategory,
    countP_flatMap, listed, count_flatMap]
  congr 2
  exact map_congr_left fun c _ => count_members ht (some c.id) c.members

theorem mem_definedNodes_of_listed (ht : t ∈ w.tools) {c : Tool} (hc : c ∈ containers w)
    (hmem : t.id ∈ c.members) : (some c.id, t.id) ∈ definedNodes w := by
  obtain ⟨u, hu⟩ := Option.isSome_iff_exists.mp (isSome_tool? ht)
  refine mem_append_left _ (mem_flatMap.mpr ⟨c, hc, mem_map.mpr ⟨u, ?_, ?_⟩⟩)
  · exact mem_filterMap.mpr ⟨t.id, hmem, hu⟩
  · rw [id_of_tool? hu]

/-! ## The text of a diagram -/

/-- What the fronts of the lines of a diagram say. -/
def strokes (w : Workflow) : List Stroke := (rowsOf (diagram w)).map stroke

theorem rowsOf_diagram : rowsOf (diagram w) = (diagramLines w).flatMap rowsOf :=
  rowsOf_lines (cons_ne_nil _ _)

theorem mem_strokes {m : Stroke} (hline : line ∈ diagramLines w)
    (h : Begins m line) : m ∈ strokes w := by
  obtain ⟨row, hrow, hm⟩ := mem_map.mp h.mem
  rw [strokes, rowsOf_diagram]
  exact mem_map.mpr ⟨row, mem_flatMap.mpr ⟨line, hline, hrow⟩, hm⟩

theorem boxLines_subset {c : Tool} (hc : c ∈ containers w)
    (h : line ∈ boxLines w c) : line ∈ diagramLines w :=
  mem_append_left _ (mem_append_left _ (.tail _ (mem_flatMap.mpr ⟨c, hc, h⟩)))

theorem box_mem_strokes {c : Tool} (hc : c ∈ containers w) : .box c.id ∈ strokes w :=
  mem_strokes (boxLines_subset hc (mem_append_left _ (.head _))) (begins_boxLine ..)

theorem node_mem_strokes (ht : t ∈ w.tools) (hcategory : t.category ≠ .container) :
    .node t.id ∈ strokes w := by
  by_cases hlisted : t.id ∈ listed w
  · obtain ⟨c, hc, hmem⟩ := mem_flatMap.mp hlisted
    obtain ⟨u, hu⟩ := Option.isSome_iff_exists.mp (isSome_tool? ht)
    rw [← id_of_tool? hu]
    refine mem_strokes (boxLines_subset hc ?_) (begins_toolShape u "        " rfl)
    exact mem_append_left _ (mem_cons_of_mem _
      (mem_map.mpr ⟨u, mem_filterMap.mpr ⟨t.id, hmem, hu⟩, rfl⟩))
  · obtain ⟨u, hu, hid⟩ := mem_map.mp ((mem_looseTools_iff ht hcategory).mpr hlisted)
    rw [← hid]
    refine mem_strokes ?_ (begins_toolShape u "    " rfl)
    exact mem_append_left _ (mem_append_right _ (mem_map_of_mem hu))

theorem newline_notMem_toolShape {indent : String} (h : indent.toList.all (· == ' '))
    (ht : '\n' ∉ (toolLabel t).toList) : '\n' ∉ (indent ++ toolShape t).toList := by
  have hindent : '\n' ∉ indent.toList :=
    fun hbreak => absurd (all_eq_true.mp h _ hbreak) (by decide)
  unfold toolShape
  repeat' split
  all_goals simp [hindent, newline_notMem_repr, ht]

theorem newline_notMem_connectionLine {c : Connection} (h : '\n' ∉ c.originAnchor.toList) :
    '\n' ∉ (connectionLine c).toList := by
  unfold connectionLine
  split
  next => simp [newline_notMem_repr]
  next => simp [newline_notMem_repr, h]

/-- Where no label and no anchor has a line break, the lines are found again in the text. -/
theorem strokes_eq (hboxes : ∀ c ∈ containers w, '\n' ∉ (boxLabel c).toList)
    (htools : ∀ t ∈ w.tools, (t.category = .container → t.id ∈ listed w) →
      '\n' ∉ (toolLabel t).toList)
    (hanchors : ∀ c ∈ w.connections, '\n' ∉ c.originAnchor.toList) :
    strokes w = (diagramLines w).map (stroke ·.toList) := by
  have hbreak : ∀ line ∈ diagramLines w, '\n' ∉ line.toList := by
    intro line hline
    rcases mem_append.mp hline with hline | hline
    · rcases mem_append.mp hline with hline | hline
      · rcases mem_cons.mp hline with rfl | hline
        · decide
        · obtain ⟨c, hc, hline⟩ := mem_flatMap.mp hline
          rw [boxLines, mem_append, mem_cons, mem_singleton, mem_map] at hline
          rcases hline with (rfl | ⟨u, hu, rfl⟩) | rfl
          · simp [newline_notMem_repr, hboxes c hc]
          · obtain ⟨n, hn, hfound⟩ := mem_filterMap.mp hu
            refine newline_notMem_toolShape rfl (htools u (mem_of_find?_eq_some hfound) fun _ => ?_)
            exact mem_flatMap.mpr ⟨c, hc, id_of_tool? hfound ▸ hn⟩
          · decide
      · obtain ⟨u, hu, rfl⟩ := mem_map.mp hline
        have hu := mem_filter.mp hu
        refine newline_notMem_toolShape rfl (htools u hu.1 fun hcategory => ?_)
        simp [hcategory] at hu
    · obtain ⟨c, hc, rfl⟩ := mem_map.mp hline
      exact newline_notMem_connectionLine (hanchors c hc)
  rw [strokes, rowsOf_diagram, flatMap_congr fun line hline => rowsOf_of_notMem (hbreak line hline),
    ← map_eq_flatMap, map_map]
  rfl

/-- The chart that is read from a diagram. -/
def shownChart (w : Workflow) : Chart := readChart none (strokes w)

/-- A diagram opens a box for each container and defines every other tool. If no label that is shown
and no anchor has a line break, it has one box for each container and one line for each connection,
and a tool is defined once if it lies in one container at most, namely there or in no box. -/
theorem diagram_complete (w : Workflow) (hids : w.Distinct) :
    (∀ c ∈ containers w, .box c.id ∈ strokes w)
      ∧ (∀ t ∈ w.tools, t.category ≠ .container → .node t.id ∈ strokes w)
      ∧ ((∀ c ∈ containers w, '\n' ∉ (boxLabel c).toList) →
        (∀ t ∈ w.tools, (t.category = .container → t.id ∈ listed w) →
          '\n' ∉ (toolLabel t).toList) →
        (∀ c ∈ w.connections, '\n' ∉ c.originAnchor.toList) →
        (shownChart w).boxes = (containers w).map (·.id)
          ∧ (shownChart w).edges = w.connections.map (fun c => (c.origin, c.target))
          ∧ ∀ t ∈ w.tools, t.category ≠ .container →
            (∃ box, (box, t.id) ∈ (shownChart w).nodes)
              ∧ ((listed w).count t.id ≤ 1 →
                (shownChart w).nodes.countP (·.2 == t.id) = 1
                  ∧ (∀ c ∈ containers w, t.id ∈ c.members →
                    (some c.id, t.id) ∈ (shownChart w).nodes)
                  ∧ (t.id ∉ listed w → (none, t.id) ∈ (shownChart w).nodes))) := by
  refine ⟨fun c hc => box_mem_strokes hc, fun t ht hcategory => node_mem_strokes ht hcategory,
    fun hboxes htools hanchors => ?_⟩
  rw [shownChart, strokes_eq hboxes htools hanchors, read_diagramLines]
  refine ⟨rfl, rfl, fun t ht hcategory => ?_⟩
  have hcount := count_definedNodes hids ht hcategory
  have hpos : 0 < (definedNodes w).countP (·.2 == t.id) := by
    rw [hcount]
    split
    next hlisted => exact count_pos_iff.mpr hlisted
    next => exact Nat.succ_pos _
  refine ⟨?_, fun hone => ⟨?_, fun c hc hmem => mem_definedNodes_of_listed ht hc hmem,
    fun hlisted => ?_⟩⟩
  · obtain ⟨x, hx, hid⟩ := countP_pos_iff.mp hpos
    exact ⟨x.1, by rwa [← beq_iff_eq.mp hid]⟩
  · rw [hcount]
    split
    next hlisted => exact Nat.le_antisymm hone (count_pos_iff.mpr hlisted)
    next hlisted => rw [count_eq_zero.mpr hlisted]
  · obtain ⟨u, hu, hid⟩ := mem_map.mp ((mem_looseTools_iff ht hcategory).mpr hlisted)
    exact mem_append_right _ (mem_map.mpr ⟨u, hu, by rw [hid]⟩)

/-- A container with a tool, which is connected to one outside, and with a number of no tool. -/
def boxedTool : Workflow :=
  { metadata := { name := "w", path := "w.yxmd" }
    tools := [{ id := 1, name := "Tool Container", category := .container, members := [2, 9] },
      { id := 2, name := "Filter" }, { id := 3, name := "Sort" }]
    connections := [⟨2, "True", 3, "Input"⟩] }

theorem diagram_complete_boxedTool : boxedTool.Distinct ∧ (shownChart boxedTool).boxes = [1]
    ∧ (shownChart boxedTool).edges = [(2, 3)] ∧ (some 1, 2) ∈ (shownChart boxedTool).nodes
    ∧ (none, 3) ∈ (shownChart boxedTool).nodes := by
  have hids : boxedTool.Distinct := by decide
  obtain ⟨hboxes, hedges, htools⟩ :=
    (diagram_complete boxedTool hids).2.2 (by decide) (by decide) (by decide)
  refine ⟨hids, hboxes, hedges, ?_, ?_⟩
  · exact ((htools _ (.tail _ (.head _)) (by decide)).2 (by decide)).2.1 _ (.head _) (by decide)
  · exact ((htools _ (.tail _ (.tail _ (.head _))) (by decide)).2 (by decide)).2.2 (by decide)

end Replatform.Pages

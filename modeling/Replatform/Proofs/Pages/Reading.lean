import Mathlib.Data.List.Perm.Basic
import Replatform.Pages.TodoGuide
import Replatform.Proofs.Project.Listing
import Replatform.Proofs.Value
/-!
# How the guide reads

A developer reads the guide line by line: how many items there are, those of high priority with
their models, and under the title of each layer how many items it has and, model by model, which.
The reader knows a line by its front (`Mark`). No line begins with a text of an item, so what is
said here needs no assumption about these texts.

> `readGuide_guideLines`: a reader learns the number of all items, the items of high priority, and
> for each layer of the guide its count and its items.
-/

namespace Replatform.Pages

open List Project

variable {front : String}

/-! ## Readers -/

/-- A part of the guide that is read in its own way. -/
inductive Chapter
  | other
  | urgent
  | layers
deriving DecidableEq, Repr

/-- An item of high priority, as the guide shows it. -/
structure Mention where
  model : String
  description : String
deriving DecidableEq, Repr

/-- An item in the list of its model, under the title of its layer. -/
structure Entry where
  title : String
  model : String
  urgent : Bool
  description : String
deriving DecidableEq, Repr

structure Guide where
  totals : List String := []
  urgent : List Mention := []
  counts : List String := []
  entries : List Entry := []
deriving DecidableEq, Repr

instance : Append Guide where
  append g h :=
    ⟨g.totals ++ h.totals, g.urgent ++ h.urgent, g.counts ++ h.counts, g.entries ++ h.entries⟩

/-- Where a reader is, and what the reader knows so far. -/
structure Reader where
  chapter : Chapter := .other
  heading : String := ""
  model : String := ""
  guide : Guide := {}
deriving DecidableEq, Repr

variable {r : Reader}

theorem Guide.append_eq (g h : Guide) : g ++ h = ⟨g.totals ++ h.totals, g.urgent ++ h.urgent,
    g.counts ++ h.counts, g.entries ++ h.entries⟩ := rfl

def Reader.learn (r : Reader) (news : Guide) : Reader := { r with guide := r.guide ++ news }

/-- The front of a line, and what to do with the rest of the line. -/
abbrev Mark := String × (String → Reader → Reader)

/-- A heading without the number in front of it. -/
def unnumbered (heading : String) : String :=
  String.ofList ((heading.toList.dropWhile Char.isDigit).drop 2)

def leadingNumber (s : String) : String := String.ofList (s.toList.takeWhile Char.isDigit)

/-- A name without the mark at its end. -/
def unmarked (s : String) : String := String.ofList s.toList.dropLast

/-- An item in the list of the model that the reader is at. -/
def learnEntry (urgent : Bool) (description : String) (r : Reader) : Reader :=
  r.learn { entries := [⟨r.heading, r.model, urgent, description⟩] }

def chapterMarks : List Mark :=
  [("## High Priority Items", fun _ r => { r with chapter := .urgent }),
   ("## Layer-by-Layer Guide", fun _ r => { r with chapter := .layers }),
   ("## ", fun _ r => { r with chapter := .other })]

/-- The lines that tell something in a chapter. -/
def Chapter.marks : Chapter → List Mark
  | .other =>
    [("- **Total TODOs**: ", fun n r => r.learn { totals := [n] })]
  | .urgent =>
    [("### ", fun s r => { r with heading := unnumbered s }),
     ("- **Model**: `", fun s r => r.learn { urgent := [⟨unmarked s, r.heading⟩] })]
  | .layers =>
    [("### ", fun title r => { r with heading := title }),
     ("**", fun s r => r.learn { counts := [leadingNumber s] }),
     ("#### `", fun s r => { r with model := unmarked s }),
     ("- [!] ", learnEntry true),
     ("- [ ] ", learnEntry false)]

def behind? (front line : String) : Option String :=
  (Text.after? front.toList line.toList).map String.ofList

/-- Goes on with a line. A line without a mark tells nothing. -/
def Reader.read (r : Reader) (line : String) : Reader :=
  ((chapterMarks ++ r.chapter.marks).findSome? fun m =>
    (behind? m.1 line).map fun rest => m.2 rest r).getD r

def readGuide (lines : List String) : Guide := (lines.foldl Reader.read {}).guide

/-! ## Lines -/

theorem behind?_append (front rest : String) : behind? front (front ++ rest) = some rest := by
  rw [behind?, String.toList_append, after?_append, Option.map_some, String.ofList_toList]

theorem eq_append_of_after? : ∀ {pat s rest : List Char}, Text.after? pat s = some rest →
    s = pat ++ rest
  | [], _, _, h => by simpa [Text.after?] using h
  | _ :: _, [], _, h => by simp [Text.after?] at h
  | p :: pat, c :: s, rest, h => by
    rw [Text.after?] at h
    split at h
    next heq => rw [eq_append_of_after? h, heq, cons_append]
    next => cases h

theorem eq_append_of_behind? {line rest : String} (h : behind? front line = some rest) :
    line = front ++ rest := by
  obtain ⟨r, hr, rfl⟩ := Option.map_eq_some_iff.mp h
  rw [← String.ofList_toList (s := line), eq_append_of_after? hr, String.ofList_append,
    String.ofList_toList]

/-- The bytes of a text, which are computed faster than its characters. -/
def bytes (s : String) : List UInt8 := s.toByteArray.data.toList

theorem bytes_append (s t : String) : bytes (s ++ t) = bytes s ++ bytes t := by
  rw [bytes, String.toByteArray_append, ByteArray.data_append, Array.toList_append]
  rfl

/-- The lists differ where both go on. -/
def apart : List UInt8 → List UInt8 → Bool
  | a :: x, b :: y => a != b || apart x y
  | _, _ => false

theorem append_ne_of_apart : ∀ {x y : List UInt8} (u v : List UInt8), apart x y →
    x ++ u ≠ y ++ v
  | [], _, _, _, h => by simp [apart] at h
  | _ :: _, [], _, _, h => by simp [apart] at h
  | a :: x, b :: y, u, v, h => by
    intro heq
    obtain ⟨rfl, hrest⟩ := cons.inj heq
    rw [apart, bne_self_eq_false, Bool.false_or] at h
    exact append_ne_of_apart u v h hrest

theorem behind?_of_apart {pat : String} (h : apart (bytes front) (bytes pat))
    (rest : String) : behind? pat (front ++ rest) = none := by
  refine Option.eq_none_iff_forall_ne_some.mpr fun found hfound => ?_
  have heq := congrArg bytes (eq_append_of_behind? hfound)
  rw [bytes_append, bytes_append] at heq
  exact append_ne_of_apart _ _ h heq

theorem findSome?_of_apart {marks : List Mark}
    (h : (marks.all fun m => apart (bytes front) (bytes m.1))) (rest : String) (r : Reader) :
    marks.findSome? (fun m => (behind? m.1 (front ++ rest)).map fun rest => m.2 rest r) = none := by
  refine findSome?_eq_none_iff.mpr fun m hm => ?_
  rw [behind?_of_apart (all_eq_true.mp h m hm), Option.map_none]

/-- A line is read as a mark says, if it differs from the marks before. -/
theorem Reader.read_mark {c : Chapter} (hr : r.chapter = c) {act : String → Reader → Reader}
    (before after : List Mark) (hmarks : chapterMarks ++ c.marks = before ++ (front, act) :: after)
    (hbefore : (before.all fun m => apart (bytes front) (bytes m.1))) (rest : String) :
    r.read (front ++ rest) = act rest r := by
  rw [Reader.read, hr, hmarks, findSome?_append, findSome?_of_apart hbefore, Option.none_or,
    findSome?_cons, behind?_append, Option.map_some, Option.getD_some]

namespace Chapter

variable {c : Chapter}

/-- The line tells nothing in the chapter. -/
def Ignores (c : Chapter) (line : String) : Prop := ∀ r : Reader, r.chapter = c → r.read line = r

/-- The front differs from all marks of the chapter. -/
def isPlain (c : Chapter) (front : String) : Bool :=
  (chapterMarks ++ c.marks).all fun m => apart (bytes front) (bytes m.1)

theorem ignores_front (h : c.isPlain front) (rest : String) : c.Ignores (front ++ rest) := by
  intro r hr
  rw [Reader.read, hr, findSome?_of_apart h, Option.getD_none]

theorem ignores_empty : c.Ignores "" := by
  rintro ⟨chapter, heading, model, guide⟩ rfl
  cases chapter <;> rfl

theorem ignores_of_isPlain {line : String} (h : c.isPlain line) : c.Ignores line := by
  have hignores := ignores_front h ""
  rwa [String.append_empty] at hignores

theorem ignores_of_all {lines : List String}
    (h : (lines.all fun line => line == "" || c.isPlain line)) :
    ∀ line ∈ lines, c.Ignores line := by
  intro line hline
  rcases Bool.or_eq_true _ _ ▸ all_eq_true.mp h line hline with hempty | hplain
  · rw [beq_iff_eq.mp hempty]
    exact ignores_empty
  · exact ignores_of_isPlain hplain

theorem foldl_ignored {lines : List String} (h : ∀ line ∈ lines, c.Ignores line)
    (hr : r.chapter = c) : lines.foldl Reader.read r = r := by
  induction lines with
  | nil => rfl
  | cons line lines ih =>
    rw [foldl_cons, h line (.head _) r hr]
    exact ih (forall_mem_cons.mp h).2

end Chapter

/-! ## Numbers and names in a line -/

theorem isDigit_of_mem_toString {n : Nat} {c : Char} (h : c ∈ (toString n).toList) :
    c.isDigit :=
  Nat.isDigit_of_mem_toDigits (b := 10) (by decide) (by decide)
    (by simpa [toString, Nat.repr] using h)

variable (todos : List Todo) (n : Nat) (rest : String)

theorem unnumbered_append (s : String) : unnumbered (toString n ++ (". " ++ s)) = s := by
  rw [unnumbered, String.toList_append, String.toList_append,
    dropWhile_append_of_pos fun c hc => isDigit_of_mem_toString hc]
  exact String.ofList_toList

theorem leadingNumber_append :
    leadingNumber (toString n ++ " items to complete:**") = toString n := by
  rw [leadingNumber, String.toList_append,
    takeWhile_append_of_pos fun c hc => isDigit_of_mem_toString hc]
  rw [show (" items to complete:**".toList).takeWhile Char.isDigit = [] by decide, append_nil,
    String.ofList_toList]

theorem unmarked_append (s : String) : unmarked (s ++ "`") = s := by
  rw [unmarked, String.toList_append, show "`".toList = ['\x60'] by decide, dropLast_concat,
    String.ofList_toList]

/-! ## The chapters of the guide -/

def urgentItems (todos : List Todo) : List Todo := todos.filter (·.priority == "high")

/-- The item as the chapter of the items of high priority shows it. -/
def mention (t : Todo) : Mention := ⟨t.model, t.description⟩

/-- The item as the list of a model shows it. -/
def entryUnder (title : String) (t : Todo) : Entry :=
  ⟨title, t.model, t.priority == "high", t.description⟩

theorem foldl_urgentLines (hr : r.chapter = .urgent) (n : Nat) (t : Todo) :
    (urgentLines n t).foldl Reader.read r
      = { r with heading := t.description }.learn { urgent := [mention t] } := by
  have hheading : r.read ("### " ++ toString n ++ ". " ++ t.description)
      = { r with heading := t.description } := by
    rw [String.append_assoc, String.append_assoc,
      Reader.read_mark hr chapterMarks _ rfl (by decide), unnumbered_append]
  have hmodel : ∀ r : Reader, r.chapter = .urgent →
      r.read ("- **Model**: `" ++ t.model ++ "`")
        = r.learn { urgent := [⟨t.model, r.heading⟩] } := by
    intro r hr
    rw [String.append_assoc,
      Reader.read_mark hr (chapterMarks ++ [Chapter.urgent.marks[0]]) _ rfl (by decide),
      unmarked_append]
  have hfile : Chapter.urgent.Ignores ("- **File**: `" ++ t.file ++ "`") := by
    rw [String.append_assoc]
    exact Chapter.ignores_front (by decide) _
  have hrest : ∀ line ∈ ["- **Layer**: " ++ t.layer, "- **Type**: " ++ t.kind]
      ++ (if t.context.isEmpty then [] else ["- **Context**: " ++ t.context]) ++ [""],
      Chapter.urgent.Ignores line := by
    intro line hline
    simp only [mem_append, mem_cons, not_mem_nil, or_false] at hline
    rcases hline with ((rfl | rfl) | hcontext) | rfl
    · exact Chapter.ignores_front (by decide) _
    · exact Chapter.ignores_front (by decide) _
    · split at hcontext
      · cases hcontext
      · rw [mem_singleton.mp hcontext]
        exact Chapter.ignores_front (by decide) _
    · exact Chapter.ignores_empty
  -- the heading is read first and goes with the model, which is read after it
  let named : Reader := { r with heading := t.description }
  have hlines : urgentLines n t = ("### " ++ toString n ++ ". " ++ t.description) :: "" ::
      ("- **File**: `" ++ t.file ++ "`") :: ("- **Model**: `" ++ t.model ++ "`") ::
      (["- **Layer**: " ++ t.layer, "- **Type**: " ++ t.kind]
        ++ (if t.context.isEmpty then [] else ["- **Context**: " ++ t.context]) ++ [""]) := rfl
  rw [hlines, foldl_cons, hheading, foldl_cons, Chapter.ignores_empty named hr,
    foldl_cons, hfile named hr, foldl_cons, hmodel named hr]
  exact Chapter.foldl_ignored hrest hr

theorem foldl_urgentItems (hr : r.chapter = .urgent) (us : List Todo) (n : Nat) :
    ∃ heading, ((us.zipIdx n).flatMap fun x => urgentLines (x.2 + 1) x.1).foldl Reader.read r
      = { r with heading }.learn { urgent := us.map mention } := by
  induction us generalizing r n with
  | nil => exact ⟨r.heading, by simp [Reader.learn, Guide.append_eq]⟩
  | cons t us ih =>
    let known : Reader := { r with heading := t.description }.learn { urgent := [mention t] }
    obtain ⟨heading, hrest⟩ := ih (r := known) hr (n + 1)
    refine ⟨heading, ?_⟩
    rw [zipIdx_cons, flatMap_cons, foldl_append, foldl_urgentLines hr, hrest]
    simp [known, Reader.learn, Guide.append_eq]

/-- The items of high priority are read in their order. -/
theorem foldl_urgentSection (hr : r.chapter = .other) (todos : List Todo) :
    ∃ chapter heading, (urgentSection todos).foldl Reader.read r
      = { r with chapter, heading }.learn { urgent := (urgentItems todos).map mention } := by
  unfold urgentSection
  dsimp only
  split
  next hempty =>
    rw [urgentItems, isEmpty_iff.mp hempty]
    exact ⟨r.chapter, r.heading, by simp [Reader.learn, Guide.append_eq]⟩
  next =>
    have hfirst : r.read "## High Priority Items" = { r with chapter := .urgent } :=
      Reader.read_mark hr [] _ rfl rfl ""
    have hplain : ∀ line ∈ ["",
        "These items should be addressed first as they may cause errors or incorrect results.",
        ""], Chapter.urgent.Ignores line := Chapter.ignores_of_all (by decide +kernel)
    obtain ⟨heading, hitems⟩ :=
      foldl_urgentItems (r := { r with chapter := .urgent }) rfl (urgentItems todos) 0
    refine ⟨.urgent, heading, ?_⟩
    rw [foldl_append, foldl_cons, hfirst, Chapter.foldl_ignored hplain rfl]
    exact hitems

/-! ### Items by model -/

section

variable {α : Type} {key : α → String}

/-- An item that is put behind those of its key is one more. -/
theorem flatMap_setField_perm (groups : List (String × List α)) (k : String) (x : α) :
    ((setField groups k ((groups.lookup k).getD [] ++ [x])).flatMap (·.2)).Perm
      (groups.flatMap (·.2) ++ [x]) := by
  induction groups with
  | nil => exact .refl _
  | cons g groups ih =>
    obtain ⟨j, ys⟩ := g
    rw [setField]
    by_cases hj : j = k
    · -- the group with the key comes first, so the item moves behind the other groups
      rw [if_pos hj, hj, lookup_cons_self, Option.getD_some, flatMap_cons,
        flatMap_cons, append_assoc, append_assoc]
      exact perm_append_comm.append_left ys
    · rw [if_neg hj, lookup_cons_of_ne (Ne.symm hj), flatMap_cons, flatMap_cons, append_assoc]
      exact ih.append_left ys

theorem foldl_groups_perm (items : List α) (groups : List (String × List α)) :
    ((items.foldl (fun groups x =>
      setField groups (key x) ((groups.lookup (key x)).getD [] ++ [x])) groups).flatMap (·.2)).Perm
      (groups.flatMap (·.2) ++ items) := by
  induction items generalizing groups with
  | nil => rw [foldl_nil, append_nil]
  | cons x items ih =>
    have hstep := (flatMap_setField_perm groups (key x) x).append_right items
    rw [append_assoc, singleton_append] at hstep
    exact (ih _).trans hstep

theorem key_of_mem_foldl_groups {items : List α} {groups : List (String × List α)}
    (h : ∀ g ∈ groups, ∀ x ∈ g.2, key x = g.1) :
    ∀ g ∈ items.foldl (fun groups x =>
      setField groups (key x) ((groups.lookup (key x)).getD [] ++ [x])) groups,
      ∀ x ∈ g.2, key x = g.1 := by
  induction items generalizing groups with
  | nil => exact h
  | cons y items ih =>
    refine ih fun g hg x hx => ?_
    rcases mem_of_mem_setField hg with rfl | hg
    · rcases mem_append.mp hx with hx | hx
      · cases hlookup : groups.lookup (key y) with
        | none =>
          rw [hlookup] at hx
          exact absurd hx not_mem_nil
        | some ys =>
          rw [hlookup] at hx
          exact h _ (mem_of_lookup hlookup) x hx
      · rw [mem_singleton.mp hx]
    · exact h g hg x hx

theorem flatMap_groupBy_perm (items : List α) :
    ((groupBy key items).flatMap (·.2)).Perm items := foldl_groups_perm items []

theorem key_of_mem_groupBy {items : List α} {g : String × List α} (hg : g ∈ groupBy key items)
    {x : α} (hx : x ∈ g.2) : key x = g.1 :=
  key_of_mem_foldl_groups (forall_mem_nil _) g hg x hx

end

def itemsIn (todos : List Todo) (layer : String) : List Todo := todos.filter (·.layer == layer)

def sectionItems (todos : List Todo) (layer : String) : List Todo :=
  (byName (groupBy (·.model) (itemsIn todos layer))).flatMap Prod.snd

def sectionCounts (todos : List Todo) (layer : String) : List Nat :=
  if (itemsIn todos layer).isEmpty then [] else [(itemsIn todos layer).length]

theorem sectionItems_perm (layer : String) :
    (sectionItems todos layer).Perm (itemsIn todos layer) :=
  ((byName_perm _).flatMap_right _).trans (flatMap_groupBy_perm _)

/-! ### The layers -/

section Layers

variable (hr : r.chapter = .layers)
include hr

theorem foldl_itemLines (t : Todo) :
    (itemLines t).foldl Reader.read r
      = r.learn { entries := [⟨r.heading, r.model, t.priority == "high", t.description⟩] } := by
  have hcontext : ∀ line ∈ (if t.context.isEmpty then [] else ["  - Context: " ++ t.context]),
      Chapter.layers.Ignores line := by
    intro line hline
    split at hline
    · cases hline
    · rw [mem_singleton.mp hline]
      exact Chapter.ignores_front (by decide) _
  have hitem : r.read ("- " ++ (if t.priority = "high" then "[!]" else "[ ]") ++ " "
      ++ t.description) = learnEntry (t.priority == "high") t.description r := by
    by_cases hpriority : t.priority = "high"
    · rw [if_pos hpriority, beq_iff_eq.mpr hpriority]
      exact Reader.read_mark hr (chapterMarks ++ Chapter.layers.marks.take 3) _ rfl (by decide) _
    · rw [if_neg hpriority, beq_eq_false_iff_ne.mpr hpriority]
      exact Reader.read_mark hr (chapterMarks ++ Chapter.layers.marks.take 4) _ rfl (by decide) _
  rw [itemLines, foldl_cons, hitem]
  exact Chapter.foldl_ignored hcontext hr

theorem foldl_items (ts : List Todo) (hmodel : ∀ t ∈ ts, t.model = r.model) :
    (ts.flatMap itemLines).foldl Reader.read r
      = r.learn { entries := ts.map (entryUnder r.heading) } := by
  induction ts generalizing r with
  | nil => simp [Reader.learn, Guide.append_eq]
  | cons t ts ih =>
    obtain ⟨hfirst, hothers⟩ := forall_mem_cons.mp hmodel
    let known : Reader :=
      r.learn { entries := [⟨r.heading, r.model, t.priority == "high", t.description⟩] }
    rw [flatMap_cons, foldl_append, foldl_itemLines hr, ih (r := known) hr hothers]
    simp [known, Reader.learn, Guide.append_eq, entryUnder, hfirst]

/-- The items of a model are read under its name. -/
theorem foldl_modelLines {model : String} {ts : List Todo} (hmodel : ∀ t ∈ ts, t.model = model) :
    (modelLines model ts).foldl Reader.read r
      = { r with model }.learn { entries := ts.map (entryUnder r.heading) } := by
  have hname : r.read ("#### `" ++ model ++ "`") = { r with model } := by
    rw [String.append_assoc,
      Reader.read_mark hr (chapterMarks ++ Chapter.layers.marks.take 2) _ rfl (by decide),
      unmarked_append]
  have hfile : ∀ line ∈ ["File: `" ++ ((ts.head?.map (·.file)).getD "") ++ "`", ""],
      Chapter.layers.Ignores line := by
    intro line hline
    simp only [mem_cons, not_mem_nil, or_false] at hline
    rcases hline with rfl | rfl
    · rw [String.append_assoc]
      exact Chapter.ignores_front (by decide) _
    · exact Chapter.ignores_empty
  have hhead : ["#### `" ++ model ++ "`", "File: `" ++ ((ts.head?.map (·.file)).getD "") ++ "`",
      ""].foldl Reader.read r = { r with model } := by
    rw [foldl_cons, hname]
    exact Chapter.foldl_ignored hfile hr
  rw [modelLines, foldl_append, foldl_append, hhead,
    foldl_items (r := { r with model }) hr ts hmodel]
  exact Chapter.ignores_empty _ hr

theorem foldl_groups {groups : List (String × List Todo)}
    (hkey : ∀ g ∈ groups, ∀ t ∈ g.2, t.model = g.1) :
    ∃ model, (groups.flatMap fun g => modelLines g.1 g.2).foldl Reader.read r
      = { r with model }.learn
        { entries := (groups.flatMap Prod.snd).map (entryUnder r.heading) } := by
  induction groups generalizing r with
  | nil => exact ⟨r.model, by simp [Reader.learn, Guide.append_eq]⟩
  | cons g groups ih =>
    obtain ⟨hfirst, hothers⟩ := forall_mem_cons.mp hkey
    let known : Reader :=
      { r with model := g.1 }.learn { entries := g.2.map (entryUnder r.heading) }
    obtain ⟨model, hrest⟩ := ih (r := known) hr hothers
    refine ⟨model, ?_⟩
    rw [flatMap_cons, foldl_append, foldl_modelLines hr hfirst, hrest]
    simp [known, Reader.learn, Guide.append_eq]

/-- A layer is read under its title, with its count and its items. -/
theorem foldl_guideSection (todos : List Todo) (layer title : String) :
    ∃ heading model, (guideSection todos layer title).foldl Reader.read r
      = { r with heading, model }.learn
        { counts := (sectionCounts todos layer).map toString
          entries := (sectionItems todos layer).map (entryUnder title) } := by
  unfold guideSection
  dsimp only
  split
  next hempty =>
    have hnone : itemsIn todos layer = [] := isEmpty_iff.mp hempty
    refine ⟨r.heading, r.model, ?_⟩
    simp [sectionCounts, sectionItems, hnone, Reader.learn, Guide.append_eq, groupBy, byName]
  next hfilled =>
    have hcounts : sectionCounts todos layer = [(itemsIn todos layer).length] := if_neg hfilled
    let titled : Reader := { r with heading := title }
    let counted : Reader := titled.learn { counts := [toString (itemsIn todos layer).length] }
    have htitle : r.read ("### " ++ title) = titled :=
      Reader.read_mark hr chapterMarks _ rfl (by decide) title
    have hcount : titled.read
        ("**" ++ toString (itemsIn todos layer).length ++ " items to complete:**") = counted := by
      have hread := Reader.read_mark (r := titled) hr
        (chapterMarks ++ Chapter.layers.marks.take 1) _ rfl (by decide)
      rw [String.append_assoc, hread, leadingNumber_append]
    have hhead : ["### " ++ title, "",
        "**" ++ toString (itemsIn todos layer).length ++ " items to complete:**", ""].foldl
          Reader.read r = counted := by
      rw [foldl_cons, htitle, foldl_cons, Chapter.ignores_empty titled hr, foldl_cons, hcount]
      exact Chapter.ignores_empty counted hr
    have hkey : ∀ g ∈ byName (groupBy Todo.model (itemsIn todos layer)),
        ∀ t ∈ g.2, t.model = g.1 :=
      fun g hg t ht => key_of_mem_groupBy ((byName_perm _).mem_iff.mp hg) ht
    obtain ⟨model, hgroups⟩ := foldl_groups (r := counted) hr hkey
    refine ⟨title, model, ?_⟩
    rw [hcounts, foldl_append, ← itemsIn, hhead]
    refine hgroups.trans ?_
    simp [counted, titled, Reader.learn, Guide.append_eq, sectionItems]

/-- What the guide tells of some layers, which are given with their titles. -/
def layersNews (todos : List Todo) (layers : List (String × String)) : Guide :=
  { counts := (layers.flatMap fun x => sectionCounts todos x.1).map toString
    entries := layers.flatMap fun x => (sectionItems todos x.1).map (entryUnder x.2) }

/-- The layers are read one after the other. -/
theorem foldl_guideSections (todos : List Todo) (layers : List (String × String)) :
    ∃ heading model, (layers.flatMap fun x => guideSection todos x.1 x.2).foldl Reader.read r
      = { r with heading, model }.learn (layersNews todos layers) := by
  induction layers generalizing r with
  | nil => exact ⟨r.heading, r.model, by simp [Reader.learn, Guide.append_eq, layersNews]⟩
  | cons x layers ih =>
    obtain ⟨heading, model, hfirst⟩ := foldl_guideSection hr todos x.1 x.2
    obtain ⟨heading', model', hrest⟩ := ih (r := (guideSection todos x.1 x.2).foldl Reader.read r)
      (by rw [hfirst]; exact hr)
    refine ⟨heading', model', ?_⟩
    rw [flatMap_cons, foldl_append, hrest, hfirst]
    simp [Reader.learn, Guide.append_eq, layersNews]

/-- The advice at the end tells nothing of items. -/
theorem foldl_advice : (advice.foldl Reader.read r).guide = r.guide := by
  obtain ⟨chapter, heading, model, guide⟩ := r
  obtain rfl : chapter = .layers := hr
  have hchapter : Reader.read ⟨.layers, heading, model, guide⟩ "## How to Complete TODOs"
      = ⟨.other, heading, model, guide⟩ := rfl
  have hrest : ∀ line ∈ advice.tail, Chapter.other.Ignores line :=
    Chapter.ignores_of_all (by decide +kernel)
  have hadvice : advice = "## How to Complete TODOs" :: advice.tail := rfl
  rw [hadvice, foldl_cons, hchapter, Chapter.foldl_ignored hrest rfl]

end Layers

/-! ## The whole guide -/

theorem ignores_trackerLines : ∀ line ∈ trackerLines todos, Chapter.other.Ignores line := by
  have hchapter : Chapter.other.Ignores "## Progress Tracker" := by
    rintro ⟨chapter, heading, model, guide⟩ rfl
    rfl
  have hfixed : ∀ line ∈ ["", "Use this checklist to track your progress:", "",
      "| Type | Count | Description |", "|------|-------|-------------|"],
      Chapter.other.Ignores line := Chapter.ignores_of_all (by decide +kernel)
  have hrows : ∀ line ∈ (byName (countKinds todos)).map (fun x =>
      "| " ++ x.1 ++ " | " ++ toString x.2 ++ " | " ++ kindDescription x.1 ++ " |"),
      Chapter.other.Ignores line := by
    intro line hline
    obtain ⟨x, -, rfl⟩ := mem_map.mp hline
    simp only [String.append_assoc]
    exact Chapter.ignores_front (by decide) _
  intro line hline
  rcases mem_append.mp hline with hline | hline
  · -- the three lines with counts have marks of no chapter at their fronts
    iterate 3
      rcases mem_cons.mp hline with rfl | hline
      · exact Chapter.ignores_front (by decide) _
    rcases mem_cons.mp hline with rfl | hline
    · exact Chapter.ignores_empty
    rcases mem_cons.mp hline with rfl | hline
    · exact hchapter
    · exact hfixed line hline
  · rcases mem_append.mp hline with hline | hline
    · exact hrows line hline
    · rw [mem_singleton.mp hline]
      exact Chapter.ignores_empty

/-- The first lines tell how many items there are. -/
theorem foldl_guideSummary : (guideSummary todos).foldl Reader.read {}
      = Reader.learn {} { totals := [toString todos.length] } := by
  have hopening : ∀ line ∈ openingLines, Chapter.other.Ignores line :=
    Chapter.ignores_of_all (by decide +kernel)
  have hchapter : Reader.read {} "## Summary" = {} := rfl
  have htotal : Reader.read {} ("- **Total TODOs**: " ++ toString todos.length)
      = Reader.learn {} { totals := [toString todos.length] } := by
    rw [Reader.read_mark (c := .other) rfl chapterMarks [] rfl (by decide)]
  rw [guideSummary, foldl_append, Chapter.foldl_ignored hopening rfl, foldl_cons, hchapter,
    foldl_cons, Chapter.ignores_empty {} rfl, foldl_cons, htotal]
  exact Chapter.foldl_ignored (ignores_trackerLines todos) rfl

theorem readGuide_guideLines : readGuide (guideLines todos)
      = { totals := [toString todos.length], urgent := (urgentItems todos).map mention }
        ++ layersNews todos guideLayers := by
  obtain ⟨chapter, heading, hurgent⟩ := foldl_urgentSection
    (r := Reader.learn {} { totals := [toString todos.length] }) rfl todos
  let before : Reader := { chapter, heading, guide := {
    totals := [toString todos.length], urgent := (urgentItems todos).map mention } }
  let between : Reader := { before with chapter := .layers }
  have hbegin : before.read "## Layer-by-Layer Guide" = between :=
    Reader.read_mark rfl [chapterMarks[0]] _ rfl (by decide) ""
  have hplain : ∀ line ∈ layerLines, Chapter.layers.Ignores line :=
    Chapter.ignores_of_all (by decide +kernel)
  obtain ⟨heading', model, hsections⟩ := foldl_guideSections (r := between) rfl todos guideLayers
  have hlines : guideLines todos = guideSummary todos ++ (urgentSection todos
      ++ ("## Layer-by-Layer Guide" :: (layerLines
        ++ (guideLayers.flatMap (fun x => guideSection todos x.1 x.2) ++ advice)))) := by
    simp [guideLines]
  have hurgent : (urgentSection todos).foldl Reader.read
      (Reader.learn {} { totals := [toString todos.length] }) = before := hurgent
  -- each part of the guide leaves the reader in the chapter that the next part is read in
  rw [readGuide, hlines, foldl_append, foldl_guideSummary, foldl_append, hurgent, foldl_cons,
    hbegin, foldl_append, Chapter.foldl_ignored hplain rfl, foldl_append, hsections]
  exact foldl_advice rfl

end Replatform.Pages

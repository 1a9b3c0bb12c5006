import Replatform.Proofs.Project.Combined
import Replatform.Proofs.Project.Exposure
import Replatform.Proofs.Project.Tour
/-!
# Texts of converted macros

A converted macro is a query: a block `source` reads what the macro is given, a block for each step
follows, and all columns of the block `final` are selected. The last step has that name, so it is
missing where a macro has no steps (`macroText_final_iff`).
-/

namespace Replatform.Project

open List Stateful

open Text (lines)

/-- Each definition reads from the one before it, the first from a block with the name. -/
def InRow : String → List Definition → Prop
  | _, [] => True
  | previous, d :: ds => d.supply = .block previous ∧ InRow d.name ds

/-- A block of a macro: neither a word before it nor a comma behind it belongs to it. -/
def macroDefinition (source name : String) (front back : List String) : Definition :=
  { opens := false, name, front, supply := .block source, back, comma := false }

theorem block_eq_lines (source name : String) (front back : List String) :
    block name (front ++ ("    from " ++ source) :: back) ")"
      = lines (macroDefinition source name front back).lines := by
  simp [block, macroDefinition, Definition.lines, Definition.opening, Definition.inner,
    Definition.closing, Supply.text]

namespace Work

/-- Whatever a tool does, a line of its block says what the block reads. -/
theorem gives_stepBlock (style : BlockStyle) (t : Tool) (source name : String) :
    Gives (stepBlock style t source name) fun text => ∃ front back,
      text = block name (front ++ ("    from " ++ source) :: back) style.closing := by
  have hstandard : ∃ front back,
      block name (openComment t :: style.selection ++ ["    from " ++ source]) style.closing
        = block name (front ++ ("    from " ++ source) :: back) style.closing :=
    ⟨openComment t :: style.selection, [], rfl⟩
  unfold stepBlock
  dsimp only
  split
  next =>
    exact gives_bind (gives_true _) fun sql _ => gives_pure
      ⟨toolComment t :: style.selection, ["    where " ++ sql], rfl⟩
  iterate 2
    next =>
      split
      next => exact gives_pure hstandard
      next =>
        exact gives_bind (gives_true _) fun columns _ => gives_pure
          ⟨[toolComment t, "    select", spreadColumns (style.columns ++ columns)], [], rfl⟩
  next =>
    split
    next => exact gives_pure hstandard
    next =>
      exact gives_bind (gives_true _) fun fields _ => gives_pure
        ⟨[toolComment t, "    select", "        " ++ fields], [], rfl⟩
  next =>
    split
    next => exact gives_pure hstandard
    next =>
      exact gives_bind (gives_true _) fun order _ => gives_bind (gives_true _) fun _ _ => gives_pure
        ⟨orderComments t order ++ style.selection, [], rfl⟩
  next => exact gives_pure hstandard

theorem gives_macroBlock (t : Tool) (source name : String) :
    Gives (macroBlock t source name) fun text => ∃ front back,
      text = lines (macroDefinition source name front back).lines := by
  simp only [← block_eq_lines]
  unfold macroBlock
  split
  next =>
    exact gives_pure ⟨[toolComment t, "    select", _], ["    group by " ++ groupClause t], rfl⟩
  next => exact gives_stepBlock _ t source name

/-- The blocks of a macro are definitions that follow each other, with the names of their places. -/
theorem gives_macroBlocks (count : Nat) (tools : List Tool) : ∀ (i : Nat) (previous : String),
    Gives (stepBlocks macroBlock count i previous tools) fun texts => ∃ ds : List Definition,
      texts = ds.map (fun d => lines d.lines)
        ∧ ds.map (·.name) = (range' i tools.length).map (blockName count)
        ∧ InRow previous ds := by
  induction tools with
  | nil => exact fun _ _ => gives_pure ⟨[], rfl, rfl, trivial⟩
  | cons t ts ih =>
    intro i previous
    unfold stepBlocks
    refine gives_bind (gives_macroBlock t _ _) fun text htext => ?_
    refine gives_bind (ih _ _) fun texts htexts => gives_pure ?_
    obtain ⟨front, back, rfl⟩ := htext
    obtain ⟨ds, rfl, hnames, hchained⟩ := htexts
    refine ⟨macroDefinition previous (blockName count i) front back :: ds, rfl, ?_, rfl, hchained⟩
    rw [map_cons, hnames]
    rfl

theorem exists_macroBlock_iff (t : Tool) (source name : String) (b : Build) :
    (∃ text, result (macroBlock t source name) b = .ok text) ↔ Legible t := by
  unfold macroBlock
  split
  next hname =>
    refine iff_of_true ⟨_, rfl⟩ ?_
    rw [Legible, hname]
    trivial
  next => exact exists_stepBlock_iff ..

end Work

theorem orderedTools_eq_nil {w : Workflow} {ts : List Tool} : orderedTools w ts = [] ↔ ts = [] := by
  cases ts with
  | nil => exact iff_of_true rfl rfl
  | cons t ts =>
    have hfirst : t ∈ orderedTools w (t :: ts) :=
      (subset_orderedTools (nil_append _).symm).2 not_mem_nil
    exact iff_of_false (ne_nil_of_mem hfirst) (cons_ne_nil t ts)

/-- The last of the blocks is the one that is selected from. -/
theorem final_mem_blockNames {count : Nat} :
    "final" ∈ (range count).map (Work.blockName count) ↔ count ≠ 0 := by
  constructor
  · rintro h rfl
    exact not_mem_nil h
  · intro hne
    refine mem_map.mpr ⟨count - 1, mem_range.mpr (by omega), ?_⟩
    exact if_neg (by omega)

/-- A converted macro can be written unless a detail of a step cannot be read. Behind the block
`source`, its text has a block for each step, under different names, and each reads from the one
before it. What is selected in the end is defined if and only if the macro has a step. -/
theorem macroText_final_iff {info : MacroInfo} {w : Workflow} (hw : info.workflow = some w)
    (name : String) (b : Build) :
    let parts := macroParts w
    let tools := orderedTools w parts.tools
    ((∃ text, result (Work.macroText info name) b = .ok text) ↔ ∀ t ∈ tools, Legible t)
      ∧ ∀ text, result (Work.macroText info name) b = .ok text → ∃ ds : List Definition,
        text = lines (macroHead info w name
          ++ [String.intercalate ",\n\n"
              (("with source as (\n    select * from " ++ Catalog.jinja parts.source ++ "\n)")
                :: ds.map fun d => lines d.lines),
            "", "select * from final", "", macroClosing]
          ++ outputMacros parts name)
        ∧ ds.map (·.name) = (range tools.length).map (Work.blockName tools.length)
        ∧ ("source" :: ds.map (·.name)).Nodup
        ∧ InRow "source" ds
        ∧ ("final" ∈ "source" :: ds.map (·.name) ↔ ∃ t ∈ w.tools, isMacroStep t) := by
  intro parts tools
  unfold Work.macroText
  rw [hw]
  dsimp only
  constructor
  · rw [← Work.exists_stepBlocks_iff tools.length (fun t _ => Work.exists_macroBlock_iff t) 0
      "source" b]
    constructor
    · intro h
      obtain ⟨text, h⟩ := h
      obtain ⟨blocks, hblocks, -⟩ := bind_ok h
      exact ⟨blocks, hblocks⟩
    · intro h
      obtain ⟨blocks, hblocks⟩ := h
      exact ⟨_, result_bind_of_ok hblocks⟩
  · intro text h
    obtain ⟨blocks, hblocks, htext, -⟩ := bind_ok h
    obtain ⟨ds, rfl, hnames, hchained⟩ := Work.gives_macroBlocks _ tools 0 "source" b blocks hblocks
    rw [← range_eq_range'] at hnames
    refine ⟨ds, (Except.ok.inj htext).symm, hnames, ?_, hchained, ?_⟩
    · rw [hnames]
      exact nodup_names 1 tools.length
    · rw [hnames, mem_cons, or_iff_right (by decide), final_mem_blockNames, Ne,
        length_eq_zero_iff, orderedTools_eq_nil]
      show ¬ w.tools.filter isMacroStep = [] ↔ _
      simp

/-- The workflow of a macro that hands on what it is given. -/
def handedOn : Workflow :=
  { metadata := { name := "m", path := "m.yxmc" }
    tools := [{ id := 1, name := "Macro Input" }, { id := 2, name := "Macro Output" }]
    connections := [⟨1, "Output", 2, "Input"⟩] }

/-- The macro is written, and it selects from a block that is not there. -/
theorem macroText_final_handedOn :
    let info : MacroInfo := { name := "m.yxmc", path := "m.yxmc", workflow := some handedOn }
    info.workflow = some handedOn ∧ ∃ text, result (Work.macroText info "m") unasked = .ok text
      ∧ ∃ ds : List Definition, "final" ∉ "source" :: ds.map (·.name) ∧ text = lines
        (macroHead info handedOn "m" ++ [String.intercalate ",\n\n"
          (("with source as (\n    select * from " ++ Catalog.jinja (macroParts handedOn).source
              ++ "\n)") :: ds.map fun d => lines d.lines),
          "", "select * from final", "", macroClosing]
          ++ outputMacros (macroParts handedOn) "m") := by
  intro info
  have hnone : orderedTools handedOn (macroParts handedOn).tools = [] := by decide
  obtain ⟨hwrites, hreads⟩ := macroText_final_iff (rfl : info.workflow = some handedOn) "m" unasked
  obtain ⟨text, hwritten⟩ := hwrites.mpr (by simp [hnone])
  obtain ⟨ds, htext, -, -, -, hfinal⟩ := hreads text hwritten
  exact ⟨rfl, text, hwritten, ds, fun h => absurd (hfinal.mp h) (by decide), htext⟩

end Replatform.Project

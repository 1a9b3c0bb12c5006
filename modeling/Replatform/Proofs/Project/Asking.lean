import Replatform.Proofs.Project.Chain
import Replatform.Proofs.Project.Columns
import Replatform.Proofs.Project.Plan
/-!
# Columns of sources

The columns that leave a source are those that it mentions. They are kept under the number of its
tool, so this is what is kept as long as no other tool of the workflow has the number (`Faithful`).
The same holds for any tool whose columns do not depend on those that enter it (`Keeps`). The work
on a workflow asks for the columns of its own tools only, so it stays this way until the work is
done (`Asks`).
-/

namespace Replatform

/-- No other tool of the workflow has the number of the tool. -/
def Workflow.Sole (w : Workflow) (t : Tool) : Prop := ∀ u ∈ w.tools, u.id = t.id → u = t

namespace Project

open List Stateful

variable {w : Workflow}

/-! ## What is kept of sources -/

/-- What is kept under the number of a source are the columns that it mentions. -/
def Faithful (w : Workflow) (known : List (Int × List String)) : Prop :=
  ∀ t ∈ w.sources, w.Sole t → ∀ columns, known.lookup t.id = some columns →
    columns = mentionedColumns t

theorem mem_sources {t : Tool} : t ∈ w.sources ↔ t ∈ w.tools ∧ t.category = .input := by
  rw [Workflow.sources, mem_filter, beq_iff_eq]

theorem leavingColumns_source {t : Tool} (h : t.category = .input) (entering : List String) :
    leavingColumns t entering = mentionedColumns t := by
  rw [leavingColumns, h]

/-- What is kept under the number of a tool, if anything, are the columns. -/
def Keeps (t : Tool) (columns : List String) (known : List (Int × List String)) : Prop :=
  ∀ found, known.lookup t.id = some found → found = columns

section Keeps

variable {t : Tool} {columns : List String}
  (hleaving : ∀ entering, leavingColumns t entering = columns) (hsole : w.Sole t)

include hleaving hsole

/-- Of a tool from which the same columns leave whatever enters it, a search keeps these. -/
theorem Finds.keeps {ts : List Tool} {s s' : Search} {found : List String}
    (hfinds : Finds w ts s found s') (hts : ∀ u ∈ ts, u ∈ w.tools)
    (h : Keeps t columns s.known) : Keeps t columns s'.known := by
  induction hfinds with
  | nil => exact h
  | known _ _ ih => exact ih (forall_mem_cons.mp hts).2 h
  | circle _ _ _ ih => exact ih (forall_mem_cons.mp hts).2 h
  | seek _ _ _ _ ihup ih =>
    have hup := ihup (fun u hu => (Workflow.mem_upstream.mp hu).1) h
    refine ih (forall_mem_cons.mp hts).2 fun found hfound => ?_
    rw [lookup_setField] at hfound
    split at hfound
    next hid =>
      obtain rfl := hsole _ (hts _ (.head _)) hid.symm
      rw [← Option.some.inj hfound, hleaving]
    next => exact hup found hfound

theorem Collects.keeps {us : List Tool} {all found : List String}
    {known known' : List (Int × List String)} (hcollects : Collects w us all known found known')
    (hus : ∀ u ∈ us, u ∈ w.tools) (h : Keeps t columns known) : Keeps t columns known' := by
  induction hcollects with
  | nil => exact h
  | cons hfinds _ ih =>
    refine ih (forall_mem_cons.mp hus).2 ?_
    refine hfinds.keeps hleaving hsole (fun u hu => ?_) h
    exact mem_singleton.mp hu ▸ hus _ (.head _)

/-- Questions about tools of the workflow keep nothing else of the tool. -/
theorem ColumnQuery.ensures_keeps {q : ColumnQuery} (hq : q.tool ∈ w.tools) :
    Ensures (fun b => Keeps t columns b.columns) (q.ask w) fun _ => True := by
  intro b hb
  refine ⟨?_, fun _ _ => trivial⟩
  obtain ⟨found, -, hends⟩ := q.ends_ask hq b
  cases q with
  | leaving u =>
    obtain ⟨s, hfinds, hknown⟩ := hends
    rw [← hknown]
    exact hfinds.keeps hleaving hsole (fun v hv => mem_singleton.mp hv ▸ hq) hb
  | entering u =>
    exact Collects.keeps hleaving hsole hends (fun v hv => (Workflow.mem_upstream.mp hv).1) hb

omit hsole

/-- A search that starts with such a tool finds its columns. -/
theorem Finds.eq_of_keeps {s s' : Search} {found : List String} (hfinds : Finds w [t] s found s')
    (hnew : t.id ∉ s.visiting) (h : Keeps t columns s.known) : found = columns := by
  cases hfinds with
  | known hknown hnil =>
    cases hnil
    rw [append_nil, h _ hknown]
  | circle _ hmet => exact absurd hmet hnew
  | seek _ _ _ hnil =>
    cases hnil
    rw [append_nil, hleaving]

theorem Work.toolColumns_of_keeps (ht : t ∈ w.tools) {b : Build}
    (h : Keeps t columns b.columns) : result (toolColumns w t) b = .ok columns := by
  rw [(run_toolColumns w t b).1]
  exact congrArg _ ((finds_of_mem ht b.columns).eq_of_keeps hleaving not_mem_nil h)

end Keeps

/-- A search keeps nothing else under the number of a source. -/
theorem Finds.faithful {ts : List Tool} {s s' : Search} {columns : List String}
    (hfinds : Finds w ts s columns s') (hts : ∀ t ∈ ts, t ∈ w.tools) (h : Faithful w s.known) :
    Faithful w s'.known := fun t ht hsole =>
  hfinds.keeps (leavingColumns_source (mem_sources.mp ht).2) hsole hts (h t ht hsole)

/-! ## What the work asks for -/

def SameStock (b b' : Build) : Prop := b'.sources = b.sources ∧ b'.files = b.files

instance : Discreet SameStock where
  refl _ := ⟨rfl, rfl⟩
  trans _ _ _ h₁ h₂ := ⟨h₂.1.trans h₁.1, h₂.2.trans h₁.2⟩
  printed _ _ := ⟨rfl, rfl⟩
  noted _ _ _ _ _ := ⟨rfl, rfl⟩
  columns _ _ := ⟨rfl, rfl⟩
  model _ _ _ := ⟨rfl, rfl⟩

instance : Outward SameStock where
  of_eq _ hfiles _ hsources := ⟨hsources, hfiles⟩

/-- What is kept of sources stays true, and neither sources nor files of models change. -/
def Asks (w : Workflow) (b b' : Build) : Prop :=
  (Faithful w b.columns → Faithful w b'.columns) ∧ SameStock b b'

instance : Muted (Asks w) where
  refl b := ⟨id, refl_of SameStock b⟩
  trans _ _ _ h₁ h₂ := ⟨fun h => h₂.1 (h₁.1 h), trans_of SameStock h₁.2 h₂.2⟩
  printed _ _ := ⟨id, rfl, rfl⟩
  noted _ _ _ _ _ := ⟨id, rfl, rfl⟩

namespace Work

theorem asks_toolColumns {t : Tool} (ht : t ∈ w.tools) : Within (Asks w) (toolColumns w t) := by
  intro b
  refine ⟨fun h => ?_, within_toolColumns w t b⟩
  rw [(run_toolColumns w t b).2]
  exact (finds_of_mem ht b.columns).faithful (fun u hu => mem_singleton.mp hu ▸ ht) h

/-- As long as what is kept is true, a source answers columns that it mentions. -/
theorem toolColumns_subset {t : Tool} (ht : t ∈ w.sources) (hsole : w.Sole t) {b : Build}
    (h : Faithful w b.columns) :
    ∃ columns, result (toolColumns w t) b = .ok columns ∧ columns ⊆ mentionedColumns t := by
  obtain ⟨htool, hinput⟩ := mem_sources.mp ht
  have hresult := toolColumns_of_keeps (leavingColumns_source hinput) htool (h t ht hsole)
  exact ⟨_, hresult, Subset.refl _⟩

instance : Inquiring (.within (Asks w)) w (· ∈ w.tools) where
  columns := asks_toolColumns
  upstream _ _ hu := (Workflow.mem_upstream.mp hu).1
  names _ _ _ := within_bind (R := Asks w) within_get fun _ => within_pure _

theorem asks_ask {q : ColumnQuery} (hq : q.tool ∈ w.tools) : Within (Asks w) (q.ask w) := by
  cases q with
  | leaving t => exact asks_toolColumns hq
  | entering t => exact holds_enteringColumns (T := .within (Asks w)) t

end Work

end Project

end Replatform

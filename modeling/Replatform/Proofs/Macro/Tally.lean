import Replatform.Proofs.Macro.Usage
/-!
# The numbers of an inventory

The inventory keeps the first that is known of a macro, and counts every use. So the numbers follow
from the names that are used, how often each of them is, and what came first (`summary_ofUses`).
How many macros there are, how many are shared and how often each is used does not depend on the
order of the uses. Whether a macro counts as found does, unless all that is known of macros of one
name agrees on it (`summary_ofUses_iff`): a macro that is missing for the workflow that came first
is missing for good, although another workflow has found it.
-/

namespace Replatform.MacroInventory

open List Project

/-- The inventory of uses of macros, each by a workflow, that were added one after the other. -/
def ofUses (uses : List (MacroInfo × String)) : MacroInventory :=
  uses.foldl (fun inv u => inv.add u.1 u.2) {}

/-- The names that are used, each once. -/
def usedNames (uses : List (MacroInfo × String)) : List String := distinct (uses.map (·.1.name))

def first? (uses : List (MacroInfo × String)) (name : String) : Option MacroInfo :=
  (uses.map (·.1)).find? (·.name == name)

def timesUsed (uses : List (MacroInfo × String)) (name : String) : Nat :=
  uses.countP (·.1.name == name)

variable {inv : MacroInventory} {uses uses' : List (MacroInfo × String)}

/-! ## What the inventory holds -/

variable (uses)

theorem ofUses_concat (u : MacroInfo × String) :
    ofUses (uses ++ [u]) = (ofUses uses).add u.1 u.2 := by
  unfold ofUses
  rw [foldl_append, foldl_cons, foldl_nil]

theorem sound_ofUses : (ofUses uses).Sound := by
  induction uses using reverseRecOn with
  | nil => exact sound_empty
  | append_singleton uses u ih =>
    rw [ofUses_concat]
    exact ih.add u.1 u.2

theorem map_fst_usage_ofUses :
    (ofUses uses).usage.map (·.1) = usedNames uses := by
  induction uses using reverseRecOn with
  | nil => rfl
  | append_singleton uses u ih =>
    rw [ofUses_concat, usedNames, map_append, map_singleton, distinct_concat, ← usedNames, ← ih]
    exact map_fst_setField ..

theorem map_fst_macros_ofUses :
    (ofUses uses).macros.map (·.1) = usedNames uses :=
  (sound_ofUses uses).keys.trans (map_fst_usage_ofUses uses)

theorem length_usersOf_ofUses (name : String) :
    ((ofUses uses).usersOf name).length = timesUsed uses name := by
  induction uses using reverseRecOn with
  | nil => rfl
  | append_singleton uses u ih =>
    rw [ofUses_concat, usersOf_add, length_append, ih, timesUsed, timesUsed,
      countP_append, countP_singleton]
    by_cases h : u.1.name = name
    · rw [if_pos h, if_pos (beq_iff_eq.mpr h)]
      rfl
    · rw [if_neg h, if_neg fun h' => h (beq_iff_eq.mp h')]
      rfl

/-- The entry of a macro is what was known first. -/
theorem lookup_macros_ofUses (name : String) :
    (ofUses uses).macros.lookup name = first? uses name := by
  induction uses using reverseRecOn with
  | nil => rfl
  | append_singleton uses u ih =>
    have hfirst : first? (uses ++ [u]) name
        = (first? uses name).or (if u.1.name = name then some u.1 else none) := by
      unfold first?
      rw [map_append, find?_append, map_singleton, find?_singleton]
      simp only [beq_iff_eq]
    rw [hfirst, ← ih, ofUses_concat, add]
    dsimp only
    split
    next hknown =>
      by_cases h : u.1.name = name
      · rw [← h, Option.or_of_isSome hknown]
      · rw [if_neg h, Option.or_none]
    next hnew =>
      rw [lookup_append]
      congr 1
      by_cases h : u.1.name = name
      · rw [if_pos h, ← h, lookup_cons_self]
      · rw [if_neg h, lookup_cons_of_ne fun h' => h h'.symm, lookup_nil]

/-! ## The numbers -/

/-- Entries under different keys are counted by their keys. -/
theorem countP_snd {α : Type} {entries : List (String × α)} (h : (entries.map (·.1)).Nodup)
    (p : α → Bool) : entries.countP (fun x => p x.2)
      = (entries.map (·.1)).countP fun key => (entries.lookup key).any p := by
  rw [countP_map]
  refine countP_congr fun x hx => ?_
  rw [Function.comp_apply, lookup_of_mem h hx, Option.any_some]

theorem length_shared (h : inv.Sound) :
    inv.shared.length = inv.usage.countP fun x => 1 < x.2.length := by
  have hentry : ∀ x ∈ inv.usage, (inv.macros.lookup x.1).isSome := by
    intro x hx
    rw [isSome_lookup_iff, h.keys]
    exact mem_map_of_mem hx
  unfold shared
  rw [length_filterMap_eq_countP]
  refine countP_congr fun x hx => ?_
  show (if 1 < x.2.length then inv.macros.lookup x.1 else none).isSome ↔ _
  by_cases hmany : 1 < x.2.length
  · rw [if_pos hmany, hentry x hx, decide_eq_true hmany]
  · rw [if_neg hmany, decide_eq_false hmany, Option.isSome_none]

/-- The numbers follow from the names that are used, how often, and what came first. -/
theorem summary_ofUses : (ofUses uses).summary =
    { total := (usedNames uses).length
      found := (usedNames uses).countP fun name => (first? uses name).any (·.found)
      missing := (usedNames uses).countP fun name => (first? uses name).any (!·.found)
      shared := (usedNames uses).countP fun name => 1 < timesUsed uses name
      usage := (usedNames uses).map fun name => (name, timesUsed uses name) } := by
  have hsound := sound_ofUses uses
  have hmacros := map_fst_macros_ofUses uses
  have husage := map_fst_usage_ofUses uses
  have hcount : ∀ p : MacroInfo → Bool, ((ofUses uses).infos.filter p).length
      = (usedNames uses).countP fun name => (first? uses name).any p := by
    intro p
    rw [← countP_eq_length_filter, infos, countP_map, ← hmacros]
    exact (countP_snd (hsound.keys ▸ hsound.nodup) p).trans
      (by simp only [lookup_macros_ofUses])
  have hlength : ∀ x ∈ (ofUses uses).usage, x.2.length = timesUsed uses x.1 := by
    intro x hx
    rw [← length_usersOf_ofUses, usersOf, lookup_of_mem hsound.nodup hx, Option.getD_some]
  have hshared : (ofUses uses).shared.length
      = (usedNames uses).countP fun name => 1 < timesUsed uses name := by
    rw [length_shared hsound, ← husage, countP_map]
    exact countP_congr fun x hx => by rw [hlength x hx, Function.comp_apply]
  have hmap : (ofUses uses).usage.map (fun x => (x.1, x.2.length))
      = (usedNames uses).map fun name => (name, timesUsed uses name) := by
    rw [← husage, map_map]
    exact map_congr_left fun x hx => by rw [hlength x hx, Function.comp_apply]
  unfold summary
  rw [hcount, missing, hcount, hshared, ← hmap, ← hmacros, length_map]

/-- The numbers are the same; of the uses, those of every name. -/
structure Summary.Agree (s s' : Summary) : Prop where
  total : s.total = s'.total
  found : s.found = s'.found
  missing : s.missing = s'.missing
  shared : s.shared = s'.shared
  usage : s.usage.Perm s'.usage

/-- What is known of macros of one name agrees on whether the macro was found. -/
def Unanimous (uses : List (MacroInfo × String)) : Prop :=
  ∀ u ∈ uses, ∀ v ∈ uses, u.1.name = v.1.name → u.1.found = v.1.found

instance (uses : List (MacroInfo × String)) : Decidable (Unanimous uses) :=
  inferInstanceAs (Decidable (∀ u ∈ uses, ∀ v ∈ uses, _ → _))

/-! ## Another order -/

variable {uses}

theorem perm_usedNames (h : uses'.Perm uses) : (usedNames uses').Perm (usedNames uses) := by
  unfold usedNames
  rw [perm_ext_iff_of_nodup (nodup_distinct _) (nodup_distinct _)]
  intro name
  rw [mem_distinct, mem_distinct]
  exact (h.map (·.1.name)).mem_iff

theorem timesUsed_perm (h : uses'.Perm uses) (name : String) :
    timesUsed uses' name = timesUsed uses name := h.countP_eq _

/-- A macro that is used is known. -/
theorem exists_first? {name : String} (h : name ∈ usedNames uses) :
    ∃ info, first? uses name = some info ∧ info.name = name ∧ ∃ user, (info, user) ∈ uses := by
  unfold usedNames at h
  rw [mem_distinct] at h
  obtain ⟨u, hu, rfl⟩ := mem_map.mp h
  have hsome : (first? uses u.1.name).isSome := by
    unfold first?
    rw [find?_isSome]
    exact ⟨u.1, mem_map_of_mem hu, beq_self_eq_true _⟩
  obtain ⟨info, hinfo⟩ := Option.isSome_iff_exists.mp hsome
  have hfind : (uses.map (·.1)).find? (·.name == u.1.name) = some info := hinfo
  have hname := find?_some hfind
  obtain ⟨v, hv, rfl⟩ := mem_map.mp (mem_of_find?_eq_some hinfo)
  exact ⟨v.1, hinfo, beq_iff_eq.mp hname, v.2, hv⟩

/-- A macro is found or missing, and not both. -/
theorem found_add_missing (uses : List (MacroInfo × String)) :
    (ofUses uses).summary.found + (ofUses uses).summary.missing = (ofUses uses).summary.total := by
  rw [summary_ofUses]
  dsimp only
  rw [length_eq_countP_add_countP fun name => (first? uses name).any (·.found)]
  congr 1
  refine countP_congr fun name hname => ?_
  obtain ⟨info, hinfo, -⟩ := exists_first? hname
  rw [hinfo, Option.any_some, Option.any_some]
  cases info.found <;> decide

/-- Where all agree, the first to be known says what all say. -/
theorem Unanimous.any_first? (h : Unanimous uses) {name : String} (hname : name ∈ usedNames uses)
    {u : MacroInfo × String} (hu : u ∈ uses) (hu' : u.1.name = name) (p : Bool → Bool) :
    (first? uses name).any (fun info => p info.found) = p u.1.found := by
  obtain ⟨info, hinfo, hinfoName, user, hmem⟩ := exists_first? hname
  rw [hinfo, Option.any_some, h (info, user) hmem u hu (hinfoName.trans hu'.symm)]

theorem Unanimous.agree (h : Unanimous uses) (hperm : uses'.Perm uses) :
    Summary.Agree (ofUses uses').summary (ofUses uses).summary := by
  have h' : Unanimous uses' := fun u hu v hv => h u (hperm.mem_iff.mp hu) v (hperm.mem_iff.mp hv)
  have hnames := perm_usedNames hperm
  have hfirst : ∀ p : Bool → Bool, ∀ name ∈ usedNames uses',
      (first? uses' name).any (fun info => p info.found)
        ↔ (first? uses name).any (fun info => p info.found) := by
    intro p name hname
    obtain ⟨info, -, hinfo, user, hmem⟩ := exists_first? hname
    rw [h'.any_first? hname hmem hinfo p,
      h.any_first? (hnames.mem_iff.mp hname) (hperm.mem_iff.mp hmem) hinfo p]
  rw [summary_ofUses, summary_ofUses]
  refine ⟨hnames.length_eq, ?_, ?_, ?_, ?_⟩
  · exact (countP_congr (hfirst id)).trans (hnames.countP_eq _)
  · exact (countP_congr (hfirst not)).trans (hnames.countP_eq _)
  · simp only [timesUsed_perm hperm]
    exact hnames.countP_eq _
  · simp only [timesUsed_perm hperm]
    exact hnames.map _

theorem first?_cons (u : MacroInfo × String) (uses : List (MacroInfo × String)) (name : String) :
    first? (u :: uses) name = if u.1.name = name then some u.1 else first? uses name := by
  unfold first?
  rw [map_cons, find?_cons]
  by_cases h : u.1.name = name
  · rw [if_pos h, beq_iff_eq.mpr h]
  · rw [if_neg h, beq_eq_false_iff_ne.mpr h]

/-- Tests that differ at one element give numbers that differ by one. -/
theorem countP_succ {names : List String} (hnodup : names.Nodup) {p q : String → Bool}
    (name : String) (hmem : name ∈ names) (hp : p name) (hq : q name = false)
    (hsame : ∀ other, other ≠ name → p other = q other) :
    names.countP p = names.countP q + 1 := by
  have herase := perm_cons_erase hmem
  rw [herase.countP_eq p, herase.countP_eq q, countP_cons_of_pos hp,
    countP_cons_of_neg (by rw [hq]; decide)]
  congr 1
  refine countP_congr fun other hother => ?_
  rw [hsame other]
  rintro rfl
  exact hnodup.not_mem_erase hother

/-- Of two workflows that know a macro differently, the one that comes first decides. -/
theorem found_swap {u v : MacroInfo × String} (hname : u.1.name = v.1.name)
    (hu : u.1.found) (hv : v.1.found = false) (rest : List (MacroInfo × String)) :
    (ofUses (u :: v :: rest)).summary.found = (ofUses (v :: u :: rest)).summary.found + 1 := by
  have hnames : usedNames (u :: v :: rest) = usedNames (v :: u :: rest) := by
    unfold usedNames
    rw [map_cons, map_cons, map_cons, map_cons, hname]
  rw [summary_ofUses, summary_ofUses, hnames]
  dsimp only
  refine countP_succ (nodup_distinct _) u.1.name ?_ ?_ ?_ fun other hother => ?_
  · rw [mem_distinct]
    exact .tail _ (.head _)
  · rw [first?_cons, if_pos rfl, Option.any_some, hu]
  · rw [first?_cons, if_pos hname.symm, Option.any_some, hv]
  · have hother' : ¬ u.1.name = other := fun h => hother h.symm
    have hother'' : ¬ v.1.name = other := hname ▸ hother'
    rw [first?_cons, first?_cons, first?_cons, first?_cons, if_neg hother', if_neg hother'',
      if_neg hother'', if_neg hother']

theorem mem_missing_iff {name : String} : name ∈ (ofUses uses).missing.map (·.name)
    ↔ ∃ info, first? uses name = some info ∧ info.found = false := by
  have hsound := sound_ofUses uses
  unfold missing infos
  constructor
  · intro h
    obtain ⟨info, hinfo, rfl⟩ := mem_map.mp h
    obtain ⟨hmem, hmissing⟩ := mem_filter.mp hinfo
    obtain ⟨entry, hentry, rfl⟩ := mem_map.mp hmem
    refine ⟨entry.2, ?_, by simpa using hmissing⟩
    rw [hsound.named entry hentry, ← lookup_macros_ofUses]
    exact lookup_of_mem (hsound.keys ▸ hsound.nodup) hentry
  · rintro ⟨info, hfirst, hmissing⟩
    rw [← lookup_macros_ofUses] at hfirst
    have hentry := mem_of_lookup hfirst
    refine mem_map.mpr ⟨info, mem_filter.mpr ⟨?_, by rw [hmissing]; rfl⟩, hsound.named _ hentry⟩
    exact mem_map_of_mem (f := (·.2)) hentry

/-- Two different uses can be brought to the front. -/
theorem exists_perm_pair {u v : MacroInfo × String} (hu : u ∈ uses) (hv : v ∈ uses)
    (hne : v ≠ u) : ∃ rest, (u :: v :: rest).Perm uses := by
  obtain ⟨front, back, rfl⟩ := append_of_mem hu
  have hperm : (front ++ u :: back).Perm (u :: (front ++ back)) := perm_middle
  have hv' : v ∈ front ++ back := (mem_cons.mp (hperm.mem_iff.mp hv)).resolve_left hne
  obtain ⟨front', back', hsplit⟩ := append_of_mem hv'
  rw [hsplit] at hperm
  exact ⟨front' ++ back', ((perm_middle.cons u).symm.trans hperm.symm)⟩

/-- Where not all agree, a macro is found in one use and missing in another. -/
theorem exists_disagreement (h : ¬ Unanimous uses) : ∃ u v rest, u.1.name = v.1.name
    ∧ u.1.found ∧ v.1.found = false ∧ (u :: v :: rest).Perm uses := by
  obtain ⟨u, hu, v, hv, hname, hfound, hmissing⟩ : ∃ u ∈ uses, ∃ v ∈ uses,
      u.1.name = v.1.name ∧ u.1.found ∧ v.1.found = false := by
    by_contra hnone
    refine h fun u hu v hv hname => ?_
    cases hf : u.1.found <;> cases hf' : v.1.found
    · rfl
    · exact absurd ⟨v, hv, u, hu, hname.symm, hf', hf⟩ hnone
    · exact absurd ⟨u, hu, v, hv, hname, hf, hf'⟩ hnone
    · rfl
  have hne : v ≠ u := by
    rintro rfl
    rw [hfound] at hmissing
    exact Bool.noConfusion hmissing
  obtain ⟨rest, hrest⟩ := exists_perm_pair hu hv hne
  exact ⟨u, v, rest, hname, hfound, hmissing, hrest⟩

/-- What the order of uses can change: how many macros count as found and as missing, and nothing
else. It makes no difference just when all that is known of macros of one name agrees. Otherwise a
macro that was found for some workflow counts as missing in some order. -/
theorem summary_ofUses_iff (uses : List (MacroInfo × String)) :
    (∀ uses', uses'.Perm uses →
      (ofUses uses').summary.total = (ofUses uses).summary.total
      ∧ (ofUses uses').summary.shared = (ofUses uses).summary.shared
      ∧ (ofUses uses').summary.usage.Perm (ofUses uses).summary.usage
      ∧ (ofUses uses').summary.found + (ofUses uses').summary.missing
        = (ofUses uses).summary.total)
    ∧ (∀ name, name ∈ (ofUses uses).missing.map (·.name)
        ↔ ∃ info, first? uses name = some info ∧ info.found = false)
    ∧ ((∀ uses', uses'.Perm uses → Summary.Agree (ofUses uses').summary (ofUses uses).summary)
        ↔ Unanimous uses)
    ∧ ((∀ uses', uses'.Perm uses → ∀ u ∈ uses, u.1.found →
          u.1.name ∉ (ofUses uses').missing.map (·.name))
        ↔ Unanimous uses) := by
  refine ⟨fun uses' hperm => ?_, fun name => mem_missing_iff, ⟨fun h => ?_, fun h uses' => h.agree⟩,
    ⟨fun h => ?_, fun h uses' hperm u hu hfound hmissing => ?_⟩⟩
  · have hnames := perm_usedNames hperm
    have htotal : (ofUses uses').summary.total = (ofUses uses).summary.total := by
      rw [summary_ofUses, summary_ofUses]
      exact hnames.length_eq
    refine ⟨htotal, ?_, ?_, htotal ▸ found_add_missing uses'⟩
    · rw [summary_ofUses, summary_ofUses]
      simp only [timesUsed_perm hperm]
      exact hnames.countP_eq _
    · rw [summary_ofUses, summary_ofUses]
      simp only [timesUsed_perm hperm]
      exact hnames.map _
  · by_contra hnot
    obtain ⟨u, v, rest, hname, hu, hv, hperm⟩ := exists_disagreement hnot
    have hswap := found_swap hname hu hv rest
    have hfirst := (h _ hperm).found
    have hsecond := (h _ ((Perm.swap u v rest).trans hperm)).found
    omega
  · by_contra hnot
    obtain ⟨u, v, rest, hname, hu, hv, hperm⟩ := exists_disagreement hnot
    refine h _ ((Perm.swap u v rest).trans hperm) u
      (hperm.mem_iff.mp (.head _)) hu (mem_missing_iff.mpr ⟨v.1, ?_, hv⟩)
    rw [first?_cons, if_pos hname.symm]
  · obtain ⟨info, hinfo, hnotFound⟩ := mem_missing_iff.mp hmissing
    have hname : u.1.name ∈ usedNames uses' :=
      mem_distinct.mpr (mem_map_of_mem (hperm.mem_iff.mpr hu))
    obtain ⟨info', hinfo', hinfoName, user, hmem⟩ := exists_first? hname
    rw [hinfo] at hinfo'
    cases hinfo'
    rw [h _ (hperm.mem_iff.mp hmem) u hu hinfoName, hfound] at hnotFound
    exact Bool.noConfusion hnotFound

/-- A macro that one workflow does not find and the next one does. -/
def foundLater : List (MacroInfo × String) :=
  [({ name := "m.yxmc", path := "m.yxmc" }, "w1"),
   ({ name := "m.yxmc", path := "m.yxmc", found := true, place := some "/y/m.yxmc" }, "w2")]

/-- It counts as missing, and would not if the workflows came in another order. -/
theorem summary_foundLater : ¬ Unanimous foundLater
    ∧ "m.yxmc" ∈ (ofUses foundLater).missing.map (·.name)
    ∧ (∃ uses', uses'.Perm foundLater
        ∧ ¬ Summary.Agree (ofUses uses').summary (ofUses foundLater).summary) := by
  have hnot : ¬ Unanimous foundLater := by decide
  obtain ⟨-, hmissing, hagree, -⟩ := summary_ofUses_iff foundLater
  refine ⟨hnot, (hmissing _).mpr ⟨_, rfl, rfl⟩, ?_⟩
  by_contra hnone
  refine hnot (hagree.mp fun uses' hperm => ?_)
  by_contra hdiffer
  exact hnone ⟨uses', hperm, hdiffer⟩

end Replatform.MacroInventory

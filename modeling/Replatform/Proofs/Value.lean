import Mathlib.Data.List.Nodup
import Replatform.Value
/-!
# Fields that are set

A field that is set replaces the value under its key and nothing else, and a new key goes to the
end.
-/

namespace Replatform

open List

variable {κ α : Type} [DecidableEq κ] (fields : List (κ × α))

theorem lookup_cons_of_ne {k key : κ} (h : k ≠ key) (v : α) (fields : List (κ × α)) :
    ((key, v) :: fields).lookup k = fields.lookup k := by
  rw [lookup_cons, beq_eq_false_iff_ne.mpr h]

theorem lookup_setField (key k : κ) (v : α) :
    (setField fields key v).lookup k = if k = key then some v else fields.lookup k := by
  fun_induction setField fields key v with
  | case1 =>
    split
    next hk => rw [hk, lookup_cons_self]
    next hk => rw [lookup_cons_of_ne hk]
  | case2 w rest =>
    split
    next hk => rw [hk, lookup_cons_self]
    next hk => rw [lookup_cons_of_ne hk, lookup_cons_of_ne hk]
  | case3 j w rest hj ih =>
    by_cases hk : k = j
    · rw [hk, lookup_cons_self, if_neg hj, lookup_cons_self]
    · rw [lookup_cons_of_ne hk, lookup_cons_of_ne hk, ih]

theorem lookup_foldl_setField (keys : List κ) (v : α) (k : κ) :
    (keys.foldl (fun fields key => setField fields key v) fields).lookup k
      = if keys.contains k then some v else fields.lookup k := by
  induction keys generalizing fields with
  | nil => rfl
  | cons key keys ih =>
    rw [foldl_cons, ih, lookup_setField]
    grind

variable {fields : List (κ × α)}

theorem setField_of_notMem {key : κ} {v : α}
    (h : key ∉ fields.map (·.1)) : setField fields key v = fields ++ [(key, v)] := by
  fun_induction setField fields key v with
  | case1 => rfl
  | case2 w rest => exact absurd (.head _) h
  | case3 k w rest hk ih => rw [ih fun hmem => h (.tail _ hmem), cons_append]

theorem mem_of_mem_setField {key : κ} {v : α} {x : κ × α}
    (h : x ∈ setField fields key v) : x = (key, v) ∨ x ∈ fields := by
  fun_induction setField fields key v with
  | case1 => exact .inl (mem_singleton.mp h)
  | case2 w rest =>
    rcases mem_cons.mp h with rfl | h
    · exact .inl rfl
    · exact .inr (.tail _ h)
  | case3 k w rest hk ih =>
    rcases mem_cons.mp h with rfl | h
    · exact .inr (.head _)
    · exact (ih h).imp_right (mem_cons_of_mem _)

theorem map_fst_setField (key : κ) (v : α) :
    (setField fields key v).map (·.1)
      = if key ∈ fields.map (·.1) then fields.map (·.1) else fields.map (·.1) ++ [key] := by
  fun_induction setField fields key v with
  | case1 => rfl
  | case2 w rest => rw [map_cons, map_cons, if_pos (.head _)]
  | case3 k w rest hk ih =>
    rw [map_cons, map_cons, ih]
    by_cases hmem : key ∈ rest.map (·.1)
    · rw [if_pos hmem, if_pos (.tail _ hmem)]
    · have hmem' : key ∉ k :: rest.map (·.1) := by
        rw [mem_cons, not_or]
        exact ⟨fun he => hk he.symm, hmem⟩
      rw [if_neg hmem, if_neg hmem', cons_append]

theorem mem_of_lookup {ι : Type} [BEq ι] [LawfulBEq ι] {fields : List (ι × α)} {k : ι} {v : α}
    (h : fields.lookup k = some v) : (k, v) ∈ fields := by
  obtain ⟨front, back, hfields, -⟩ := lookup_eq_some_iff.mp h
  rw [hfields]
  exact mem_append_right _ (.head _)

theorem isSome_lookup_iff {key : κ} :
    (fields.lookup key).isSome ↔ key ∈ fields.map (·.1) := by
  rw [lookup_isSome_iff, mem_map]
  constructor
  · rintro ⟨x, hx, hkey⟩
    exact ⟨x, hx, (beq_iff_eq.mp hkey).symm⟩
  · rintro ⟨x, hx, hkey⟩
    exact ⟨x, hx, beq_iff_eq.mpr hkey.symm⟩

/-- Where no key occurs twice, every entry is found under its key. -/
theorem lookup_of_mem (hkeys : (fields.map (·.1)).Nodup) {k : κ} {v : α}
    (h : (k, v) ∈ fields) : fields.lookup k = some v := by
  obtain ⟨front, back, rfl⟩ := append_of_mem h
  rw [map_append, map_cons, nodup_middle] at hkeys
  refine lookup_eq_some_iff.mpr ⟨front, back, rfl, fun p hp => ?_⟩
  have hfront : p.1 ∈ front.map (·.1) := mem_map_of_mem hp
  refine bne_iff_ne.mpr ?_
  rintro rfl
  exact (nodup_cons.mp hkeys).1 (mem_append_left _ hfront)

/-- Where each round of a loop writes a value or keeps the one that is there, the last one that
writes wins. What the rounds keep of the state may be used. -/
theorem view_foldl {σ β γ : Type} {f : σ → β → σ} {I : σ → Prop} {P : β → Bool} {v : β → γ}
    (view : σ → Option γ) (hview : ∀ s b, I s → view (f s b) = if P b then some (v b) else view s)
    (hkeep : ∀ s b, I s → I (f s b)) (bs : List β) {s : σ} (hs : I s) :
    view (bs.foldl f s) = ((bs.filter P).getLast?.map v).or (view s) := by
  induction bs generalizing s with
  | nil => rfl
  | cons b bs ih =>
    rw [foldl_cons, ih (hkeep s b hs), hview s b hs, filter_cons]
    split
    next =>
      rw [getLast?_cons]
      cases (bs.filter P).getLast? <;> rfl
    next => rfl

end Replatform

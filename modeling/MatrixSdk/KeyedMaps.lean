import Mathlib.Algebra.Group.Nat.Defs
import Mathlib.Data.List.AList

/-!
Finite maps from keys to values of one type, on top of association lists with
distinct keys: the values of a map, and updating every value in place.
-/
namespace MatrixSdk.KeyedMaps

open AList

abbrev KeyedMap (κ β : Type) := AList fun _ : κ => β

variable {κ β γ : Type}

namespace KeyedMap

variable (m : KeyedMap κ β)

def values : List β := m.entries.map Sigma.snd

variable (f : κ → β → γ) (m : KeyedMap κ β)

def mapValues : KeyedMap κ γ :=
  ⟨m.entries.map (Sigma.map id f), m.nodupKeys.map₂ f _⟩

variable [DecidableEq κ]

theorem mem_values (v : β) : v ∈ values m ↔ ∃ k, m.lookup k = some v := by
  constructor
  · intro hv
    obtain ⟨⟨k, w⟩, hmem, rfl⟩ := List.mem_map.mp hv
    exact ⟨k, mem_lookup_iff.mpr hmem⟩
  · rintro ⟨k, hk⟩
    exact List.mem_map.mpr ⟨⟨k, v⟩, mem_lookup_iff.mp hk, rfl⟩

@[simp]
theorem lookup_singleton (k k' : κ) (v : β) :
    (AList.singleton k v : KeyedMap κ β).lookup k' = if k' = k then some v else none := by
  by_cases hk : k' = k
  · rw [← insert_empty, hk, lookup_insert, if_pos rfl]
  · rw [← insert_empty, lookup_insert_ne hk, lookup_empty, if_neg hk]

@[simp]
theorem lookup_mapValues (k : κ) : (mapValues f m).lookup k = (m.lookup k).map (f k) :=
  List.dlookup_map₂ k

@[simp]
theorem mem_mapValues (k : κ) : k ∈ mapValues f m ↔ k ∈ m := by
  rw [← lookup_isSome, ← lookup_isSome, lookup_mapValues, Option.isSome_map]

variable {m : KeyedMap κ β} {k : κ} {v : β} {k' : κ} {w : β} {P : β → Prop}

/-- What a map holds after an insertion: the new value, or one of another key. -/
theorem lookup_insert_cases (h : (m.insert k v).lookup k' = some w) :
    k' = k ∧ v = w ∨ k' ≠ k ∧ m.lookup k' = some w := by
  by_cases hk : k' = k
  · subst hk
    rw [lookup_insert, Option.some.injEq] at h
    exact .inl ⟨rfl, h⟩
  · rw [lookup_insert_ne hk] at h
    exact .inr ⟨hk, h⟩

theorem lookup_of_erase (h : (m.erase k).lookup k' = some v) : k' ≠ k ∧ m.lookup k' = some v := by
  by_cases hk : k' = k
  · subst hk
    rw [lookup_erase] at h
    cases h
  · rw [lookup_erase_ne hk] at h
    exact ⟨hk, h⟩

/-- A value that is replaced by one with the same property. -/
theorem exists_lookup_insert (hv : m.lookup k = some v) (hP : P v → P w)
    (h : ∃ k' u, m.lookup k' = some u ∧ P u) : ∃ k' u, (m.insert k w).lookup k' = some u ∧ P u := by
  obtain ⟨k', u, hu, hPu⟩ := h
  by_cases hk : k' = k
  · subst hk
    rw [hv] at hu
    cases hu
    exact ⟨k', w, lookup_insert _, hP hPu⟩
  · refine ⟨k', u, ?_, hPu⟩
    rw [lookup_insert_ne hk]
    exact hu

/-- A value without the property is erased. -/
theorem exists_lookup_erase (hv : m.lookup k = some v) (hP : ¬P v)
    (h : ∃ k' u, m.lookup k' = some u ∧ P u) : ∃ k' u, (m.erase k).lookup k' = some u ∧ P u := by
  obtain ⟨k', u, hu, hPu⟩ := h
  refine ⟨k', u, ?_, hPu⟩
  rw [lookup_erase_ne, hu]
  rintro rfl
  rw [hv] at hu
  cases hu
  exact hP hPu

end KeyedMap

end MatrixSdk.KeyedMaps

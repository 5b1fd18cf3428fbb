import Mathlib.Data.List.Nodup
import Mathlib.Data.List.Count

/-!
Keys filed under targets, and an index that finds the target of a key. Each update of the two
is given by what it does to the index and to the keys of each target.
-/
namespace MatrixSdk.InverseIndexes

open List

variable {κ τ : Type}

/-- The index knows where each key is filed, and a target has a key only once. -/
structure Indexed (index : κ → Option τ) (keys : τ → List κ) : Prop where
  mem_iff : ∀ key target, index key = some target ↔ key ∈ keys target
  nodup : ∀ target, (keys target).Nodup

variable {index index' : κ → Option τ} {keys keys' : τ → List κ} {key other : κ}
  {target source : τ} {l r : List κ}

section

variable (h : Indexed index keys)
include h

theorem Indexed.eq_of_mem {t : τ} (hkey : key ∈ keys target) (hkey' : key ∈ keys t) : t = target :=
  Option.some.inj (((h.mem_iff key t).mpr hkey').symm.trans ((h.mem_iff key target).mpr hkey))

/-- A key is filed under one target only. -/
theorem Indexed.iff_count [DecidableEq κ] (key : κ) (target : τ) :
    index key = some target ↔
      (keys target).count key = 1 ∧ ∀ t, t ≠ target → key ∉ keys t := by
  rw [h.mem_iff]
  constructor
  · intro hkey
    refine ⟨count_eq_one_of_mem (h.nodup target) hkey, fun t hne hmem => hne ?_⟩
    exact h.eq_of_mem hkey hmem
  · intro hcount
    exact count_pos_iff.mp (by omega)

theorem Indexed.congr (hindex : ∀ key, index' key = index key) (hkeys : ∀ t, keys' t = keys t) :
    Indexed index' keys' where
  mem_iff key t := by rw [hindex, hkeys, h.mem_iff]
  nodup t := by
    rw [hkeys]
    exact h.nodup t

section

variable [DecidableEq κ] (hother : ∀ t, t ≠ target → keys' t = keys t)
include hother

/-- File a key under a target, as its last one. -/
theorem Indexed.push (hfree : ∀ t, index key = some t → t = target)
    (hindex : ∀ k, index' k = if k = key then some target else index k)
    (htarget : keys' target = (keys target).erase key ++ [key]) : Indexed index' keys' where
  mem_iff k t := by
    rw [hindex]
    by_cases ht : t = target
    · subst ht
      rw [htarget, mem_append, mem_singleton]
      by_cases hk : k = key
      · simp [hk]
      · rw [if_neg hk, h.mem_iff, mem_erase_of_ne hk, or_iff_left hk]
    · rw [hother t ht]
      by_cases hk : k = key
      · rw [if_pos hk, hk, Option.some.injEq]
        refine ⟨fun heq => absurd heq.symm ht, fun hmem => ?_⟩
        exact absurd (hfree t ((h.mem_iff key t).mpr hmem)) ht
      · rw [if_neg hk, h.mem_iff]
  nodup t := by
    by_cases ht : t = target
    · subst ht
      rw [htarget]
      refine nodup_append.mpr ⟨(h.nodup t).erase key, nodup_singleton key, ?_⟩
      intro a ha b hb heq
      rw [mem_singleton] at hb
      rw [heq, hb] at ha
      exact (h.nodup t).not_mem_erase ha
    · rw [hother t ht]
      exact h.nodup t

/-- Take all the keys of a target away. -/
theorem Indexed.clear (hindex : ∀ k, index' k = if k ∈ keys target then none else index k)
    (htarget : keys' target = []) : Indexed index' keys' where
  mem_iff k t := by
    rw [hindex]
    by_cases ht : t = target
    · subst ht
      rw [htarget]
      by_cases hk : k ∈ keys t
      · simp [hk]
      · simp [hk, h.mem_iff]
    · rw [hother t ht]
      by_cases hk : k ∈ keys target
      · rw [if_pos hk]
        refine ⟨fun hnone => absurd hnone (by simp), fun hmem => ?_⟩
        exact absurd (h.eq_of_mem hk hmem) ht
      · rw [if_neg hk, h.mem_iff]
  nodup t := by
    by_cases ht : t = target
    · rw [ht, htarget]
      exact nodup_nil
    · rw [hother t ht]
      exact h.nodup t

/-- Take one key away. -/
theorem Indexed.remove (hkey : key ∈ keys target)
    (hindex : ∀ k, index' k = if k = key then none else index k)
    (htarget : keys' target = (keys target).filter (· ≠ key)) : Indexed index' keys' where
  mem_iff k t := by
    rw [hindex]
    by_cases ht : t = target
    · subst ht
      rw [htarget, mem_filter]
      by_cases hk : k = key
      · simp [hk]
      · simp [hk, h.mem_iff]
    · rw [hother t ht]
      by_cases hk : k = key
      · rw [if_pos hk, hk]
        refine ⟨fun hnone => absurd hnone (by simp), fun hmem => ?_⟩
        exact absurd (h.eq_of_mem hkey hmem) ht
      · rw [if_neg hk, h.mem_iff]
  nodup t := by
    by_cases ht : t = target
    · rw [ht, htarget]
      exact (h.nodup target).filter _
    · rw [hother t ht]
      exact h.nodup t

/-- Give a key another name that is not in use. -/
theorem Indexed.rename (hnone : index other = none) (hne : other ≠ key)
    (hindex : ∀ k, index' k = if k = other then some target else if k = key then none else index k)
    (hkeys : keys target = l ++ key :: r) (htarget : keys' target = l ++ other :: r) :
    Indexed index' keys' := by
  have hunused : ∀ t, other ∉ keys t := by
    intro t hmem
    rw [(h.mem_iff other t).mpr hmem] at hnone
    cases hnone
  have hkey : key ∈ keys target := by simp [hkeys]
  have hnodup := h.nodup target
  have hunused' := hunused target
  rw [hkeys] at hnodup hunused'
  simp only [mem_append, mem_cons, not_or] at hunused'
  rw [nodup_middle, nodup_cons, mem_append, not_or] at hnodup
  constructor
  · intro k t
    rw [hindex]
    by_cases ht : t = target
    · subst ht
      rw [htarget]
      by_cases hk : k = other
      · simp [hk]
      · rw [if_neg hk]
        by_cases hk' : k = key
        · simp [hk', hnodup.1, Ne.symm hne]
        · rw [if_neg hk', h.mem_iff, hkeys]
          simp [hk, hk']
    · rw [hother t ht]
      by_cases hk : k = other
      · rw [if_pos hk, hk, Option.some.injEq]
        exact ⟨fun heq => absurd heq.symm ht, fun hmem => absurd hmem (hunused t)⟩
      · rw [if_neg hk]
        by_cases hk' : k = key
        · rw [if_pos hk', hk']
          refine ⟨fun heq => absurd heq (by simp), fun hmem => ?_⟩
          exact absurd (h.eq_of_mem hkey hmem) ht
        · rw [if_neg hk', h.mem_iff]
  · intro t
    by_cases ht : t = target
    · rw [ht, htarget, nodup_middle, nodup_cons, mem_append, not_or]
      exact ⟨⟨hunused'.1, hunused'.2.2⟩, hnodup.2⟩
    · rw [hother t ht]
      exact h.nodup t

end

/-- Move all the keys of a target to another one. -/
theorem Indexed.merge [DecidableEq κ] (hne : source ≠ target)
    (hindex : ∀ k, index' k = if k ∈ keys source then some target else index k)
    (hsource : keys' source = []) (htarget : keys' target = keys target ++ keys source)
    (hother : ∀ t, t ≠ source → t ≠ target → keys' t = keys t) : Indexed index' keys' where
  mem_iff k t := by
    rw [hindex]
    by_cases hs : t = source
    · subst hs
      rw [hsource]
      by_cases hk : k ∈ keys t
      · simp [hk, Ne.symm hne]
      · simp [hk, h.mem_iff]
    · by_cases ht : t = target
      · subst ht
        rw [htarget, mem_append]
        by_cases hk : k ∈ keys source
        · simp [hk]
        · simp [hk, h.mem_iff]
      · rw [hother t hs ht]
        by_cases hk : k ∈ keys source
        · rw [if_pos hk, Option.some.injEq]
          refine ⟨fun heq => absurd heq.symm ht, fun hmem => ?_⟩
          exact absurd (h.eq_of_mem hk hmem) hs
        · rw [if_neg hk, h.mem_iff]
  nodup t := by
    by_cases hs : t = source
    · rw [hs, hsource]
      exact nodup_nil
    · by_cases ht : t = target
      · subst ht
        rw [htarget]
        refine nodup_append.mpr ⟨h.nodup t, h.nodup source, ?_⟩
        intro a ha b hb heq
        rw [← heq] at hb
        exact hs (h.eq_of_mem hb ha)
      · rw [hother t hs ht]
        exact h.nodup t

end

end MatrixSdk.InverseIndexes

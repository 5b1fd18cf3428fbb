import Mathlib.Data.List.Nodup
import Mathlib.Data.List.Perm.Subperm

/-!
Tables of rows with a key. A row is removed or changed by its key, where only the first row
with that key is touched. When no two rows share a key, this is the one row with that key.
-/
namespace MatrixSdk.KeyedRows

open List

variable {α κ : Type} [DecidableEq κ] (key : α → κ)

def remove (k : κ) (rows : List α) : List α := rows.eraseP fun row => key row = k

def update (k : κ) (f : α → α) : List α → List α
  | [] => []
  | row :: rows => if key row = k then f row :: rows else row :: update k f rows

variable {key} {k : κ} {f : α → α} {x : α} {rows : List α}

theorem remove_sublist : (remove key k rows).Sublist rows := eraseP_sublist

theorem mem_of_mem_remove (h : x ∈ remove key k rows) : x ∈ rows := remove_sublist.subset h

theorem mem_remove_of_ne (hx : x ∈ rows) (hne : key x ≠ k) : x ∈ remove key k rows :=
  (mem_eraseP_of_neg (by simpa using hne)).mpr hx

theorem remove_eq_self (h : k ∉ rows.map key) : remove key k rows = rows := by
  apply eraseP_of_forall_not
  intro x hx hk
  exact h (mem_map.mpr ⟨x, hx, by simpa using hk⟩)

theorem map_key_update (hf : ∀ row, key (f row) = key row) :
    (update key k f rows).map key = rows.map key := by
  induction rows with
  | nil => rfl
  | cons row rows ih =>
    unfold update
    split <;> simp [hf, ih]

section

variable (hnodup : (rows.map key).Nodup)
include hnodup

theorem ne_of_mem_remove (h : x ∈ remove key k rows) : key x ≠ k := by
  induction rows with
  | nil => simp [remove] at h
  | cons row rows ih =>
    obtain ⟨hrow, hrest⟩ := nodup_cons.mp hnodup
    by_cases hk : key row = k
    · have hx : x ∈ rows := by simpa [remove, hk] using h
      intro heq
      apply hrow
      rw [hk, ← heq]
      exact mem_map_of_mem hx
    · have hx : x = row ∨ x ∈ remove key k rows := by simpa [remove, hk] using h
      rcases hx with rfl | hx
      · exact hk
      · exact ih hrest hx

theorem update_eq_map :
    update key k f rows = rows.map fun row => if key row = k then f row else row := by
  induction rows with
  | nil => rfl
  | cons row rows ih =>
    obtain ⟨hrow, hrest⟩ := nodup_cons.mp hnodup
    unfold update
    by_cases hk : key row = k
    · have hsame : (rows.map fun row => if key row = k then f row else row) = rows := by
        refine (map_congr_left fun other hother => ?_).trans (map_id _)
        rw [if_neg, id]
        intro heq
        apply hrow
        rw [hk, ← heq]
        exact mem_map_of_mem hother
      simp [hk, hsame]
    · simp [hk, ih hrest]

theorem find?_of_key (hx : x ∈ rows) (hkey : key x = k) :
    rows.find? (fun row => key row = k) = some x := by
  cases hfind : rows.find? (fun row => key row = k) with
  | none =>
    have hnone := find?_eq_none.mp hfind x hx
    simp [hkey] at hnone
  | some y =>
    have hy : key y = k := by simpa using find?_some hfind
    rw [inj_on_of_nodup_map hnodup (mem_of_find?_eq_some hfind) hx (hy.trans hkey.symm)]

end

variable {p : α → Bool}

theorem filter_remove (h : ∀ row ∈ rows, key row = k → p row = false) :
    (remove key k rows).filter p = rows.filter p := by
  induction rows with
  | nil => rfl
  | cons row rows ih =>
    by_cases hk : key row = k
    · have hp := h row (by simp) hk
      simp [remove, hk, hp]
    · have hrest := ih fun other hother => h other (by simp [hother])
      have hcons : remove key k (row :: rows) = row :: remove key k rows := by simp [remove, hk]
      rw [hcons, filter_cons, filter_cons, hrest]

theorem filter_update (h : ∀ row ∈ rows, key row = k → p row = false ∧ p (f row) = false) :
    (update key k f rows).filter p = rows.filter p := by
  induction rows with
  | nil => rfl
  | cons row rows ih =>
    unfold update
    split
    · next hk =>
      obtain ⟨hp, hpf⟩ := h row (by simp) hk
      simp [hp, hpf]
    · rw [filter_cons, filter_cons, ih fun other hother => h other (by simp [hother])]

end MatrixSdk.KeyedRows

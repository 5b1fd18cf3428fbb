import Mathlib.Data.List.Basic

/-!
Maps that remember the order in which their keys were inserted. Inserting at a key that is
there keeps its place; removing a key puts the last entry in its place.
-/
namespace MatrixSdk.IndexMaps

abbrev IndexMap (κ β : Type) := List (κ × β)

namespace IndexMap

variable {κ β : Type} [DecidableEq κ]

def get (m : IndexMap κ β) (k : κ) : Option β := m.lookup k

def insert (k : κ) (v : β) : IndexMap κ β → IndexMap κ β
  | [] => [(k, v)]
  | (k', v') :: rest => if k' = k then (k, v) :: rest else (k', v') :: insert k v rest

def swapRemove (m : IndexMap κ β) (k : κ) : IndexMap κ β :=
  match m.findIdx? (fun entry => entry.1 == k), m.getLast? with
  | some i, some last => (m.set i last).dropLast
  | _, _ => m

theorem get_cons (k k' : κ) (v : β) (m : IndexMap κ β) :
    get ((k, v) :: m) k' = if k' = k then some v else get m k' := by
  unfold get
  rw [List.lookup_cons]
  by_cases h : k' = k
  · simp [h]
  · have hne : (k' == k) = false := beq_false_of_ne h
    simp [h, hne]

@[simp]
theorem get_insert (k k' : κ) (v : β) (m : IndexMap κ β) :
    get (insert k v m) k' = if k' = k then some v else get m k' := by
  induction m with
  | nil =>
    unfold insert
    rw [get_cons]
  | cons entry m ih =>
    obtain ⟨k₀, v₀⟩ := entry
    unfold insert
    by_cases h₀ : k₀ = k
    · rw [if_pos h₀, get_cons, get_cons, h₀]
      by_cases hk : k' = k
      · rw [if_pos hk, if_pos hk]
      · rw [if_neg hk, if_neg hk, if_neg hk]
    · rw [if_neg h₀, get_cons, get_cons, ih]
      by_cases hk : k' = k
      · rw [if_pos hk, if_pos hk, if_neg (by rw [hk]; exact Ne.symm h₀)]
      · rw [if_neg hk, if_neg hk]

end IndexMap

end MatrixSdk.IndexMaps

import Mathlib.Data.List.Sort
import Mathlib.Data.List.Induction

/-!
Which of two elements of a list comes first, and what that means for the head of the list once it
is sorted by priority with a stable sort.
-/
namespace MatrixSdk.ListOrders

open List

variable {α β : Type} {l l' : List α} {a b c : α}

def Before (l : List α) (a b : α) : Prop := [a, b].Sublist l

section

variable (h : Before l a b)
include h

theorem Before.left_mem : a ∈ l := h.subset (by simp)

theorem Before.right_mem : b ∈ l := h.subset (by simp)

theorem Before.sublist (hsub : l.Sublist l') : Before l' a b := h.trans hsub

theorem Before.map (f : α → β) : Before (l.map f) (f a) (f b) :=
  Sublist.map f h

theorem Before.filter {p : α → Bool} (ha : p a = true) (hb : p b = true) :
    Before (l.filter p) a b := by
  have hfilter : ([a, b].filter p).Sublist (l.filter p) := Sublist.filter p h
  simpa [Before, ha, hb] using hfilter

end

theorem before_cons : Before (c :: l) a b ↔ Before l a b ∨ a = c ∧ b ∈ l := by
  constructor
  · intro h
    cases h with
    | cons _ h => exact .inl h
    | cons_cons _ h => exact .inr ⟨rfl, by simpa using h⟩
  · intro h
    rcases h with h | ⟨rfl, hb⟩
    · exact h.cons _
    · exact (singleton_sublist.mpr hb).cons_cons _

theorem before_concat : Before (l ++ [c]) a b ↔ Before l a b ∨ a ∈ l ∧ b = c := by
  induction l with
  | nil => simp [Before]
  | cons x l ih =>
    rw [cons_append, before_cons, before_cons, ih, mem_append, mem_singleton, mem_cons]
    tauto

theorem before_of_append (h : Before (l ++ l') a b) (hb : b ∉ l') : Before l a b := by
  induction l' using List.reverseRecOn with
  | nil => simpa using h
  | append_singleton l' c ih =>
    rw [← append_assoc] at h
    rw [mem_append, not_or] at hb
    rcases before_concat.mp h with h | ⟨-, rfl⟩
    · exact ih h hb.1
    · simp at hb

theorem Before.asymm (h : Before l a b) (hnodup : l.Nodup) : ¬ Before l b a := by
  induction l with
  | nil => cases h
  | cons c l ih =>
    obtain ⟨hc, hrest⟩ := nodup_cons.mp hnodup
    intro h'
    rcases before_cons.mp h with hin | ⟨rfl, hb⟩
    · rcases before_cons.mp h' with hin' | ⟨rfl, -⟩
      · exact ih hin hrest hin'
      · exact hc hin.right_mem
    · rcases before_cons.mp h' with hin' | ⟨rfl, -⟩
      · exact hc hin'.right_mem
      · exact hc hb

theorem before_or_before (ha : a ∈ l) (hb : b ∈ l) (hne : a ≠ b) : Before l a b ∨ Before l b a := by
  induction l with
  | nil => cases ha
  | cons c l ih =>
    rw [before_cons, before_cons]
    rcases mem_cons.mp ha with rfl | hina
    · exact .inl (.inr ⟨rfl, (mem_cons.mp hb).resolve_left hne.symm⟩)
    · rcases mem_cons.mp hb with rfl | hinb
      · exact .inr (.inr ⟨rfl, hina⟩)
      · rcases ih hina hinb with h | h
        · exact .inl (.inl h)
        · exact .inr (.inl h)

/-- What stands first once the list is sorted: nothing has a higher priority, and what comes
before it has a lower one. -/
theorem head_of_sorted {priority : α → ℕ} (hnodup : l.Nodup)
    (h : (l.insertionSort fun a b => priority b ≤ priority a).head? = some a) :
    (∀ b ∈ l, priority b ≤ priority a) ∧ ∀ b, Before l b a → priority b < priority a := by
  obtain ⟨rest, hsorted⟩ : ∃ rest,
      (l.insertionSort fun a b => priority b ≤ priority a) = a :: rest :=
    head?_eq_some_iff.mp h
  have hperm := perm_insertionSort (fun a b : α => priority b ≤ priority a) l
  have hpairwise := pairwise_insertionSort (fun a b : α => priority b ≤ priority a) l
  rw [hsorted] at hperm hpairwise
  constructor
  · intro b hb
    rcases mem_cons.mp (hperm.mem_iff.mpr hb) with rfl | hb
    · exact le_refl _
    · exact (pairwise_cons.mp hpairwise).1 b hb
  · intro b hb
    by_contra hnot
    have hrel : priority a ≤ priority b := by omega
    have hpair : [b, a].Sublist (l.insertionSort fun a b => priority b ≤ priority a) :=
      pair_sublist_insertionSort (r := fun a b : α => priority b ≤ priority a) hrel hb
    rw [hsorted] at hpair
    have hfirst : (a :: rest).Nodup := hperm.nodup_iff.mpr hnodup
    have hne : b ≠ a := by
      intro heq
      subst heq
      exact hb.asymm hnodup hb
    rcases before_cons.mp hpair with hpair | ⟨heq, -⟩
    · exact (nodup_cons.mp hfirst).1 (Before.right_mem hpair)
    · exact hne heq

end MatrixSdk.ListOrders

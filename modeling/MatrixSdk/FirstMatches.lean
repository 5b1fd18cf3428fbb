import Mathlib.Data.List.Perm.Basic

/-!
Tables kept as lists of rows in no particular order. Rows are found by a predicate, and
the first row that satisfies it is changed or removed. A table is specified up to
permutation; when exactly one row satisfies the predicate, it does not matter where that
row stands.
-/
namespace MatrixSdk.FirstMatches

open List

variable {α : Type}

/-- Change the first row that satisfies `p`; `none` when there is no such row. -/
def modifyFirst (p : α → Bool) (f : α → α) : List α → Option (List α)
  | [] => none
  | x :: xs => if p x then some (f x :: xs) else (modifyFirst p f xs).map (x :: ·)

/-- Take out the first row that satisfies `p`. -/
def removeFirst (p : α → Bool) : List α → Option (α × List α)
  | [] => none
  | x :: xs => if p x then some (x, xs) else (removeFirst p xs).map fun r => (r.1, x :: r.2)

variable {p : α → Bool} {f : α → α} {x : α} {xs l r : List α}

theorem modifyFirst_append (hl : ∀ y ∈ l, p y = false) (hx : p x = true) :
    modifyFirst p f (l ++ x :: r) = some (l ++ f x :: r) := by
  induction l with
  | nil => simp [modifyFirst, hx]
  | cons y l ih =>
    have hy : p y = false := hl y (by simp)
    have htail := ih fun z hz => hl z (mem_cons_of_mem _ hz)
    simp only [cons_append, modifyFirst, hy, htail, Bool.false_eq_true, if_false, Option.map_some]

theorem removeFirst_append (hl : ∀ y ∈ l, p y = false) (hx : p x = true) :
    removeFirst p (l ++ x :: r) = some (x, l ++ r) := by
  induction l with
  | nil => simp [removeFirst, hx]
  | cons y l ih =>
    have hy : p y = false := hl y (by simp)
    have htail := ih fun z hz => hl z (mem_cons_of_mem _ hz)
    simp only [cons_append, removeFirst, hy, htail, Bool.false_eq_true, if_false, Option.map_some]

theorem exists_split_of_perm (h : xs.Perm (l ++ x :: r)) :
    ∃ a b, xs = a ++ x :: b ∧ (a ++ b).Perm (l ++ r) := by
  have hmem : x ∈ xs := h.mem_iff.mpr (by simp)
  obtain ⟨a, b, rfl⟩ := append_of_mem hmem
  refine ⟨a, b, rfl, ?_⟩
  have hcons : (x :: (a ++ b)).Perm (x :: (l ++ r)) :=
    perm_middle.symm.trans (h.trans perm_middle)
  exact hcons.cons_inv

section Unique

variable (h : xs.Perm (l ++ x :: r)) (hx : p x = true) (hother : ∀ y ∈ l ++ r, p y = false)
include h hx hother

/-- The row `x` is changed wherever it stands. -/
theorem modifyFirst_of_perm :
    ∃ xs', modifyFirst p f xs = some xs' ∧ xs'.Perm (l ++ f x :: r) := by
  obtain ⟨a, b, rfl, hab⟩ := exists_split_of_perm h
  refine ⟨a ++ f x :: b, modifyFirst_append (fun y hy => ?_) hx, ?_⟩
  · exact hother y (hab.mem_iff.mp (mem_append_left _ hy))
  · exact perm_middle.trans ((hab.cons _).trans perm_middle.symm)

theorem removeFirst_of_perm :
    ∃ xs', removeFirst p xs = some (x, xs') ∧ xs'.Perm (l ++ r) := by
  obtain ⟨a, b, rfl, hab⟩ := exists_split_of_perm h
  refine ⟨a ++ b, removeFirst_append (fun y hy => ?_) hx, hab⟩
  exact hother y (hab.mem_iff.mp (mem_append_left _ hy))

theorem find?_of_perm : xs.find? p = some x := by
  obtain ⟨a, b, rfl, hab⟩ := exists_split_of_perm h
  have hnone : a.find? p = none := by
    rw [find?_eq_none]
    intro y hy
    simp [hother y (hab.mem_iff.mp (mem_append_left _ hy))]
  simp [find?_append, hnone, hx]

theorem length_filter_of_perm : (xs.filter p).length = 1 := by
  rw [(h.filter p).length_eq, filter_append, filter_cons_of_pos hx,
    filter_eq_nil_iff.mpr fun y hy => by simp [hother y (mem_append_left _ hy)],
    filter_eq_nil_iff.mpr fun y hy => by simp [hother y (mem_append_right _ hy)]]
  rfl

end Unique

section Frame

variable {q : α → Bool} {ys : List α}

/-- What a selection shows of a table, when the row that is found is left as it is or is
outside of the selection. -/
theorem filter_modifyFirst (hq : ∀ x, xs.find? p = some x → f x = x ∨ q x = false ∧ q (f x) = false)
    (h : modifyFirst p f xs = some ys) : ys.filter q = xs.filter q := by
  induction xs generalizing ys with
  | nil => cases h
  | cons x xs ih =>
    rw [modifyFirst] at h
    split at h
    · next hx =>
      cases h
      rcases hq x (by simp [hx]) with hsame | ⟨hqx, hqfx⟩
      · rw [hsame]
      · simp [hqx, hqfx]
    · next hx =>
      obtain ⟨zs, hzs, rfl⟩ := Option.map_eq_some_iff.mp h
      have htail := ih (fun y hy => hq y (by simp [hx, hy])) hzs
      simp [filter_cons, htail]

theorem filter_removeFirst (hq : ∀ x, p x = true → q x = false)
    (h : removeFirst p xs = some (x, ys)) : ys.filter q = xs.filter q := by
  induction xs generalizing ys with
  | nil => cases h
  | cons y xs ih =>
    rw [removeFirst] at h
    split at h
    · next hy =>
      cases h
      simp [hq _ hy]
    · obtain ⟨⟨z, zs⟩, hzs, heq⟩ := Option.map_eq_some_iff.mp h
      cases heq
      simp [filter_cons, ih hzs]

theorem removeFirst_satisfies (h : removeFirst p xs = some (x, ys)) : p x = true := by
  induction xs generalizing ys with
  | nil => cases h
  | cons y xs ih =>
    rw [removeFirst] at h
    split at h
    · next hy =>
      cases h
      exact hy
    · obtain ⟨⟨z, zs⟩, hzs, heq⟩ := Option.map_eq_some_iff.mp h
      cases heq
      exact ih hzs

theorem filter_map_eq (hq : ∀ x, f x = x ∨ q x = false ∧ q (f x) = false) (xs : List α) :
    (xs.map f).filter q = xs.filter q := by
  induction xs with
  | nil => rfl
  | cons x xs ih =>
    rw [map_cons]
    rcases hq x with hsame | ⟨hqx, hqfx⟩
    · simp [hsame, filter_cons, ih]
    · simp only [filter_cons, hqx, hqfx, ih, Bool.false_eq_true, if_false]

theorem filter_filter_eq (hq : ∀ x, q x = true → p x = true) (xs : List α) :
    (xs.filter p).filter q = xs.filter q := by
  rw [filter_filter]
  refine filter_congr fun x _ => ?_
  cases hx : q x with
  | false => rfl
  | true => simp [hq x hx]

end Frame

section Unique

variable {y : α}

theorem mem_modifyFirst (h : y ∈ (modifyFirst p f xs).getD xs) :
    y ∈ xs ∨ ∃ x ∈ xs, p x = true ∧ f x = y := by
  induction xs with
  | nil => simp [modifyFirst] at h
  | cons x xs ih =>
    unfold modifyFirst at h
    split at h
    · next hx =>
      rcases mem_cons.mp h with rfl | h
      · exact .inr ⟨x, by simp, hx, rfl⟩
      · exact .inl (mem_cons_of_mem _ h)
    · cases hrest : modifyFirst p f xs with
      | none =>
        rw [hrest] at h
        exact .inl h
      | some rest =>
        rw [hrest] at h ih
        rcases mem_cons.mp h with rfl | h
        · exact .inl (by simp)
        · rcases ih h with hmem | ⟨z, hmem, hz⟩
          · exact .inl (mem_cons_of_mem _ hmem)
          · exact .inr ⟨z, mem_cons_of_mem _ hmem, hz⟩

section

variable (h : xs.Pairwise fun x y => ¬(p x = true ∧ p y = true))
include h

/-- When at most one row satisfies `p`, changing the first one is changing all. -/
theorem modifyFirst_eq_map :
    (modifyFirst p f xs).getD xs = xs.map fun x => if p x then f x else x := by
  induction xs with
  | nil => rfl
  | cons x xs ih =>
    obtain ⟨hx, htail⟩ := pairwise_cons.mp h
    unfold modifyFirst
    split
    · next hpx =>
      have hsame : xs.map (fun y => if p y then f y else y) = xs := by
        refine (map_congr_left fun y hmem => ?_).trans (map_id xs)
        exact if_neg fun hpy => hx y hmem ⟨hpx, hpy⟩
      simp [hpx, hsame]
    · next hpx =>
      rw [map_cons, if_neg hpx, ← ih htail]
      cases modifyFirst p f xs with
      | none => rfl
      | some rest => rfl

theorem removeFirst_eq_filter :
    ((removeFirst p xs).map Prod.snd).getD xs = xs.filter fun x => !p x := by
  induction xs with
  | nil => rfl
  | cons x xs ih =>
    obtain ⟨hx, htail⟩ := pairwise_cons.mp h
    unfold removeFirst
    split
    · next hpx =>
      have hsame : xs.filter (fun y => !p y) = xs := by
        rw [filter_eq_self]
        intro y hmem
        cases hpy : p y with
        | false => rfl
        | true => exact absurd ⟨hpx, hpy⟩ (hx y hmem)
      simp [hpx, hsame]
    · next hpx =>
      rw [filter_cons_of_pos (by simp [hpx]), ← ih htail]
      cases removeFirst p xs with
      | none => rfl
      | some rest => rfl

end

end Unique

section Read

variable {ε β : Type} {f : α → Except ε β}

theorem mapM_cons_eq_ok {ys : List β} :
    (x :: xs).mapM f = .ok ys ↔ ∃ y zs, f x = .ok y ∧ xs.mapM f = .ok zs ∧ ys = y :: zs := by
  rw [mapM_cons]
  cases hx : f x with
  | error e => simp [bind, Except.bind]
  | ok y =>
    cases hl : xs.mapM f with
    | error e => simp [bind, Except.bind]
    | ok zs => simp [bind, Except.bind, pure, Except.pure, eq_comm]

/-- Reading every row of a table, up to the order of the rows. -/
theorem mapM_of_perm {xs' : List α} (h : xs.Perm xs') :
    ∀ {ys' : List β}, xs'.mapM f = .ok ys' → ∃ ys, xs.mapM f = .ok ys ∧ ys.Perm ys' := by
  induction h with
  | nil => exact fun h => ⟨_, h, List.Perm.refl _⟩
  | cons x _ ih =>
    intro ys' h
    obtain ⟨y, zs, hx, hzs, rfl⟩ := mapM_cons_eq_ok.mp h
    obtain ⟨ys, hys, hperm⟩ := ih hzs
    exact ⟨y :: ys, mapM_cons_eq_ok.mpr ⟨y, ys, hx, hys, rfl⟩, hperm.cons y⟩
  | swap x y l =>
    intro ys' h
    obtain ⟨a, _, hx, htail, rfl⟩ := mapM_cons_eq_ok.mp h
    obtain ⟨b, zs, hy, hzs, rfl⟩ := mapM_cons_eq_ok.mp htail
    have htail' : (x :: l).mapM f = .ok (a :: zs) := mapM_cons_eq_ok.mpr ⟨a, zs, hx, hzs, rfl⟩
    exact ⟨b :: a :: zs, mapM_cons_eq_ok.mpr ⟨b, _, hy, htail', rfl⟩, List.Perm.swap a b zs⟩
  | trans _ _ ih₁ ih₂ =>
    intro ys' h
    obtain ⟨ys₂, h₂, hperm₂⟩ := ih₂ h
    obtain ⟨ys₁, h₁, hperm₁⟩ := ih₁ h₂
    exact ⟨ys₁, h₁, hperm₁.trans hperm₂⟩

end Read

end MatrixSdk.FirstMatches

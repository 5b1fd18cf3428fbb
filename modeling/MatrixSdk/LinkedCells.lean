import Mathlib.Data.List.Perm.Subperm
import Mathlib.Data.List.Range

/-!
Doubly linked cells in an arena of leaked boxes. A pointer is the index at which
a cell was allocated; freed cells read as `none` and their index is never reused,
so a dangling pointer is a failing read. `Seg` is the usual segment predicate, and
`DList` is a whole list: the head has no predecessor and the tail no successor.
-/
namespace MatrixSdk.LinkedCells

open List Option

structure Cell (α : Type) where
  previous : Option ℕ
  next : Option ℕ
  value : α
deriving DecidableEq

abbrev Arena (α : Type) := List (Option (Cell α))

variable {α : Type} {h' : Arena α} {ys : List (ℕ × α)} {p q : ℕ} {v w : α}

namespace Arena

def read (h : Arena α) (p : ℕ) : Option (Cell α) := h[p]?.join

def write (h : Arena α) (p : ℕ) (c : Cell α) : Arena α := h.set p (some c)

def free (h : Arena α) (p : ℕ) : Arena α := h.set p none

/-- Box and leak an unlinked cell; its pointer is the old length of the arena. -/
def alloc (h : Arena α) (v : α) : Arena α := h ++ [some ⟨none, none, v⟩]

def modify (h : Arena α) (p : ℕ) (f : Cell α → Cell α) : Option (Arena α) :=
  (h.read p).map fun c => h.write p (f c)

def setValue (h : Arena α) (p : ℕ) (v : α) : Option (Arena α) :=
  h.modify p fun c => { c with value := v }

/-- Link the unlinked cell `q` right after the cell `p`. -/
def linkAfter (h : Arena α) (p q : ℕ) : Option (Arena α) := do
  let c ← h.read p
  let h ← match c.next with
    | some n => do
      let h ← h.modify n fun d => { d with previous := some q }
      h.modify q fun d => { d with next := some n }
    | none => some h
  let h ← h.modify p fun d => { d with next := some q }
  h.modify q fun d => { d with previous := some p }

/-- Link the unlinked cell `q` right before the cell `p`. -/
def linkBefore (h : Arena α) (p q : ℕ) : Option (Arena α) := do
  let c ← h.read p
  let h ← match c.previous with
    | some n => do
      let h ← h.modify n fun d => { d with next := some q }
      h.modify q fun d => { d with previous := some n }
    | none => some h
  let h ← h.modify p fun d => { d with previous := some q }
  h.modify q fun d => { d with next := some p }

/-- Make the neighbours of `p` point at each other; `p` keeps its own links. -/
def unlink (h : Arena α) (p : ℕ) : Option (Arena α) := do
  let c ← h.read p
  let h ← match c.previous with
    | some a => h.modify a fun d => { d with next := c.next }
    | none => some h
  match c.next with
  | some b => h.modify b fun d => { d with previous := c.previous }
  | none => some h

/-- Follow `next`; running out of fuel stands for a walk that does not end. -/
def walkForward (h : Arena α) : ℕ → Option ℕ → Option (List (ℕ × α))
  | _, none => some []
  | 0, some _ => none
  | n + 1, some p => do
    let c ← h.read p
    let rest ← walkForward h n c.next
    some ((p, c.value) :: rest)

/-- Follow `previous`. -/
def walkBackward (h : Arena α) : ℕ → Option ℕ → Option (List (ℕ × α))
  | _, none => some []
  | 0, some _ => none
  | n + 1, some p => do
    let c ← h.read p
    let rest ← walkBackward h n c.previous
    some ((p, c.value) :: rest)

/-- Search along `previous` for a cell whose value satisfies the predicate. -/
def findBackward (h : Arena α) (found : α → Bool) : ℕ → Option ℕ → Option (Option ℕ)
  | _, none => some none
  | 0, some _ => none
  | n + 1, some p => do
    let c ← h.read p
    if found c.value then some (some p) else findBackward h found n c.previous

/-- Free the cells met along `previous`. -/
def freeBackward : Arena α → ℕ → Option ℕ → Option (Arena α)
  | h, _, none => some h
  | _, 0, some _ => none
  | h, n + 1, some p => do
    let c ← h.read p
    freeBackward (h.free p) n c.previous

section

variable (h : Arena α)
include h

variable (p : ℕ) (c : Cell α)

theorem read_lt (hread : h.read p = some c) : p < h.length := by
  by_contra hge
  have hnone : h[p]? = none := getElem?_eq_none (by omega)
  simp [read, hnone] at hread

@[simp]
theorem length_write : (h.write p c).length = h.length := by
  simp [write]

theorem read_write_self (hp : p < h.length) : (h.write p c).read p = some c := by
  simp [read, write, hp]

theorem read_write_ne (p q : ℕ) (c : Cell α) (hne : q ≠ p) : (h.write p c).read q = h.read q := by
  simp [read, write, Ne.symm hne]

theorem read_free_ne (hne : q ≠ p) : (h.free p).read q = h.read q := by
  simp [read, free, Ne.symm hne]

theorem read_alloc_new : (h.alloc v).read h.length = some ⟨none, none, v⟩ := by
  simp [read, alloc]

theorem modify_eq (f : Cell α → Cell α) (hread : h.read p = some c) :
    h.modify p f = some (h.write p (f c)) := by
  simp [modify, hread]

end

theorem read_setValue_ne (h : Arena α) (hset : h.setValue p v = some h') (hne : q ≠ p) :
    h'.read q = h.read q := by
  obtain ⟨c, -, rfl⟩ := map_eq_some_iff.mp hset
  exact read_write_ne h p q _ hne

end Arena

open Arena

variable (xs : List (ℕ × α))

/-- The pointer a segment starts at, or what follows it when it is empty. -/
def headPtr (next : Option ℕ) : Option ℕ :=
  match xs with
  | [] => next
  | (p, _) :: _ => some p

/-- The pointer a segment ends at, or what precedes it when it is empty. -/
def lastPtr (previous : Option ℕ) : List (ℕ × α) → Option ℕ
  | [] => previous
  | (p, _) :: rest => lastPtr (some p) rest

def Seg (h : Arena α) : Option ℕ → List (ℕ × α) → Option ℕ → Prop
  | _, [], _ => True
  | previous, (p, v) :: rest, next =>
    h.read p = some ⟨previous, headPtr rest next, v⟩ ∧ Seg h (some p) rest next

theorem headPtr_append (next : Option ℕ) :
    headPtr (xs ++ ys) next = headPtr xs (headPtr ys next) := by
  cases xs <;> rfl

theorem lastPtr_append (previous : Option ℕ) :
    lastPtr previous (xs ++ ys) = lastPtr (lastPtr previous xs) ys := by
  induction xs generalizing previous with
  | nil => rfl
  | cons x rest ih => exact ih (some x.1)

theorem lastPtr_some_or (p : ℕ) (o : Option ℕ) :
    (lastPtr (some p) xs).or o = lastPtr (some p) xs := by
  induction xs generalizing p with
  | nil => rfl
  | cons x xs ih => exact ih x.1

theorem lastPtr_none_eq : lastPtr none xs = (xs.getLast?).map Prod.fst := by
  rcases eq_nil_or_concat xs with rfl | ⟨l, x, rfl⟩
  · rfl
  · simp [lastPtr_append, lastPtr]

theorem headPtr_none_eq : headPtr xs none = (xs.head?).map Prod.fst := by
  cases xs <;> rfl

theorem lastPtr_eq_some_iff (previous : Option ℕ) (xs : List (ℕ × α)) (hne : xs ≠ []) :
    lastPtr previous xs = some p ↔ ∃ l v, xs = l ++ [(p, v)] := by
  rcases eq_nil_or_concat xs with rfl | ⟨l, ⟨q, w⟩, rfl⟩
  · exact absurd rfl hne
  · simp [lastPtr_append, lastPtr]

/-- Where a nonempty segment ends does not depend on what precedes it, nor on its values. -/
theorem lastPtr_congr (a a' : Option ℕ) (xs ys : List (ℕ × α))
    (h : xs.map Prod.fst = ys.map Prod.fst) (hne : xs ≠ []) : lastPtr a xs = lastPtr a' ys := by
  induction xs generalizing a a' ys with
  | nil => exact absurd rfl hne
  | cons x xs ih =>
    cases ys with
    | nil => cases h
    | cons y ys =>
      simp [List.cons.injEq] at h
      cases xs with
      | nil =>
        obtain rfl : ys = [] := map_eq_nil_iff.mp h.2.symm
        simp [lastPtr, h.1]
      | cons z xs => exact ih (some x.1) (some y.1) ys h.2 (by simp)

theorem seg_append (h : Arena α) (previous next : Option ℕ) (xs ys : List (ℕ × α)) :
    Seg h previous (xs ++ ys) next ↔
      Seg h previous xs (headPtr ys next) ∧ Seg h (lastPtr previous xs) ys next := by
  induction xs generalizing previous with
  | nil => simp [Seg, lastPtr]
  | cons x rest ih =>
    obtain ⟨p, v⟩ := x
    simp [Seg, headPtr_append, lastPtr, ih, and_assoc]

/-- A segment only depends on the cells it runs through. -/
theorem seg_congr (h h' : Arena α) (previous next : Option ℕ) (xs : List (ℕ × α))
    (hsame : ∀ p ∈ xs.map Prod.fst, h'.read p = h.read p) (hseg : Seg h previous xs next) :
    Seg h' previous xs next := by
  induction xs generalizing previous with
  | nil => trivial
  | cons x rest ih =>
    obtain ⟨p, v⟩ := x
    refine ⟨?_, ih (some p) ?_ hseg.2⟩
    · rw [hsame p (by simp)]
      exact hseg.1
    · intro q hq
      exact hsame q (by simp only [map_cons, mem_cons]; exact Or.inr hq)

section

variable (h : Arena α)
include h

theorem seg_lt (previous next : Option ℕ) (xs : List (ℕ × α)) (hseg : Seg h previous xs next) :
    ∀ p ∈ xs.map Prod.fst, p < h.length := by
  induction xs generalizing previous with
  | nil => simp
  | cons x rest ih =>
    obtain ⟨p, v⟩ := x
    intro q hq
    simp only [map_cons, mem_cons] at hq
    rcases hq with rfl | hq
    · exact read_lt h q _ hseg.1
    · exact ih (some p) hseg.2 q hq

theorem walkForward_of_seg (previous : Option ℕ) (xs : List (ℕ × α)) (n : ℕ)
    (hseg : Seg h previous xs none) (hn : xs.length ≤ n) :
    h.walkForward n (headPtr xs none) = some xs := by
  induction xs generalizing previous n with
  | nil => cases n <;> rfl
  | cons x rest ih =>
    obtain ⟨p, v⟩ := x
    obtain ⟨m, rfl⟩ : ∃ m, n = m + 1 := Nat.exists_eq_succ_of_ne_zero (by simp at hn; omega)
    have hrest := ih (some p) m hseg.2 (by simpa using hn)
    change h.walkForward (m + 1) (some p) = some ((p, v) :: rest)
    simp [Arena.walkForward, hseg.1, hrest]

theorem walkBackward_of_seg (next : Option ℕ) (xs : List (ℕ × α)) (n : ℕ)
    (hseg : Seg h none xs next) (hn : xs.length ≤ n) :
    h.walkBackward n (lastPtr none xs) = some xs.reverse := by
  induction xs using List.reverseRecOn generalizing next n with
  | nil => cases n <;> rfl
  | append_singleton l x ih =>
    obtain ⟨p, v⟩ := x
    obtain ⟨m, rfl⟩ : ∃ m, n = m + 1 := Nat.exists_eq_succ_of_ne_zero (by simp at hn; omega)
    obtain ⟨hl, hread, -⟩ := (seg_append _ _ _ _ _).mp hseg
    have hrest := ih (some p) m hl (by simpa using hn)
    simp [lastPtr_append, lastPtr, Arena.walkBackward, hread, hrest]

/-- The backward search finds the last cell that satisfies the predicate. -/
theorem findBackward_of_seg (found : α → Bool) (next : Option ℕ) (xs : List (ℕ × α)) (n : ℕ)
    (hseg : Seg h none xs next) (hn : xs.length ≤ n) :
    h.findBackward found n (lastPtr none xs) =
      some ((xs.reverse.find? fun x => found x.2).map Prod.fst) := by
  induction xs using List.reverseRecOn generalizing next n with
  | nil => cases n <;> rfl
  | append_singleton l x ih =>
    obtain ⟨p, v⟩ := x
    obtain ⟨m, rfl⟩ : ∃ m, n = m + 1 := Nat.exists_eq_succ_of_ne_zero (by simp at hn; omega)
    obtain ⟨hl, hread, -⟩ := (seg_append _ _ _ _ _).mp hseg
    have hrest := ih (some p) m hl (by simpa using hn)
    by_cases hv : found v
    · simp [lastPtr_append, lastPtr, Arena.findBackward, hread, hv]
    · simp [lastPtr_append, lastPtr, Arena.findBackward, hread, hv, hrest]

/-- Freeing backwards ends, and spares the cells outside the segment. -/
theorem freeBackward_of_seg (next : Option ℕ) (xs : List (ℕ × α)) (n : ℕ)
    (hseg : Seg h none xs next) (hnodup : (xs.map Prod.fst).Nodup) (hn : xs.length ≤ n) :
    ∃ h', h.freeBackward n (lastPtr none xs) = some h' ∧
      ∀ q ∉ xs.map Prod.fst, h'.read q = h.read q := by
  induction xs using List.reverseRecOn generalizing h next n with
  | nil => exact ⟨h, by cases n <;> rfl, fun _ _ => rfl⟩
  | append_singleton l x ih =>
    obtain ⟨p, v⟩ := x
    obtain ⟨m, rfl⟩ : ∃ m, n = m + 1 := Nat.exists_eq_succ_of_ne_zero (by simp at hn; omega)
    obtain ⟨hl, hread, -⟩ := (seg_append _ _ _ _ _).mp hseg
    simp only [map_append, map_cons, map_nil, nodup_append] at hnodup
    have hp : p ∉ l.map Prod.fst := fun hmem => hnodup.2.2 p hmem p (by simp) rfl
    have hfree : Seg (h.free p) none l (some p) :=
      seg_congr h _ none (some p) l
        (fun q hq => read_free_ne h p (fun he => hp (he ▸ hq))) hl
    obtain ⟨h', heq, hsame⟩ := ih (h.free p) (some p) m hfree hnodup.1 (by simpa using hn)
    refine ⟨h', by simp [lastPtr_append, lastPtr, Arena.freeBackward, hread, heq], ?_⟩
    intro q hq
    simp only [map_append, map_cons, map_nil, mem_append, mem_singleton, not_or] at hq
    rw [hsame q hq.1, read_free_ne h p hq.2]

end

/-- A whole doubly linked list through distinct cells. -/
structure DList (h : Arena α) (xs : List (ℕ × α)) : Prop where
  seg : Seg h none xs none
  nodup : (xs.map Prod.fst).Nodup

namespace DList

variable {h : Arena α} {xs : List (ℕ × α)}

theorem nil : DList h [] := ⟨trivial, nodup_nil⟩

section

variable (hl : DList h (xs ++ (p, v) :: ys))
include hl

/-- What a list says about one of its cells and about the two sides of it. -/
theorem split :
    Seg h none xs (some p) ∧ h.read p = some ⟨lastPtr none xs, headPtr ys none, v⟩ ∧
      Seg h (some p) ys none :=
  (seg_append h none none xs ((p, v) :: ys)).mp hl.seg

theorem read_eq : h.read p = some ⟨lastPtr none xs, headPtr ys none, v⟩ := hl.split.2.1

theorem nodup_split :
    p ∉ xs.map Prod.fst ∧ p ∉ ys.map Prod.fst ∧
      ∀ a ∈ xs.map Prod.fst, a ∉ ys.map Prod.fst := by
  have hn := hl.nodup
  simp only [map_append, map_cons, nodup_append, nodup_cons] at hn
  obtain ⟨-, ⟨hpy, -⟩, hdis⟩ := hn
  refine ⟨fun hp => hdis p hp p (by simp) rfl, hpy, ?_⟩
  intro a ha hay
  exact hdis a ha a (mem_cons_of_mem _ hay) rfl

end

theorem read_head (hl : DList h ((p, v) :: ys)) : h.read p = some ⟨none, headPtr ys none, v⟩ :=
  (show DList h ([] ++ (p, v) :: ys) from hl).read_eq

section

variable (hl : DList h xs)
include hl

theorem lt_length : ∀ a ∈ xs.map Prod.fst, a < h.length :=
  seg_lt h none none xs hl.seg

/-- Distinct allocated pointers are no more than the arena has cells. -/
theorem length_le : xs.length ≤ h.length := by
  have hsub : xs.map Prod.fst ⊆ List.range h.length := by
    intro a ha
    exact mem_range.mpr (hl.lt_length a ha)
  have hle := (List.Nodup.subperm hl.nodup hsub).length_le
  simpa using hle

theorem congr (hsame : ∀ a ∈ xs.map Prod.fst, h'.read a = h.read a) : DList h' xs :=
  ⟨seg_congr h h' none none xs hsame hl.seg, hl.nodup⟩

theorem alloc (w : α) : DList (h.alloc w) xs := by
  apply hl.congr
  intro a ha
  have hlt := hl.lt_length a ha
  simp only [Arena.read, Arena.alloc, getElem?_append_left hlt]

theorem length_notMem : h.length ∉ xs.map Prod.fst := by
  intro hmem
  exact absurd (hl.lt_length _ hmem) (lt_irrefl _)

theorem free_unlisted (hp : p ∉ xs.map Prod.fst) : DList (h.free p) xs := by
  apply hl.congr
  intro a ha
  exact read_free_ne h p (fun hap => hp (hap ▸ ha))

end

variable (zs : List (ℕ × α))

private theorem write_frame (a b : Option ℕ) (c : Cell α) (hp : p ∉ zs.map Prod.fst)
    (hseg : Seg h' a zs b) : Seg (h'.write p c) a zs b :=
  seg_congr h' _ a b zs (fun r hr => Arena.read_write_ne h' p r c (fun he => hp (he ▸ hr))) hseg

/-- Overwriting the value of a cell outside the list. -/
theorem setValue_unlisted (hl : DList h xs) {c : Cell α} (hq : h.read q = some c)
    (hnot : q ∉ xs.map Prod.fst) (w : α) :
    ∃ h', h.setValue q w = some h' ∧ DList h' xs ∧ h'.read q = some { c with value := w } := by
  refine ⟨_, modify_eq h q _ _ hq, ?_, read_write_self h q _ (read_lt h q _ hq)⟩
  exact hl.congr fun a ha => read_write_ne h q a _ fun he => hnot (he ▸ ha)

/-- Point the last cell of a segment at something else. -/
private theorem seg_setNext (a b b' : Option ℕ) (hp : p ∉ zs.map Prod.fst)
    (hseg : Seg h' a (zs ++ [(p, v)]) b) :
    Seg (h'.write p ⟨lastPtr a zs, b', v⟩) a (zs ++ [(p, v)]) b' := by
  obtain ⟨hz, hread, -⟩ := (seg_append _ _ _ _ _).mp hseg
  refine (seg_append _ _ _ _ _).mpr ⟨write_frame zs _ _ _ hp hz, ?_, trivial⟩
  exact Arena.read_write_self h' p _ (Arena.read_lt h' p _ hread)

/-- Make the first cell of a segment follow something else. -/
private theorem seg_setPrevious (a a' b : Option ℕ) (hp : p ∉ zs.map Prod.fst)
    (hseg : Seg h' a ((p, v) :: zs) b) :
    Seg (h'.write p ⟨a', headPtr zs b, v⟩) a' ((p, v) :: zs) b :=
  ⟨Arena.read_write_self h' p _ (Arena.read_lt h' p _ hseg.1), write_frame zs _ _ _ hp hseg.2⟩

/-- Linking before a cell that has a predecessor is linking after the predecessor. -/
private theorem linkBefore_eq_linkAfter {n : ℕ} {u : α}
    (hl : DList h (xs ++ (n, u) :: (p, v) :: ys)) (hq : h.read q = some ⟨none, none, w⟩)
    (hnew : q ∉ (xs ++ (n, u) :: (p, v) :: ys).map Prod.fst) :
    h.linkBefore p q = h.linkAfter n q := by
  have hn : h.read n = some ⟨lastPtr none xs, some p, u⟩ := hl.read_eq
  have hp : h.read p = some ⟨some n, headPtr ys none, v⟩ := by
    have hread : h.read p = some ⟨lastPtr none (xs ++ [(n, u)]), headPtr ys none, v⟩ :=
      DList.read_eq (by simpa using hl)
    simpa [lastPtr_append, lastPtr] using hread
  have hnp : p ≠ n := fun he => hl.nodup_split.2.1 (by simp [he])
  simp at hnew
  obtain ⟨-, hqn, hqp, -⟩ := hnew
  have hcomm : ∀ (g : Arena α) (a b : ℕ) (c d : Cell α), a ≠ b →
      (g.write a c).write b d = (g.write b d).write a c :=
    fun g a b c d hab => set_comm _ _ hab
  have htwice : ∀ (g : Arena α) (a : ℕ) (c d : Cell α), (g.write a c).write a d = g.write a d :=
    fun g a c d => set_set ..
  have hqlt := Arena.read_lt h q _ hq
  simp only [Arena.linkBefore, Arena.linkAfter, Arena.modify, hp, hn, hq, bind_eq_bind,
    bind_some, map_some, Arena.read_write_ne _ _ _ _ hqn,
    Arena.read_write_ne _ _ _ _ hqp, Arena.read_write_ne _ _ _ _ (Ne.symm hqp),
    Arena.read_write_ne _ _ _ _ (Ne.symm hqn), Arena.read_write_ne _ _ _ _ hnp,
    Arena.read_write_ne _ _ _ _ (Ne.symm hnp), Arena.read_write_self, Arena.length_write, hqlt]
  rw [hcomm h n q _ _ (Ne.symm hqn), hcomm (h.write q _) n p _ _ (Ne.symm hnp),
    hcomm h q p _ _ hqp, hcomm (h.write p _) q n _ _ hqn, htwice,
    hcomm (h.write p _) q n _ _ hqn, htwice]

section

variable (hl : DList h (xs ++ (p, v) :: ys))
include hl

/-- Overwriting the value of a listed cell. -/
theorem setValue (w : α) :
    ∃ h', h.setValue p w = some h' ∧ DList h' (xs ++ (p, w) :: ys) := by
  obtain ⟨hx, hp, hy⟩ := hl.split
  obtain ⟨hpx, hpy, -⟩ := hl.nodup_split
  refine ⟨_, modify_eq h p _ _ hp, ?_, ?_⟩
  · refine (seg_append _ _ _ _ _).mpr ⟨write_frame xs _ _ _ hpx hx, ?_, write_frame ys _ _ _ hpy hy⟩
    exact read_write_self h p _ (read_lt h p _ hp)
  · simpa using hl.nodup

/-- Unlinking a listed cell takes it out of the list. -/
theorem unlink :
    ∃ h', h.unlink p = some h' ∧ DList h' (xs ++ ys) := by
  obtain ⟨hx, hp, hy⟩ := hl.split
  have hxy := hl.nodup_split.2.2
  have hnodup : ((xs ++ ys).map Prod.fst).Nodup := by
    refine hl.nodup.sublist (Sublist.map _ ?_)
    exact Sublist.append_left (sublist_cons_self _ _) xs
  have hsplit : ∀ h' : Arena α, Seg h' none xs (headPtr ys none) →
      Seg h' (lastPtr none xs) ys none → DList h' (xs ++ ys) :=
    fun h' h1 h2 => ⟨(seg_append _ _ _ _ _).mpr ⟨h1, h2⟩, hnodup⟩
  rcases eq_nil_or_concat xs with rfl | ⟨l, ⟨a, u⟩, rfl⟩
  · cases ys with
    | nil =>
      exact ⟨h, by simp [Arena.unlink, hp, lastPtr, headPtr], DList.nil⟩
    | cons y rest =>
      obtain ⟨b, t⟩ := y
      have hrest : b ∉ rest.map Prod.fst := (nodup_cons.mp hnodup).1
      refine ⟨h.write b ⟨none, headPtr rest none, t⟩, ?_,
        hsplit _ trivial (seg_setPrevious rest _ _ _ hrest hy)⟩
      simp [Arena.unlink, hp, lastPtr, headPtr, modify_eq _ _ _ _ hy.1]
  · simp only [concat_eq_append, map_append, map_cons, map_nil,
      mem_append, mem_singleton] at hx hp hxy hsplit hnodup ⊢
    have hal : a ∉ l.map Prod.fst := by
      intro hmem
      rw [append_assoc] at hnodup
      exact (nodup_append.mp hnodup).2.2 a hmem a (by simp) rfl
    have hread : h.read a = some ⟨lastPtr none l, some p, u⟩ :=
      ((seg_append _ _ _ _ _).mp hx).2.1
    have hlast : lastPtr none (l ++ [(a, u)]) = some a := by simp [lastPtr_append, lastPtr]
    rw [hlast] at hp hsplit
    have hstep : h.unlink p = match headPtr ys none with
        | some b => (h.write a ⟨lastPtr none l, headPtr ys none, u⟩).modify b
            fun d => { d with previous := some a }
        | none => some (h.write a ⟨lastPtr none l, headPtr ys none, u⟩) := by
      simp only [Arena.unlink, hp, bind_eq_bind, bind_some, modify_eq _ _ _ _ hread]
    cases ys with
    | nil =>
      exact ⟨h.write a ⟨lastPtr none l, none, u⟩, by rw [hstep]; rfl,
        hsplit _ (seg_setNext l _ _ _ hal hx) trivial⟩
    | cons y rest =>
      obtain ⟨b, t⟩ := y
      have hab : b ≠ a := fun he => hxy a (by simp) (by simp [he])
      have hbl : b ∉ (l ++ [(a, u)]).map Prod.fst := by
        intro hmem
        exact hxy b (by simpa using hmem) (by simp)
      have hay : a ∉ ((b, t) :: rest).map Prod.fst := fun hmem => hxy a (by simp) hmem
      have hrest : b ∉ rest.map Prod.fst := by
        have hn := (nodup_append.mp hnodup).2.1
        exact (nodup_cons.mp hn).1
      have hreadb : (h.write a ⟨lastPtr none l, some b, u⟩).read b =
          some ⟨some p, headPtr rest none, t⟩ := by
        rw [read_write_ne _ _ _ _ hab]
        exact hy.1
      refine ⟨(h.write a ⟨lastPtr none l, some b, u⟩).write b ⟨some a, headPtr rest none, t⟩, ?_,
        hsplit _ ?_ ?_⟩
      · rw [hstep]
        exact modify_eq _ _ _ _ hreadb
      · exact write_frame _ _ _ _ hbl (seg_setNext l _ _ _ hal hx)
      · exact seg_setPrevious rest _ _ _ hrest (write_frame _ _ _ _ hay hy)

variable (hq : h.read q = some ⟨none, none, w⟩) (hnew : q ∉ (xs ++ (p, v) :: ys).map Prod.fst)
include hq hnew

/-- Linking an unlisted cell after a listed one inserts it there. -/
theorem linkAfter :
    ∃ h', h.linkAfter p q = some h' ∧ DList h' (xs ++ (p, v) :: (q, w) :: ys) := by
  obtain ⟨hx, hp, hy⟩ := hl.split
  obtain ⟨hpx, hpy, hxy⟩ := hl.nodup_split
  simp only [map_append, map_cons, mem_append, mem_cons, not_or] at hnew
  obtain ⟨hqx, hqp, hqy⟩ := hnew
  have hplt := read_lt h p _ hp
  have hqlt := read_lt h q _ hq
  have hnodup : ((xs ++ (p, v) :: (q, w) :: ys).map Prod.fst).Nodup := by
    have hn := hl.nodup
    simp only [map_append, map_cons, nodup_append, nodup_cons, mem_cons, not_or] at hn ⊢
    refine ⟨hn.1, ⟨⟨Ne.symm hqp, hn.2.1.1⟩, hqy, hn.2.1.2⟩, ?_⟩
    rintro a ha b (rfl | rfl | hb)
    · exact hn.2.2 a ha b (Or.inl rfl)
    · exact fun hab => hqx (hab ▸ ha)
    · exact hn.2.2 a ha b (Or.inr hb)
  cases ys with
  | nil =>
    have h1 : (h.write p ⟨lastPtr none xs, some q, v⟩).read q = some ⟨none, none, w⟩ := by
      rw [read_write_ne _ _ _ _ hqp, hq]
    refine ⟨(h.write p ⟨lastPtr none xs, some q, v⟩).write q ⟨some p, none, w⟩, ?_, ?_, hnodup⟩
    · simp only [Arena.linkAfter, hp, headPtr, bind_eq_bind, bind_some,
        modify_eq _ _ _ _ hp, modify_eq _ _ _ _ h1]
    · refine (seg_append _ _ _ _ _).mpr
        ⟨write_frame xs _ _ _ hqx (write_frame xs _ _ _ hpx hx), ?_, ?_, trivial⟩
      · rw [read_write_ne _ _ _ _ (Ne.symm hqp)]
        exact read_write_self h p _ hplt
      · exact read_write_self _ q _ (by simpa using hqlt)
  | cons y rest =>
    obtain ⟨n, u⟩ := y
    obtain ⟨hn, hrest⟩ := hy
    simp only [map_cons, mem_cons, not_or] at hpy hqy
    have hnlt := read_lt h n _ hn
    have hnrest : n ∉ rest.map Prod.fst := by
      have hnd := hl.nodup
      simp only [map_append, map_cons, nodup_append, nodup_cons] at hnd
      exact hnd.2.1.2.1
    have hnx : n ∉ xs.map Prod.fst := fun hmem => hxy n hmem (by simp)
    let h1 := h.write n ⟨some q, headPtr rest none, u⟩
    let h2 := h1.write q ⟨none, some n, w⟩
    let h3 := h2.write p ⟨lastPtr none xs, some q, v⟩
    have hq1 : h1.read q = some ⟨none, none, w⟩ := by
      rw [read_write_ne _ _ _ _ hqy.1, hq]
    have hp2 : h2.read p = some ⟨lastPtr none xs, some n, v⟩ := by
      rw [read_write_ne _ _ _ _ (Ne.symm hqp), read_write_ne _ _ _ _ hpy.1]
      exact hp
    have hq3 : h3.read q = some ⟨none, some n, w⟩ := by
      rw [read_write_ne _ _ _ _ hqp]
      exact read_write_self _ q _ (by simpa [h1] using hqlt)
    refine ⟨h3.write q ⟨some p, some n, w⟩, ?_, ?_, hnodup⟩
    · simp only [Arena.linkAfter, hp, headPtr, bind_eq_bind, bind_some, modify_eq _ _ _ _ hn]
      change (h1.modify q _ >>= fun h => h.modify p _ >>= fun h => h.modify q _) = _
      simp only [modify_eq _ _ _ _ hq1, bind_eq_bind, bind_some]
      change (h2.modify p _ >>= fun h => h.modify q _) = _
      simp only [modify_eq _ _ _ _ hp2, bind_eq_bind, bind_some]
      rw [modify_eq _ _ _ _ hq3]
    · have hframe : ∀ (zs : List (ℕ × α)) (a b : Option ℕ), n ∉ zs.map Prod.fst →
          p ∉ zs.map Prod.fst → q ∉ zs.map Prod.fst → Seg h a zs b →
          Seg (h3.write q ⟨some p, some n, w⟩) a zs b := by
        intro zs a b hzn hzp hzq hseg
        exact write_frame zs _ _ _ hzq (write_frame zs _ _ _ hzp
          (write_frame zs _ _ _ hzq (write_frame zs _ _ _ hzn hseg)))
      refine (seg_append _ _ _ _ _).mpr ⟨hframe xs _ _ hnx hpx hqx hx, ?_, ?_, ?_,
        hframe rest _ _ hnrest hpy.2 hqy.2 hrest⟩
      · rw [read_write_ne _ _ _ _ (Ne.symm hqp)]
        exact read_write_self _ p _ (by simpa [h1, h2] using hplt)
      · exact read_write_self _ q _ (by simpa [h1, h2, h3] using hqlt)
      · rw [read_write_ne _ _ _ _ (Ne.symm hqy.1),
          read_write_ne _ _ _ _ (Ne.symm hpy.1),
          read_write_ne _ _ _ _ (Ne.symm hqy.1)]
        exact read_write_self _ n _ hnlt

theorem linkBefore :
    ∃ h', h.linkBefore p q = some h' ∧ DList h' (xs ++ (q, w) :: (p, v) :: ys) := by
  rcases eq_nil_or_concat xs with rfl | ⟨l, ⟨n, u⟩, rfl⟩
  · obtain ⟨-, hp, hy⟩ := hl.split
    obtain ⟨-, hpy, -⟩ := hl.nodup_split
    simp only [nil_append, map_cons, mem_cons, not_or] at hnew
    have hqp := hnew.1
    have hplt := read_lt h p _ hp
    have h1 : (h.write p ⟨some q, headPtr ys none, v⟩).read q = some ⟨none, none, w⟩ := by
      rw [read_write_ne _ _ _ _ hqp, hq]
    refine ⟨(h.write p ⟨some q, headPtr ys none, v⟩).write q ⟨none, some p, w⟩, ?_,
      ⟨?_, ?_, ?_⟩, ?_⟩
    · simp only [Arena.linkBefore, hp, lastPtr, bind_eq_bind, bind_some,
        modify_eq _ _ _ _ hp, modify_eq _ _ _ _ h1]
    · exact read_write_self _ q _ (by simpa using read_lt h q _ hq)
    · rw [read_write_ne _ _ _ _ (Ne.symm hqp)]
      exact read_write_self h p _ hplt
    · exact write_frame ys _ _ _ hnew.2 (write_frame ys _ _ _ hpy hy)
    · have hn := hl.nodup
      simp only [nil_append, map_cons, nodup_cons] at hn ⊢
      exact ⟨by simpa using hnew, hn⟩
  · have hl' : DList h (l ++ (n, u) :: (p, v) :: ys) := by simpa using hl
    have hnew' : q ∉ (l ++ (n, u) :: (p, v) :: ys).map Prod.fst := by simpa using hnew
    obtain ⟨h', heq, hlist⟩ := hl'.linkAfter hq hnew'
    refine ⟨h', ?_, by simpa using hlist⟩
    rw [hl'.linkBefore_eq_linkAfter hq hnew', heq]

end

end DList

end MatrixSdk.LinkedCells

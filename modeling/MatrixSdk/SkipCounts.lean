import Mathlib.Data.List.Induction
import Mathlib.Data.List.InsertIdx

/-!
The items of a live timeline, of which its subscribers skip the first ones. A transaction only
looks at the numbers of items when it adjusts that count.
-/
namespace MatrixSdk.SkipCounts

open List

def maximumNumberOfInitialItems : ℕ := 20

def computeNext (count previousNumberOfItems nextNumberOfItems : ℕ) : ℕ :=
  if previousNumberOfItems = 0 then nextNumberOfItems - maximumNumberOfInitialItems
  else if nextNumberOfItems < previousNumberOfItems then
    count - (previousNumberOfItems - nextNumberOfItems)
  else count

def computeNextWhenPaginatingBackwards (count pageSize : ℕ) : ℕ × Option ℕ :=
  if count ≥ pageSize then (count - pageSize, none) else (0, some (pageSize - count))

inductive Kind where
  | localEcho
  | dateDivider
  | other
deriving DecidableEq

/-- An item in a transaction, with its place when the transaction started. -/
structure Item where
  kind : Kind
  origin : Option ℕ
deriving DecidableEq

inductive Op where
  | insert (index : ℕ) (kind : Kind)
  | replace (index : ℕ) (kind : Kind)
  | remove (index : ℕ)
  | clear

def clearRemotesOnly (items : List Item) : List Item :=
  items.foldl (fun rescued item => match item.kind with
    | .localEcho => rescued ++ [item]
    | .dateDivider =>
      if rescued.getLast?.any (·.kind = .dateDivider) then rescued.dropLast ++ [item]
      else rescued ++ [item]
    | .other => rescued) []

def hasLocal (items : List Item) : Bool :=
  items.getLast?.any (·.kind = .localEcho)

def Op.apply (items : List Item) : Op → List Item
  | .insert index kind => items.insertIdx index ⟨kind, none⟩
  | .replace index kind => items.modify index fun item => { item with kind }
  | .remove index => items.eraseIdx index
  | .clear => if hasLocal items then clearRemotesOnly items else []

structure Timeline where
  items : List Kind
  skipCount : ℕ

inductive Event where
  | commit (ops : List Op)
  | paginate (numEvents : ℕ)

namespace Timeline

def new : Timeline := ⟨[], 0⟩

variable (timeline : Timeline)

def visible : List Kind :=
  timeline.items.drop timeline.skipCount

def start : List Item :=
  timeline.items.zipIdx.map fun (kind, index) => ⟨kind, some index⟩

def transact (ops : List Op) : List Item :=
  ops.foldl Op.apply timeline.start

def commit (ops : List Op) : Timeline :=
  let items := timeline.transact ops
  ⟨items.map (·.kind),
    if timeline.items.length = items.length then timeline.skipCount
    else computeNext timeline.skipCount timeline.items.length items.length⟩

def liveLazyPaginateBackwards (numEvents : ℕ) : Timeline × Option ℕ :=
  let (count, needs) := computeNextWhenPaginatingBackwards timeline.skipCount numEvents
  ({ timeline with skipCount := count }, needs)

def act : Event → Timeline
  | .commit ops => timeline.commit ops
  | .paginate numEvents => (timeline.liveLazyPaginateBackwards numEvents).1

end Timeline

/-- The number of items above the first one whose place was visible. -/
def above (count : ℕ) (items : List Item) : ℕ :=
  (items.takeWhile (!·.origin.any (count ≤ ·))).length

/-- A transaction does not both leave fewer items above the first one that was visible and more
from there on. -/
def KeepsPlace (timeline : Timeline) (ops : List Op) : Prop :=
  let place := above timeline.skipCount (timeline.transact ops)
  timeline.skipCount ≤ place ∨ (timeline.transact ops).length - place ≤ timeline.visible.length

variable {timeline : Timeline}

theorem above_le {items : List Item} {item : Item} {count i j : ℕ} (hitem : items[i]? = some item)
    (horigin : item.origin = some j) (hj : count ≤ j) : above count items ≤ i := by
  induction items generalizing i with
  | nil => cases hitem
  | cons first items ih =>
    cases i with
    | zero =>
      obtain rfl : first = item := by simpa using hitem
      simp [above, horigin, hj]
    | succ i =>
      have hi : above count items ≤ i := ih (by simpa using hitem)
      unfold above at hi ⊢
      rw [takeWhile_cons]
      split
      · exact Nat.succ_le_succ hi
      · exact Nat.zero_le _

theorem exists_item_above {items : List Item} {count : ℕ} (h : above count items < items.length) :
    ∃ item j, items[above count items]? = some item ∧ item.origin = some j ∧ count ≤ j := by
  induction items with
  | nil => cases h
  | cons first items ih =>
    by_cases hfirst : first.origin.any (count ≤ ·)
    · have hzero : above count (first :: items) = 0 := by simp [above, hfirst]
      rw [hzero]
      cases horigin : first.origin with
      | none => simp [horigin] at hfirst
      | some j => exact ⟨first, j, rfl, horigin, by simpa [horigin] using hfirst⟩
    · have hsucc : above count (first :: items) = above count items + 1 := by
        simp [above, hfirst]
      rw [hsucc] at h ⊢
      simpa using ih (Nat.lt_of_succ_lt_succ h)

theorem clearRemotesOnly_subset (items : List Item) : clearRemotesOnly items ⊆ items := by
  suffices h : ∀ rescued : List Item, items.foldl _ rescued ⊆ rescued ++ items from h []
  induction items with
  | nil => simp
  | cons first items ih =>
    intro rescued
    refine List.Subset.trans (ih _) ?_
    have hdrop : rescued.dropLast ⊆ rescued := dropLast_subset rescued
    dsimp only
    split
    · simp
    · split <;> grind
    · grind

/-- The places in a transaction are places of the timeline. -/
theorem origin_lt (ops : List Op) : ∀ item ∈ timeline.transact ops, ∀ j,
    item.origin = some j → j < timeline.items.length := by
  suffices h : ∀ items : List Item, (∀ item ∈ items, ∀ j, item.origin = some j →
      j < timeline.items.length) → ∀ item ∈ ops.foldl Op.apply items, ∀ j,
        item.origin = some j → j < timeline.items.length by
    refine h _ fun item hitem j horigin => ?_
    obtain ⟨⟨kind, index⟩, hmem, rfl⟩ := mem_map.mp hitem
    obtain rfl : index = j := Option.some.inj horigin
    exact (mem_zipIdx' hmem).1
  intro items h
  induction ops generalizing items with
  | nil => exact h
  | cons op ops ih =>
    refine ih _ fun item hitem => ?_
    cases op with
    | insert index kind =>
      rcases eq_or_mem_of_mem_insertIdx hitem with rfl | hitem
      · exact nofun
      · exact h item hitem
    | replace index kind =>
      obtain ⟨i, hi⟩ := mem_iff_getElem?.mp hitem
      rw [Op.apply, getElem?_modify, Option.map_eq_map, Option.map_eq_some_iff] at hi
      obtain ⟨old, hold, rfl⟩ := hi
      have horigin := h old (mem_of_getElem? hold)
      split <;> exact horigin
    | remove index => exact h item (mem_of_mem_eraseIdx hitem)
    | clear =>
      simp only [Op.apply] at hitem
      split at hitem
      · exact h item (clearRemotesOnly_subset items hitem)
      · cases hitem

theorem skipCount_act (event : Event) (h : timeline.skipCount ≤ timeline.items.length) :
    (timeline.act event).skipCount ≤ (timeline.act event).items.length := by
  cases event with
  | commit ops =>
    simp only [Timeline.act, Timeline.commit, computeNext, length_map]
    split_ifs <;> omega
  | paginate numEvents =>
    simp only [Timeline.act, Timeline.liveLazyPaginateBackwards,
      computeNextWhenPaginatingBackwards]
    split_ifs <;> dsimp only <;> omega

/-- A transaction keeps the items that were visible and are not removed visible just when it keeps
their place. -/
theorem shown_items_stay_shown (events : List Event) (ops : List Op) (numEvents : ℕ)
    (heq : timeline = events.foldl Timeline.act .new) :
    timeline.skipCount ≤ timeline.items.length ∧
    ((∀ i j item, timeline.skipCount ≤ j → j < timeline.items.length →
      (timeline.transact ops)[i]? = some item → item.origin = some j →
      (timeline.commit ops).skipCount ≤ i) ↔ KeepsPlace timeline ops) ∧
    let (revealing, needs) := timeline.liveLazyPaginateBackwards numEvents
    let revealed := min numEvents timeline.skipCount
    revealing.items = timeline.items ∧ revealing.visible.drop revealed = timeline.visible ∧
    revealing.visible.length = revealed + timeline.visible.length ∧
    needs.getD 0 = numEvents - revealed := by
  have hle : timeline.skipCount ≤ timeline.items.length := by
    rw [heq]
    clear heq
    induction events using reverseRecOn with
    | nil => exact Nat.le_refl 0
    | append_singleton events event ih =>
      rw [foldl_append]
      exact skipCount_act event ih
  have hall : above timeline.skipCount (timeline.transact ops) ≤ (timeline.transact ops).length :=
    (takeWhile_sublist _).length_le
  refine ⟨hle, ⟨fun hshown => ?_, fun hplace i j item hj hlt hitem horigin => ?_⟩, ?_⟩
  · by_contra hplace
    simp only [KeepsPlace, Timeline.visible, length_drop, not_or, Nat.not_le] at hplace
    obtain ⟨item, j, hitem, horigin, hj⟩ :=
      @exists_item_above (timeline.transact ops) timeline.skipCount (by omega)
    have hfirst := hshown _ j item hj (origin_lt ops item (mem_of_getElem? hitem) j horigin)
      hitem horigin
    simp only [Timeline.commit, computeNext] at hfirst
    split_ifs at hfirst <;> omega
  · have hfirst : above timeline.skipCount (timeline.transact ops) ≤ i :=
      above_le hitem horigin hj
    simp only [KeepsPlace, Timeline.visible, length_drop] at hplace
    simp only [Timeline.commit, computeNext]
    split_ifs <;> omega
  · simp only [Timeline.liveLazyPaginateBackwards, computeNextWhenPaginatingBackwards]
    split_ifs with h
    · simp [Timeline.visible, Nat.min_eq_left h, Nat.sub_add_cancel h]
      omega
    · simp [Timeline.visible, Nat.min_eq_right (Nat.le_of_not_ge h)]
      omega

/-- A timeline whose first item is hidden. -/
def crowded : Timeline :=
  [.commit (replicate 21 (.insert 0 .other))].foldl Timeline.act .new

theorem removed_item_hides_none :
    KeepsPlace crowded [.remove 0] ∧ (crowded.commit [.remove 0]).skipCount ≤ 0 :=
  ⟨.inr (by decide), (shown_items_stay_shown _ [.remove 0] 0 rfl).2.1.2 (.inr (by decide)) 0 1
    ⟨.other, some 1⟩ (by decide) (by decide) (by decide) rfl⟩

/-- As when the read marker goes down from the hidden items to the visible ones. -/
theorem moved_item_hides_another :
    crowded.skipCount ≤ 1 ∧
    (crowded.transact [.remove 0, .insert 20 .other])[0]? = some ⟨.other, some 1⟩ ∧
    0 < (crowded.commit [.remove 0, .insert 20 .other]).skipCount := by
  decide

end MatrixSdk.SkipCounts

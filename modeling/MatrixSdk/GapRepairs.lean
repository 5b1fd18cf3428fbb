import Mathlib.Data.Nat.Notation

/-!
Waiting until a timeline has taken up a repaired gap. The settlement of a projection goes to its
waiters through a channel that only keeps the latest one.
-/
namespace MatrixSdk.GapRepairs

open List

structure GapRepairProjectionId where
  actorGeneration : ℕ
  repairGeneration : ℕ
  projectionBatch : ℕ
deriving DecidableEq

structure GapRepairProjectionSettlement where
  projection : GapRepairProjectionId
  observable : Bool

/-- A remote event with the projection of its origin, or another item. -/
inductive TimelineItem where
  | remote (gapRepairProjection : Option GapRepairProjectionId)
  | other
deriving DecidableEq

def TimelineItem.isRemote : TimelineItem → Bool
  | .remote _ => true
  | .other => false

structure Timeline where
  items : List TimelineItem
  subscriberSkipCount : ℕ
  settlement : Option GapRepairProjectionSettlement

/-- An update of the timeline, for a repaired gap or for another reason. -/
structure Update where
  items : List TimelineItem
  subscriberSkipCount : ℕ
  gapRepairProjection : Option GapRepairProjectionId

namespace Timeline

def new : Timeline := ⟨[], 0, none⟩

variable (timeline : Timeline) (projection : GapRepairProjectionId)

def visible : List TimelineItem :=
  timeline.items.drop timeline.subscriberSkipCount

def completeGapRepairProjection : Timeline :=
  if timeline.visible.any (· = .remote (some projection)) then
    { timeline with settlement := some ⟨projection, true⟩ }
  else match timeline.visible.findIdx? (·.isRemote) with
    | some index =>
      { timeline with
        items := timeline.items.set (timeline.subscriberSkipCount + index)
          (.remote (some projection))
        settlement := some ⟨projection, true⟩ }
    | none => { timeline with settlement := some ⟨projection, false⟩ }

def receive (update : Update) : Timeline :=
  let timeline := ⟨update.items, update.subscriberSkipCount, timeline.settlement⟩
  match update.gapRepairProjection with
  | some projection => timeline.completeGapRepairProjection projection
  | none => timeline

/-- What a waiter returns with when it is polled. -/
def waitForGapRepairProjection : Option Bool :=
  match timeline.settlement with
  | some settlement =>
    if settlement.projection = projection then some settlement.observable else none
  | none => none

end Timeline

variable {timeline : Timeline} {projection : GapRepairProjectionId}

theorem settlement_completeGapRepairProjection (timeline : Timeline) :
    ∃ observable, (timeline.completeGapRepairProjection projection).settlement =
      some ⟨projection, observable⟩ ∧ (observable = true ↔
        .remote (some projection) ∈ (timeline.completeGapRepairProjection projection).visible) := by
  unfold Timeline.completeGapRepairProjection
  split
  · next hany => exact ⟨true, rfl, iff_of_true rfl (by simpa [Timeline.visible] using hany)⟩
  · next hany =>
    split
    · next index hindex =>
      have hlt := (findIdx?_eq_some_iff_getElem.mp hindex).1
      refine ⟨true, rfl, iff_of_true rfl ?_⟩
      rw [Timeline.visible, ← set_drop]
      exact mem_set hlt _
    · exact ⟨false, rfl, iff_of_false nofun (by simpa [Timeline.visible] using hany)⟩

theorem settlement_foldl {updates : List Update}
    (h : ∀ update ∈ updates, update.gapRepairProjection = none) :
    (updates.foldl Timeline.receive timeline).settlement = timeline.settlement := by
  induction updates generalizing timeline with
  | nil => rfl
  | cons update updates ih =>
    obtain ⟨hupdate, hupdates⟩ := forall_mem_cons.mp h
    rw [foldl_cons, ih hupdates]
    simp [Timeline.receive, hupdate]

/-- A waiter returns when it looks between the completion of its projection and the next one. -/
theorem waiter_gets_its_answer (timeline : Timeline) (updates : List Update) (update : Update)
    (hupdate : update.gapRepairProjection = some projection)
    (hupdates : ∀ later ∈ updates, later.gapRepairProjection = none) :
    ∃ observable, (updates.foldl Timeline.receive
      (timeline.receive update)).waitForGapRepairProjection projection = some observable ∧
      (observable = true ↔ .remote (some projection) ∈ (timeline.receive update).visible) := by
  obtain ⟨observable, hsettlement, htagged⟩ : ∃ observable,
      (timeline.receive update).settlement = some ⟨projection, observable⟩ ∧ (observable = true ↔
        .remote (some projection) ∈ (timeline.receive update).visible) := by
    simp only [Timeline.receive, hupdate]
    exact settlement_completeGapRepairProjection _
  refine ⟨observable, ?_, htagged⟩
  simp [Timeline.waitForGapRepairProjection, settlement_foldl hupdates, hsettlement]

/-- The update for one batch of a repaired gap, in a timeline with one event. -/
def repaired (projectionBatch : ℕ) : Update :=
  ⟨[.remote none], 0, some ⟨0, 0, projectionBatch⟩⟩

/-- The settlement of another batch came before, and the item has gone when the waiter looks. -/
theorem lone_waiter_gets_its_answer :
    ([⟨[.other, .remote none], 1, none⟩, ⟨[], 0, none⟩].foldl Timeline.receive
      ((Timeline.new.receive (repaired 0)).receive (repaired 1))).waitForGapRepairProjection
        ⟨0, 0, 1⟩ = some true := by
  obtain ⟨observable, hwait, htagged⟩ := waiter_gets_its_answer (Timeline.new.receive (repaired 0))
    [⟨[.other, .remote none], 1, none⟩, ⟨[], 0, none⟩] (repaired 1) rfl (by decide)
  exact hwait.trans (congrArg some (htagged.mpr (by decide)))

/-- Nobody looked between the two projections. -/
theorem earlier_settlement_is_lost :
    .remote (some ⟨0, 0, 0⟩) ∈ (Timeline.new.receive (repaired 0)).visible ∧
    ((Timeline.new.receive (repaired 0)).receive (repaired 1)).waitForGapRepairProjection
      ⟨0, 0, 0⟩ = none := by
  decide

end MatrixSdk.GapRepairs

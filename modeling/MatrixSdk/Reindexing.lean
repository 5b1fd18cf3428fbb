import Mathlib.Data.Nat.Notation
import MatrixSdk.Traces

/-!
The one-time indexing of the events that are stored for the joined rooms. A marker file says
that it is done.
-/
namespace MatrixSdk.Reindexing

open Traces List

inductive RoomResult where
  | notLoaded
  | notIndexed
  | indexed
deriving DecidableEq

/-- A run: the joined rooms with what comes of each, how many of them it gets to if it is
interrupted, the rooms that are joined when it has been through them, and whether the marker can be
written. -/
structure Run where
  rooms : List (String × RoomResult)
  interrupted : Option ℕ
  joinedRooms : List String
  isWritable : Bool

/-- The search index, with the rooms whose events were indexed. The marker is known by the rooms
that were joined when it was written; an index in memory has no place for it. -/
structure SearchIndex where
  hasDirectory : Bool
  marker : Option (List String)
  indexed : List String
deriving DecidableEq

namespace SearchIndex

variable (index : SearchIndex)

/-- One turn of the loop. A room that fails is passed over. -/
def reindexRoom (room : String × RoomResult) : SearchIndex :=
  match room.2 with
  | .notLoaded => index
  | .notIndexed => index
  | .indexed => { index with indexed := index.indexed ++ [room.1] }

def reindexStoredEvents (run : Run) : SearchIndex :=
  if index.hasDirectory && index.marker.isSome then index
  else match run.interrupted with
  | some n => (run.rooms.take n).foldl reindexRoom index
  | none =>
    let reindexed := run.rooms.foldl reindexRoom index
    if index.hasDirectory && run.isWritable then
      { reindexed with marker := some run.joinedRooms }
    else reindexed

end SearchIndex

open SearchIndex

variable {index : SearchIndex}

theorem foldl_reindexRoom (rooms : List (String × RoomResult)) (index : SearchIndex) :
    rooms.foldl reindexRoom index =
      { index with indexed := index.indexed ++
          (rooms.filter fun room => room.2 = .indexed).map Prod.fst } := by
  induction rooms generalizing index with
  | nil => simp
  | cons room rooms ih =>
    obtain ⟨id, result⟩ := room
    rw [foldl_cons, ih]
    cases result <;> simp [reindexRoom]

/-- In a run that comes to write the marker no room fails, and none is joined meanwhile. -/
def Thorough (index : SearchIndex) (run : Run) : Prop :=
  index.hasDirectory = true → index.marker = none → run.interrupted = none → run.isWritable = true →
    (∀ room ∈ run.rooms, room.2 = .indexed) ∧ run.joinedRooms ⊆ run.rooms.map Prod.fst

/-- The marker stands for the rooms that were joined when it was written. -/
def IsHonest (index : SearchIndex) : Prop :=
  ∀ rooms, index.marker = some rooms → rooms ⊆ index.indexed

theorem IsHonest.foldl (h : IsHonest index) (rooms : List (String × RoomResult)) :
    IsHonest (rooms.foldl reindexRoom index) := by
  rw [foldl_reindexRoom]
  exact fun marked hmarker _ hroom => mem_append_left _ (h marked hmarker hroom)

theorem IsHonest.run (h : IsHonest index) {run : Run} (hrun : Thorough index run) :
    IsHonest (index.reindexStoredEvents run) := by
  unfold reindexStoredEvents
  split
  · exact h
  next hmarked =>
  split
  · exact h.foldl _
  next hdone =>
  dsimp only
  split
  · next hwritten =>
    rintro _ ⟨⟩ id hid
    simp only [Bool.and_eq_true, Bool.not_eq_true, Option.isSome_eq_false_iff, not_and,
      Option.isNone_iff_eq_none] at hmarked hwritten
    obtain ⟨hindexed, hjoined⟩ := hrun hwritten.1 (hmarked hwritten.1) hdone hwritten.2
    obtain ⟨room, hroom, rfl⟩ := mem_map.mp (hjoined hid)
    rw [foldl_reindexRoom]
    exact mem_append_right _ (mem_map.mpr
      ⟨room, mem_filter.mpr ⟨hroom, by simp [hindexed room hroom]⟩, rfl⟩)
  · exact h.foldl _

/-- Whoever finds the marker can rely on it. -/
theorem marked_rooms_are_indexed {hasDirectory : Bool} {runs : List Run}
    (h : Trace (fun index run next => Thorough index run ∧
      next = index.reindexStoredEvents run) ⟨hasDirectory, none, []⟩ runs index) :
    IsHonest index := by
  refine h.preserves (fun index run next hhonest hstep => ?_) nofun
  obtain ⟨hthorough, rfl⟩ := hstep
  exact hhonest.run hthorough

/-- The first run fails for a room and is interrupted, and the last one is skipped. -/
theorem retried_room_is_indexed :
    IsHonest ((reindexStoredEvents ⟨true, none, []⟩
        ⟨[("!a", .indexed), ("!b", .notLoaded), ("!c", .indexed)], some 2, [], true⟩)
      |>.reindexStoredEvents ⟨[("!a", .indexed), ("!b", .indexed)], none, ["!b"], true⟩
      |>.reindexStoredEvents ⟨[("!b", .notIndexed)], none, ["!b", "!d"], true⟩) :=
  marked_rooms_are_indexed (.cons ⟨by unfold Thorough; decide, rfl⟩
    (.cons ⟨by unfold Thorough; decide, rfl⟩ (.single ⟨by unfold Thorough; decide, rfl⟩)))

/-- The marker is written although a room could not be loaded, and stands also for a room that was
joined meanwhile. -/
theorem failed_room_is_left_behind :
    reindexStoredEvents ⟨true, none, []⟩
        ⟨[("!a", .indexed), ("!b", .notLoaded)], none, ["!a", "!b", "!c"], true⟩ =
      ⟨true, some ["!a", "!b", "!c"], ["!a"]⟩ := by
  decide

end MatrixSdk.Reindexing

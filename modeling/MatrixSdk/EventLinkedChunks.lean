import MatrixSdk.OrderTrackers
import MatrixSdk.Persistence

/-!
The linked chunk of the events of a room. It is read by the store, by the observers of the
timeline and by the order tracker; a panic is a `none`, also where the code expects an
operation to succeed.
-/
namespace MatrixSdk.EventLinkedChunks

open Chunks Layouts LazyLoader VectorDiffs OrderTrackers Persistence LinkedChunk

variable {Item Gap : Type}

structure EventLinkedChunk (Item Gap : Type) where
  chunks : LinkedChunk Item Gap
  chunksUpdatesAsVectordiffs : AsVector
  orderTracker : OrderTracker

/-- The result of an operation that is expected to succeed. -/
def expect {ε α β : Type} : Except ε α × β → Option (α × β)
  | (.ok value, state) => some (value, state)
  | (.error _, _) => none

section Iterate

variable (lc : LinkedChunk Item Gap)

/-- Iterating over the chunks creates the first one. -/
def iterChunks : Option (Cells Item Gap × LinkedChunk Item Gap) := do
  let (first, lc) := lc.firstChunkPtr
  let chunks ← lc.heap.walkForward lc.heap.length (some first)
  some (chunks, lc)

/-- The latest chunk, as iterating backwards over the chunks returns it first. -/
def latestChunk :
    Option (Chunk Item Gap × LinkedChunk Item Gap) := do
  let (latest, lc) := lc.latestChunkPtr
  let chunk ← lc.heap.read latest
  some (chunk, lc)

/-- Iterating over the items looks the first chunk up by its identifier. -/
def iterItems :
    Option (List (Position × Item) × LinkedChunk Item Gap) := do
  let (first, lc) := lc.firstChunkPtr
  let firstChunk ← lc.heap.read first
  let (found, lc) ← lc.chunkPtr firstChunk.value.identifier
  let pointer ← found
  let chunks ← lc.heap.walkForward lc.heap.length (some pointer)
  let items := chunks.flatMap fun chunk =>
    match chunk.2.content with
    | .gap _ => []
    | .items items => items.mapIdx fun index item => (⟨chunk.2.identifier, index⟩, item)
  some (items, lc)

def firstEventPosition :
    Option (Option Position × LinkedChunk Item Gap) := do
  let (items, lc) ← iterItems lc
  some (items.head?.map Prod.fst, lc)

end Iterate

section Edit

variable (cap : ℕ) (lc : LinkedChunk Item Gap)

/-- `EventLinkedChunk::replace_gap_at`: without events the gap is removed, unless it is the
only chunk. The result is where a new gap may be inserted. -/
def replaceGapAt (gapIdentifier : ℕ) (events : List Item) :
    Option (Outcome Item Gap (Option Position)) := do
  let (chunks, lc) ← iterChunks lc
  let hasOnlyOneChunk := chunks.tail.isEmpty
  if events.isEmpty && !hasOnlyOneChunk then lc.removeEmptyChunkAt gapIdentifier
  else
    match ← lc.replaceGapAt cap events gapIdentifier with
    | (.error e, lc) => some (.error e, lc)
    | (.ok pointer, lc) =>
      let chunk ← lc.heap.read pointer
      some (.ok (some (firstPosition chunk)), lc)

/-- An empty items chunk is of no use before a gap. -/
def pushGap (gap : Gap) : Option (LinkedChunk Item Gap) := do
  let (latest, lc) ← latestChunk lc
  let prevChunkToRemove :=
    if !latest.value.content.isGap && latest.value.content.numItems == 0
    then some latest.value.identifier else none
  let lc ← lc.pushGapBack gap
  match prevChunkToRemove with
  | none => some lc
  | some identifier => (lc.removeEmptyChunkAt identifier).bind fun r => (expect r).map Prod.snd

def pushLiveEvents (newGap : Option Gap) (events : List Item) :
    Option (LinkedChunk Item Gap) := do
  let lc ← match newGap with
    | none => some lc
    | some gap => pushGap lc gap
  lc.pushItemsBack cap events

/-- The events come first: they replace a gap, or are put in front of the first event, or
are all there is. The result is where a new gap may be inserted. -/
def insertPaginatedEvents (prevGapId : Option ℕ) (events : List Item) :
    Option (Option Position × LinkedChunk Item Gap) := do
  let (firstEventPos, lc) ← firstEventPosition lc
  match prevGapId with
  | some gapId => (replaceGapAt cap lc gapId events).bind expect
  | none =>
    match firstEventPos with
    | some position => do
      let (_, lc) ← (lc.insertItemsAt cap position events).bind expect
      some (some position, lc)
    | none => do
      let lc ← lc.pushItemsBack cap events
      firstEventPosition lc

def insertPaginatedGap (newGap : Option Gap) (insertNewGapPos : Option Position) :
    Option (LinkedChunk Item Gap) :=
  match newGap, insertNewGapPos with
  | none, _ => some lc
  | some gap, some position =>
    ((lc.insertGapAt cap gap position).bind expect).map Prod.snd
  | some gap, none => lc.pushGapBack gap

/-- The result says whether the start of the timeline is reached. -/
def pushBackwardsPaginationEvents (prevGapId : Option ℕ) (newGap : Option Gap)
    (events : List Item) : Option (Bool × LinkedChunk Item Gap) := do
  let (insertNewGapPos, lc) ← insertPaginatedEvents cap lc prevGapId events
  let lc ← insertPaginatedGap cap lc newGap insertNewGapPos
  let (chunks, lc) ← iterChunks lc
  let hasGaps := chunks.any fun chunk => chunk.2.content.isGap
  let (first, _) ← chunks.head?
  let firstChunk ← lc.heap.read first
  some (!hasGaps && isDefinitiveHead firstChunk, lc)

/-- The last chunk comes first, and in a chunk the last index. -/
def comesLater (a b : Position) : Prop :=
  b.chunkIdentifier < a.chunkIdentifier ∨
    a.chunkIdentifier = b.chunkIdentifier ∧ b.index ≤ a.index

instance : DecidableRel comesLater := fun a b =>
  inferInstanceAs (Decidable (b.chunkIdentifier < a.chunkIdentifier ∨
    a.chunkIdentifier = b.chunkIdentifier ∧ b.index ≤ a.index))

def sortPositionsDescending (positions : List Position) : List Position :=
  positions.insertionSort comesLater

/-- Remove one event after the other; the first error stops. -/
def removeItems : List Position → LinkedChunk Item Gap → Option (Outcome Item Gap Unit)
  | [], lc => some (.ok (), lc)
  | position :: positions, lc => do
    match ← lc.removeItemAt position with
    | (.error e, lc) => some (.error e, lc)
    | (.ok _, lc) => removeItems positions lc

def removeEventsByPosition (positions : List Position) : Option (Outcome Item Gap Unit) :=
  removeItems (sortPositionsDescending positions) lc

end Edit

namespace EventLinkedChunk

def withInitialLinkedChunk (linkedChunk : Option (LinkedChunk Item Gap))
    (fullLinkedChunkMetadata : Option (List ChunkMetadata)) :
    Option (EventLinkedChunk Item Gap) := do
  let lc := linkedChunk.getD newWithUpdateHistory
  let (vectordiffs, lc) ← asVector lc
  let (tracker, lc) ← OrderTrackers.orderTracker lc fullLinkedChunkMetadata
  some ⟨lc, vectordiffs, tracker⟩

def new : Option (EventLinkedChunk Item Gap) := withInitialLinkedChunk none none

variable (e : EventLinkedChunk Item Gap)

def reset : Option (EventLinkedChunk Item Gap) :=
  e.chunks.clear.map fun lc => { e with chunks := lc }

def eventOrder (position : Position) : Option (Option ℕ) :=
  e.orderTracker.ordering e.chunks position

def updatesAsVectorDiffs :
    Option (List (VectorDiff Item) × EventLinkedChunk Item Gap) := do
  let (updates, vectordiffs, lc) ← e.chunksUpdatesAsVectordiffs.take e.chunks
  let (tracker, lc) ← e.orderTracker.flushUpdates lc false
  some (updates, ⟨lc, vectordiffs, tracker⟩)

/-- The updates for the store. -/
def takeStoreUpdates : Option (List (Update Item Gap) × EventLinkedChunk Item Gap) :=
  (takeUpdates e.chunks).map fun (updates, lc) => (updates, { e with chunks := lc })

def flushOrderTracker (inhibit : Bool) : Option (EventLinkedChunk Item Gap) :=
  (e.orderTracker.flushUpdates e.chunks inhibit).map fun (tracker, lc) =>
    { e with chunks := lc, orderTracker := tracker }

/-- What `f` does to the linked chunk is hidden from the order tracker. -/
def inhibitUpdatesToOrderingTracker {α : Type} (e : EventLinkedChunk Item Gap)
    (f : EventLinkedChunk Item Gap → Option (α × EventLinkedChunk Item Gap)) :
    Option (α × EventLinkedChunk Item Gap) := do
  let e ← e.flushOrderTracker false
  let (r, e) ← f e
  let e ← e.flushOrderTracker true
  some (r, e)

def shrinkToLastReloadedChunk (cap : ℕ) (e : EventLinkedChunk Item Gap)
    (lastChunk : Option (RawChunk Item Gap)) (chunkIdentifierGenerator : ℕ)
    (fullLinkedChunkMetadata : Option (List ChunkMetadata)) :
    Option (Except LazyLoaderError Unit × EventLinkedChunk Item Gap) :=
  e.inhibitUpdatesToOrderingTracker fun e => do
    match ← replaceWith cap e.chunks lastChunk chunkIdentifierGenerator with
    | (.error err, lc) => some (.error err, { e with chunks := lc })
    | (.ok (), lc) =>
      let (_, lc) ← takeUpdates lc
      let (tracker, lc) ← OrderTrackers.orderTracker lc fullLinkedChunkMetadata
      some (.ok (), { e with chunks := lc, orderTracker := tracker })

def insertNewChunkAsFirst (cap : ℕ) (e : EventLinkedChunk Item Gap)
    (rawNewFirstChunk : RawChunk Item Gap) :
    Option (Except LazyLoaderError Unit × EventLinkedChunk Item Gap) :=
  e.inhibitUpdatesToOrderingTracker fun e =>
    (insertNewFirstChunk cap e.chunks rawNewFirstChunk).map fun (r, lc) =>
      (r, { e with chunks := lc })

end EventLinkedChunk

end MatrixSdk.EventLinkedChunks

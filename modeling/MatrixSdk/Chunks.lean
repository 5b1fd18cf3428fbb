import MatrixSdk.LinkedCells
import MatrixSdk.Updates

/-!
The linked chunk: a doubly linked list of chunks, each one a gap or at most `cap`
items, with the updates every mutation emits. Chunks are cells of an arena, so a
pointer that is followed after its chunk was freed is a `none`, as are a panic and a
walk that does not end. Identifiers and indexes are unbounded.
-/
namespace MatrixSdk.Chunks

open LinkedCells Updates

structure Position where
  chunkIdentifier : ℕ
  index : ℕ
deriving DecidableEq

inductive ChunkContent (Item Gap : Type) where
  | gap (content : Gap)
  | items (items : List Item)
deriving DecidableEq

/-- The fields of a chunk that are not its two links. -/
structure ChunkBody (Item Gap : Type) where
  lazyPrevious : Option ℕ
  identifier : ℕ
  content : ChunkContent Item Gap
deriving DecidableEq

abbrev Chunk (Item Gap : Type) := Cell (ChunkBody Item Gap)

inductive Update (Item Gap : Type) where
  | newItemsChunk (previous : Option ℕ) (new : ℕ) (next : Option ℕ)
  | newGapChunk (previous : Option ℕ) (new : ℕ) (next : Option ℕ) (gap : Gap)
  | removeChunk (identifier : ℕ)
  | pushItems (position : Position) (items : List Item)
  | replaceItem (position : Position) (item : Item)
  | removeItem (position : Position)
  | detachLastItems (position : Position)
  | startReattachItems
  | endReattachItems
  | clear
deriving DecidableEq

inductive Error where
  | invalidChunkIdentifier (identifier : ℕ)
  | chunkIsAGap (identifier : ℕ)
  | chunkIsItems (identifier : ℕ)
  | removingNonEmptyItemsChunk (identifier : ℕ)
  | removingLastChunk
  | invalidItemIndex (index : ℕ)
deriving DecidableEq

/-- `first` and `last` are the ends; `updates` is absent without an update history. -/
structure LinkedChunk (Item Gap : Type) where
  heap : Arena (ChunkBody Item Gap)
  first : Option ℕ
  last : Option ℕ
  chunkIdentifierGenerator : ℕ
  updates : Option (UpdatesInner (Update Item Gap))

variable {Item Gap : Type}

namespace ChunkContent

def isGap : ChunkContent Item Gap → Bool
  | .gap _ => true
  | .items _ => false

def numItems : ChunkContent Item Gap → ℕ
  | .gap _ => 0
  | .items current => current.length

end ChunkContent

variable (chunk : Chunk Item Gap)

def isFirstChunk : Bool := chunk.previous.isNone

def isLastChunk : Bool := chunk.next.isNone

def isDefinitiveHead : Bool :=
  chunk.previous.isNone && chunk.value.lazyPrevious.isNone

def firstPosition : Position := ⟨chunk.value.identifier, 0⟩

namespace LinkedChunk

def firstIdentifier : ℕ := 0

def new : LinkedChunk Item Gap := ⟨[], none, none, firstIdentifier, none⟩

def newWithUpdateHistory : LinkedChunk Item Gap :=
  ⟨[], none, none, firstIdentifier, some UpdatesInner.new⟩

variable (lc : LinkedChunk Item Gap)

def push (update : Update Item Gap) : LinkedChunk Item Gap :=
  { lc with updates := lc.updates.map fun inner => inner.push update }

def nextIdentifier : ℕ × LinkedChunk Item Gap :=
  (lc.chunkIdentifierGenerator + 1,
    { lc with chunkIdentifierGenerator := lc.chunkIdentifierGenerator + 1 })

/-- Box and leak a chunk that is not linked to anything. -/
def newLeaked (identifier : ℕ) (content : ChunkContent Item Gap) : ℕ × LinkedChunk Item Gap :=
  (lc.heap.length, { lc with heap := lc.heap.alloc ⟨none, identifier, content⟩ })

/-- The first chunk is created when it is first asked for. -/
def firstChunkPtr : ℕ × LinkedChunk Item Gap :=
  match lc.first with
  | some pointer => (pointer, lc)
  | none =>
    let lc := lc.push (.newItemsChunk none firstIdentifier none)
    let (pointer, lc) := lc.newLeaked firstIdentifier (.items [])
    (pointer, { lc with first := some pointer })

def latestChunkPtr : ℕ × LinkedChunk Item Gap :=
  match lc.last with
  | some pointer => (pointer, lc)
  | none => lc.firstChunkPtr

/-- Look for a chunk from the latest one backwards. -/
def chunkPtr (identifier : ℕ) :
    Option (Option ℕ × LinkedChunk Item Gap) := do
  let (latest, lc) := lc.latestChunkPtr
  let found ← lc.heap.findBackward (fun body => body.identifier == identifier)
    lc.heap.length (some latest)
  some (found, lc)

def identifierAt : Option ℕ → Option (Option ℕ)
  | none => some none
  | some pointer => (lc.heap.read pointer).map fun chunk => some chunk.value.identifier

def firstPositionAt : Option ℕ → Option (Option Position)
  | none => some none
  | some pointer => (lc.heap.read pointer).map fun chunk => some (firstPosition chunk)

def newChunkUpdate (previous : Option ℕ) (new : ℕ) (next : Option ℕ) :
    ChunkContent Item Gap → Update Item Gap
  | .gap gap => .newGapChunk previous new next gap
  | .items _ => .newItemsChunk previous new next

variable (pointer : ℕ)

def setContent (content : ChunkContent Item Gap) :
    Option (LinkedChunk Item Gap) := do
  let chunk ← lc.heap.read pointer
  let heap ← lc.heap.setValue pointer { chunk.value with content := content }
  some { lc with heap := heap }

def setLazyPrevious (lazyPrevious : Option ℕ) :
    Option (LinkedChunk Item Gap) := do
  let chunk ← lc.heap.read pointer
  let heap ← lc.heap.setValue pointer { chunk.value with lazyPrevious := lazyPrevious }
  some { lc with heap := heap }

variable (pointer new : ℕ)

/-- `Chunk::insert_next`, with the chunk to insert already leaked. -/
def insertNext :
    Option (LinkedChunk Item Gap) := do
  let heap ← lc.heap.linkAfter pointer new
  let lc := { lc with heap := heap }
  let chunk ← lc.heap.read new
  let previous ← lc.identifierAt chunk.previous
  let next ← lc.identifierAt chunk.next
  some (lc.push (newChunkUpdate previous chunk.value.identifier next chunk.value.content))

/-- Insert a chunk with the next identifier after `pointer`, and return its pointer. -/
def insertNextLeaked (content : ChunkContent Item Gap) :
    Option (ℕ × LinkedChunk Item Gap) := do
  let (identifier, lc) := lc.nextIdentifier
  let (new, lc) := lc.newLeaked identifier content
  let lc ← lc.insertNext pointer new
  some (new, lc)

/-- The links that `Chunk::insert_before` sets, and the update it emits. -/
def linkBefore :
    Option (LinkedChunk Item Gap) := do
  let heap ← lc.heap.linkBefore pointer new
  let lc := { lc with heap := heap }
  let chunk ← lc.heap.read new
  let previous ← lc.identifierAt chunk.previous
  let next ← lc.identifierAt chunk.next
  some (lc.push (newChunkUpdate (previous.or chunk.value.lazyPrevious) chunk.value.identifier
    next chunk.value.content))

/-- `Chunk::insert_before`: the first chunk hands its `lazy_previous` to the new one. -/
def insertBefore :
    Option (LinkedChunk Item Gap) := do
  let chunk ← lc.heap.read pointer
  match chunk.previous with
  | some _ => lc.linkBefore pointer new
  | none => do
    let lc ← lc.setLazyPrevious new chunk.value.lazyPrevious
    let lc ← lc.setLazyPrevious pointer none
    lc.linkBefore pointer new

/-- `Chunk::unlink`: the next chunk inherits the `lazy_previous`. -/
def unlink : Option (LinkedChunk Item Gap) := do
  let chunk ← lc.heap.read pointer
  let lc ← lc.setLazyPrevious pointer none
  let heap ← lc.heap.unlink pointer
  let lc := { lc with heap := heap }
  let lc ← match chunk.next with
    | some next => lc.setLazyPrevious next chunk.value.lazyPrevious
    | none => some lc
  some (lc.push (.removeChunk chunk.value.identifier))

/-- Re-box a chunk and drop it. -/
def free : LinkedChunk Item Gap :=
  { lc with heap := lc.heap.free pointer }

/-- Append items to an items chunk and say so. -/
def extendItems (pointer identifier : ℕ) (items new : List Item) :
    Option (LinkedChunk Item Gap) := do
  let lc ← lc.setContent pointer (.items (items ++ new))
  some (lc.push (.pushItems ⟨identifier, items.length⟩ new))

/-- `Chunk::push_items`: fill the chunk, then spill over into new chunks. It returns the
last chunk it pushed to. The fuel bounds the recursion, which does not end when `cap` is 0. -/
def pushItems (cap : ℕ) :
    ℕ → LinkedChunk Item Gap → ℕ → List Item → Option (ℕ × LinkedChunk Item Gap)
  | 0, _, _, _ => none
  | fuel + 1, lc, pointer, newItems =>
    if newItems.isEmpty then some (pointer, lc) else do
      let chunk ← lc.heap.read pointer
      match chunk.value.content with
      | .gap _ =>
        let (new, lc) ← lc.insertNextLeaked pointer (.items [])
        pushItems cap fuel lc new newItems
      | .items items =>
        let freeSpace := cap - items.length
        if newItems.length ≤ freeSpace then do
          let lc ← lc.extendItems pointer chunk.value.identifier items newItems
          some (pointer, lc)
        else do
          let lc ← if 0 < freeSpace then
              lc.extendItems pointer chunk.value.identifier items (newItems.take freeSpace)
            else some lc
          let (new, lc) ← lc.insertNextLeaked pointer (.items [])
          pushItems cap fuel lc new (newItems.drop freeSpace)

/-- `last` follows a chunk that is at the end and is not the first one. -/
def updateLast : Option (LinkedChunk Item Gap) := do
  let chunk ← lc.heap.read pointer
  if !isFirstChunk chunk && isLastChunk chunk then some { lc with last := some pointer }
  else some lc

/-- `Ends::clear`: every chunk is dropped, from the latest one backwards. -/
def clearLinks : Option (LinkedChunk Item Gap) := do
  let heap ← lc.heap.freeBackward lc.heap.length (lc.last.or lc.first)
  some { lc with heap := heap, first := none, last := none }

def clear : Option (LinkedChunk Item Gap) := do
  let lc ← lc.clearLinks
  let lc := { lc with
    chunkIdentifierGenerator := firstIdentifier
    updates := lc.updates.map UpdatesInner.clearPending }
  some (lc.push .clear)

variable (cap : ℕ) (lc : LinkedChunk Item Gap)

def pushItemsBack (items : List Item) :
    Option (LinkedChunk Item Gap) := do
  let (latest, lc) := lc.latestChunkPtr
  let (pointer, lc) ← pushItems cap (items.length + 1) lc latest items
  let chunk ← lc.heap.read pointer
  -- the `debug_assert!` on the chunk that was pushed to last
  if isLastChunk chunk then
    if isFirstChunk chunk then some lc else some { lc with last := some pointer }
  else none

def pushGapBack (content : Gap) : Option (LinkedChunk Item Gap) := do
  let (latest, lc) := lc.latestChunkPtr
  let (_, lc) ← lc.insertNextLeaked latest (.gap content)
  let chunk ← lc.heap.read latest
  some { lc with last := chunk.next }

/-- Operations that can fail keep the state they failed in. -/
abbrev Outcome (Item Gap α : Type) := Except Error α × LinkedChunk Item Gap

/-- What the operations on a position have in common: the chunk is looked up, and it must
hold items. -/
def withItems {α : Type} (lc : LinkedChunk Item Gap) (identifier : ℕ)
    (operation : ℕ → Chunk Item Gap → List Item → LinkedChunk Item Gap →
      Option (Outcome Item Gap α)) : Option (Outcome Item Gap α) := do
  let (found, lc) ← lc.chunkPtr identifier
  match found with
  | none => some (.error (.invalidChunkIdentifier identifier), lc)
  | some pointer =>
    let chunk ← lc.heap.read pointer
    match chunk.value.content with
    | .gap _ => some (.error (.chunkIsAGap identifier), lc)
    | .items current => operation pointer chunk current lc

variable (position : Position)

def insertItemsAt (items : List Item) : Option (Outcome Item Gap Unit) :=
  lc.withItems position.chunkIdentifier fun pointer _ current lc => do
    if current.length < position.index then
      some (.error (.invalidItemIndex position.index), lc)
    else if position.index = current.length then
      let (pointer, lc) ← pushItems cap (items.length + 1) lc pointer items
      let lc ← lc.updateLast pointer
      some (.ok (), lc)
    else
      let lc := lc.push (.detachLastItems position)
      let detached := current.drop position.index
      let lc ← lc.setContent pointer (.items (current.take position.index))
      let (pointer, lc) ← pushItems cap (items.length + 1) lc pointer items
      let lc := lc.push .startReattachItems
      let (pointer, lc) ← pushItems cap (detached.length + 1) lc pointer detached
      let lc := lc.push .endReattachItems
      let lc ← lc.updateLast pointer
      some (.ok (), lc)

def removeItemAt : Option (Outcome Item Gap Item) :=
  lc.withItems position.chunkIdentifier fun pointer chunk current lc => do
    match current[position.index]? with
    | none => some (.error (.invalidItemIndex position.index), lc)
    | some removed =>
      let remaining := current.eraseIdx position.index
      let lc ← lc.setContent pointer (.items remaining)
      let lc := lc.push (.removeItem position)
      if remaining.isEmpty && !isFirstChunk chunk then
        let lc ← lc.unlink pointer
        let lc := if isLastChunk chunk then { lc with last := chunk.previous } else lc
        some (.ok removed, lc.free pointer)
      else some (.ok removed, lc)

def replaceItemAt (item : Item) : Option (Outcome Item Gap Unit) :=
  lc.withItems position.chunkIdentifier fun pointer _ current lc => do
    if current.length ≤ position.index then
      some (.error (.invalidItemIndex position.index), lc)
    else
      let lc := lc.push (.replaceItem position item)
      let lc ← lc.setContent pointer (.items (current.set position.index item))
      some (.ok (), lc)

def insertGapAt (content : Gap) (position : Position) : Option (Outcome Item Gap Unit) :=
  lc.withItems position.chunkIdentifier fun pointer chunk current lc => do
    if position.index = 0 then
      let (identifier, lc) := lc.nextIdentifier
      let (new, lc) := lc.newLeaked identifier (.gap content)
      let lc ← lc.insertBefore pointer new
      let lc := if isFirstChunk chunk then
          { lc with
            first := some new
            last := if isLastChunk chunk then some pointer else lc.last }
        else lc
      some (.ok (), lc)
    else if current.length ≤ position.index then
      some (.error (.invalidItemIndex position.index), lc)
    else
      let lc := lc.push (.detachLastItems position)
      let detached := current.drop position.index
      let lc ← lc.setContent pointer (.items (current.take position.index))
      let (pointer, lc) ← lc.insertNextLeaked pointer (.gap content)
      let lc := lc.push .startReattachItems
      let (pointer, lc) ← lc.insertNextLeaked pointer (.items [])
      let (pointer, lc) ← pushItems cap (detached.length + 1) lc pointer detached
      let lc := lc.push .endReattachItems
      let lc ← lc.updateLast pointer
      some (.ok (), lc)

/-- The result is the first position of the chunk that follows the removed one. -/
def removeEmptyChunkAt (chunkIdentifier : ℕ) :
    Option (Outcome Item Gap (Option Position)) := do
  let (first, lc) := lc.firstChunkPtr
  let firstChunk ← lc.heap.read first
  if isLastChunk firstChunk then some (.error .removingLastChunk, lc) else do
    let (found, lc) ← lc.chunkPtr chunkIdentifier
    match found with
    | none => some (.error (.invalidChunkIdentifier chunkIdentifier), lc)
    | some pointer =>
      let chunk ← lc.heap.read pointer
      if 0 < chunk.value.content.numItems then
        some (.error (.removingNonEmptyItemsChunk chunkIdentifier), lc)
      else
        let positionOfNext ← lc.firstPositionAt chunk.next
        let lc ← lc.unlink pointer
        let lc := if isFirstChunk chunk && chunk.next.isSome then { lc with first := chunk.next }
          else lc
        let lc := if isLastChunk chunk then { lc with last := chunk.previous } else lc
        some (.ok positionOfNext, lc.free pointer)

/-- The result is the pointer of the chunk that holds the first of the items. -/
def replaceGapAt (items : List Item) (chunkIdentifier : ℕ) :
    Option (Outcome Item Gap ℕ) := do
  let (found, lc) ← lc.chunkPtr chunkIdentifier
  match found with
  | none => some (.error (.invalidChunkIdentifier chunkIdentifier), lc)
  | some pointer =>
    let chunk ← lc.heap.read pointer
    if !chunk.value.content.isGap then some (.error (.chunkIsItems chunkIdentifier), lc) else do
      let (inserted, lc) ← lc.insertNextLeaked pointer (.items [])
      let (lastInserted, lc) ← pushItems cap (items.length + 1) lc inserted items
      let lastChunk ← lc.heap.read lastInserted
      let gapChunk ← lc.heap.read pointer
      let new ← gapChunk.next
      let lc ← lc.unlink pointer
      let lc := if isFirstChunk chunk then { lc with first := some new } else lc
      let lc := if isLastChunk lastChunk then { lc with last := some lastInserted } else lc
      some (.ok new, lc.free pointer)

end LinkedChunk

end MatrixSdk.Chunks

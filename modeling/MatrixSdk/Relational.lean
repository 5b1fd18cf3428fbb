import MatrixSdk.FirstMatches
import MatrixSdk.LazyLoader
import Mathlib.Data.Finset.Basic
import Mathlib.Data.List.Sort

/-!
The relational linked chunk: the layout of a database, for several linked chunks at
once. Chunks and items are rows in no particular order; the links of a chunk are
columns of its row. It is written by applying the updates of a linked chunk.
-/
namespace MatrixSdk.Relational

open Chunks LazyLoader KeyedMaps FirstMatches KeyedMap

structure ChunkRow (Lid : Type) where
  linkedChunkId : Lid
  previousChunk : Option ℕ
  chunk : ℕ
  nextChunk : Option ℕ
deriving DecidableEq

inductive Either (ItemId Gap : Type) where
  | item (id : ItemId)
  | gap (content : Gap)
deriving DecidableEq

structure ItemRow (Lid ItemId Gap : Type) where
  linkedChunkId : Lid
  position : Position
  item : Either ItemId Gap
deriving DecidableEq

class IndexableItem (Item : Type) (ItemId : outParam Type) where
  id : Item → ItemId

/-- An item given by its identifier and its content. -/
instance {ItemId Content : Type} : IndexableItem (ItemId × Content) ItemId := ⟨Prod.fst⟩

inductive RelationalLinkedChunkError where
  | invalidChunkIdentifier (identifier : ℕ)
  | itemAlreadyInLinkedChunk
  | positionAlreadyOccupied
deriving DecidableEq

/-- What is known about the items of one linked chunk, with their positions. -/
abbrev ItemMap (ItemId Item : Type) := KeyedMap ItemId (Item × Option Position)

structure RelationalLinkedChunk (Lid ItemId Item Gap : Type) where
  chunks : List (ChunkRow Lid)
  itemsChunks : List (ItemRow Lid ItemId Gap)
  itemsPositions : Finset (Lid × Position)
  items : KeyedMap Lid (ItemMap ItemId Item)

section Chunks

variable {Lid : Type} [DecidableEq Lid] (chunks : List (ChunkRow Lid)) (linkedChunkId : Lid)

/-- Change the row of a chunk, if there is a chunk to change. -/
def linkRow (identifier : Option ℕ) (f : ChunkRow Lid → ChunkRow Lid) :
    Option (List (ChunkRow Lid)) :=
  match identifier with
  | none => some chunks
  | some identifier =>
    modifyFirst (fun row => row.linkedChunkId = linkedChunkId && row.chunk = identifier) f chunks

/-- A missing previous chunk is noticed before the next chunk is looked for, and a missing
next chunk after the previous one was linked. -/
def insertChunk (previous : Option ℕ) (new : ℕ) (next : Option ℕ) :
    Except RelationalLinkedChunkError Unit × List (ChunkRow Lid) :=
  match linkRow chunks linkedChunkId previous fun row => { row with nextChunk := some new } with
  | none => (.error (.invalidChunkIdentifier (previous.getD 0)), chunks)
  | some chunks =>
    match linkRow chunks linkedChunkId next fun row => { row with previousChunk := some new } with
    | none => (.error (.invalidChunkIdentifier (next.getD 0)), chunks)
    | some chunks => (.ok (), chunks ++ [⟨linkedChunkId, previous, new, next⟩])

/-- `none` is the panic on a chunk that is not there. -/
def removeChunk (chunkToRemove : ℕ) :
    Option (List (ChunkRow Lid)) := do
  let (removed, chunks) ← removeFirst
    (fun row => row.linkedChunkId = linkedChunkId && row.chunk = chunkToRemove) chunks
  let chunks ← linkRow chunks removed.linkedChunkId removed.previousChunk
    fun row => { row with nextChunk := removed.nextChunk }
  linkRow chunks removed.linkedChunkId removed.nextChunk
    fun row => { row with previousChunk := removed.previousChunk }

end Chunks

namespace RelationalLinkedChunk

variable {Lid ItemId Item Gap : Type} [DecidableEq Lid] [DecidableEq ItemId]

def new : RelationalLinkedChunk Lid ItemId Item Gap := ⟨[], [], ∅, ∅⟩

variable (store : RelationalLinkedChunk Lid ItemId Item Gap) (linkedChunkId : Lid)

/-- The items of a linked chunk, if it has any entry. -/
def itemsOf : ItemMap ItemId Item :=
  (store.items.lookup linkedChunkId).getD ∅

def lookup (id : ItemId) : Option (Item × Option Position) :=
  (store.itemsOf linkedChunkId).lookup id

/-- `entry(..).or_default()`, then a change. -/
def upsertItems (f : ItemMap ItemId Item → ItemMap ItemId Item) :
    RelationalLinkedChunk Lid ItemId Item Gap :=
  { store with items := store.items.insert linkedChunkId (f (store.itemsOf linkedChunkId)) }

/-- `entry(..).and_modify(..)`. -/
def modifyItems (f : Item × Option Position → Item × Option Position) :
    RelationalLinkedChunk Lid ItemId Item Gap :=
  { store with
    items := mapValues (fun candidate items =>
      if candidate = linkedChunkId then mapValues (fun _ e => f e) items else items)
      store.items }

section

variable (lid other : Lid)
include store lid other

@[simp]
theorem lookup_upsertItems (f : ItemMap ItemId Item → ItemMap ItemId Item) (id : ItemId) :
    (store.upsertItems lid f).lookup other id =
      if other = lid then (f (store.itemsOf lid)).lookup id else store.lookup other id := by
  by_cases h : other = lid
  · subst h
    simp [lookup, itemsOf, upsertItems]
  · simp [lookup, itemsOf, upsertItems, AList.lookup_insert_ne h, h]

@[simp]
theorem lookup_modifyItems (f : Item × Option Position → Item × Option Position) (id : ItemId) :
    (store.modifyItems lid f).lookup other id =
      if other = lid then (store.lookup lid id).map f else store.lookup other id := by
  simp only [lookup, itemsOf, modifyItems, lookup_mapValues]
  by_cases h : other = lid
  · subst h
    cases store.items.lookup other <;> simp
  · cases store.items.lookup other <;> simp [h]

end

section Write

variable [IndexableItem Item ItemId]

/-- The item is updated wherever else it is known. -/
def refreshItem (item : Item) : RelationalLinkedChunk Lid ItemId Item Gap :=
  { store with
    items := mapValues (fun _ items => mapValues
      (fun id e => if id = IndexableItem.id item then (item, e.2) else e) items) store.items }

@[simp]
theorem lookup_refreshItem (item : Item) (lid : Lid) (id : ItemId) :
    (store.refreshItem item).lookup lid id =
      (store.lookup lid id).map fun e => if id = IndexableItem.id item then (item, e.2) else e := by
  simp only [lookup, itemsOf, refreshItem, lookup_mapValues]
  cases store.items.lookup lid <;> simp

variable (position : Position)

/-- The item is stored at a position of one linked chunk, and refreshed in all of them. -/
def placeItem (item : Item) : RelationalLinkedChunk Lid ItemId Item Gap :=
  (store.upsertItems linkedChunkId fun items =>
    items.insert (IndexableItem.id item) (item, some position)).refreshItem item

theorem lookup_placeItem (lid other : Lid) (position : Position) (item : Item) (id : ItemId) :
    (store.placeItem lid position item).lookup other id =
      if id = IndexableItem.id item then
        if other = lid then some (item, some position)
        else (store.lookup other id).map fun e => (item, e.2)
      else store.lookup other id := by
  rw [placeItem, lookup_refreshItem, lookup_upsertItems]
  by_cases hother : other = lid
  · subst hother
    by_cases hid : id = IndexableItem.id item
    · subst hid
      simp
    · rw [if_pos rfl, AList.lookup_insert_ne hid, if_neg hid]
      cases hlookup : store.lookup other id <;> simp_all [lookup]
  · by_cases hid : id = IndexableItem.id item
    · simp [hother, hid]
    · cases store.lookup other id <;> simp [hother, hid]

def pushItem (item : Item) :
    Except RelationalLinkedChunkError Unit × RelationalLinkedChunk Lid ItemId Item Gap :=
  let itemId := IndexableItem.id item
  let store := store.upsertItems linkedChunkId fun items => items
  if ((store.lookup linkedChunkId itemId).bind Prod.snd).isSome then
    (.error .itemAlreadyInLinkedChunk, store)
  else if (linkedChunkId, position) ∈ store.itemsPositions then
    (.error .positionAlreadyOccupied, store)
  else
    let row : ItemRow Lid ItemId Gap := ⟨linkedChunkId, position, .item itemId⟩
    let store := { store with
      itemsPositions := insert (linkedChunkId, position) store.itemsPositions
      itemsChunks := store.itemsChunks ++ [row] }
    (.ok (), store.placeItem linkedChunkId position item)

/-- Items go to consecutive positions; the first error stops. -/
def pushItems (store : RelationalLinkedChunk Lid ItemId Item Gap) (linkedChunkId : Lid)
    (position : Position) :
    List Item → Except RelationalLinkedChunkError Unit × RelationalLinkedChunk Lid ItemId Item Gap
  | [] => (.ok (), store)
  | item :: items =>
    match store.pushItem linkedChunkId position item with
    | (.error e, store) => (.error e, store)
    | (.ok (), store) =>
      store.pushItems linkedChunkId ⟨position.chunkIdentifier, position.index + 1⟩ items

/-- The row is found by its position alone. `none` when there is none, or when it is a gap. -/
def replaceItem (item : Item) :
    Option (RelationalLinkedChunk Lid ItemId Item Gap) := do
  let existing ← store.itemsChunks.find? fun row => row.position = position
  match existing.item with
  | .gap _ => none
  | .item _ =>
    let itemId := IndexableItem.id item
    let itemsChunks ← modifyFirst (fun row => row.position = position)
      (fun row => { row with item := .item itemId }) store.itemsChunks
    some ({ store with itemsChunks := itemsChunks }.placeItem linkedChunkId position item)

end Write

/-- What removing the item at a position does to the positions of its chunk. -/
def shiftAfter (position candidate : Position) : Position :=
  if candidate.chunkIdentifier = position.chunkIdentifier ∧ position.index < candidate.index then
    ⟨candidate.chunkIdentifier, candidate.index - 1⟩
  else candidate

/-- `none` is the panic on an item that is not there, or that is there twice. -/
def removeItem (position : Position) : Option (RelationalLinkedChunk Lid ItemId Item Gap) := do
  let isEntry (row : ItemRow Lid ItemId Gap) : Bool :=
    row.linkedChunkId = linkedChunkId && row.position = position
  let largest ← (store.itemsChunks.filterMap fun row =>
    if row.linkedChunkId = linkedChunkId ∧
        row.position.chunkIdentifier = position.chunkIdentifier
    then some row.position.index else none).max?
  if (store.itemsChunks.filter isEntry).length ≠ 1 then none
  else
    let (_, rows) ← removeFirst isEntry store.itemsChunks
    let rows := rows.map fun row =>
      if row.linkedChunkId = linkedChunkId then
        { row with position := shiftAfter position row.position }
      else row
    let store := { store with
      itemsChunks := rows
      itemsPositions :=
        store.itemsPositions.erase (linkedChunkId, ⟨position.chunkIdentifier, largest⟩) }
    some (store.modifyItems linkedChunkId fun e =>
      (e.1, e.2.bind fun candidate =>
        if candidate = position then none else some (shiftAfter position candidate)))

/-- The position is at or after the given one, in the same chunk. -/
def isDetached (position candidate : Position) : Bool :=
  candidate.chunkIdentifier = position.chunkIdentifier && position.index ≤ candidate.index

def detachLastItems (position : Position) : RelationalLinkedChunk Lid ItemId Item Gap :=
  let isRemoved (row : ItemRow Lid ItemId Gap) : Bool :=
    row.linkedChunkId = linkedChunkId && isDetached position row.position
  let removed := (store.itemsChunks.filter isRemoved).map fun row =>
    (linkedChunkId, row.position)
  let store := { store with
    itemsChunks := store.itemsChunks.filter fun row => !isRemoved row
    itemsPositions := store.itemsPositions.filter fun p => p ∉ removed }
  store.modifyItems linkedChunkId fun e =>
    (e.1, e.2.bind fun candidate => if isDetached position candidate then none else some candidate)

def clearItems : RelationalLinkedChunk Lid ItemId Item Gap :=
  { store with
    chunks := store.chunks.filter fun row => row.linkedChunkId ≠ linkedChunkId
    itemsChunks := store.itemsChunks.filter fun row => row.linkedChunkId ≠ linkedChunkId
    itemsPositions := store.itemsPositions.filter fun p => p.1 ≠ linkedChunkId }.modifyItems
      linkedChunkId fun e => (e.1, none)

section Apply

variable [IndexableItem Item ItemId]

/-- `none` is a panic. -/
def applyUpdate :
    Update Item Gap → Option
      (Except RelationalLinkedChunkError Unit × RelationalLinkedChunk Lid ItemId Item Gap)
  | .newItemsChunk previous new next =>
    let (result, chunks) := insertChunk store.chunks linkedChunkId previous new next
    some (result, { store with chunks := chunks })
  | .newGapChunk previous new next gap =>
    match insertChunk store.chunks linkedChunkId previous new next with
    | (.error e, chunks) => some (.error e, { store with chunks := chunks })
    | (.ok (), chunks) => some (.ok (), { store with
        chunks := chunks
        itemsChunks := store.itemsChunks ++ [⟨linkedChunkId, ⟨new, 0⟩, .gap gap⟩] })
  | .removeChunk identifier => do
    let chunks ← removeChunk store.chunks linkedChunkId identifier
    some (.ok (), { store with
      chunks := chunks
      itemsChunks := store.itemsChunks.filter fun row =>
        !(row.linkedChunkId = linkedChunkId && row.position.chunkIdentifier = identifier) })
  | .pushItems position items => some (store.pushItems linkedChunkId position items)
  | .replaceItem position item =>
    (store.replaceItem linkedChunkId position item).map fun store => (.ok (), store)
  | .removeItem position =>
    (store.removeItem linkedChunkId position).map fun store => (.ok (), store)
  | .detachLastItems position => some (.ok (), store.detachLastItems linkedChunkId position)
  | .startReattachItems | .endReattachItems => some (.ok (), store)
  | .clear => some (.ok (), store.clearItems linkedChunkId)

/-- The first error stops, and what was written before it stays. -/
def applyUpdates (store : RelationalLinkedChunk Lid ItemId Item Gap) (linkedChunkId : Lid) :
    List (Update Item Gap) → Option
      (Except RelationalLinkedChunkError Unit × RelationalLinkedChunk Lid ItemId Item Gap)
  | [] => some (.ok (), store)
  | update :: updates => do
    match ← store.applyUpdate linkedChunkId update with
    | (.error e, store) => some (.error e, store)
    | (.ok (), store) => store.applyUpdates linkedChunkId updates

end Apply

/-- The rows of a chunk. -/
def rowsOfChunk (chunk : ℕ) : List (ItemRow Lid ItemId Gap) :=
  store.itemsChunks.filter fun row =>
    row.linkedChunkId = linkedChunkId && row.position.chunkIdentifier = chunk

/-- The items of a chunk with their indexes, unless one of the rows is a gap. -/
def collectItems (chunk : ℕ) :
    List (ItemRow Lid ItemId Gap) → Except String (List (ItemId × ℕ))
  | [] => .ok []
  | row :: rows =>
    match row.item with
    | .gap _ => .error ("unexpected gap in items chunk " ++ toString chunk)
    | .item id => (collectItems chunk rows).map ((id, row.position.index) :: ·)

def loadRawChunk (chunkRow : ChunkRow Lid) (linkedChunkId : Lid) :
    Except String (RawChunk Item Gap) :=
  let raw (content : ChunkContent Item Gap) : RawChunk Item Gap :=
    ⟨content, chunkRow.previousChunk, chunkRow.chunk, chunkRow.nextChunk⟩
  match store.rowsOfChunk linkedChunkId chunkRow.chunk with
  | [] => .ok (raw (.items []))
  | first :: rest =>
    match first.item with
    | .item _ =>
      (collectItems chunkRow.chunk (first :: rest)).map fun collected =>
        raw (.items ((collected.insertionSort fun a b => a.2 ≤ b.2).filterMap fun a =>
          (store.lookup linkedChunkId a.1).map Prod.fst))
    | .gap gap =>
      if rest.isEmpty then .ok (raw (.gap gap))
      else .error ("there shouldn't be more than one item row attached in gap chunk " ++
        toString chunkRow.chunk)

def loadRawChunkMetadata (chunkRow : ChunkRow Lid) (linkedChunkId : Lid) :
    Except String ChunkMetadata :=
  let metadata (numItems : ℕ) : ChunkMetadata :=
    ⟨chunkRow.chunk, numItems, chunkRow.previousChunk, chunkRow.nextChunk⟩
  match store.rowsOfChunk linkedChunkId chunkRow.chunk with
  | [] => .ok (metadata 0)
  | first :: rest =>
    match first.item with
    | .item _ =>
      (collectItems chunkRow.chunk (first :: rest)).map fun collected => metadata collected.length
    | .gap _ =>
      if rest.isEmpty then .ok (metadata 0)
      else .error ("there shouldn't be more than one item row attached in gap chunk " ++
        toString chunkRow.chunk)

def chunkRows : List (ChunkRow Lid) :=
  store.chunks.filter fun row => row.linkedChunkId = linkedChunkId

def loadAllChunks : Except String (List (RawChunk Item Gap)) :=
  (store.chunkRows linkedChunkId).mapM fun row => store.loadRawChunk row linkedChunkId

def loadAllChunksMetadata : Except String (List ChunkMetadata) :=
  (store.chunkRows linkedChunkId).mapM fun row => store.loadRawChunkMetadata row linkedChunkId

/-- The last chunk, with the counter of the generator. -/
def loadLastChunk : Except String (Option (RawChunk Item Gap) × ℕ) :=
  let rows := store.chunkRows linkedChunkId
  let generator := (rows.map ChunkRow.chunk).max?.getD LinkedChunk.firstIdentifier
  match rows.find? fun row => row.nextChunk.isNone with
  | some row => (store.loadRawChunk row linkedChunkId).map fun raw => (some raw, generator)
  | none =>
    if rows.isEmpty then .ok (none, generator)
    else .error "last chunk is not found but chunks exist: the linked chunk contains a cycle"

def loadPreviousChunk (beforeChunkIdentifier : ℕ) :
    Except String (Option (RawChunk Item Gap)) :=
  match (store.chunkRows linkedChunkId).find? fun row =>
      row.nextChunk = some beforeChunkIdentifier with
  | none => .ok none
  | some row => (store.loadRawChunk row linkedChunkId).map some

end RelationalLinkedChunk

end MatrixSdk.Relational

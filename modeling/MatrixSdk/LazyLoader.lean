import MatrixSdk.Chunks

/-!
Loading a linked chunk bit by bit: from its last chunk, then one chunk at a time in
front of the first one. What precedes the first loaded chunk is only known by its
identifier, the `lazy_previous` of that chunk.
-/
namespace MatrixSdk.LazyLoader

open Updates Chunks

structure RawChunk (Item Gap : Type) where
  content : ChunkContent Item Gap
  previous : Option ℕ
  identifier : ℕ
  next : Option ℕ
deriving DecidableEq

/-- What is known of a chunk without its content. -/
structure ChunkMetadata where
  identifier : ℕ
  numItems : ℕ
  previous : Option ℕ
  next : Option ℕ
deriving DecidableEq

inductive LazyLoaderError where
  | chunkIsNotLast (id : ℕ)
  | cycle (newChunk withChunk : ℕ)
  | missingNextChunk (id : ℕ)
  | cannotConnectTwoChunks (newChunk withChunk : ℕ)
  | chunkTooLarge (id : ℕ)
deriving DecidableEq

variable {Item Gap : Type}

def fromLastChunk (cap : ℕ) (chunk : Option (RawChunk Item Gap)) (chunkIdentifierGenerator : ℕ) :
    Except LazyLoaderError (Option (LinkedChunk Item Gap)) :=
  match chunk with
  | none => .ok none
  | some chunk =>
    if cap < chunk.content.numItems then .error (.chunkTooLarge chunk.identifier)
    else if chunk.next.isSome then .error (.chunkIsNotLast chunk.identifier)
    else .ok (some {
      heap := [some ⟨none, none, ⟨chunk.previous, chunk.identifier, chunk.content⟩⟩]
      first := some 0
      last := none
      chunkIdentifierGenerator := chunkIdentifierGenerator
      updates := some UpdatesInner.new })

variable (lc : LinkedChunk Item Gap)

/-- The updates of a chunk that was put in front of everything else. -/
def emitNewFirstChunkUpdates (pointer : ℕ) :
    Option (LinkedChunk Item Gap) := do
  let chunk ← lc.heap.read pointer
  let previous ← lc.identifierAt chunk.previous
  let next ← lc.identifierAt chunk.next
  let previous := previous.or chunk.value.lazyPrevious
  match chunk.value.content with
  | .gap gap => some (lc.push (.newGapChunk previous chunk.value.identifier next gap))
  | .items items =>
    let lc := lc.push (.newItemsChunk previous chunk.value.identifier next)
    some (lc.push (.pushItems (firstPosition chunk) items))

/-- The chunk among the loaded ones that a new first chunk would lead back to. -/
def findCycle (newFirstChunk : RawChunk Item Gap) : Option (Option ℕ × LinkedChunk Item Gap) :=
  match newFirstChunk.previous with
  | none => some (none, lc)
  | some previous => do
    let (first, lc) := lc.firstChunkPtr
    let chunks ← lc.heap.walkForward lc.heap.length (some first)
    some (if chunks.any fun chunk => chunk.2.identifier == previous then some previous else none,
      lc)

/-- Link a chunk in front of the first one; both `debug_assert!`s are on its `previous`. -/
def linkFirstChunk (first : ℕ) (newFirstChunk : RawChunk Item Gap) :
    Option (LinkedChunk Item Gap) := do
  let (pointer, lc) := lc.newLeaked newFirstChunk.identifier newFirstChunk.content
  let firstChunk ← lc.heap.read first
  if isFirstChunk firstChunk then do
    let lc ← lc.setLazyPrevious first none
    let lc ← lc.setLazyPrevious pointer newFirstChunk.previous
    let heap ← lc.heap.linkBefore first pointer
    let lc := { lc with heap := heap, first := some pointer, last := lc.last.or (some first) }
    emitNewFirstChunkUpdates lc pointer
  else none

def insertNewFirstChunk (cap : ℕ) (lc : LinkedChunk Item Gap)
    (newFirstChunk : RawChunk Item Gap) :
    Option (Except LazyLoaderError Unit × LinkedChunk Item Gap) :=
  if cap < newFirstChunk.content.numItems then
    some (.error (.chunkTooLarge newFirstChunk.identifier), lc)
  else do
    let (cycle, lc) ← findCycle lc newFirstChunk
    match cycle with
    | some previous => some (.error (.cycle newFirstChunk.identifier previous), lc)
    | none =>
      let (first, lc) := lc.firstChunkPtr
      let firstChunk ← lc.heap.read first
      let expectedNext := firstChunk.value.identifier
      match newFirstChunk.next with
      | none => some (.error (.missingNextChunk newFirstChunk.identifier), lc)
      | some next =>
        if next ≠ expectedNext then
          some (.error (.cannotConnectTwoChunks newFirstChunk.identifier expectedNext), lc)
        else if firstChunk.value.lazyPrevious ≠ some newFirstChunk.identifier then
          some (.error (.cannotConnectTwoChunks expectedNext newFirstChunk.identifier), lc)
        else do
          let lc ← linkFirstChunk lc first newFirstChunk
          some (.ok (), lc)

/-- The loaded chunks are dropped and the given one becomes the only chunk. -/
def replaceWith (cap : ℕ) (lc : LinkedChunk Item Gap) (chunk : Option (RawChunk Item Gap))
    (chunkIdentifierGenerator : ℕ) :
    Option (Except LazyLoaderError Unit × LinkedChunk Item Gap) :=
  match chunk with
  | none => lc.clear.map fun lc => (.ok (), lc)
  | some chunk =>
    if cap < chunk.content.numItems then some (.error (.chunkTooLarge chunk.identifier), lc)
    else if chunk.next.isSome then some (.error (.chunkIsNotLast chunk.identifier), lc)
    else do
      let lc := { lc with chunkIdentifierGenerator := chunkIdentifierGenerator }
      let (pointer, lc) := lc.newLeaked chunk.identifier chunk.content
      let lc ← lc.setLazyPrevious pointer chunk.previous
      let lc ← lc.clearLinks
      let lc := { lc with
        first := some pointer
        updates := lc.updates.map UpdatesInner.clearPending }
      let lc ← emitNewFirstChunkUpdates (lc.push .clear) pointer
      some (.ok (), lc)

end MatrixSdk.LazyLoader

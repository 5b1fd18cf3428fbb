import MatrixSdk.Chunks

/-!
The linked chunk seen as a vector. The mapper turns the updates into diffs of a vector
and keeps nothing but the identifier and the length of every chunk. Applying a diff whose
index is out of range is an error, and so is an update on a chunk the mapper does not
know.
-/
namespace MatrixSdk.VectorDiffs

open Chunks

/-- The diffs that the mapper emits. -/
inductive VectorDiff (Item : Type) where
  | append (values : List Item)
  | clear
  | insert (index : ℕ) (value : Item)
  | remove (index : ℕ)
  | set (index : ℕ) (value : Item)
deriving DecidableEq

variable {Item Gap : Type}

/-- `none` when the index is out of range. -/
def VectorDiff.apply (vector : List Item) : VectorDiff Item → Option (List Item)
  | .append values => some (vector ++ values)
  | .clear => some []
  | .insert index value =>
    if index ≤ vector.length then some (vector.insertIdx index value) else none
  | .remove index => if index < vector.length then some (vector.eraseIdx index) else none
  | .set index value => if index < vector.length then some (vector.set index value) else none

def applyAll (vector : List Item) : List (VectorDiff Item) → Option (List Item)
  | [] => some vector
  | diff :: diffs => do
    let vector ← diff.apply vector
    applyAll vector diffs

/-- The chunks with their lengths, and the two flags of one run of `map`. -/
structure Mapping where
  chunks : List (ℕ × ℕ)
  reattaching : Bool
  detaching : Bool
deriving DecidableEq

/-- The offset of a position in the vector, with the index and the length of its chunk;
`none` is the panic for an unknown chunk. -/
def mapToOffset : List (ℕ × ℕ) → Position → Option (ℕ × ℕ × ℕ)
  | [], _ => none
  | (identifier, length) :: rest, position =>
    if identifier = position.chunkIdentifier then some (position.index, 0, length)
    else (mapToOffset rest position).map fun (offset, index, found) =>
      (length + offset, index + 1, found)

def setLength (chunks : List (ℕ × ℕ)) (index length : ℕ) : List (ℕ × ℕ) :=
  chunks.modify index fun chunk => (chunk.1, length)

def mapNewChunk (chunks : List (ℕ × ℕ)) (previous : Option ℕ) (new : ℕ) (next : Option ℕ) :
    Option (List (ℕ × ℕ)) :=
  match previous, next with
  | some _, none => some (chunks ++ [(new, 0)])
  | none, some next =>
    if chunks.head?.map Prod.fst = some next then some ((new, 0) :: chunks) else none
  | some _, some next => do
    let index ← chunks.findIdx? fun chunk => chunk.1 == next
    some (chunks.insertIdx index (new, 0))
  | none, none => if chunks.isEmpty then some (chunks ++ [(new, 0)]) else none

/-- One turn of the loop in `UpdateToVectorDiff::map`. -/
def mapUpdate (mapping : Mapping) :
    Update Item Gap → Option (Mapping × List (VectorDiff Item))
  | .newItemsChunk previous new next | .newGapChunk previous new next _ => do
    let chunks ← mapNewChunk mapping.chunks previous new next
    some ({ mapping with chunks := chunks }, [])
  | .removeChunk identifier => do
    let (offset, index, length) ← mapToOffset mapping.chunks ⟨identifier, 0⟩
    some ({ mapping with chunks := mapping.chunks.eraseIdx index },
      List.replicate length (.remove offset))
  | .pushItems position items => do
    let (offset, index, length) ← mapToOffset mapping.chunks position
    let isPushingBack := index + 1 == mapping.chunks.length && decide (length ≤ position.index)
    let mapping := { mapping with chunks := setLength mapping.chunks index (length + items.length) }
    if mapping.reattaching then some (mapping, [])
    else if isPushingBack && !mapping.detaching then some (mapping, [.append items])
    else some (mapping, items.mapIdx fun nth item => .insert (offset + nth) item)
  | .replaceItem position item => do
    let (offset, _, _) ← mapToOffset mapping.chunks position
    some (mapping, [.set offset item])
  | .removeItem position => do
    let (offset, index, length) ← mapToOffset mapping.chunks position
    if length = 0 then none
    else
      let mapping := { mapping with chunks := setLength mapping.chunks index (length - 1) }
      some (mapping, if mapping.reattaching then [] else [.remove offset])
  | .detachLastItems position => do
    let (_, index, _) ← mapToOffset mapping.chunks position
    some ({ mapping with
      chunks := setLength mapping.chunks index position.index, detaching := true }, [])
  | .startReattachItems => some ({ mapping with reattaching := true }, [])
  | .endReattachItems => some ({ mapping with reattaching := false, detaching := false }, [])
  | .clear => some ({ mapping with chunks := [] }, [.clear])

def mapUpdates (mapping : Mapping) :
    List (Update Item Gap) → Option (Mapping × List (VectorDiff Item))
  | [] => some (mapping, [])
  | update :: updates => do
    let (mapping, diffs) ← mapUpdate mapping update
    let (mapping, more) ← mapUpdates mapping updates
    some (mapping, diffs ++ more)

structure UpdateToVectorDiff where
  chunks : List (ℕ × ℕ)
deriving DecidableEq

def UpdateToVectorDiff.map (mapper : UpdateToVectorDiff) (updates : List (Update Item Gap)) :
    Option (List (VectorDiff Item) × UpdateToVectorDiff) := do
  let (mapping, diffs) ← mapUpdates ⟨mapper.chunks, false, false⟩ updates
  some (diffs, ⟨mapping.chunks⟩)

/-- The buffer of updates is shared with the linked chunk and stays there. -/
structure AsVector where
  token : ℕ
  mapper : UpdateToVectorDiff
deriving DecidableEq

/-- Iterating over the chunks creates the first one. -/
def lengths (lc : LinkedChunk Item Gap) : Option (List (ℕ × ℕ) × LinkedChunk Item Gap) := do
  let (first, lc) := lc.firstChunkPtr
  let chunks ← lc.heap.walkForward lc.heap.length (some first)
  some (chunks.map fun chunk => (chunk.2.identifier, chunk.2.content.numItems), lc)

/-- `none` also when the linked chunk keeps no update history. -/
def asVector (lc : LinkedChunk Item Gap) : Option (AsVector × LinkedChunk Item Gap) := do
  let inner ← lc.updates
  let (token, inner) := inner.newReaderToken
  let (chunks, lc) ← lengths { lc with updates := some inner }
  let inner ← lc.updates
  let (_, inner) ← inner.takeWithToken token
  some (⟨token, ⟨chunks⟩⟩, { lc with updates := some inner })

def AsVector.take (asVector : AsVector) (lc : LinkedChunk Item Gap) :
    Option (List (VectorDiff Item) × AsVector × LinkedChunk Item Gap) := do
  let inner ← lc.updates
  let (updates, inner) ← inner.takeWithToken asVector.token
  let (diffs, mapper) ← asVector.mapper.map updates
  some (diffs, { asVector with mapper := mapper }, { lc with updates := some inner })

end MatrixSdk.VectorDiffs

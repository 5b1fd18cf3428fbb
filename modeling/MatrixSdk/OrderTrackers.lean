import MatrixSdk.VectorReplay

/-!
The order of the events. A tracker is one more reader of the updates, with the same mapper
from chunks to lengths; it starts from the metadata of all the chunks, loaded or not, so it
also knows where the items of an unloaded chunk stand.
-/
namespace MatrixSdk.OrderTrackers

open LinkedCells Updates Chunks Chains Layouts LazyLoader Runs VectorDiffs List

variable {Item Gap : Type}

def fromMetadata (metas : List ChunkMetadata) : UpdateToVectorDiff :=
  ⟨metas.map fun chunk => (chunk.identifier, chunk.numItems)⟩

/-- The buffer of updates is shared with the linked chunk and stays there. -/
structure OrderTracker where
  token : ℕ
  mapper : UpdateToVectorDiff
deriving DecidableEq

variable (lc : LinkedChunk Item Gap)

def chunkMetadata (pointer : ℕ) : Option ChunkMetadata := do
  let chunk ← lc.heap.read pointer
  let previous ← lc.identifierAt chunk.previous
  let next ← lc.identifierAt chunk.next
  some ⟨chunk.value.identifier, chunk.value.content.numItems, previous, next⟩

/-- The loaded chunks; iterating over them creates the first one. -/
def chunksMetadata :
    Option (List ChunkMetadata × LinkedChunk Item Gap) := do
  let (first, lc) := lc.firstChunkPtr
  let chunks ← lc.heap.walkForward lc.heap.length (some first)
  let metas ← chunks.mapM fun chunk => chunkMetadata lc chunk.1
  some (metas, lc)

/-- Without metadata the linked chunk is taken as fully loaded. -/
def orderTracker (allChunks : Option (List ChunkMetadata)) :
    Option (OrderTracker × LinkedChunk Item Gap) := do
  let inner ← lc.updates
  let (token, inner) := inner.newReaderToken
  let lc := { lc with updates := some inner }
  let (metas, lc) ← match allChunks with
    | some metas => some (metas, lc)
    | none => chunksMetadata lc
  let inner ← lc.updates
  let (_, inner) ← inner.takeWithToken token
  some (⟨token, fromMetadata metas⟩, { lc with updates := some inner })

namespace OrderTracker

variable (tracker : OrderTracker)

/-- The updates are read, and ignored when `inhibit` is set. -/
def flushUpdates (lc : LinkedChunk Item Gap) (inhibit : Bool) :
    Option (OrderTracker × LinkedChunk Item Gap) := do
  let inner ← lc.updates
  let (updates, inner) ← inner.takeWithToken tracker.token
  if inhibit then some (tracker, { lc with updates := some inner })
  else
    let (_, mapper) ← tracker.mapper.map updates
    some ({ tracker with mapper := mapper }, { lc with updates := some inner })

/-- Updates that do not come from the linked chunk. -/
def mapUpdates (updates : List (Update Item Gap)) :
    Option OrderTracker := do
  let (_, mapper) ← tracker.mapper.map updates
  some { tracker with mapper := mapper }

/-- The number of items before a position, counted from `ordering` on. -/
def findOrdering (position : Position) : ℕ → List (ℕ × ℕ) → Option ℕ
  | _, [] => none
  | ordering, (identifier, length) :: rest =>
    if identifier = position.chunkIdentifier then
      if length ≤ position.index then none else some (ordering + position.index)
    else findOrdering position (ordering + length) rest

/-- `none` is the panic on a reader that is not registered. -/
def ordering (lc : LinkedChunk Item Gap) (position : Position) :
    Option (Option ℕ) := do
  let inner ← lc.updates
  let upToDate ← inner.isReaderUpToDate tracker.token
  if upToDate then some (findOrdering position 0 tracker.mapper.chunks) else some none

end OrderTracker

/-- The positions of the items of a chain, in order. -/
def positionsOf (chain : Chain Item Gap) : List Position :=
  chain.flatMap fun chunk => (List.range chunk.2.numItems).map fun index => ⟨chunk.1, index⟩

@[simp]
theorem positionsOf_cons (id : ℕ) (content : ChunkContent Item Gap) (chain : Chain Item Gap) :
    positionsOf ((id, content) :: chain) =
      ((List.range content.numItems).map fun index => ⟨id, index⟩) ++ positionsOf chain := rfl

variable {chain : Chain Item Gap}

theorem mem_positionsOf {position : Position} (h : position ∈ positionsOf chain) :
    position.chunkIdentifier ∈ identifiers chain := by
  obtain ⟨chunk, hchunk, hmem⟩ := mem_flatMap.mp h
  obtain ⟨index, -, rfl⟩ := mem_map.mp hmem
  exact mem_map_of_mem hchunk

theorem idxOf?_positions (id n : ℕ) (position : Position) :
    ((List.range n).map fun index => (⟨id, index⟩ : Position)).idxOf? position =
      if id = position.chunkIdentifier ∧ position.index < n then some position.index else none := by
  obtain ⟨chunk, index⟩ := position
  split
  · next h =>
    obtain ⟨rfl, hlt⟩ := h
    rw [idxOf?_eq_some_iff]
    refine ⟨by simpa using hlt, by simp, fun j hj heq => ?_⟩
    simp [getElem_map, getElem_range, Position.mk.injEq] at heq
    exact Nat.ne_of_lt hj heq
  · next h =>
    rw [idxOf?_eq_none_iff, mem_map]
    rintro ⟨j, hj, heq⟩
    rw [Position.mk.injEq] at heq
    obtain ⟨rfl, rfl⟩ := heq
    exact h ⟨rfl, mem_range.mp hj⟩

/-- The lengths of the chunks before it tell the place of a position. -/
theorem findOrdering_eq (hdistinct : (identifiers chain).Nodup) (position : Position)
    (ordering : ℕ) :
    OrderTracker.findOrdering position ordering (lengthsOf chain) =
      ((positionsOf chain).idxOf? position).map (ordering + ·) := by
  induction chain generalizing ordering with
  | nil => rfl
  | cons chunk chain ih =>
    obtain ⟨id, content⟩ := chunk
    rw [identifiers_cons, nodup_cons] at hdistinct
    have happend : (positionsOf ((id, content) :: chain)).idxOf? position =
        (if id = position.chunkIdentifier ∧ position.index < content.numItems
          then some position.index else none).or
          (((positionsOf chain).idxOf? position).map (· + content.numItems)) := by
      rw [positionsOf_cons, ← idxOf?_positions]
      unfold List.idxOf?
      rw [findIdx?_append, length_map, length_range]
    rw [happend, lengthsOf_cons, OrderTracker.findOrdering]
    by_cases hid : id = position.chunkIdentifier
    · have hnone : (positionsOf chain).idxOf? position = none := by
        rw [idxOf?_eq_none_iff]
        intro hmem
        rw [hid] at hdistinct
        exact hdistinct.1 (mem_positionsOf hmem)
      rw [if_pos hid, hnone]
      by_cases hindex : position.index < content.numItems
      · rw [if_neg (Nat.not_le.mpr hindex), if_pos ⟨hid, hindex⟩]
        rfl
      · rw [if_pos (Nat.not_lt.mp hindex), if_neg fun h => hindex h.2]
        rfl
    · rw [if_neg hid, if_neg fun h => hid h.1, ih hdistinct.2, Option.none_or, Option.map_map]
      congr 1
      funext n
      simp only [Function.comp_apply]
      omega

section Create

variable {cap : ℕ} {lc : LinkedChunk Item Gap} {base : Option ℕ} {chain : Chain Item Gap}
  {inner : UpdatesInner (Update Item Gap)} {ys : Cells Item Gap}

theorem mapM_chunkMetadata (xs : Cells Item Gap) (h : Layout cap lc (xs ++ ys)) :
    ∃ metas, ys.mapM (fun chunk => chunkMetadata lc chunk.1) = some metas ∧
      fromMetadata metas = ⟨lengthsOf (chainOf ys)⟩ := by
  induction ys generalizing xs with
  | nil => exact ⟨[], rfl, rfl⟩
  | cons y ys ih =>
    obtain ⟨p, b⟩ := y
    obtain ⟨metas, hmap, hlengths⟩ := ih (xs ++ [(p, b)]) (by simpa using h)
    have htail : (metas.map fun chunk => (chunk.identifier, chunk.numItems)) =
        lengthsOf (chainOf ys) := congrArg UpdateToVectorDiff.chunks hlengths
    refine ⟨⟨b.identifier, b.content.numItems, lastIdentifier none (chainOf xs),
      headIdentifier (chainOf ys)⟩ :: metas, ?_, ?_⟩
    · have hprevious := identifierAt_lastPtr lc xs ((p, b) :: ys) h.cells
      have hnext := identifierAt_headPtr lc (xs ++ [(p, b)]) ys (by simpa using h.cells)
      rw [mapM_cons, hmap]
      simp [chunkMetadata, h.cells.read_eq, hprevious, hnext, Option.bind_eq_bind]
    · simp [fromMetadata, htail]

theorem chunksMetadata_eq (h : Represents cap lc base chain) :
    ∃ metas, chunksMetadata lc = some (metas, start lc) ∧
      fromMetadata metas = ⟨lengthsOf (started chain)⟩ := by
  obtain ⟨p, b, xs, hlayout, hzs, -, hptr, -⟩ := h.firstChunk
  have hwalk : (start lc).heap.walkForward (start lc).heap.length (some p) =
      some ((p, b) :: xs) :=
    walkForward_of_seg _ none _ _ hlayout.cells.seg hlayout.cells.length_le
  obtain ⟨metas, hmap, hlengths⟩ := mapM_chunkMetadata [] hlayout
  refine ⟨metas, ?_, hzs ▸ hlengths⟩
  simp [chunksMetadata, hptr, hwalk, hmap]

/-- A tracker that was created from metadata has nothing to read. -/
theorem orderTracker_some (hlog : lc.updates = some inner) (hwf : inner.WellFormed)
    (metas : List ChunkMetadata) :
    ∃ inner', orderTracker lc (some metas) = some (⟨inner.lastToken + 1, fromMetadata metas⟩,
        { lc with updates := some inner' }) ∧ inner'.WellFormed ∧
      ∀ other, inner'.pending other =
        if other = inner.lastToken + 1 then some [] else inner.pending other := by
  obtain ⟨inner', htake, hwf', hpending⟩ := registers_eq hwf
  have hsame : appendUpdates ([] : List (Update Item Gap)) inner.newReaderToken.2 =
      inner.newReaderToken.2 := by
    simp [appendUpdates]
  rw [hsame] at htake
  refine ⟨inner', ?_, hwf', fun other => ?_⟩
  · have hnew : inner.newReaderToken = (inner.lastToken + 1, inner.newReaderToken.2) := rfl
    rw [orderTracker, hlog]
    simp only [Option.bind_eq_bind, Option.bind_some]
    rw [hnew]
    simp [htake, Option.bind_some]
  · rw [hpending]
    simp

/-- Without metadata it starts from the loaded chunks, of which there is then at least one. -/
theorem orderTracker_none (h : Represents cap lc base chain) (hlog : lc.updates = some inner)
    (hwf : inner.WellFormed) :
    ∃ inner', orderTracker lc none = some (⟨inner.lastToken + 1, ⟨lengthsOf (started chain)⟩⟩,
        { start lc with updates := some inner' }) ∧ inner'.WellFormed ∧
      ∀ other, inner'.pending other = if other = inner.lastToken + 1 then some []
        else (inner.pending other).map (· ++ startUpdates chain) := by
  set lc₁ : LinkedChunk Item Gap := { lc with updates := some inner.newReaderToken.2 } with hlc₁
  have hrep : Represents cap lc₁ base chain := represents_withUpdates h _
  obtain ⟨-, -, -, -, -, hmut⟩ := hrep.starts
  have hlog₁ : (start lc₁).updates =
      some (appendUpdates (startUpdates chain) inner.newReaderToken.2) := hmut.log
  obtain ⟨metas, hmetas, hlengths⟩ := chunksMetadata_eq hrep
  obtain ⟨inner', htake, hwf', hpending⟩ := registers_eq hwf
  refine ⟨inner', ?_, hwf', hpending⟩
  have hnew : inner.newReaderToken = (inner.lastToken + 1, inner.newReaderToken.2) := rfl
  rw [orderTracker, hlog, ← start_withUpdates (some inner.newReaderToken.2)]
  simp only [Option.bind_eq_bind, Option.bind_some]
  rw [hnew]
  simp [← hlc₁, hmetas, hlog₁, htake, hlengths]

end Create

end MatrixSdk.OrderTrackers

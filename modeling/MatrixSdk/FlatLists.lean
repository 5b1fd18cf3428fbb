import MatrixSdk.EventLinkedChunks

/-!
A linked chunk read as one flat list of items and gaps. Iterating from a position gives the
rest of the list in either direction, and every operation is the list operation it is named
after, however the items are spread over the chunks; and removing the events at a list of
positions takes exactly these out of the list.
-/
namespace MatrixSdk.FlatLists

open LinkedCells Chunks Chains Traces Layouts Runs LinkedChunk List Option Nat

variable {Item Gap : Type}

section Iterate

variable (lc : LinkedChunk Item Gap)

/-- The chunks that an iterator meets, from the one with the identifier on. -/
def iterateFrom (walk : Arena (ChunkBody Item Gap) → ℕ → Option ℕ → Option (Cells Item Gap))
    (identifier : ℕ) : Option (Outcome Item Gap (Chain Item Gap)) := do
  let (found, lc) ← lc.chunkPtr identifier
  match found with
  | none => some (.error (.invalidChunkIdentifier identifier), lc)
  | some pointer => do
    let chunks ← walk lc.heap lc.heap.length (some pointer)
    some (.ok (chainOf chunks), lc)

def chunksFrom := iterateFrom lc Arena.walkForward

def rchunksFrom := iterateFrom lc Arena.walkBackward

/-- The items of a chunk with their positions. -/
def positioned (chunk : ℕ × ChunkContent Item Gap) : List (Position × Item) :=
  (contentItems chunk.2).mapIdx fun index item => (⟨chunk.1, index⟩, item)

def itemsFrom (position : Position) : Option (Outcome Item Gap (List (Position × Item))) := do
  let (chunks, lc) ← chunksFrom lc position.chunkIdentifier
  some (chunks.map fun chunks => (chunks.flatMap positioned).drop position.index, lc)

def ritemsFrom (position : Position) : Option (Outcome Item Gap (List (Position × Item))) := do
  let (chunks, lc) ← rchunksFrom lc position.chunkIdentifier
  some (chunks.map fun chunks =>
    (chunks.flatMap fun chunk => (positioned chunk).reverse).dropWhile fun x =>
      x.1.chunkIdentifier == position.chunkIdentifier && x.1.index != position.index, lc)

/-- Both iterators over all items look their first chunk up by its identifier. -/
def items : Option (Outcome Item Gap (List (Position × Item))) := do
  let (first, lc) := lc.firstChunkPtr
  let chunk ← lc.heap.read first
  itemsFrom lc (firstPosition chunk)

def lastPosition (chunk : Chunk Item Gap) : Position :=
  ⟨chunk.value.identifier, chunk.value.content.numItems - 1⟩

def ritems : Option (Outcome Item Gap (List (Position × Item))) := do
  let (latest, lc) := lc.latestChunkPtr
  let chunk ← lc.heap.read latest
  ritemsFrom lc (lastPosition chunk)

/-- The chunks in order, once the first one has been asked for. -/
def sequence : Chain Item Gap := chainOf ((chunks (start lc)).getD [])

def flat : List (Position × Item) := (sequence lc).flatMap positioned

end Iterate

/-- The linked chunk behaves as the flat list of its items and gaps. -/
structure ListLike (cap : ℕ) (lc : LinkedChunk Item Gap) : Prop where
  insertItemsAt : ∀ l id current r index new, sequence lc = l ++ (id, .items current) :: r →
    index ≤ current.length → ∃ lc', lc.insertItemsAt cap ⟨id, index⟩ new = some (.ok (), lc') ∧
      entriesOf (sequence lc') = entriesOf l ++
        (current.take index ++ new ++ current.drop index).map .item ++ entriesOf r
  removeItemAt : ∀ l id before item after r,
    sequence lc = l ++ (id, .items (before ++ item :: after)) :: r →
    ∃ lc', lc.removeItemAt ⟨id, before.length⟩ = some (.ok item, lc') ∧
      entriesOf (sequence lc') = entriesOf l ++ (before ++ after).map .item ++ entriesOf r
  replaceItemAt : ∀ l id before item after r new,
    sequence lc = l ++ (id, .items (before ++ item :: after)) :: r →
    ∃ lc', lc.replaceItemAt ⟨id, before.length⟩ new = some (.ok (), lc') ∧
      entriesOf (sequence lc') = entriesOf l ++ (before ++ new :: after).map .item ++ entriesOf r
  insertGapAt : ∀ l id current r index gap, sequence lc = l ++ (id, .items current) :: r →
    index = 0 ∨ index < current.length →
    ∃ lc', lc.insertGapAt cap gap ⟨id, index⟩ = some (.ok (), lc') ∧
      entriesOf (sequence lc') = entriesOf l ++ (current.take index).map .item ++ [.gap gap] ++
        (current.drop index).map .item ++ entriesOf r
  replaceGapAt : ∀ l id gap r new, sequence lc = l ++ (id, .gap gap) :: r →
    ∃ pointer lc', lc.replaceGapAt cap new id = some (.ok pointer, lc') ∧
      entriesOf (sequence lc') = entriesOf l ++ new.map .item ++ entriesOf r
  removeEmptyChunkAt : ∀ id, ∃ result lc', lc.removeEmptyChunkAt id = some (result, lc') ∧
    itemsOf (sequence lc') = itemsOf (sequence lc)
  items : items lc = some (.ok (flat lc), start lc) ∧
    ritems lc = some (.ok (flat lc).reverse, start lc)
  itemsFrom : ∀ l id before item after r,
    sequence lc = l ++ (id, .items (before ++ item :: after)) :: r →
    itemsFrom lc ⟨id, before.length⟩ =
      some (.ok ((flat lc).drop ((itemsOf l).length + before.length)), start lc) ∧
    ritemsFrom lc ⟨id, before.length⟩ =
      some (.ok ((flat lc).take ((itemsOf l).length + before.length + 1)).reverse, start lc)

variable {cap : ℕ} {lc lc' : LinkedChunk Item Gap} {base : Option ℕ}
  {chain l r : Chain Item Gap} {id : ℕ} {content : ChunkContent Item Gap}

theorem start_start : start (start lc) = start lc := by
  cases hfirst : lc.first <;> simp [start, LinkedChunk.firstChunkPtr, hfirst]

theorem sequence_eq (h : Represents cap lc base chain) : sequence lc = started chain := by
  obtain ⟨zs, hlayout, -, hzs, -, -⟩ := h.starts
  rw [sequence, chunks_eq hlayout, getD_some, hzs]

theorem sequence_of_mutates {us : List (Update Item Gap)} {chain' : Chain Item Gap}
    (h : Mutates cap base lc chain us lc' chain') : sequence lc' = chain' := by
  rw [sequence_eq h.represents, started_of_ne_nil h.nonempty]

/-- From a chunk of the list the iterators meet it and what is on their side of it. -/
theorem iterateFrom_eq (h : Represents cap lc base chain)
    (hchain : started chain = l ++ (id, content) :: r) :
    chunksFrom lc id = some (.ok ((id, content) :: r), start lc) ∧
      rchunksFrom lc id = some (.ok ((id, content) :: l.reverse), start lc) := by
  obtain ⟨xs, p, b, ys, hlayout, rfl, rfl, rfl, rfl, -, hptr, -⟩ := h.located hchain
  have hlen := hlayout.cells.length_le
  rw [length_append, length_cons] at hlen
  have hseg := (seg_append _ _ _ _ _).mp hlayout.cells.seg
  have hforward := walkForward_of_seg _ _ _ (start lc).heap.length hseg.2
    (by rw [length_cons]; omega)
  have hback : Seg (start lc).heap none (xs ++ [(p, b)]) (headPtr ys none) :=
    (seg_append _ _ _ _ _).mpr ⟨hseg.1, hseg.2.1, trivial⟩
  have hbackward := walkBackward_of_seg _ _ _ (start lc).heap.length hback
    (by rw [length_append, length_singleton]; omega)
  rw [lastPtr_append] at hbackward
  constructor
  · simp only [chunksFrom, iterateFrom, hptr, bind_eq_bind, bind_some]
    rw [show some p = headPtr ((p, b) :: ys) none from rfl, hforward]
    rfl
  · simp only [rchunksFrom, iterateFrom, hptr, bind_eq_bind, bind_some]
    rw [show some p = lastPtr (lastPtr none xs) [(p, b)] from rfl, hbackward]
    simp [chainOf]

theorem length_flatMap_positioned (chain : Chain Item Gap) :
    (chain.flatMap positioned).length = (itemsOf chain).length := by
  simp [itemsOf, length_flatMap, positioned]

/-- Backwards, the items of a chunk that are after the position are skipped; when the chunk
has no item, nothing of the chunks before it is. -/
theorem dropWhile_positioned (chunk : ℕ × ChunkContent Item Gap) (k : ℕ)
    {rest : List (Position × Item)} (hk : k < (positioned chunk).length ∨ positioned chunk = [])
    (hrest : ∀ x ∈ rest, x.1.chunkIdentifier ≠ chunk.1) :
    (((positioned chunk).reverse ++ rest).dropWhile fun x =>
        x.1.chunkIdentifier == chunk.1 && x.1.index != k) =
      ((positioned chunk).take (k + 1)).reverse ++ rest := by
  have hat : ∀ i (x : Position × Item), (positioned chunk)[i]? = some x → x.1 = ⟨chunk.1, i⟩ := by
    intro i x hx
    rw [positioned, getElem?_mapIdx, map_eq_some_iff] at hx
    obtain ⟨item, -, rfl⟩ := hx
    rfl
  rcases hk with hk | hnil
  · have hskip : ∀ x ∈ ((positioned chunk).drop (k + 1)).reverse,
        (x.1.chunkIdentifier == chunk.1 && x.1.index != k) = true := by
      intro x hx
      obtain ⟨i, hi⟩ := mem_iff_getElem?.mp (mem_reverse.mp hx)
      rw [getElem?_drop] at hi
      rw [hat _ _ hi, beq_self_eq_true, Bool.true_and, bne_iff_ne]
      change k + 1 + i ≠ k
      omega
    have hx := getElem?_eq_getElem hk
    have hstop : (((positioned chunk).take (k + 1)).reverse ++ rest).dropWhile (fun x =>
        x.1.chunkIdentifier == chunk.1 && x.1.index != k) =
          ((positioned chunk).take (k + 1)).reverse ++ rest := by
      rw [take_add_one, hx, toList_some, reverse_append]
      exact dropWhile_cons_of_neg (by simp [hat k _ hx])
    conv_lhs => rw [← take_append_drop (k + 1) (positioned chunk), reverse_append, append_assoc]
    rw [dropWhile_append_of_pos hskip, hstop]
  · rw [hnil]
    cases rest with
    | nil => rfl
    | cons x rest => simp [hrest x (by simp)]

section

variable (h : Represents cap lc base chain)
include h

theorem itemsFrom_eq (hchain : started chain = l ++ (id, content) :: r) (k : ℕ) :
    itemsFrom lc ⟨id, k⟩ = some (.ok (((started chain).flatMap positioned).drop
      ((itemsOf l).length + k)), start lc) := by
  rw [itemsFrom, (iterateFrom_eq h hchain).1, hchain, flatMap_append,
    ← length_flatMap_positioned, drop_length_add_append]
  rfl

theorem ritemsFrom_eq (hchain : started chain = l ++ (id, content) :: r) {k : ℕ}
    (hk : k < content.numItems ∨ content.numItems = 0 ∧ r = []) :
    ritemsFrom lc ⟨id, k⟩ = some (.ok (((started chain).flatMap positioned).take
      ((itemsOf l).length + k + 1)).reverse, start lc) := by
  obtain ⟨zs, hlayout, -, hzs, -, -⟩ := h.starts
  have hdistinct := hlayout.distinct
  rw [hzs, hchain, identifiers_append, identifiers_cons, nodup_middle, nodup_cons] at hdistinct
  have hlen : (positioned (id, content)).length = content.numItems := by
    cases content <;> simp [positioned, ChunkContent.numItems]
  have hother : ∀ x ∈ (l.flatMap positioned).reverse, x.1.chunkIdentifier ≠ id := by
    intro x hx hid
    obtain ⟨chunk, hchunk, hmem⟩ := mem_flatMap.mp (mem_reverse.mp hx)
    obtain ⟨i, _, rfl⟩ := mem_mapIdx.mp hmem
    have hid : id = chunk.1 := hid.symm
    exact hdistinct.1 (mem_append_left _ (hid ▸ mem_map_of_mem hchunk))
  have hskip := dropWhile_positioned (id, content) k (by
    rw [hlen, ← length_eq_zero_iff, hlen]
    exact hk.imp_right And.left) hother
  have htake : (positioned (id, content) ++ r.flatMap positioned).take (k + 1) =
      (positioned (id, content)).take (k + 1) := by
    rcases hk with hk | ⟨-, rfl⟩
    · exact take_append_of_le_length (by omega)
    · simp
  rw [ritemsFrom, (iterateFrom_eq h hchain).2, hchain, flatMap_append, flatMap_cons, Nat.add_assoc,
    ← length_flatMap_positioned, take_length_add_append, htake, reverse_append, ← hskip,
    reverse_flatMap]
  rfl

theorem items_eq_flat : items lc = some (.ok ((started chain).flatMap positioned), start lc) := by
  obtain ⟨p, b, xs, hlayout, hzs, -, hptr, hmut⟩ := h.firstChunk
  have hsame : started (started chain) = started chain := started_of_ne_nil hmut.nonempty
  have heq := itemsFrom_eq hmut.represents (l := []) (hsame.trans hzs.symm) 0
  rw [start_start, hsame] at heq
  simp only [items, hptr, hlayout.cells.read_head, bind_eq_bind, bind_some]
  exact heq

theorem ritems_eq_flat :
    ritems lc = some (.ok ((started chain).flatMap positioned).reverse, start lc) := by
  obtain ⟨xs, p, b, hlayout, hzs, -, hptr, hmut⟩ := h.latest
  have hsame : started (started chain) = started chain := started_of_ne_nil hmut.nonempty
  have hread : (start lc).heap.read p = some ⟨lastPtr none xs, none, b⟩ := hlayout.cells.read_eq
  rw [chainOf_append] at hzs
  have heq := ritemsFrom_eq hmut.represents (hsame.trans hzs.symm) (k := b.content.numItems - 1)
    ((Nat.eq_zero_or_pos b.content.numItems).symm.imp pred_lt_self fun hzero => ⟨hzero, rfl⟩)
  rw [start_start, hsame, take_of_length_le] at heq
  · simp only [ritems, hptr, hread, bind_eq_bind, bind_some]
    exact heq
  · rw [length_flatMap_positioned, ← hzs, itemsOf_append, length_append]
    simp only [chainOf_cons, chainOf_nil, itemsOf_cons, itemsOf_nil, append_nil, numItems_eq]
    omega

end

/-- An operation that is a mutation of the started chain acts on the flat list. -/
theorem listLike_of_represents (hcap : 0 < cap) (h : Represents cap lc base chain) :
    ListLike cap lc where
  insertItemsAt l id current r index new hchain hindex := by
    rw [sequence_eq h] at hchain
    obtain ⟨lc', us, left, hok, hmut, -, -, hentries⟩ :=
      insertItemsAt_ok hcap h hchain hindex new
    exact ⟨lc', hok, by rw [sequence_of_mutates hmut, entriesOf_append, hentries]⟩
  removeItemAt l id before item after r hchain := by
    obtain ⟨lc', us, chain', hok, hmut, -, hnext⟩ := removeItemAt_ok h (sequence_eq h ▸ hchain)
    refine ⟨lc', hok, ?_⟩
    rw [sequence_of_mutates hmut]
    rcases hnext with rfl | ⟨hempty, rfl⟩
    · simp [contentEntries]
    · simp [hempty]
  replaceItemAt l id before item after r new hchain := by
    obtain ⟨lc', hok, hmut⟩ := replaceItemAt_ok h (sequence_eq h ▸ hchain) new
    exact ⟨lc', hok, by simp [sequence_of_mutates hmut, contentEntries]⟩
  insertGapAt l id current r index gap hchain hindex := by
    rw [sequence_eq h] at hchain
    by_cases hzero : index = 0
    · subst hzero
      obtain ⟨lc', hok, hmut⟩ := insertGapAt_front h hchain gap
      exact ⟨lc', hok, by simp [sequence_of_mutates hmut, contentEntries]⟩
    · obtain ⟨lc', us, left, hok, hmut, -, hentries⟩ :=
        insertGapAt_split hcap h hchain hzero (hindex.resolve_left hzero) gap
      exact ⟨lc', hok, by rw [sequence_of_mutates hmut, entriesOf_append, hentries]⟩
  replaceGapAt l id gap r new hchain := by
    obtain ⟨pointer, _, lc', _, current, more, hok, -, -, hmut, -, hentries⟩ :=
      replaceGapAt_ok hcap h (sequence_eq h ▸ hchain) new
    refine ⟨pointer, lc', hok, ?_⟩
    rw [sequence_of_mutates hmut, ← hentries]
    simp [contentEntries]
  removeEmptyChunkAt id := by
    have hfailed : itemsOf (sequence (start lc)) = itemsOf (sequence lc) := by
      rw [sequence, start_start]
      rfl
    by_cases hone : (started chain).length = 1
    · exact ⟨_, _, removeEmptyChunkAt_only h hone, hfailed⟩
    rcases identifiers_cases id (started chain) with hid | ⟨l, content, r, hchain⟩
    · exact ⟨_, _, removeEmptyChunkAt_missing h hone hid, hfailed⟩
    by_cases hempty : content.numItems = 0
    · obtain ⟨lc', hok, hmut⟩ := removeEmptyChunkAt_ok h hone hchain hempty
      refine ⟨_, lc', hok, ?_⟩
      rw [sequence_of_mutates hmut, sequence_eq h, hchain]
      rw [itemsOf_append, itemsOf_append, itemsOf_empty_chunk hempty]
    · exact ⟨_, _, removeEmptyChunkAt_nonEmpty h hone hchain (by omega), hfailed⟩
  items := by
    rw [flat, sequence_eq h]
    exact ⟨items_eq_flat h, ritems_eq_flat h⟩
  itemsFrom l id before item after r hchain := by
    rw [flat, sequence_eq h]
    rw [sequence_eq h] at hchain
    exact ⟨itemsFrom_eq h hchain _, ritemsFrom_eq h hchain (.inl (by simp [ChunkContent.numItems]))⟩

/-- In every state that a run reaches, the linked chunk behaves as a flat list. -/
theorem list_operations_of_every_run (hcap : 0 < cap) {lc₀ : LinkedChunk Item Gap}
    {ops : List (Op Item Gap)} (hinit : Initial cap lc₀) (hrun : Trace (Performs cap) lc₀ ops lc) :
    ListLike cap lc := by
  obtain ⟨base, chain, hrep⟩ := hrun.preserves (fun _ _ _ h hp => hp.represents hcap h)
    hinit.represents
  exact listLike_of_represents hcap hrep

theorem trace_of_run {mutations : List (Mutation Item Gap)} {lc' : LinkedChunk Item Gap}
    (h : run cap lc (mutations.map .mutate) = some lc') :
    Trace (Performs cap) lc (mutations.map .mutate) lc' := by
  induction mutations generalizing lc with
  | nil =>
    cases h
    exact .nil _
  | cons mutation mutations ih =>
    obtain ⟨r, hperform, hrest⟩ := Option.bind_eq_some_iff.mp h
    exact .cons ⟨trivial, r.1, hperform⟩ (ih hrest)

def gapBetweenItems : List (Mutation ℕ ℕ) := [.pushItemsBack [7, 8, 9], .insertGapAt 1 ⟨0, 1⟩]

/-- Three items fill two chunks, and a gap is put between the first two. -/
theorem list_operations_of_gap_between_items :
    ∃ lc, run 2 newWithUpdateHistory (gapBetweenItems.map .mutate) = some lc ∧
      (chunks lc).map List.length = some 4 ∧ ListLike 2 lc := by
  have hsome : ((run 2 newWithUpdateHistory (gapBetweenItems.map .mutate)).bind fun lc =>
      (chunks lc).map List.length) = some 4 := by
    decide
  obtain ⟨lc, hrun, hchunks⟩ := Option.bind_eq_some_iff.mp hsome
  exact ⟨lc, hrun, hchunks,
    list_operations_of_every_run (by decide) .newWithUpdateHistory (trace_of_run hrun)⟩

/-- With two chunks of one identifier, iterating forward starts at the wrong one. -/
theorem items_misses_an_item :
    ((run 1 (LinkedChunk.new : LinkedChunk ℕ ℕ)
      [.replaceWith (some ⟨.items [7], some 0, 0, none⟩) 0,
        .insertNewFirstChunk ⟨.items [8], none, 0, some 0⟩]).map fun lc =>
      ((items lc).map fun r => (r.1.toOption.map fun xs => xs.map Prod.snd),
        (ritems lc).map fun r => (r.1.toOption.map fun xs => xs.map Prod.snd))) =
      some (some (some [7]), some (some [7, 8])) := by
  decide

section Removal

open EventLinkedChunks

variable {index : ℕ} {before after : List Item} {item : Item} {positions : List Position}

/-- The items that are at none of the positions. -/
def remaining (positions : List Position) (chain : Chain Item Gap) : List Item :=
  ((chain.flatMap positioned).filter fun x => x.1 ∉ positions).map Prod.snd

/-- There is an item at the position. -/
def Occupied (chain : Chain Item Gap) (position : Position) : Prop :=
  ∃ items, (position.chunkIdentifier, .items items) ∈ chain ∧ position.index < items.length

theorem occupied_of_mem {position : Position}
    (h : position ∈ (chain.flatMap positioned).map Prod.fst) : Occupied chain position := by
  obtain ⟨x, hx, rfl⟩ := mem_map.mp h
  obtain ⟨⟨id, content⟩, hchunk, hmem⟩ := mem_flatMap.mp hx
  obtain ⟨i, hi, rfl⟩ := mem_mapIdx.mp hmem
  cases content with
  | gap => simp at hi
  | items items => exact ⟨items, hchunk, hi⟩

variable (index positions) in
theorem remaining_of_not_mem (hid : id ∉ identifiers chain) :
    remaining (⟨id, index⟩ :: positions) chain = remaining positions chain := by
  unfold remaining
  congr 1
  apply filter_congr
  intro x hx
  obtain ⟨chunk, hchunk, hmem⟩ := mem_flatMap.mp hx
  obtain ⟨i, _, rfl⟩ := mem_mapIdx.mp hmem
  have hne : chunk.1 ≠ id := fun heq => hid (heq ▸ mem_map_of_mem hchunk)
  simp [hne]

/-- No position is that far back in the chunk. -/
theorem filter_mapIdx (items : List Item)
    (h : ∀ q ∈ positions, q.chunkIdentifier = id → q.index < index) :
    ((items.mapIdx fun i x => ((⟨id, i + index⟩ : Position), x)).filter
      fun x => x.1 ∉ positions).map Prod.snd = items := by
  rw [filter_eq_self.mpr]
  · ext1 i
    simp [Function.comp_def]
  · intro x hx
    obtain ⟨i, _, rfl⟩ := mem_mapIdx.mp hx
    rw [decide_eq_true_eq]
    intro hmem
    exact not_lt.mpr (le_add_left _ _) (h _ hmem rfl)

/-- The items after the removed one move up, to positions that are not in the list either. -/
theorem remaining_removed
    (hbelow : ∀ q ∈ positions, q.chunkIdentifier = id → q.index < before.length)
    (hid : id ∉ identifiers (l ++ r)) :
    remaining (⟨id, before.length⟩ :: positions)
        (l ++ (id, .items (before ++ item :: after)) :: r) =
      remaining positions (l ++ (id, .items (before ++ after)) :: r) := by
  rw [identifiers_append, mem_append, not_or] at hid
  have hl := remaining_of_not_mem before.length positions hid.1
  have hr := remaining_of_not_mem before.length positions hid.2
  have hfirst : ((before.mapIdx fun i x => ((⟨id, i⟩ : Position), x)).filter
      fun x => x.1 ∉ ⟨id, before.length⟩ :: positions) =
        (before.mapIdx fun i x => ((⟨id, i⟩ : Position), x)).filter fun x => x.1 ∉ positions := by
    apply filter_congr
    intro x hx
    obtain ⟨i, hi, rfl⟩ := mem_mapIdx.mp hx
    simp [hi.ne]
  have hshifted : ∀ q ∈ (⟨id, before.length⟩ : Position) :: positions,
      q.chunkIdentifier = id → q.index < 1 + before.length := by
    intro q hq hid
    rcases mem_cons.mp hq with rfl | hq
    · exact lt_one_add_iff.mpr le_rfl
    · exact lt_one_add_iff.mpr (hbelow q hq hid).le
  unfold remaining at hl hr ⊢
  simp only [flatMap_append, flatMap_cons, filter_append, map_append, hl, hr, positioned,
    contentItems_items, mapIdx_append, mapIdx_cons, hfirst, filter_mapIdx after hbelow]
  rw [filter_cons_of_neg (by simp)]
  simp only [Nat.add_assoc, filter_mapIdx after hshifted]

theorem removeItems_spec (hsorted : positions.Pairwise fun a b => comesLater a b ∧ a ≠ b)
    (h : Represents cap lc base chain) (hin : ∀ q ∈ positions, Occupied (sequence lc) q) :
    ∃ lc', removeItems positions lc = some (.ok (), lc') ∧
      remaining [] (sequence lc') = remaining positions (sequence lc) := by
  induction positions generalizing lc chain with
  | nil => exact ⟨lc, rfl, rfl⟩
  | cons p ps ih =>
    obtain ⟨id, index⟩ := p
    obtain ⟨hfirst, hrest⟩ := pairwise_cons.mp hsorted
    obtain ⟨items, hmem, hindex⟩ := hin ⟨id, index⟩ (by simp)
    obtain ⟨l, r, hchain⟩ := append_of_mem hmem
    obtain ⟨before, item, after, rfl, rfl⟩ := exists_split_of_lt hindex
    have hbelow : ∀ q ∈ ps, q.chunkIdentifier = id → q.index < before.length := by
      rintro ⟨id', k⟩ hq rfl
      obtain ⟨hlater, hne⟩ := hfirst _ hq
      simp only [comesLater, lt_irrefl, true_and, false_or, ne_eq, Position.mk.injEq] at hlater hne
      exact lt_of_le_of_ne hlater (Ne.symm hne)
    obtain ⟨zs, hlayout, -, hzs, -, -⟩ := h.starts
    have hdistinct := hlayout.distinct
    rw [hzs, ← sequence_eq h, hchain, identifiers_append, identifiers_cons, nodup_middle,
      nodup_cons, ← identifiers_append] at hdistinct
    obtain ⟨lc₁, us, chain', hok, hmut, -, hnext⟩ := removeItemAt_ok h (sequence_eq h ▸ hchain)
    rw [hchain] at hin
    have hstill : ∀ q ∈ ps, Occupied (sequence lc₁) q := by
      intro q hq
      obtain ⟨items, hmem, hindex⟩ := hin q (mem_cons_of_mem _ hq)
      rw [sequence_of_mutates hmut]
      by_cases hid : q.chunkIdentifier = id
      · have hlt : q.index < (before ++ after).length := (hbelow q hq hid).trans_le (by simp)
        rcases hnext with rfl | ⟨hempty, rfl⟩
        · exact ⟨before ++ after, by simp [hid], hlt⟩
        · simp [hempty] at hlt
      · refine ⟨items, ?_, hindex⟩
        rcases hnext with rfl | ⟨-, rfl⟩ <;> simpa [hid] using hmem
    obtain ⟨lc', hremove, hitems⟩ := ih hrest hmut.represents hstill
    refine ⟨lc', by simp [removeItems, hok, hremove], ?_⟩
    rw [hitems, sequence_of_mutates hmut, hchain, remaining_removed hbelow hdistinct.1]
    rcases hnext with rfl | ⟨hempty, rfl⟩
    · rfl
    · simp [hempty, remaining, positioned]

instance : Std.Total comesLater where
  total a b := by
    unfold comesLater
    omega

instance : IsTrans Position comesLater where
  trans a b c hab hbc := by
    unfold comesLater at *
    omega

/-- The events at distinct positions are removed, and no other ones. -/
theorem exactly_the_positions_are_removed (hcap : 0 < cap) {lc₀ : LinkedChunk Item Gap}
    {ops : List (Op Item Gap)} (hinit : Initial cap lc₀) (hrun : Trace (Performs cap) lc₀ ops lc)
    (hdistinct : positions.Nodup) (hin : ∀ q ∈ positions, q ∈ (flat lc).map Prod.fst) :
    ∃ lc', removeEventsByPosition lc positions = some (.ok (), lc') ∧
      (flat lc').map Prod.snd =
        ((flat lc).filter fun x => x.1 ∉ positions).map Prod.snd := by
  obtain ⟨base, chain, hrep⟩ := hrun.preserves (fun _ _ _ h hp => hp.represents hcap h)
    hinit.represents
  have hperm := perm_insertionSort comesLater positions
  obtain ⟨lc', hremove, hitems⟩ := removeItems_spec
    ((pairwise_insertionSort comesLater positions).and (hperm.nodup_iff.mpr hdistinct)) hrep
    fun q hq => occupied_of_mem (hin q (hperm.mem_iff.mp hq))
  refine ⟨lc', hremove, ?_⟩
  simpa [remaining, flat] using hitems

theorem two_positions_are_removed :
    ∃ lc : LinkedChunk ℕ ℕ, Initial 3 lc ∧ (flat lc).map Prod.snd = [7, 8, 9] ∧
      ∃ lc', removeEventsByPosition lc [⟨4, 0⟩, ⟨4, 2⟩] = some (.ok (), lc') ∧
        (flat lc').map Prod.snd = [8] := by
  have hinit : Initial 3 (⟨[some ⟨none, none, ⟨none, 4, .items [7, 8, 9]⟩⟩], some 0, none, 4,
      some Updates.UpdatesInner.new⟩ : LinkedChunk ℕ ℕ) :=
    @Initial.fromLastChunk _ _ 3 ⟨.items [7, 8, 9], none, 4, none⟩ 4 _ le_rfl rfl
  obtain ⟨lc', hremove, hitems⟩ := exactly_the_positions_are_removed (by decide) hinit (.nil _)
    (show [⟨4, 0⟩, ⟨4, 2⟩].Nodup by decide) (by decide)
  exact ⟨_, hinit, by decide, lc', hremove, hitems.trans (by decide)⟩

/-- With two chunks of one identifier, an event is not found at its position. -/
theorem event_is_not_found_at_its_position :
    (run 2 (LinkedChunk.new : LinkedChunk ℕ ℕ)
      [.replaceWith (some ⟨.items [7], some 0, 0, none⟩) 0,
        .insertNewFirstChunk ⟨.items [8, 9], none, 0, some 0⟩]).map (fun lc =>
      (flat lc, (removeEventsByPosition lc [⟨0, 1⟩]).map (·.1.toOption))) =
      some ([(⟨0, 0⟩, 8), (⟨0, 1⟩, 9), (⟨0, 0⟩, 7)], some none) := by
  decide

end Removal

end MatrixSdk.FlatLists

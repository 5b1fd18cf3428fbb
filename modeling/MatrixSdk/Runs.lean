import MatrixSdk.LazyOperations

/-!
Runs of a linked chunk: any sequence of its operations, with arguments that may be
invalid. One operation either keeps the loaded chunks and mutates them, or puts a chunk
in front of them, or starts again from nothing; the structure of the list survives all
three.
-/
namespace MatrixSdk.Runs

open LinkedCells Updates Chunks Chains Traces Layouts LazyLoader LinkedChunk UpdatesInner List

variable {Item Gap : Type} {cap : ℕ} {lc lc' : LinkedChunk Item Gap} {base : Option ℕ}
  {chain : Chain Item Gap}

/-- The operations on the loaded chunks. -/
inductive Mutation (Item Gap : Type) where
  | pushItemsBack (items : List Item)
  | pushGapBack (gap : Gap)
  | insertItemsAt (position : Position) (items : List Item)
  | insertGapAt (gap : Gap) (position : Position)
  | removeItemAt (position : Position)
  | replaceItemAt (position : Position) (item : Item)
  | removeEmptyChunkAt (identifier : ℕ)
  | replaceGapAt (items : List Item) (identifier : ℕ)

inductive Op (Item Gap : Type) where
  | mutate (mutation : Mutation Item Gap)
  | clear
  | insertNewFirstChunk (raw : RawChunk Item Gap)
  | replaceWith (raw : Option (RawChunk Item Gap)) (chunkIdentifierGenerator : ℕ)

/-- What an operation returns, its value left out. -/
def settle {ε α : Type} : Except ε α × LinkedChunk Item Gap → Except ε Unit × LinkedChunk Item Gap
  | (.ok _, lc) => (.ok (), lc)
  | (.error e, lc) => (.error e, lc)

def mutate (cap : ℕ) (lc : LinkedChunk Item Gap) :
    Mutation Item Gap → Option (Except Error Unit × LinkedChunk Item Gap)
  | .pushItemsBack items => (lc.pushItemsBack cap items).map fun lc => (.ok (), lc)
  | .pushGapBack gap => (lc.pushGapBack gap).map fun lc => (.ok (), lc)
  | .insertItemsAt position items => (lc.insertItemsAt cap position items).map settle
  | .insertGapAt gap position => (lc.insertGapAt cap gap position).map settle
  | .removeItemAt position => (lc.removeItemAt position).map settle
  | .replaceItemAt position item => (lc.replaceItemAt position item).map settle
  | .removeEmptyChunkAt identifier => (lc.removeEmptyChunkAt identifier).map settle
  | .replaceGapAt items identifier => (lc.replaceGapAt cap items identifier).map settle

def perform (cap : ℕ) (lc : LinkedChunk Item Gap) :
    Op Item Gap → Option (Except (Error ⊕ LazyLoaderError) Unit × LinkedChunk Item Gap)
  | .mutate mutation => (mutate cap lc mutation).map fun r => (r.1.mapError .inl, r.2)
  | .clear => lc.clear.map fun lc => (.ok (), lc)
  | .insertNewFirstChunk raw =>
    (insertNewFirstChunk cap lc raw).map fun r => (r.1.mapError .inr, r.2)
  | .replaceWith raw generator =>
    (replaceWith cap lc raw generator).map fun r => (r.1.mapError .inr, r.2)

/-- How the updates of a mutation treat the items. -/
inductive Tame : Mutation Item Gap → List (Update Item Gap) → Prop
  | grows {m : Mutation Item Gap} {us : List (Update Item Gap)}
      (keeps : ∀ u ∈ us, keepsItems u = true) : Tame m us
  | shrinks {m : Mutation Item Gap} {us : List (Update Item Gap)}
      (adds : ∀ u ∈ us, addsNoItem u = true) : Tame m us
  | replaces (position : Position) (item : Item) :
      Tame (.replaceItemAt position item) [.replaceItem position item]

theorem identifiers_cases (id : ℕ) (chain : Chain Item Gap) :
    id ∉ identifiers chain ∨ ∃ l content r, chain = l ++ (id, content) :: r := by
  by_cases hid : id ∈ identifiers chain
  · right
    obtain ⟨⟨_, content⟩, hmem, rfl⟩ := mem_map.mp hid
    obtain ⟨l, r, hsplit⟩ := append_of_mem hmem
    exact ⟨l, content, r, hsplit⟩
  · exact .inl hid

/-- What a mutation does: it starts the linked chunk and either fails there, or emits
updates that lead to the new chain. -/
inductive Mutated (cap : ℕ) (lc : LinkedChunk Item Gap) (base : Option ℕ) (chain : Chain Item Gap)
    (m : Mutation Item Gap) : Except Error Unit → LinkedChunk Item Gap → Prop
  | failed (e : Error) : Mutated cap lc base chain m (.error e) (start lc)
  | done {lc' : LinkedChunk Item Gap} {us : List (Update Item Gap)} {chain' : Chain Item Gap}
      (mutates : Mutates cap base lc chain (startUpdates chain ++ us) lc' chain')
      (tame : Tame m us) : Mutated cap lc base chain m (.ok ()) lc'

@[reducible] def Settles (cap : ℕ) (lc : LinkedChunk Item Gap) (base : Option ℕ)
    (chain : Chain Item Gap) (m : Mutation Item Gap)
    (outcome : Option (Except Error Unit × LinkedChunk Item Gap)) : Prop :=
  ∃ result lc', outcome = some (result, lc') ∧ Mutated cap lc base chain m result lc'

section Mutate

variable {α : Type}

/-- An operation on the items of a chunk fails unless it names an items chunk. -/
theorem mutated_of_items (h : Represents cap lc base chain) (m : Mutation Item Gap)
    (position : Position) (operation : ℕ → Chunk Item Gap → List Item → LinkedChunk Item Gap →
      Option (Outcome Item Gap α))
    (hitems : ∀ l current r, started chain = l ++ (position.chunkIdentifier, .items current) :: r →
      Settles cap lc base chain m ((lc.withItems position.chunkIdentifier operation).map settle)) :
    Settles cap lc base chain m ((lc.withItems position.chunkIdentifier operation).map settle) := by
  rcases identifiers_cases position.chunkIdentifier (started chain) with
    hid | ⟨l, content, r, hchain⟩
  · refine ⟨_, _, ?_, .failed (.invalidChunkIdentifier position.chunkIdentifier)⟩
    simp [withItems, h.chunkPtr_missing hid, settle]
  · cases content with
    | gap g =>
      refine ⟨_, _, ?_, .failed (.chunkIsAGap position.chunkIdentifier)⟩
      rw [h.withItems_gap operation hchain]
      rfl
    | items current => exact hitems l current r hchain

theorem exists_split_of_lt {i : ℕ} {current : List Item} (hi : i < current.length) :
    ∃ before old after, current = before ++ old :: after ∧ before.length = i := by
  refine ⟨current.take i, current[i], current.drop (i + 1), ?_, ?_⟩
  · rw [getElem_cons_drop, take_append_drop]
  · rw [length_take]
    omega

theorem mutate_insertItemsAt (hcap : 0 < cap) (h : Represents cap lc base chain)
    (position : Position) (items : List Item) :
    Settles cap lc base chain (.insertItemsAt position items)
      (mutate cap lc (.insertItemsAt position items)) := by
  refine mutated_of_items h _ position _ fun l current r hchain => ?_
  by_cases hindex : position.index ≤ current.length
  · obtain ⟨lc', us, left, hok, hmut, hkeeps, -⟩ := insertItemsAt_ok hcap h hchain hindex items
    exact ⟨_, lc', congrArg (Option.map settle) hok, .done hmut (.grows hkeeps)⟩
  · obtain ⟨_, _, _, _, -, -, -, -, -, -, -, heq⟩ := h.withItems_items hchain
    refine ⟨_, _, ?_, .failed (.invalidItemIndex position.index)⟩
    simp [heq, Nat.lt_of_not_le hindex, settle]

theorem mutate_insertGapAt (hcap : 0 < cap) (h : Represents cap lc base chain)
    (gap : Gap) (position : Position) :
    Settles cap lc base chain (.insertGapAt gap position)
      (mutate cap lc (.insertGapAt gap position)) := by
  obtain ⟨id, index⟩ := position
  refine mutated_of_items h _ ⟨id, index⟩ _ fun l current r hchain => ?_
  by_cases hzero : index = 0
  · subst hzero
    obtain ⟨lc', hok, hmut⟩ := insertGapAt_front h hchain gap
    exact ⟨_, lc', congrArg (Option.map settle) hok, .done hmut (.grows (by simp [keepsItems]))⟩
  · by_cases hindex : index < current.length
    · obtain ⟨lc', us, left, hok, hmut, hkeeps, -⟩ :=
        insertGapAt_split hcap h hchain hzero hindex gap
      exact ⟨_, lc', congrArg (Option.map settle) hok, .done hmut (.grows hkeeps)⟩
    · obtain ⟨_, _, _, _, -, -, -, -, -, -, -, heq⟩ := h.withItems_items hchain
      refine ⟨_, _, ?_, .failed (.invalidItemIndex index)⟩
      simp [heq, hzero, Nat.not_lt.mp hindex, settle]

section

variable (h : Represents cap lc base chain)
include h

theorem mutate_removeItemAt (position : Position) :
    Settles cap lc base chain (.removeItemAt position)
      (mutate cap lc (.removeItemAt position)) := by
  obtain ⟨id, index⟩ := position
  refine mutated_of_items h _ ⟨id, index⟩ _ fun l current r hchain => ?_
  by_cases hindex : index < current.length
  · obtain ⟨before, old, after, rfl, rfl⟩ := exists_split_of_lt hindex
    obtain ⟨lc', us, chain', hok, hmut, hus, -⟩ := removeItemAt_ok h hchain
    exact ⟨_, lc', congrArg (Option.map settle) hok, .done hmut (.shrinks hus)⟩
  · obtain ⟨_, _, _, _, -, -, -, -, -, -, -, heq⟩ := h.withItems_items hchain
    refine ⟨_, _, ?_, .failed (.invalidItemIndex index)⟩
    simp [heq, hindex, settle]

theorem mutate_replaceItemAt (position : Position) (item : Item) :
    Settles cap lc base chain (.replaceItemAt position item)
      (mutate cap lc (.replaceItemAt position item)) := by
  obtain ⟨id, index⟩ := position
  refine mutated_of_items h _ ⟨id, index⟩ _ fun l current r hchain => ?_
  by_cases hindex : index < current.length
  · obtain ⟨before, old, after, rfl, rfl⟩ := exists_split_of_lt hindex
    obtain ⟨lc', hok, hmut⟩ := replaceItemAt_ok h hchain item
    exact ⟨_, lc', congrArg (Option.map settle) hok, .done hmut (.replaces _ _)⟩
  · obtain ⟨_, _, _, _, -, -, -, -, -, -, -, heq⟩ := h.withItems_items hchain
    refine ⟨_, _, ?_, .failed (.invalidItemIndex index)⟩
    simp [heq, Nat.not_lt.mp hindex, settle]

theorem mutate_removeEmptyChunkAt (id : ℕ) :
    Settles cap lc base chain (.removeEmptyChunkAt id)
      (mutate cap lc (.removeEmptyChunkAt id)) := by
  by_cases hone : (started chain).length = 1
  · exact ⟨_, _, congrArg (Option.map settle) (removeEmptyChunkAt_only h hone), .failed _⟩
  rcases identifiers_cases id (started chain) with hid | ⟨l, content, r, hchain⟩
  · exact ⟨_, _, congrArg (Option.map settle) (removeEmptyChunkAt_missing h hone hid), .failed _⟩
  · by_cases hempty : content.numItems = 0
    · obtain ⟨lc', hok, hmut⟩ := removeEmptyChunkAt_ok h hone hchain hempty
      exact ⟨_, lc', congrArg (Option.map settle) hok, .done hmut (.grows (by simp [keepsItems]))⟩
    · have herror := removeEmptyChunkAt_nonEmpty h hone hchain (by omega)
      exact ⟨_, _, congrArg (Option.map settle) herror, .failed _⟩

end

theorem mutate_replaceGapAt (hcap : 0 < cap) (h : Represents cap lc base chain)
    (items : List Item) (id : ℕ) :
    Settles cap lc base chain (.replaceGapAt items id)
      (mutate cap lc (.replaceGapAt items id)) := by
  rcases identifiers_cases id (started chain) with hid | ⟨l, content, r, hchain⟩
  · refine ⟨_, _, ?_, .failed (.invalidChunkIdentifier id)⟩
    simp [mutate, replaceGapAt, h.chunkPtr_missing hid, settle]
  · cases content with
    | gap g =>
      obtain ⟨new, chunk, lc', us, current, more, hok, -, -, hmut, hkeeps, -⟩ :=
        replaceGapAt_ok hcap h hchain items
      exact ⟨_, lc', congrArg (Option.map settle) hok, .done hmut (.grows hkeeps)⟩
    | items current =>
      obtain ⟨xs, p, b, ys, hlayout, -, rfl, hcontent, -, -, hptr, -⟩ := h.located hchain
      refine ⟨_, _, ?_, .failed (.chunkIsItems b.identifier)⟩
      simp [mutate, replaceGapAt, hptr, hlayout.cells.read_eq, hcontent, ChunkContent.isGap,
        settle]

/-- No mutation panics, whatever its arguments. -/
theorem mutate_spec (hcap : 0 < cap) (h : Represents cap lc base chain) (m : Mutation Item Gap) :
    Settles cap lc base chain m (mutate cap lc m) := by
  cases m with
  | pushItemsBack items =>
    obtain ⟨lc', us, chain', hok, hmut, hgrow⟩ := pushItemsBack_eq hcap h items
    exact ⟨.ok (), lc', by simp [mutate, hok],
      .done hmut (.grows hgrow.keepsItems)⟩
  | pushGapBack gap =>
    obtain ⟨lc', hok, hmut⟩ := pushGapBack_eq h gap
    exact ⟨.ok (), lc', by simp [mutate, hok],
      .done hmut (.grows (by simp [keepsItems]))⟩
  | insertItemsAt position items => exact mutate_insertItemsAt hcap h position items
  | insertGapAt gap position => exact mutate_insertGapAt hcap h gap position
  | removeItemAt position => exact mutate_removeItemAt h position
  | replaceItemAt position item => exact mutate_replaceItemAt h position item
  | removeEmptyChunkAt id => exact mutate_removeEmptyChunkAt h id
  | replaceGapAt items id => exact mutate_replaceGapAt hcap h items id

end Mutate

/-- The chunks that following `next` from the first chunk visits. -/
def chunks (lc : LinkedChunk Item Gap) : Option (Cells Item Gap) :=
  lc.heap.walkForward lc.heap.length lc.first

/-- The chunks that following `previous` from the latest chunk visits. -/
def rchunks (lc : LinkedChunk Item Gap) : Option (Cells Item Gap) :=
  lc.heap.walkBackward lc.heap.length (lc.last.or lc.first)

/-- The identifiers of the loaded chunks. -/
def loadedIdentifiers (lc : LinkedChunk Item Gap) : List ℕ :=
  ((chunks lc).getD []).map fun x => x.2.identifier

/-- What the lazy loader does not check: the chunk to insert is not loaded yet, and no
identifier is above the counter of the generator. -/
def Admissible (lc : LinkedChunk Item Gap) : Op Item Gap → Prop
  | .insertNewFirstChunk raw =>
    raw.identifier ∉ loadedIdentifiers lc ∧ raw.identifier ≤ lc.chunkIdentifierGenerator
  | .replaceWith (some raw) generator => raw.identifier ≤ generator
  | _ => True

variable {xs : Cells Item Gap}

theorem chunks_eq (h : Layout cap lc xs) : chunks lc = some xs := by
  unfold chunks
  rw [h.first]
  exact walkForward_of_seg _ none _ _ h.cells.seg h.cells.length_le

/-- The items of the loaded chunks, in order. -/
def items (lc : LinkedChunk Item Gap) : List Item :=
  ((chunks lc).getD []).flatMap fun x => contentItems x.2.content

section

variable (h : Represents cap lc base chain)
include h

theorem loadedIdentifiers_eq : loadedIdentifiers lc = identifiers chain := by
  obtain ⟨xs, hlayout, rfl, -⟩ := h
  unfold loadedIdentifiers
  rw [chunks_eq hlayout, Option.getD_some]
  simp [identifiers, chainOf]

theorem items_eq : items lc = itemsOf chain := by
  obtain ⟨xs, hlayout, rfl, -⟩ := h
  unfold items
  rw [chunks_eq hlayout, Option.getD_some]
  simp [itemsOf, chainOf, flatMap_map]

/-- The update log is no part of the list. -/
theorem represents_withUpdates (updates : Option (UpdatesInner (Update Item Gap))) :
    Represents cap { lc with updates := updates } base chain := by
  obtain ⟨xs, hlayout, hchain, hbase⟩ := h
  exact ⟨xs, ⟨⟨hlayout.cells, hlayout.distinct, hlayout.bounded, hlayout.capacity, hlayout.lazy⟩,
    hlayout.first, hlayout.last⟩, hchain, hbase⟩

end

section Log

variable {inner : UpdatesInner (Update Item Gap)}

section

variable (hwf : inner.WellFormed) (us : List (Update Item Gap))
include hwf us

theorem wellFormed_appendUpdates : (appendUpdates us inner).WellFormed where
  index_le token index hindex := by
    have hle := hwf.index_le token index hindex
    simp only [appendUpdates, length_append]
    omega
  token_le := hwf.token_le

theorem pending_appendUpdates (token : ℕ) :
    (appendUpdates us inner).pending token = (inner.pending token).map (· ++ us) := by
  simp only [pending, appendUpdates, Option.map_map]
  cases hindex : inner.lastIndexPerReader.lookup token with
  | none => rfl
  | some index =>
    simp [drop_append_of_le_length (hwf.index_le token index hindex)]

theorem wellFormed_resetUpdates : (resetUpdates us inner).WellFormed :=
  wellFormed_appendUpdates hwf.clearPending us

theorem pending_resetUpdates (token : ℕ) :
    (resetUpdates us inner).pending token = (inner.pending token).map fun _ => us := by
  unfold resetUpdates
  rw [pending_appendUpdates hwf.clearPending, pending_clearPending, Option.map_map]
  rfl

end

end Log

/-- What an operation does to the chain and to the update log. -/
inductive Effect (cap : ℕ) (lc : LinkedChunk Item Gap) (base : Option ℕ)
    (chain : Chain Item Gap) : LinkedChunk Item Gap → Option ℕ → Chain Item Gap → Prop
  | unchanged : Effect cap lc base chain lc base chain
  | mutated {us : List (Update Item Gap)} {lc' : LinkedChunk Item Gap} {chain' : Chain Item Gap}
      (mutates : Mutates cap base lc chain us lc' chain') :
      Effect cap lc base chain lc' base chain'
  | loaded (raw : RawChunk Item Gap) {lc' : LinkedChunk Item Gap}
      (represents : Represents cap lc' raw.previous ((raw.identifier, raw.content) :: chain))
      (fresh : raw.identifier ∉ identifiers chain)
      (log : lc'.updates = lc.updates.map (appendUpdates (firstChunkUpdates raw.previous
        raw.identifier (headIdentifier chain) raw.content))) :
      Effect cap lc base chain lc' raw.previous ((raw.identifier, raw.content) :: chain)
  | reset (us : List (Update Item Gap)) {lc' : LinkedChunk Item Gap} {base' : Option ℕ}
      {chain' : Chain Item Gap} (represents : Represents cap lc' base' chain')
      (log : lc'.updates = lc.updates.map (resetUpdates (.clear :: us)))
      (steps : Steps base' (.whole []) us (.whole chain')) :
      Effect cap lc base chain lc' base' chain'

theorem Effect.represents {base' : Option ℕ} {chain' : Chain Item Gap}
    (h : Represents cap lc base chain) (heffect : Effect cap lc base chain lc' base' chain') :
    Represents cap lc' base' chain' := by
  cases heffect with
  | unchanged => exact h
  | mutated hmut => exact hmut.represents
  | loaded raw hrep => exact hrep
  | reset us hrep => exact hrep

/-- No operation panics. One that fails changes nothing, except that it may have created
the first chunk. -/
theorem perform_spec (hcap : 0 < cap) (h : Represents cap lc base chain) (op : Op Item Gap)
    (hop : Admissible lc op) :
    ∃ result lc' base' chain', perform cap lc op = some (result, lc') ∧
      Effect cap lc base chain lc' base' chain' ∧
      (∀ e, result = .error e → lc' = lc ∨ lc' = start lc) := by
  obtain ⟨-, -, -, -, -, hstart⟩ := h.starts
  cases op with
  | mutate m =>
    obtain ⟨result, lc', hmutate, hdone⟩ := mutate_spec hcap h m
    cases hdone with
    | failed e =>
      exact ⟨.error (.inl e), _, base, _, by simp [perform, hmutate, Except.mapError],
        .mutated hstart, fun _ _ => .inr rfl⟩
    | done hmut _ =>
      exact ⟨.ok (), _, base, _, by simp [perform, hmutate, Except.mapError], .mutated hmut,
        fun _ hok => by cases hok⟩
  | clear =>
    obtain ⟨lc', hclear, hrep, -, hlog⟩ := clear_eq h
    exact ⟨.ok (), lc', none, [], by simp [perform, hclear], .reset [] hrep hlog (.nil _),
      fun _ hok => by cases hok⟩
  | insertNewFirstChunk raw =>
    obtain ⟨hfresh, hbound⟩ := hop
    rw [loadedIdentifiers_eq h] at hfresh
    by_cases hconnects : Connects cap base chain raw
    · obtain ⟨lc', hinsert, hrep, -, hlog⟩ := insertNewFirstChunk_ok h hconnects hfresh hbound
      exact ⟨.ok (), lc', _, _, by simp [perform, hinsert, Except.mapError],
        .loaded raw hrep hfresh hlog, fun _ hok => by cases hok⟩
    · obtain ⟨e, lc', hinsert, hsame⟩ := insertNewFirstChunk_error h hconnects
      have hresult : perform cap lc (.insertNewFirstChunk raw) = some (.error (.inr e), lc') := by
        simp [perform, hinsert, Except.mapError]
      rcases hsame with rfl | rfl
      · exact ⟨_, _, _, _, hresult, .unchanged, fun _ _ => .inl rfl⟩
      · exact ⟨_, _, _, _, hresult, .mutated hstart, fun _ _ => .inr rfl⟩
  | replaceWith raw generator =>
    cases raw with
    | none =>
      obtain ⟨lc', hreplace, hrep, -, hlog⟩ := replaceWith_none h generator
      exact ⟨.ok (), lc', none, [], by simp [perform, hreplace, Except.mapError],
        .reset [] hrep hlog (.nil _), fun _ hok => by cases hok⟩
    | some raw =>
      by_cases hlast : IsLast cap raw
      · obtain ⟨lc', hreplace, hrep, -, hlog⟩ := replaceWith_ok h hlast hop
        refine ⟨.ok (), lc', _, _, by simp [perform, hreplace, Except.mapError],
          .reset _ hrep hlog ?_, fun _ hok => by cases hok⟩
        exact steps_firstChunkUpdates raw.previous raw.identifier raw.content (by simp)
      · obtain ⟨e, hreplace⟩ : ∃ e, replaceWith cap lc (some raw) generator =
            some (.error e, lc) := by
          by_cases hsize : cap < raw.content.numItems
          · exact ⟨_, by simp [replaceWith, hsize]; rfl⟩
          · cases hnext : raw.next with
            | none => exact absurd ⟨by omega, hnext⟩ hlast
            | some next => exact ⟨_, by simp [replaceWith, hsize, hnext]; rfl⟩
        exact ⟨.error (.inr e), lc, _, _, by simp [perform, hreplace, Except.mapError],
          .unchanged, fun _ _ => .inl rfl⟩

/-- How a linked chunk comes to be. -/
inductive Initial (cap : ℕ) : LinkedChunk Item Gap → Prop
  | new : Initial cap LinkedChunk.new
  | newWithUpdateHistory : Initial cap newWithUpdateHistory
  | fromLastChunk {raw : RawChunk Item Gap} {generator : ℕ} {lc : LinkedChunk Item Gap}
      (bounded : raw.identifier ≤ generator)
      (ok : fromLastChunk cap (some raw) generator = .ok (some lc)) : Initial cap lc

theorem represents_empty {updates : Option (UpdatesInner (Update Item Gap))} :
    Represents cap (⟨[], none, none, firstIdentifier, updates⟩ : LinkedChunk Item Gap)
      none [] := by
  refine ⟨[], ⟨⟨DList.nil, ?_, ?_, ?_, ?_⟩, rfl, .inl rfl⟩, rfl, rfl⟩ <;> simp

theorem Initial.represents (h : Initial cap lc) : ∃ base chain, Represents cap lc base chain := by
  cases h with
  | new => exact ⟨none, [], represents_empty⟩
  | newWithUpdateHistory => exact ⟨none, [], represents_empty⟩
  | @fromLastChunk raw generator _ hbound hok =>
    have hlast : IsLast cap raw := by
      unfold LazyLoader.fromLastChunk at hok
      by_cases hsize : cap < raw.content.numItems
      · simp [hsize] at hok
      · cases hnext : raw.next with
        | none => exact ⟨Nat.not_lt.mp hsize, hnext⟩
        | some next => simp [hsize, hnext] at hok
    obtain ⟨lc', hok', hrep, -, -⟩ := represents_fromLastChunk hlast hbound
    rw [hok'] at hok
    cases hok
    exact ⟨_, _, hrep⟩

/-- One admissible operation, whether it succeeds or not. -/
def Performs (cap : ℕ) (lc : LinkedChunk Item Gap) (op : Op Item Gap)
    (lc' : LinkedChunk Item Gap) : Prop :=
  Admissible lc op ∧ ∃ result, perform cap lc op = some (result, lc')

theorem Performs.represents (hcap : 0 < cap) {op : Op Item Gap}
    (h : ∃ base chain, Represents cap lc base chain) (hperforms : Performs cap lc op lc') :
    ∃ base chain, Represents cap lc' base chain := by
  obtain ⟨base, chain, hrep⟩ := h
  obtain ⟨hop, result, hresult⟩ := hperforms
  obtain ⟨result', lc'', base', chain', hperform, heffect, -⟩ := perform_spec hcap hrep op hop
  rw [hresult, Option.some.injEq, Prod.mk.injEq] at hperform
  obtain ⟨-, rfl⟩ := hperform
  exact ⟨base', chain', heffect.represents hrep⟩

/-- The chunks `xs` are well linked, in both directions and at both ends. -/
structure Structured (cap : ℕ) (lc : LinkedChunk Item Gap) (xs : Cells Item Gap) : Prop where
  forward : chunks lc = some xs
  backward : rchunks lc = some xs.reverse
  pointers : (xs.map Prod.fst).Nodup
  first : lc.first = xs.head?.map Prod.fst
  last : lc.last = xs.getLast?.map Prod.fst ∨ lc.last = none ∧ xs.length ≤ 1
  identifiers : (xs.map fun x => x.2.identifier).Nodup
  generator : ∀ x ∈ xs, x.2.identifier ≤ lc.chunkIdentifierGenerator
  capacity : ∀ x ∈ xs, x.2.content.numItems ≤ cap
  lazyPrevious : ∀ x ∈ xs.tail, x.2.lazyPrevious = none

/-- Every state that a run reaches is well linked. From there no operation panics, and
one that fails leaves the linked chunk as it was or, when it had no chunk yet, with its
first chunk created. Identifiers are unbounded here: that the generator panics once it has
given out `u64::MAX` is left out. -/
theorem structure_of_every_run (hcap : 0 < cap) {lc₀ : LinkedChunk Item Gap}
    {ops : List (Op Item Gap)} (hinit : Initial cap lc₀) (hrun : Trace (Performs cap) lc₀ ops lc) :
    (∃ xs, Structured cap lc xs) ∧
    ∀ op, Admissible lc op → ∃ result lc', perform cap lc op = some (result, lc') ∧
      ∀ e, result = .error e → lc' = lc ∨ lc.first = none ∧ lc' = lc.firstChunkPtr.2 := by
  obtain ⟨base, chain, hrep⟩ := hrun.preserves (fun _ _ _ h hp => hp.represents hcap h)
    hinit.represents
  constructor
  · obtain ⟨xs, hlayout, -, -⟩ := hrep
    exact ⟨xs, {
      forward := chunks_eq hlayout
      backward := by
        rw [rchunks, hlayout.latest_or_first]
        exact walkBackward_of_seg _ none _ _ hlayout.cells.seg hlayout.cells.length_le
      pointers := hlayout.cells.nodup
      first := by rw [hlayout.first, headPtr_none_eq]
      last := by
        rw [← lastPtr_none_eq]
        exact hlayout.last
      identifiers := by
        simpa [Chains.identifiers, chainOf, Function.comp_def] using hlayout.distinct
      generator x hx := hlayout.bounded _ (mem_map.mpr ⟨_, mem_map.mpr ⟨x, hx, rfl⟩, rfl⟩)
      capacity x hx := hlayout.capacity _ (mem_map.mpr ⟨x, hx, rfl⟩)
      lazyPrevious := hlayout.lazy }⟩
  · intro op hop
    obtain ⟨result, lc', base', chain', hperform, -, herror⟩ := perform_spec hcap hrep op hop
    refine ⟨result, lc', hperform, fun e he => ?_⟩
    rcases herror e he with rfl | rfl
    · exact .inl rfl
    · cases hfirst : lc.first with
      | none => exact .inr ⟨rfl, rfl⟩
      | some p => exact .inl (start_of_some hfirst)

theorem structure_of_every_run_spill :
    ∃ lc, Trace (Performs 2) (newWithUpdateHistory : LinkedChunk ℕ ℕ)
        [.mutate (.pushItemsBack [7, 8, 9])] lc ∧
      (∃ xs, Structured 2 lc xs) ∧
      ∀ op, Admissible lc op → ∃ result lc', perform 2 lc op = some (result, lc') ∧
        ∀ e, result = .error e → lc' = lc ∨ lc.first = none ∧ lc' = lc.firstChunkPtr.2 := by
  obtain ⟨result, lc, -, -, hperform, -⟩ := perform_spec (show 0 < 2 by decide)
    represents_empty (.mutate (.pushItemsBack [7, 8, 9])) trivial
  exact ⟨lc, and_of_imp (.single ⟨trivial, result, hperform⟩)
    (structure_of_every_run (by decide) .newWithUpdateHistory)⟩

def run (cap : ℕ) : LinkedChunk Item Gap → List (Op Item Gap) → Option (LinkedChunk Item Gap)
  | lc, [] => some lc
  | lc, op :: ops => (perform cap lc op).bind fun r => run cap r.2 ops

/-- `last` may designate the only chunk; an operation that fails may create the first chunk
and log it; a chunk that names itself as its predecessor can be loaded twice; and the
generator that `replace_with` is given may be below the identifier of its chunk. -/
theorem structure_is_not_exact :
    ((run 1 (LinkedChunk.new : LinkedChunk ℕ ℕ)
        [.mutate (.pushItemsBack [7, 8]), .mutate (.removeItemAt ⟨1, 0⟩)]).map fun lc =>
      (lc.last, (chunks lc).map List.length)) = some (some 0, some 1) ∧
    ((perform 1 (newWithUpdateHistory : LinkedChunk ℕ ℕ)
        (.mutate (.removeItemAt ⟨5, 0⟩))).map fun r =>
      (r.1.isOk, r.2.updates.map UpdatesInner.updates)) =
      some (false, some [.newItemsChunk none 0 none]) ∧
    ((run 1 (LinkedChunk.new : LinkedChunk ℕ ℕ)
        [.replaceWith (some ⟨.items [7], some 0, 0, none⟩) 0,
          .insertNewFirstChunk ⟨.items [8], none, 0, some 0⟩]).map loadedIdentifiers) =
      some [0, 0] ∧
    ((run 1 (LinkedChunk.new : LinkedChunk ℕ ℕ)
        [.replaceWith (some ⟨.items [7], none, 5, none⟩) 0]).map fun lc =>
      (loadedIdentifiers lc, lc.chunkIdentifierGenerator)) = some ([5], 0) := by
  decide

end MatrixSdk.Runs

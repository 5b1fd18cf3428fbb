import MatrixSdk.Runs
import MatrixSdk.VectorDiffs

/-!
The mapper follows the chain. One update of the stream leads the mapper from the lengths
of a phase to those of the next one, and the diffs it emits lead from the items of the
one to the items of the other; a vector that applies what `take` returns is therefore
always a copy of the items.
-/
namespace MatrixSdk.VectorDiffs

open LinkedCells Updates Chunks Chains Traces Layouts Runs LinkedChunk UpdatesInner List
open Option Phase

variable {Item Gap : Type}

def lengthsOf (chain : Chain Item Gap) : List (ℕ × ℕ) :=
  chain.map fun chunk => (chunk.1, chunk.2.numItems)

@[simp]
theorem lengthsOf_append (l r : Chain Item Gap) :
    lengthsOf (l ++ r) = lengthsOf l ++ lengthsOf r := map_append

@[simp]
theorem lengthsOf_cons (chunk : ℕ × ChunkContent Item Gap) (chain : Chain Item Gap) :
    lengthsOf (chunk :: chain) = (chunk.1, chunk.2.numItems) :: lengthsOf chain := rfl

@[simp]
theorem lengthsOf_nil : lengthsOf ([] : Chain Item Gap) = [] := rfl

@[simp]
theorem length_lengthsOf (chain : Chain Item Gap) : (lengthsOf chain).length = chain.length :=
  length_map _

theorem insertIdx_length {α : Type} (xs ys : List α) (a : α) :
    (xs ++ ys).insertIdx xs.length a = xs ++ a :: ys := by
  induction xs with
  | nil => rfl
  | cons x xs ih => simpa using ih

section Lookups

variable {l r : Chain Item Gap} {id : ℕ} {content : ChunkContent Item Gap}

section

variable (h : (identifiers (l ++ (id, content) :: r)).Nodup)
include h

theorem notMem_of_distinct : id ∉ identifiers l := by
  intro hmem
  rw [identifiers_append, identifiers_cons] at h
  exact (nodup_append.mp h).2.2 id hmem id (by simp) rfl

theorem mapToOffset_eq (index : ℕ) :
    mapToOffset (lengthsOf (l ++ (id, content) :: r)) ⟨id, index⟩ =
      some ((itemsOf l).length + index, l.length, content.numItems) := by
  have hid := notMem_of_distinct h
  clear h
  induction l with
  | nil => simp [mapToOffset]
  | cons chunk l ih =>
    obtain ⟨other, c⟩ := chunk
    obtain ⟨hne, hid⟩ : id ≠ other ∧ id ∉ identifiers l := by simpa using hid
    simp only [cons_append, lengthsOf_cons, mapToOffset, hne.symm, if_false, ih hid,
      itemsOf_cons, length_append, length_cons, map_some, numItems_eq]
    congr 2
    omega

end

theorem setLength_eq (length : ℕ) :
    setLength (lengthsOf (l ++ (id, content) :: r)) l.length length =
      lengthsOf l ++ (id, length) :: lengthsOf r := by
  induction l with
  | nil => rfl
  | cons chunk l ih => simpa [setLength] using ih

theorem eraseIdx_lengthsOf :
    (lengthsOf (l ++ (id, content) :: r)).eraseIdx l.length = lengthsOf (l ++ r) := by
  induction l with
  | nil => rfl
  | cons chunk l ih => simpa using ih

theorem findIdx?_lengthsOf (hid : id ∉ identifiers l) :
    (lengthsOf (l ++ (id, content) :: r)).findIdx? (fun chunk => chunk.1 == id) =
      some l.length := by
  induction l with
  | nil => simp [findIdx?_cons]
  | cons chunk l ih =>
    obtain ⟨other, c⟩ := chunk
    obtain ⟨hne, hid⟩ : id ≠ other ∧ id ∉ identifiers l := by simpa using hid
    have hne' : (other == id) = false := by simpa using hne.symm
    simp only [cons_append, lengthsOf_cons, findIdx?_cons, hne', ih hid,
      length_cons, map_some, Bool.false_eq_true, if_false]

/-- The new pair goes where the new chunk does, whatever precedes the loaded chunks. -/
theorem mapNewChunk_eq (base : Option ℕ) (new : ℕ) (hdistinct : (identifiers (l ++ r)).Nodup) :
    mapNewChunk (lengthsOf (l ++ r)) (lastIdentifier base l) new (headIdentifier r) =
      some (lengthsOf l ++ (new, 0) :: lengthsOf r) := by
  cases r with
  | nil =>
    cases hprevious : lastIdentifier base l with
    | none =>
      rcases eq_nil_or_concat l with rfl | ⟨l, chunk, rfl⟩
      · rfl
      · simp at hprevious
    | some previous => simp [mapNewChunk, headIdentifier]
  | cons chunk r =>
    obtain ⟨next, content⟩ := chunk
    have hnext : next ∉ identifiers l := by
      intro hmem
      rw [identifiers_append, identifiers_cons] at hdistinct
      exact (nodup_append.mp hdistinct).2.2 next hmem next (by simp) rfl
    cases hprevious : lastIdentifier base l with
    | none =>
      rcases eq_nil_or_concat l with rfl | ⟨l, chunk, rfl⟩
      · simp [mapNewChunk, headIdentifier]
      · simp at hprevious
    | some previous =>
      have hindex : (lengthsOf (l ++ (next, content) :: r)).findIdx?
        (fun chunk => chunk.1 == next) =
          some l.length := findIdx?_lengthsOf hnext
      simp only [mapNewChunk, headIdentifier, head?_cons, map_some, hindex, bind_eq_bind, bind_some]
      rw [lengthsOf_append, ← length_lengthsOf l, insertIdx_length]

end Lookups

section Diffs

theorem applyAll_append (vector : List Item) (ds es : List (VectorDiff Item)) :
    applyAll vector (ds ++ es) = (applyAll vector ds).bind fun vector => applyAll vector es := by
  induction ds generalizing vector with
  | nil => rfl
  | cons d ds ih =>
    simp only [cons_append, applyAll, bind_eq_bind]
    cases d.apply vector with
    | none => rfl
    | some vector => exact ih vector

/-- Consecutive insertions put the items in order. -/
theorem applyAll_inserts (xs items ys : List Item) :
    applyAll (xs ++ ys) (items.mapIdx fun nth item => .insert (xs.length + nth) item) =
      some (xs ++ items ++ ys) := by
  induction items generalizing xs with
  | nil => simp [applyAll]
  | cons item items ih =>
    have hnext := ih (xs ++ [item])
    simp only [length_append, length_singleton, append_assoc, singleton_append]
      at hnext
    have hshift : (items.mapIdx fun nth item => VectorDiff.insert (xs.length + (nth + 1)) item) =
        items.mapIdx fun nth item => VectorDiff.insert (xs.length + 1 + nth) item := by
      congr 1
      funext nth item
      congr 1
      omega
    simp only [mapIdx_cons, applyAll, VectorDiff.apply, Nat.add_zero, length_append,
      Nat.le_add_right, if_true, insertIdx_length, bind_eq_bind, bind_some, hshift]
    rw [hnext]
    simp

end Diffs

/-- What the mapper knows in a phase of the update stream. -/
def mappingOf : Phase Item Gap → Mapping
  | .whole chain => ⟨lengthsOf chain, false, false⟩
  | .cut reattaching left _ right => ⟨lengthsOf (left ++ right), reattaching, true⟩

variable {content : ChunkContent Item Gap} {l r : Chain Item Gap} {id : ℕ} {base : Option ℕ}

theorem contentItems_eq_nil (hempty : content.numItems = 0) : contentItems content = [] := by
  rw [numItems_eq] at hempty
  exact length_eq_zero_iff.mp hempty

/-- Items are appended when nothing follows them, also no detached item. -/
theorem mapUpdate_pushItems {items : List Item}
    (h : (identifiers (l ++ (id, .items items) :: r)).Nodup) (reattaching detaching : Bool)
    (new : List Item) :
    mapUpdate ⟨lengthsOf (l ++ (id, .items items) :: r), reattaching, detaching⟩
        (.pushItems ⟨id, items.length⟩ new : Update Item Gap) =
      some (⟨lengthsOf (l ++ (id, .items (items ++ new)) :: r), reattaching, detaching⟩,
        if reattaching then []
        else if r = [] ∧ detaching = false then [.append new]
        else new.mapIdx fun nth item =>
          .insert ((itemsOf l ++ items).length + nth) item) := by
  have hoffset := mapToOffset_eq h items.length
  have hlength : setLength (lengthsOf (l ++ (id, .items items) :: r)) l.length
      (items.length + new.length) = lengthsOf (l ++ (id, .items (items ++ new)) :: r) := by
    rw [setLength_eq]
    simp [ChunkContent.numItems]
  have hback : (l.length + 1 == (lengthsOf (l ++ (id, .items items) :: r)).length) =
      decide (r = []) := by
    cases r <;> simp
  simp only [mapUpdate, hoffset, ChunkContent.numItems, hlength, hback, bind_eq_bind, bind_some,
    le_refl, decide_true, Bool.and_true, length_append]
  cases reattaching <;> cases detaching <;> by_cases hr : r = [] <;> simp [hr]

variable {φ φ' : Phase Item Gap} {us : List (Update Item Gap)}

/-- One update: the mapper follows, and its diffs turn the items into the new items. While
items are detached they stay in the vector, between the two sides of the cut. -/
theorem mapUpdate_of_step {u : Update Item Gap} (h : Step base φ u φ')
    (hdistinct : (identifiers φ.chain).Nodup) :
    ∃ diffs, mapUpdate (mappingOf φ) u = some (mappingOf φ', diffs) ∧
      applyAll φ.allItems diffs = some φ'.allItems := by
  cases h with
  | newChunk l r new content hempty hfresh
  | cutNewChunk reattaching l r detached new content hempty hfresh =>
    refine ⟨[], ?_, ?_⟩
    · have hnew := mapNewChunk_eq base new hdistinct
      rw [lengthsOf_append] at hnew
      cases content <;> simp [newChunkUpdate, mapUpdate, mappingOf, hnew, hempty]
    · simp [applyAll, allItems, contentItems_eq_nil hempty]
  | removeChunk l r id content hempty =>
    have hoffset := mapToOffset_eq hdistinct 0
    refine ⟨[], ?_, ?_⟩
    · simp only [mapUpdate, mappingOf, hoffset, eraseIdx_lengthsOf, hempty, replicate_zero,
        bind_eq_bind, bind_some]
    · simp [applyAll, allItems, contentItems_eq_nil hempty]
  | pushItems l r id items new =>
    refine ⟨_, mapUpdate_pushItems hdistinct false false new, ?_⟩
    by_cases hr : r = []
    · simp [hr, applyAll, VectorDiff.apply, allItems]
    · simp only [hr, Bool.false_eq_true, if_false, false_and]
      have hinserts := applyAll_inserts (itemsOf l ++ items) new (itemsOf r)
      simpa [allItems] using hinserts
  | replaceItem l r id before after old item =>
    have hoffset := mapToOffset_eq hdistinct before.length
    refine ⟨[.set ((itemsOf l).length + before.length) item], ?_, ?_⟩
    · simp only [mapUpdate, mappingOf, hoffset, bind_eq_bind, bind_some]
      simp [ChunkContent.numItems]
    · simp [applyAll, VectorDiff.apply, allItems]
  | removeItem l r id before after old =>
    have hoffset := mapToOffset_eq hdistinct before.length
    refine ⟨[.remove ((itemsOf l).length + before.length)], ?_, ?_⟩
    · simp only [mapUpdate, mappingOf, hoffset, setLength_eq, bind_eq_bind, bind_some]
      simp [ChunkContent.numItems]
    · simp [applyAll, VectorDiff.apply, allItems, eraseIdx_append_of_length_le]
  | clear c => exact ⟨[.clear], rfl, rfl⟩
  | detachLastItems l r id items detached =>
    have hoffset := mapToOffset_eq hdistinct items.length
    refine ⟨[], ?_, ?_⟩
    · simp only [mapUpdate, mappingOf, hoffset, setLength_eq, bind_eq_bind, bind_some]
      simp [ChunkContent.numItems]
    · simp [applyAll, allItems]
  | cutPushItems l r detached id items new =>
    have hchain : (identifiers (l ++ (id, .items items) :: r)).Nodup := by
      simpa [Phase.chain] using hdistinct
    have hmap := mapUpdate_pushItems hchain false true new
    refine ⟨_, by simpa [mappingOf] using hmap, ?_⟩
    have hinserts := applyAll_inserts (itemsOf l ++ items) new (detached ++ itemsOf r)
    simpa [allItems] using hinserts
  | startReattachItems l r detached => exact ⟨[], rfl, rfl⟩
  | reattachItems l r detached id items new =>
    have hchain : (identifiers (l ++ (id, .items items) :: r)).Nodup := by
      simpa [Phase.chain] using hdistinct
    have hmap := mapUpdate_pushItems hchain true true new
    refine ⟨[], by simpa [mappingOf] using hmap, ?_⟩
    simp [applyAll, allItems]
  | endReattachItems l r => exact ⟨[], rfl, by simp [applyAll, allItems]⟩

/-- The steps of a chain whose first loaded chunk may follow anything. -/
def AnyStep (φ : Phase Item Gap) (u : Update Item Gap) (φ' : Phase Item Gap) : Prop :=
  ∃ base, Step base φ u φ'

theorem anySteps_of_steps (h : Steps base φ us φ') : Trace AnyStep φ us φ' :=
  h.mono fun _ _ _ hstep => ⟨base, hstep⟩

/-- A whole stream of updates, by induction on the stream. -/
theorem mapUpdates_of_steps (h : Trace AnyStep φ us φ') (hdistinct : (identifiers φ.chain).Nodup) :
    ∃ diffs, mapUpdates (mappingOf φ) us = some (mappingOf φ', diffs) ∧
      applyAll φ.allItems diffs = some φ'.allItems := by
  induction h with
  | nil φ => exact ⟨[], rfl, rfl⟩
  | cons head _ ih =>
    obtain ⟨base, hstep⟩ := head
    obtain ⟨diffs, hmap, happly⟩ := mapUpdate_of_step hstep hdistinct
    obtain ⟨more, hmaps, happlies⟩ := ih (hstep.distinct hdistinct)
    refine ⟨diffs ++ more, ?_, ?_⟩
    · simp [mapUpdates, hmap, hmaps]
    · rw [applyAll_append, happly, bind_some, happlies]

theorem map_of_steps {chain chain' : Chain Item Gap}
    (h : Trace AnyStep (.whole chain) us (.whole chain')) (hdistinct : (identifiers chain).Nodup) :
    ∃ diffs, UpdateToVectorDiff.map ⟨lengthsOf chain⟩ us = some (diffs, ⟨lengthsOf chain'⟩) ∧
      applyAll (itemsOf chain) diffs = some (itemsOf chain') := by
  obtain ⟨diffs, hmap, happly⟩ := mapUpdates_of_steps h hdistinct
  refine ⟨diffs, ?_, happly⟩
  simp [mappingOf] at hmap
  simp [UpdateToVectorDiff.map, hmap, bind_eq_bind, bind_some]

/-- A linked chunk, and an `AsVector` with the vector that its diffs were applied to. -/
structure Observed (Item Gap : Type) where
  lc : LinkedChunk Item Gap
  observer : Option (AsVector × List Item)

/-- `asVector` and `take` are those of the observer; other readers come and go. -/
inductive Event (Item Gap : Type) where
  | perform (op : Op Item Gap)
  | asVector
  | take
  | newReader
  | takeOther (token : ℕ)
  | dropOther (token : ℕ)

/-- `none` is a panic, or a diff whose index is out of range. -/
def observe (cap : ℕ) (s : Observed Item Gap) : Event Item Gap → Option (Observed Item Gap)
  | .perform op => (perform cap s.lc op).map fun r => { s with lc := r.2 }
  | .asVector => (asVector s.lc).map fun (asVector, lc) => ⟨lc, some (asVector, items lc)⟩
  | .take => do
    let (asVector, vector) ← s.observer
    let (diffs, asVector, lc) ← asVector.take s.lc
    let vector ← applyAll vector diffs
    some ⟨lc, some (asVector, vector)⟩
  | .newReader => do
    let inner ← s.lc.updates
    some { s with lc := { s.lc with updates := some inner.newReaderToken.2 } }
  | .takeOther token => do
    let inner ← s.lc.updates
    let (_, inner) ← inner.takeWithToken token
    some { s with lc := { s.lc with updates := some inner } }
  | .dropOther token => do
    let inner ← s.lc.updates
    some { s with lc := { s.lc with updates := some (inner.dropSubscriber token) } }

/-- The observer takes after it was created; the token of another reader is not its own,
and a reader takes with a token that is registered. -/
def Allowed (s : Observed Item Gap) : Event Item Gap → Prop
  | .perform op => Admissible s.lc op
  | .take => s.observer ≠ none
  | .takeOther token => (∀ o ∈ s.observer, token ≠ o.1.token) ∧
    ∀ inner ∈ s.lc.updates, token ∈ inner.lastIndexPerReader
  | .dropOther token => ∀ o ∈ s.observer, token ≠ o.1.token
  | _ => True

/-- The pending updates of the observer lead from its vector to the items. -/
structure Follows (inner : UpdatesInner (Update Item Gap)) (chain : Chain Item Gap)
    (asVector : AsVector) (vector : List Item) (seen : Chain Item Gap)
    (queue : List (Update Item Gap)) : Prop where
  pending : inner.pending asVector.token = some queue
  mapper : asVector.mapper = ⟨lengthsOf seen⟩
  vector : vector = itemsOf seen
  distinct : (identifiers seen).Nodup
  steps : Trace AnyStep (.whole seen) queue (.whole chain)

def Inv (cap : ℕ) (s : Observed Item Gap) : Prop :=
  ∃ base chain inner, Represents cap s.lc base chain ∧ s.lc.updates = some inner ∧
    inner.WellFormed ∧ ∀ o ∈ s.observer, ∃ seen queue, Follows inner chain o.1 o.2 seen queue

section Replay

variable {cap : ℕ} {lc lc' : LinkedChunk Item Gap} {base base' : Option ℕ}
  {chain chain' : Chain Item Gap} {inner inner' : UpdatesInner (Update Item Gap)}
  {v : AsVector} {vector : List Item} {seen : Chain Item Gap} {queue : List (Update Item Gap)}

section

variable (h : Follows inner chain v vector seen queue)
include h

/-- More updates are appended to the queue. -/
theorem Follows.append (hwf : inner.WellFormed)
    (hsteps : Trace AnyStep (.whole chain) us (.whole chain')) :
    Follows (appendUpdates us inner) chain' v vector seen (queue ++ us) where
  pending := by rw [pending_appendUpdates hwf, h.pending, map_some]
  mapper := h.mapper
  vector := h.vector
  distinct := h.distinct
  steps := h.steps.append hsteps

/-- The queue is dropped and starts again from nothing. -/
theorem Follows.reset (hwf : inner.WellFormed)
    (hsteps : Trace AnyStep (.whole []) us (.whole chain')) :
    Follows (resetUpdates (.clear :: us) inner) chain' v vector seen (.clear :: us) where
  pending := by rw [pending_resetUpdates hwf, h.pending, map_some]
  mapper := h.mapper
  vector := h.vector
  distinct := h.distinct
  steps := .cons ⟨none, .clear seen⟩ hsteps

end

theorem follows_effect (heffect : Effect cap lc base chain lc' base' chain')
    (hlog : lc.updates = some inner) (hwf : inner.WellFormed) :
    ∃ inner', lc'.updates = some inner' ∧ inner'.WellFormed ∧
      ∀ v vector seen queue, Follows inner chain v vector seen queue →
        ∃ queue', Follows inner' chain' v vector seen queue' := by
  cases heffect with
  | unchanged => exact ⟨inner, hlog, hwf, fun _ _ _ queue h => ⟨queue, h⟩⟩
  | mutated hmut =>
    refine ⟨_, by rw [hmut.log, hlog, map_some], wellFormed_appendUpdates hwf _, ?_⟩
    intro v vector seen queue h
    exact ⟨_, h.append hwf (anySteps_of_steps hmut.steps)⟩
  | loaded raw _ hfresh hloaded =>
    refine ⟨_, by rw [hloaded, hlog, map_some], wellFormed_appendUpdates hwf _, ?_⟩
    intro v vector seen queue h
    have hsteps := steps_firstChunkUpdates raw.previous raw.identifier raw.content hfresh
    exact ⟨_, h.append hwf (anySteps_of_steps hsteps)⟩
  | reset us _ hreset hsteps =>
    refine ⟨_, by rw [hreset, hlog, map_some], wellFormed_resetUpdates hwf _, ?_⟩
    intro v vector seen queue h
    exact ⟨_, h.reset hwf (anySteps_of_steps hsteps)⟩

variable {s : Observed Item Gap}

theorem observe_perform (hcap : 0 < cap) (h : Inv cap s) (op : Op Item Gap)
    (hop : Admissible s.lc op) : ∃ s', observe cap s (.perform op) = some s' ∧ Inv cap s' := by
  obtain ⟨base, chain, inner, hrep, hlog, hwf, hfollows⟩ := h
  obtain ⟨result, lc', base', chain', hperform, heffect, -⟩ := perform_spec hcap hrep op hop
  obtain ⟨inner', hlog', hwf', hnext⟩ := follows_effect heffect hlog hwf
  refine ⟨{ s with lc := lc' }, by simp [observe, hperform],
    base', chain', inner', heffect.represents hrep, hlog', hwf', ?_⟩
  intro o ho
  obtain ⟨seen, queue, h⟩ := hfollows o ho
  exact ⟨seen, hnext _ _ _ _ h⟩

/-- A new reader reads what is there, also what is appended in the meantime; the others do
not notice. -/
theorem registers_eq (hwf : inner.WellFormed) :
    ∃ inner', (appendUpdates us inner.newReaderToken.2).takeWithToken (inner.lastToken + 1) =
        some (inner.updates ++ us, inner') ∧ inner'.WellFormed ∧
      ∀ other, inner'.pending other =
        if other = inner.lastToken + 1 then some [] else (inner.pending other).map (· ++ us) := by
  have hwf' := wellFormed_appendUpdates hwf.newReaderToken us
  have hpending := pending_appendUpdates hwf.newReaderToken us
  have hqueue : (appendUpdates us inner.newReaderToken.2).pending (inner.lastToken + 1) =
      some (inner.updates ++ us) := by
    rw [hpending, pending_newReaderToken, if_pos rfl, map_some]
  obtain ⟨inner', htake, hwf'', -, hothers⟩ := hwf'.takeWithToken _ _ hqueue
  refine ⟨inner', htake, hwf'', fun other => ?_⟩
  rw [hothers]
  by_cases hother : other = inner.lastToken + 1
  · rw [if_pos hother, if_pos hother]
  · rw [if_neg hother, if_neg hother, hpending, pending_newReaderToken, if_neg hother]

theorem start_withUpdates (updates updates' : Option (UpdatesInner (Update Item Gap))) :
    { start { lc with updates := updates } with updates := updates' } =
      { start lc with updates := updates' } := by
  obtain ⟨-, first, last, generator, log⟩ := lc
  cases first <;> rfl

/-- An observer that was just created has nothing to read. -/
theorem asVector_eq (h : Represents cap lc base chain) (hlog : lc.updates = some inner)
    (hwf : inner.WellFormed) :
    ∃ inner', asVector lc = some (⟨inner.lastToken + 1, ⟨lengthsOf (started chain)⟩⟩,
        { start lc with updates := some inner' }) ∧ inner'.WellFormed ∧
      ∀ other, inner'.pending other = if other = inner.lastToken + 1 then some []
        else (inner.pending other).map (· ++ startUpdates chain) := by
  set lc₁ : LinkedChunk Item Gap := { lc with updates := some inner.newReaderToken.2 } with hlc₁
  obtain ⟨p, b, xs, hlayout, hzs, -, hptr, hmut⟩ := (represents_withUpdates h
    (some inner.newReaderToken.2)).firstChunk
  rw [← hlc₁] at hlayout hptr hmut
  have hlog₁ : (start lc₁).updates =
      some (appendUpdates (startUpdates chain) inner.newReaderToken.2) := hmut.log
  obtain ⟨inner', htake, hwf', hpending⟩ := registers_eq hwf
  have hwalk : (start lc₁).heap.walkForward (start lc₁).heap.length (some p) =
      some ((p, b) :: xs) :=
    walkForward_of_seg _ none _ _ hlayout.cells.seg hlayout.cells.length_le
  have hlengths : lengths lc₁ = some (lengthsOf (started chain), start lc₁) := by
    simp only [lengths, hptr, hwalk, bind_eq_bind, bind_some]
    rw [← hzs]
    simp [lengthsOf, chainOf]
  refine ⟨inner', ?_, hwf', hpending⟩
  have hnew : inner.newReaderToken = (inner.lastToken + 1, inner.newReaderToken.2) := rfl
  rw [asVector, hlog, ← start_withUpdates (some inner.newReaderToken.2)]
  simp only [bind_eq_bind, bind_some]
  rw [hnew]
  simp [← hlc₁, hlengths, hlog₁, htake, bind_some]

variable {token : ℕ}

section

variable (h : Inv cap s)
include h

theorem observe_asVector : ∃ s', observe cap s .asVector = some s' ∧ Inv cap s' := by
  obtain ⟨base, chain, inner, hrep, hlog, hwf, -⟩ := h
  obtain ⟨inner', hcreate, hwf', hpending⟩ := asVector_eq hrep hlog hwf
  obtain ⟨-, -, -, -, -, hmut⟩ := hrep.starts
  have hrep' := represents_withUpdates hmut.represents (some inner')
  set lc' : LinkedChunk Item Gap := { start s.lc with updates := some inner' }
  set v : AsVector := ⟨inner.lastToken + 1, ⟨lengthsOf (started chain)⟩⟩
  refine ⟨⟨lc', some (v, items lc')⟩, by simp [observe, hcreate],
    base, started chain, inner', hrep', rfl, hwf', ?_⟩
  intro o ho
  obtain rfl : (v, items lc') = o := by simpa using ho
  have hdistinct : (identifiers (started chain)).Nodup := by
    obtain ⟨xs, hlayout, hchain, -⟩ := hrep'
    rw [← hchain]
    exact hlayout.distinct
  exact ⟨started chain, [], by rw [hpending, if_pos rfl], rfl, items_eq hrep', hdistinct, .nil _⟩

/-- Taking never fails, and leaves a copy of the items. -/
theorem observe_take (hobserver : s.observer ≠ none) :
    ∃ s', observe cap s .take = some s' ∧ Inv cap s' ∧
      ∃ v, s'.observer = some (v, items s'.lc) := by
  obtain ⟨base, chain, inner, hrep, hlog, hwf, hfollows⟩ := h
  obtain ⟨⟨v, vector⟩, ho⟩ := ne_none_iff_exists'.mp hobserver
  obtain ⟨seen, queue, hv⟩ := hfollows (v, vector) ho
  obtain ⟨hpending, hmapper, hvector, hdistinct, hsteps⟩ := hv
  obtain ⟨inner', htake, hwf', -, hpending'⟩ := hwf.takeWithToken v.token queue hpending
  obtain ⟨diffs, hmap, happly⟩ := map_of_steps hsteps hdistinct
  have hrep' := represents_withUpdates hrep (some inner')
  have hchain : (identifiers chain).Nodup := by
    obtain ⟨xs, hlayout, rfl, -⟩ := hrep
    exact hlayout.distinct
  refine ⟨⟨{ s.lc with updates := some inner' },
    some (⟨v.token, ⟨lengthsOf chain⟩⟩, itemsOf chain)⟩, ?_, ?_, ?_⟩
  · rw [← hmapper] at hmap
    rw [← hvector] at happly
    simp [observe, ho, AsVector.take, hlog, htake, hmap, happly]
  · refine ⟨base, chain, inner', hrep', rfl, hwf', ?_⟩
    intro o ho
    obtain rfl : (⟨v.token, ⟨lengthsOf chain⟩⟩, itemsOf chain) = o := by simpa using ho
    exact ⟨chain, [], by simp [hpending'], rfl, rfl, hchain, .nil _⟩
  · exact ⟨_, by rw [items_eq hrep']⟩

/-- Whatever the other readers do, the observer does not notice. -/
theorem inv_of_pending (hlog : s.lc.updates = some inner) (hwf : inner'.WellFormed)
    (hpending : ∀ o ∈ s.observer, inner'.pending o.1.token = inner.pending o.1.token) :
    Inv cap { s with lc := { s.lc with updates := some inner' } } := by
  obtain ⟨base, chain, old, hrep, hold, -, hfollows⟩ := h
  obtain rfl : inner = old := by
    rw [hlog] at hold
    exact Option.some.inj hold
  refine ⟨base, chain, inner', represents_withUpdates hrep _, rfl, hwf, ?_⟩
  intro o ho
  obtain ⟨seen, queue, hv⟩ := hfollows o ho
  exact ⟨seen, queue, (hpending o ho).trans hv.pending, hv.mapper, hv.vector, hv.distinct, hv.steps⟩

theorem observe_newReader : ∃ s', observe cap s .newReader = some s' ∧ Inv cap s' := by
  obtain ⟨base, chain, inner, hrep, hlog, hwf, hfollows⟩ := h
  refine ⟨_, by simp [observe, hlog],
    inv_of_pending ⟨base, chain, inner, hrep, hlog, hwf, hfollows⟩ hlog hwf.newReaderToken ?_⟩
  intro o ho
  obtain ⟨seen, queue, hv⟩ := hfollows o ho
  rw [pending_newReaderToken, if_neg]
  intro heq
  refine hwf.lastToken_succ_notMem ?_
  rw [← heq, ← pending_isSome, hv.pending]
  rfl

theorem observe_takeOther (hallowed : Allowed s (.takeOther token)) :
    ∃ s', observe cap s (.takeOther token) = some s' ∧ Inv cap s' := by
  obtain ⟨base, chain, inner, hrep, hlog, hwf, hfollows⟩ := h
  obtain ⟨hother, hregistered⟩ := hallowed
  have hmem := hregistered inner hlog
  obtain ⟨queue, hqueue⟩ := isSome_iff_exists.mp
    ((pending_isSome inner token).mpr hmem)
  obtain ⟨inner', htake, hwf', -, hpending⟩ := hwf.takeWithToken token queue hqueue
  refine ⟨_, by simp [observe, hlog, htake],
    inv_of_pending ⟨base, chain, inner, hrep, hlog, hwf, hfollows⟩ hlog hwf' ?_⟩
  intro o ho
  rw [hpending, if_neg (hother o ho).symm]

theorem observe_dropOther (hallowed : Allowed s (.dropOther token)) :
    ∃ s', observe cap s (.dropOther token) = some s' ∧ Inv cap s' := by
  obtain ⟨base, chain, inner, hrep, hlog, hwf, hfollows⟩ := h
  refine ⟨_, by simp [observe, hlog],
    inv_of_pending ⟨base, chain, inner, hrep, hlog, hwf, hfollows⟩ hlog
      (hwf.dropSubscriber token) ?_⟩
  intro o ho
  rw [pending_dropSubscriber, if_neg (hallowed o ho).symm]

end

theorem observe_spec (hcap : 0 < cap) (h : Inv cap s) (event : Event Item Gap)
    (hallowed : Allowed s event) :
    ∃ s', observe cap s event = some s' ∧ Inv cap s' ∧
      (event = .take → ∃ v, s'.observer = some (v, items s'.lc)) := by
  cases event with
  | perform op =>
    obtain ⟨s', hs, hinv⟩ := observe_perform hcap h op hallowed
    exact ⟨s', hs, hinv, fun he => by cases he⟩
  | asVector =>
    obtain ⟨s', hs, hinv⟩ := observe_asVector h
    exact ⟨s', hs, hinv, fun he => by cases he⟩
  | take =>
    obtain ⟨s', hs, hinv, hcopy⟩ := observe_take h hallowed
    exact ⟨s', hs, hinv, fun _ => hcopy⟩
  | newReader =>
    obtain ⟨s', hs, hinv⟩ := observe_newReader h
    exact ⟨s', hs, hinv, fun he => by cases he⟩
  | takeOther token =>
    obtain ⟨s', hs, hinv⟩ := observe_takeOther h hallowed
    exact ⟨s', hs, hinv, fun he => by cases he⟩
  | dropOther token =>
    obtain ⟨s', hs, hinv⟩ := observe_dropOther h hallowed
    exact ⟨s', hs, hinv, fun he => by cases he⟩

/-- One allowed event. -/
def Observes (cap : ℕ) (s : Observed Item Gap) (event : Event Item Gap)
    (s' : Observed Item Gap) : Prop :=
  Allowed s event ∧ observe cap s event = some s'

theorem inv_initial (hinit : Initial cap lc) (hhistory : lc.updates = some UpdatesInner.new) :
    Inv cap ⟨lc, none⟩ := by
  obtain ⟨base, chain, hrep⟩ := hinit.represents
  exact ⟨base, chain, _, hrep, hhistory, wellFormed_new, by simp⟩

/-- In every state of a run no event fails, so the mapper does not panic and every index
is in range; and after each `take` the vector holds the items of the linked chunk. -/
theorem as_vector_replays_the_linked_chunk (hcap : 0 < cap) (hinit : Initial cap lc)
    (hhistory : lc.updates = some UpdatesInner.new) {events : List (Event Item Gap)}
    {s : Observed Item Gap} (hrun : Trace (Observes cap) ⟨lc, none⟩ events s) :
    ∀ event, Allowed s event → ∃ s', observe cap s event = some s' ∧
      (event = .take → ∃ v, s'.observer = some (v, items s'.lc)) := by
  have hinv : Inv cap s := by
    refine hrun.preserves (fun _ event _ h hobserves => ?_) (inv_initial hinit hhistory)
    obtain ⟨t, ht, hinv, -⟩ := observe_spec hcap h event hobserves.1
    exact Option.some.inj (ht.symm.trans hobserves.2) ▸ hinv
  intro event hallowed
  obtain ⟨s', hs, -, hcopy⟩ := observe_spec hcap hinv event hallowed
  exact ⟨s', hs, hcopy⟩

end Replay

theorem as_vector_replays_a_push :
    ∃ s : Observed ℕ ℕ, Trace (Observes 2) ⟨newWithUpdateHistory, none⟩
        [.asVector, .perform (.mutate (.pushItemsBack [7, 8, 9]))] s ∧
      ∀ event, Allowed s event → ∃ s', observe 2 s event = some s' ∧
        (event = .take → ∃ v, s'.observer = some (v, items s'.lc)) := by
  have hinv : Inv 2 (⟨newWithUpdateHistory, none⟩ : Observed ℕ ℕ) :=
    inv_initial .newWithUpdateHistory rfl
  obtain ⟨s₁, h₁, hinv₁⟩ := observe_asVector hinv
  obtain ⟨s₂, h₂, -⟩ := observe_perform (show 0 < 2 by decide) hinv₁
    (.mutate (.pushItemsBack [7, 8, 9])) trivial
  exact ⟨s₂, and_of_imp (.cons ⟨trivial, h₁⟩ (.single ⟨trivial, h₂⟩))
    (as_vector_replays_the_linked_chunk (by decide) .newWithUpdateHistory rfl)⟩

/-- A chunk that was loaded twice misleads the mapper: it finds the first of the two. -/
theorem as_vector_misplaces_an_item :
    ((List.foldlM (observe 2) (⟨newWithUpdateHistory, none⟩ : Observed ℕ ℕ)
        [.asVector, .perform (.replaceWith (some ⟨.items [7], some 0, 0, none⟩) 0),
          .perform (.insertNewFirstChunk ⟨.items [8], none, 0, some 0⟩),
          .perform (.mutate (.pushItemsBack [9])), .take]).map fun s =>
      (s.observer.map Prod.snd, items s.lc)) = some (some [8, 9, 7], [8, 7, 9]) := by
  decide

end MatrixSdk.VectorDiffs

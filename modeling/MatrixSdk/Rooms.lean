import MatrixSdk.EventLinkedChunks
import MatrixSdk.StoredMetadata

/-!
The events of a room, in memory and in the store. Most changes are made in memory and
propagated to the store; some are made to the store only, for events of chunks that are not
loaded. Chunks are unloaded and loaded again, and the whole room is closed and opened again.

A reader of the whole chain has seen some chain, and what it has still to read leads from there
to the unloaded chunks followed by the loaded ones; the store and the order tracker are both such
readers. What is done to the store alone concerns unloaded chunks only, so it can be done before
or after what is still to read.
-/
namespace MatrixSdk.Rooms

open Chunks Chains LazyLoader Runs Relational Option
open EventLinkedChunks Persistence StoredMetadata

variable {Lid ItemId Item Gap : Type}

/-- `unloaded` is no part of the program: it remembers which stored chunks are not in memory. -/
structure Room (Lid ItemId Item Gap : Type) where
  linkedChunk : EventLinkedChunk Item Gap
  store : RelationalLinkedChunk Lid ItemId Item Gap
  unloaded : Chain Item Gap

inductive Event (Item Gap : Type) where
  | mutate (mutation : Mutation Item Gap)
  | reset
  | propagateChanges
  | updatesAsVectorDiffs
  | applyStoreOnlyUpdates (updates : List (Update Item Gap))
  | loadPrevious
  | shrink
  | reopen

section StoreOnly

/-- Change the items of a chunk. -/
def editItems (f : List Item → Option (List Item)) (identifier : ℕ) :
    Chain Item Gap → Option (Chain Item Gap)
  | [] => none
  | (id, content) :: rest =>
    if id = identifier then
      match content with
      | .gap _ => none
      | .items items => (f items).map fun items => (id, .items items) :: rest
    else (editItems f identifier rest).map ((id, content) :: ·)

variable [IndexableItem Item ItemId] [DecidableEq ItemId]

/-- The unloaded chunks after an update of an item that is there; a replacement is another
version of the same event. -/
def storeOnlyUpdate (unloaded : Chain Item Gap) : Update Item Gap → Option (Chain Item Gap)
  | .removeItem position =>
    editItems (fun items => if position.index < items.length
      then some (items.eraseIdx position.index) else none) position.chunkIdentifier unloaded
  | .replaceItem position item =>
    editItems (fun items => items[position.index]?.bind fun old =>
      if (IndexableItem.id old : ItemId) = IndexableItem.id item
      then some (items.set position.index item) else none) position.chunkIdentifier unloaded
  | _ => none

def storeOnlyUpdates (unloaded : Chain Item Gap) :
    List (Update Item Gap) → Option (Chain Item Gap)
  | [] => some unloaded
  | update :: updates => do
    let unloaded ← storeOnlyUpdate unloaded update
    storeOnlyUpdates unloaded updates

end StoreOnly

namespace Room

variable [IndexableItem Item ItemId] [DecidableEq Lid] [DecidableEq ItemId]

def sendUpdatesToStore (store : RelationalLinkedChunk Lid ItemId Item Gap) (lid : Lid)
    (updates : List (Update Item Gap)) : Option (RelationalLinkedChunk Lid ItemId Item Gap) := do
  match ← store.applyUpdates lid updates with
  | (.error _, _) => none
  | (.ok (), store) => some store

variable (cap : ℕ) (lid : Lid)

/-- The last chunk is loaded, and the metadata of all of them. -/
def loadLinkedChunk (store : RelationalLinkedChunk Lid ItemId Item Gap) :
    Option (EventLinkedChunk Item Gap) := do
  match ← loadLinkedChunkMetadata store lid with
  | .error _ => none
  | .ok fullLinkedChunkMetadata =>
    match store.loadLastChunk lid with
    | .error _ => none
    | .ok (lastChunk, generator) =>
      match fromLastChunk cap lastChunk generator with
      | .error _ => none
      | .ok lc => EventLinkedChunk.withInitialLinkedChunk lc fullLinkedChunkMetadata

def new : Option (Room Lid ItemId Item Gap) :=
  let store : RelationalLinkedChunk Lid ItemId Item Gap := RelationalLinkedChunk.new
  (loadLinkedChunk cap lid store).map fun linkedChunk => ⟨linkedChunk, store, []⟩

variable (s : Room Lid ItemId Item Gap)

/-- The chunks that are not in memory when only the last one is. -/
def allButLast : Chain Item Gap :=
  (s.unloaded ++ loadedChain s.linkedChunk.chunks).dropLast

def shrink :
    Option (Room Lid ItemId Item Gap) := do
  match ← loadLinkedChunkMetadata s.store lid with
  | .error _ => none
  | .ok fullLinkedChunkMetadata =>
    match s.store.loadLastChunk lid with
    | .error _ => none
    | .ok (lastChunk, generator) =>
      match ← s.linkedChunk.shrinkToLastReloadedChunk cap lastChunk generator
          fullLinkedChunkMetadata with
      | (.error _, _) => none
      | (.ok (), linkedChunk) => some { s with linkedChunk, unloaded := s.allButLast }

/-- The stored chunk before the first one in memory is loaded, if there is one. -/
def loadPrevious :
    Option (Room Lid ItemId Item Gap) := do
  let (first, lc) := s.linkedChunk.chunks.firstChunkPtr
  let firstChunk ← lc.heap.read first
  let linkedChunk := { s.linkedChunk with chunks := lc }
  match s.store.loadPreviousChunk lid firstChunk.value.identifier with
  | .error _ => none
  | .ok none => some { s with linkedChunk }
  | .ok (some raw) =>
    match ← linkedChunk.insertNewChunkAsFirst cap raw with
    | (.error _, _) => none
    | (.ok (), linkedChunk) =>
      let (_, linkedChunk) ← linkedChunk.takeStoreUpdates
      some { s with linkedChunk, unloaded := s.unloaded.dropLast }

/-- `none` is a panic, or an error of the store or of the lazy loader. A mutation may fail. -/
def step :
    Event Item Gap → Option (Room Lid ItemId Item Gap)
  | .mutate mutation => (Runs.mutate cap s.linkedChunk.chunks mutation).map fun r =>
    { s with linkedChunk := { s.linkedChunk with chunks := r.2 } }
  | .reset => s.linkedChunk.reset.map fun linkedChunk => { s with linkedChunk, unloaded := [] }
  | .propagateChanges => do
    let (updates, linkedChunk) ← s.linkedChunk.takeStoreUpdates
    let store ← sendUpdatesToStore s.store lid updates
    some { s with linkedChunk, store }
  | .updatesAsVectorDiffs => s.linkedChunk.updatesAsVectorDiffs.map fun r =>
    { s with linkedChunk := r.2 }
  | .applyStoreOnlyUpdates updates => do
    let orderTracker ← s.linkedChunk.orderTracker.mapUpdates updates
    let store ← sendUpdatesToStore s.store lid updates
    some ⟨{ s.linkedChunk with orderTracker }, store,
      (storeOnlyUpdates s.unloaded updates).getD s.unloaded⟩
  | .loadPrevious => s.loadPrevious cap lid
  | .shrink => s.shrink cap lid
  | .reopen => (loadLinkedChunk cap lid s.store).map fun linkedChunk =>
    { s with linkedChunk, unloaded := s.allButLast }

/-- The events of the stored chain, once everything is propagated. -/
def allEvents : List Item :=
  itemsOf s.unloaded ++ items s.linkedChunk.chunks

end Room

/-- Everything is propagated, except maybe that an empty linked chunk created its first chunk. -/
def Settled (lc : LinkedChunk Item Gap) : Prop :=
  pendingUpdates lc = some [] ∨
    pendingUpdates lc = some [.newItemsChunk none LinkedChunk.firstIdentifier none]

instance [DecidableEq Item] [DecidableEq Gap] (lc : LinkedChunk Item Gap) :
    Decidable (Settled lc) :=
  inferInstanceAs (Decidable (_ ∨ _))

section Allowed

variable [IndexableItem Item ItemId] [DecidableEq ItemId]

/-- A replacement keeps the identifier of the event, updates of the store alone are about
events of unloaded chunks, and chunks are loaded when everything is propagated. -/
def Allowed (s : Room Lid ItemId Item Gap) : Event Item Gap → Prop
  | .mutate (.replaceItemAt position item) =>
    ∀ old, itemAt (loadedChain s.linkedChunk.chunks) position = some old →
      (IndexableItem.id old : ItemId) = IndexableItem.id item
  | .applyStoreOnlyUpdates updates => (storeOnlyUpdates s.unloaded updates).isSome
  | .loadPrevious | .shrink | .reopen => Settled s.linkedChunk.chunks
  | _ => True

end Allowed

open Traces VectorDiffs List

variable [IndexableItem Item ItemId] {φ : Phase Item Gap}

section Lags

variable {unloaded chain chain' seen : Chain Item Gap} {queue us : List (Update Item Gap)}

/-- `queue` leads from the chain that was seen to the whole chain. Either it is about the
loaded chunks, or everything is cleared first. -/
def Behind (unloaded chain : Chain Item Gap) (queue : List (Update Item Gap))
    (seen : Chain Item Gap) : Prop :=
  (∃ past, seen = unloaded ++ past ∧
    Trace (LoadedStep unloaded) (.whole past) queue (.whole chain)) ∨
  (unloaded = [] ∧ ∃ us, queue = .clear :: us ∧ Trace (LoadedStep []) (.whole []) us (.whole chain))

structure Lags (unloaded chain : Chain Item Gap) (queue : List (Update Item Gap))
    (seen : Chain Item Gap) : Prop where
  identifiers : (identifiers seen).Nodup
  items : DistinctIds (itemsOf seen)
  behind : Behind unloaded chain queue seen

theorem lags_refl (hids : (identifiers (unloaded ++ chain)).Nodup)
    (hitems : DistinctIds (itemsOf (unloaded ++ chain))) :
    Lags unloaded chain [] (unloaded ++ chain) :=
  ⟨hids, hitems, .inl ⟨chain, rfl, .nil _⟩⟩

theorem Lags.eq_of_nil (h : Lags unloaded chain [] seen) : seen = unloaded ++ chain := by
  rcases h.behind with ⟨past, hseen, hpast⟩ | ⟨-, us, hqueue, -⟩
  · cases hpast
    exact hseen
  · cases hqueue

variable {base : Option ℕ}

theorem eq_nil_of_lastIdentifier (h : lastIdentifier base chain = none) :
    base = none ∧ chain = [] := by
  rcases eq_nil_or_concat chain with rfl | ⟨l, x, rfl⟩
  · exact ⟨h, rfl⟩
  · simp at h

theorem eq_nil_of_newItemsChunk {new : ℕ}
    (h : Step base (.whole chain) (.newItemsChunk none new none) φ) :
    base = none ∧ chain = [] ∧ ∃ chunk, φ = .whole [chunk] := by
  generalize hu : (.newItemsChunk none new none : Update Item Gap) = u at h
  generalize hφ : Phase.whole chain = ψ at h
  cases h with
  | newChunk l r new content =>
    cases hφ
    cases content with
    | gap g => cases hu
    | items items =>
      rw [LinkedChunk.newChunkUpdate, Update.newItemsChunk.injEq] at hu
      obtain ⟨hbase, rfl⟩ := eq_nil_of_lastIdentifier hu.1.symm
      cases r with
      | nil => exact ⟨hbase, rfl, _, rfl⟩
      | cons chunk r => simp [headIdentifier] at hu
  | cutNewChunk => cases hφ
  | _ => cases hu

section

variable (h : Lags unloaded chain queue seen)
include h

theorem Lags.append (hsteps : Trace (LoadedStep unloaded) (.whole chain) us (.whole chain')) :
    Lags unloaded chain' (queue ++ us) seen := by
  refine ⟨h.identifiers, h.items, ?_⟩
  rcases h.behind with ⟨past, hseen, hpast⟩ | ⟨hnil, vs, hqueue, hvs⟩
  · exact .inl ⟨past, hseen, hpast.append hsteps⟩
  · subst hnil
    exact .inr ⟨rfl, vs ++ us, by rw [hqueue, cons_append], hvs.append hsteps⟩

/-- Whatever was to be read, it is not any more. -/
theorem Lags.clear : Lags [] [] [.clear] seen :=
  ⟨h.identifiers, h.items, .inr ⟨rfl, [], rfl, .nil _⟩⟩

theorem Lags.stored : Trace StoredStep (.whole seen) queue (.whole (unloaded ++ chain)) := by
  rcases h.behind with ⟨past, rfl, hpast⟩ | ⟨rfl, us, rfl, hus⟩
  · exact storedSteps_of_loadedSteps hpast h.identifiers
  · have hclear : StoredStep (.whole seen) (.clear : Update Item Gap) (.whole []) := by
      refine ⟨.clear seen, h.items, nodup_nil, ?_⟩
      intro position old item heq
      cases heq
    exact .cons hclear (storedSteps_of_loadedSteps hus nodup_nil)

end

end Lags

section StoreOnly

variable {unloaded unloaded' : Chain Item Gap} {u : Update Item Gap}

inductive StoreOnly : Chain Item Gap → Update Item Gap → Chain Item Gap → Prop
  | removeItem (l r : Chain Item Gap) (id : ℕ) (before after : List Item) (old : Item) :
      StoreOnly (l ++ (id, .items (before ++ old :: after)) :: r) (.removeItem ⟨id, before.length⟩)
        (l ++ (id, .items (before ++ after)) :: r)
  | replaceItem (l r : Chain Item Gap) (id : ℕ) (before after : List Item) (old item : Item)
      (same : (IndexableItem.id old : ItemId) = IndexableItem.id item) :
      StoreOnly (l ++ (id, .items (before ++ old :: after)) :: r)
        (.replaceItem ⟨id, before.length⟩ item) (l ++ (id, .items (before ++ item :: after)) :: r)

variable {cap : ℕ} {chain : Chain Item Gap} {id : ℕ} {seen : Chain Item Gap}
  {queue us : List (Update Item Gap)}

theorem capacity_replace {l r : Chain Item Gap} {content content' : ChunkContent Item Gap}
    (hle : content'.numItems ≤ content.numItems)
    (hcap : ∀ chunk ∈ l ++ (id, content) :: r, chunk.2.numItems ≤ cap) :
    ∀ chunk ∈ l ++ (id, content') :: r, chunk.2.numItems ≤ cap := by
  intro chunk hchunk
  rw [mem_append, mem_cons] at hchunk
  rcases hchunk with hchunk | rfl | hchunk
  · exact hcap chunk (by simp [hchunk])
  · exact hle.trans (hcap (id, content) (by simp))
  · exact hcap chunk (by simp [hchunk])

theorem lastIdentifier_eq_getLast? (base : Option ℕ) (chain : Chain Item Gap) :
    lastIdentifier base chain = (identifiers chain).getLast?.or base := by
  unfold lastIdentifier identifiers
  rw [getLast?_map]

section

variable (h : StoreOnly unloaded u unloaded')
include h

theorem StoreOnly.identifiers_eq :
    identifiers unloaded' = identifiers unloaded := by
  cases h <;> simp

theorem StoreOnly.items_sublist :
    ((itemsOf unloaded').map (IndexableItem.id : Item → ItemId)).Sublist
      ((itemsOf unloaded).map IndexableItem.id) := by
  cases h with
  | removeItem l r id before after old =>
    simp only [itemsOf_append, itemsOf_cons, contentItems_items]
    refine Sublist.map _ ?_
    exact (((sublist_cons_self old after).append_left _).append_right _).append_left _
  | replaceItem l r id before after old item hsame => simp [hsame]

theorem StoreOnly.capacity (hcap : ∀ chunk ∈ unloaded, chunk.2.numItems ≤ cap) :
    ∀ chunk ∈ unloaded', chunk.2.numItems ≤ cap := by
  cases h <;> exact capacity_replace (by simp [ChunkContent.numItems]) hcap

/-- The update is a step of any chain that starts with the unloaded chunks. -/
theorem StoreOnly.stored {past : Chain Item Gap} (hids : (identifiers (unloaded ++ past)).Nodup)
    (hitems : DistinctIds (itemsOf (unloaded ++ past))) :
    StoredStep (.whole (unloaded ++ past)) u (.whole (unloaded' ++ past)) := by
  have hafter : DistinctIds (itemsOf (unloaded' ++ past)) := by
    unfold DistinctIds at hitems ⊢
    rw [itemsOf_append, map_append] at hitems ⊢
    exact hitems.sublist (h.items_sublist.append_right _)
  cases h with
  | removeItem l r id before after old =>
    refine ⟨?_, hitems, hafter, ?_⟩
    · simpa using Step.removeItem (b := none) l (r ++ past) id before after old
    · intro position old item heq
      cases heq
  | replaceItem l r id before after old item hsame =>
    refine ⟨?_, hitems, hafter, ?_⟩
    · simpa using Step.replaceItem (b := none) l (r ++ past) id before after old item
    · intro position old' item' heq hat
      cases heq
      rw [append_assoc, cons_append] at hids
      rw [Phase.chain, append_assoc, cons_append, itemAt_split (notMem_of_distinct hids),
        if_pos rfl] at hat
      obtain rfl : old = old' := by simpa using hat
      exact hsame

theorem StoreOnly.loadedStep {φ' : Phase Item Gap} {v : Update Item Gap}
    (hstep : LoadedStep unloaded φ v φ') : LoadedStep unloaded' φ v φ' := by
  have hids := h.identifiers_eq
  have hdistinct : ∀ xs, DistinctIds (itemsOf unloaded ++ xs) →
      DistinctIds (itemsOf unloaded' ++ xs) := by
    intro xs hxs
    unfold DistinctIds at hxs ⊢
    rw [map_append] at hxs ⊢
    exact hxs.sublist (h.items_sublist.append_right _)
  refine ⟨?_, ?_, hdistinct _ hstep.before, hdistinct _ hstep.after, hstep.keeps⟩
  · rw [lastIdentifier_eq_getLast?, hids, ← lastIdentifier_eq_getLast?]
    exact hstep.step
  · unfold Spares
    rw [hids]
    exact hstep.spares

end

theorem editItems_eq_some {f : List Item → Option (List Item)}
    (h : editItems f id unloaded = some unloaded') :
    ∃ l r items items', unloaded = l ++ (id, .items items) :: r ∧ f items = some items' ∧
      unloaded' = l ++ (id, .items items') :: r := by
  induction unloaded generalizing unloaded' with
  | nil => cases h
  | cons chunk rest ih =>
    obtain ⟨k, content⟩ := chunk
    unfold editItems at h
    by_cases hk : k = id
    · subst hk
      rw [if_pos rfl] at h
      cases content with
      | gap g => cases h
      | items items =>
        obtain ⟨items', hitems, rfl⟩ := map_eq_some_iff.mp h
        exact ⟨[], rest, items, items', rfl, hitems, rfl⟩
    · rw [if_neg hk] at h
      obtain ⟨rest', hrest, rfl⟩ := map_eq_some_iff.mp h
      obtain ⟨l, r, items, items', rfl, hitems, rfl⟩ := ih hrest
      exact ⟨(k, content) :: l, r, items, items', rfl, hitems, rfl⟩

variable [DecidableEq ItemId]

theorem storeOnly_of_eq_some (h : storeOnlyUpdate unloaded u = some unloaded') :
    StoreOnly unloaded u unloaded' := by
  cases u with
  | removeItem position =>
    obtain ⟨id, index⟩ := position
    obtain ⟨l, r, items, items', rfl, hitems, rfl⟩ := editItems_eq_some h
    split at hitems
    · next hindex =>
      cases hitems
      obtain ⟨before, old, after, rfl, rfl⟩ := exists_split_of_lt hindex
      have herase : (before ++ old :: after).eraseIdx before.length = before ++ after := by
        simp [eraseIdx_append_of_length_le]
      rw [herase]
      exact .removeItem l r id before after old
    · cases hitems
  | replaceItem position item =>
    obtain ⟨id, index⟩ := position
    obtain ⟨l, r, items, items', rfl, hitems, rfl⟩ := editItems_eq_some h
    obtain ⟨old, hold, hsame⟩ := bind_eq_some_iff.mp hitems
    split at hsame
    · next heq =>
      cases hsame
      obtain ⟨hindex, -⟩ := List.getElem?_eq_some_iff.mp hold
      obtain ⟨before, old', after, rfl, rfl⟩ := exists_split_of_lt hindex
      have hset : (before ++ old' :: after).set before.length item = before ++ item :: after := by
        simp
      obtain rfl : old' = old := by simpa using hold
      rw [hset]
      exact .replaceItem l r id before after old' item heq
    · cases hsame
  | _ => cases h

section

variable (h : storeOnlyUpdates unloaded us = some unloaded')
include h

theorem Lags.storeOnlyUpdates (hlags : Lags unloaded chain queue seen) :
    ∃ seen', Trace StoredStep (.whole seen) us (.whole seen') ∧
      Lags unloaded' chain queue seen' := by
  induction us generalizing unloaded seen with
  | nil =>
    cases h
    exact ⟨seen, .nil _, hlags⟩
  | cons u us ih =>
    obtain ⟨middle, hu, hus⟩ := bind_eq_some_iff.mp h
    have hu := storeOnly_of_eq_some hu
    -- the reader is told of the update at once, and what it has still to read stays the same
    obtain ⟨next, hstep, hnext⟩ : ∃ next, StoredStep (.whole seen) u (.whole next) ∧
        Lags middle chain queue next := by
      rcases hlags.behind with ⟨past, rfl, hpast⟩ | ⟨rfl, -⟩
      · have hstored := hu.stored hlags.identifiers hlags.items
        exact ⟨middle ++ past, hstored, hstored.step.distinct hlags.identifiers, hstored.after,
          .inl ⟨past, rfl, hpast.mono fun _ _ _ => hu.loadedStep⟩⟩
      · generalize hnil : ([] : Chain Item Gap) = c at hu
        cases hu <;> simp at hnil
    obtain ⟨seen', hsteps, hseen'⟩ := ih hus hnext
    exact ⟨seen', .cons hstep hsteps, hseen'⟩

theorem loaded_storeOnlyUpdates {lc : LinkedChunk Item Gap}
    (hloaded : Loaded cap lc unloaded chain) : Loaded cap lc unloaded' chain := by
  induction us generalizing unloaded with
  | nil =>
    cases h
    exact hloaded
  | cons u us ih =>
    obtain ⟨middle, hu, hus⟩ := bind_eq_some_iff.mp h
    have honly := storeOnly_of_eq_some hu
    have hids := honly.identifiers_eq
    refine ih hus ⟨?_, ?_, ?_, honly.capacity hloaded.capacity, ?_⟩
    · rw [lastIdentifier_eq_getLast?, hids, ← lastIdentifier_eq_getLast?]
      exact hloaded.represents
    · intro hnil
      rw [hloaded.nothing hnil] at hids
      exact map_eq_nil_iff.mp hids
    · rw [hids]
      exact hloaded.bounded
    · rw [identifiers_append, hids, ← identifiers_append]
      exact hloaded.distinct

end

end StoreOnly

end MatrixSdk.Rooms

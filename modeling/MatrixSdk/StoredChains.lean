import MatrixSdk.ChainRows

/-!
`Holds` says that the store holds exactly the chunks and the items of a chain, for one
linked chunk; every update that is a step of the chain is applied without error and leads
to a store that holds the next chain.
-/
namespace MatrixSdk.Relational

open Chunks Chains FirstMatches Traces RelationalLinkedChunk List Phase

variable {Lid ItemId Item Gap : Type} [IndexableItem Item ItemId] {item : Item}

section Contents

variable {chain chain' : Chain Item Gap} {look : ItemId → Option (Item × Option Position)}

section

variable
  (hold : ∀ k i p, look k = some (i, some p) ↔ itemAt chain p = some i ∧ IndexableItem.id i = k)
include hold

/-- The contents after an item was placed at a position that was vacant, or that held
another version of it. -/
theorem contents_place [DecidableEq ItemId] {position : Position}
    (hat : ∀ p, itemAt chain' p = if p = position then some item else itemAt chain p)
    (hsame : ∀ i, itemAt chain position = some i →
      (IndexableItem.id i : ItemId) = IndexableItem.id item)
    (hother : ∀ p i, p ≠ position → itemAt chain p = some i →
      (IndexableItem.id i : ItemId) ≠ IndexableItem.id item) (k : ItemId) (i : Item)
    (p : Position) :
    (if k = IndexableItem.id item then some (item, some position) else look k) =
      some (i, some p) ↔ itemAt chain' p = some i ∧ IndexableItem.id i = k := by
  rw [hat]
  by_cases hk : k = IndexableItem.id item <;> by_cases hp : p = position
  · subst hk hp
    rw [if_pos rfl, if_pos rfl]
    constructor
    · intro h
      cases h
      exact ⟨rfl, rfl⟩
    · rintro ⟨h, -⟩
      cases h
      rfl
  · rw [if_pos hk, if_neg hp]
    constructor
    · intro h
      cases h
      exact absurd rfl hp
    · rintro ⟨hi, hid⟩
      exact absurd (hid.trans hk) (hother p i hp hi)
  · rw [if_neg hk, if_pos hp, hold]
    constructor
    · rintro ⟨hi, hid⟩
      exact absurd (hid.symm.trans (hsame i (hp ▸ hi))) hk
    · rintro ⟨hi, hid⟩
      cases hi
      exact absurd hid.symm hk
  · rw [if_neg hk, if_neg hp, hold]

/-- The contents after items were moved, or lost their position. -/
theorem contents_move {f : Position → Option Position}
    (hat : ∀ q i, itemAt chain' q = some i ↔ ∃ p, f p = some q ∧ itemAt chain p = some i)
    (k : ItemId) (i : Item) (q : Position) :
    (look k).map (fun e => (e.1, e.2.bind f)) = some (i, some q) ↔
      itemAt chain' q = some i ∧ IndexableItem.id i = k := by
  rw [hat, Option.map_eq_some_iff]
  constructor
  · rintro ⟨⟨item, position⟩, hlook, heq⟩
    rw [Prod.mk.injEq, Option.bind_eq_some_iff] at heq
    obtain ⟨rfl, p, rfl, hp⟩ := heq
    obtain ⟨hi, hk⟩ := (hold _ _ _).mp hlook
    exact ⟨⟨p, hp, hi⟩, hk⟩
  · rintro ⟨⟨p, hp, hi⟩, hk⟩
    exact ⟨_, (hold k i p).mpr ⟨hi, hk⟩, by simp [hp]⟩

end

end Contents

section StoredSteps

variable {φ φ' : Phase Item Gap} {u : Update Item Gap}

/-- A replacement is another version of the same item. -/
def KeepsIds (φ : Phase Item Gap) (u : Update Item Gap) : Prop :=
  ∀ position old item, u = .replaceItem position item → itemAt φ.chain position = some old →
    (IndexableItem.id old : ItemId) = IndexableItem.id item

def DistinctIds (items : List Item) : Prop :=
  (items.map (IndexableItem.id : Item → ItemId)).Nodup

instance [DecidableEq ItemId] (items : List Item) : Decidable (DistinctIds items) :=
  inferInstanceAs (Decidable (items.map (IndexableItem.id : Item → ItemId)).Nodup)

theorem DistinctIds.sublist {items items' : List Item} (h : DistinctIds items')
    (hsub : items.Sublist items') : DistinctIds items :=
  List.Nodup.sublist (hsub.map _) h

theorem itemsOf_sublist_allItems (φ : Phase Item Gap) :
    (itemsOf φ.chain).Sublist φ.allItems := by
  cases φ with
  | whole c => exact Sublist.refl _
  | cut reattaching left detached right =>
    simp only [Phase.chain, allItems, itemsOf_append]
    exact (sublist_append_left _ _).append_right _

/-- A step of the stored chain: its items are distinct all along. -/
structure StoredStep (φ : Phase Item Gap) (u : Update Item Gap) (φ' : Phase Item Gap) : Prop where
  step : Step none φ u φ'
  before : DistinctIds φ.allItems
  after : DistinctIds φ'.allItems
  keeps : KeepsIds φ u

/-- The update leaves the unloaded chunks alone. -/
def Spares (unloaded : Chain Item Gap) (u : Update Item Gap) : Prop :=
  u ≠ .clear ∧ ∀ new, newIdentifier u = some new → new ∉ identifiers unloaded

/-- A step of the loaded chunks, seen as a step of the whole chain. -/
structure LoadedStep (unloaded : Chain Item Gap) (φ : Phase Item Gap) (u : Update Item Gap)
    (φ' : Phase Item Gap) : Prop where
  step : Step (lastIdentifier none unloaded) φ u φ'
  spares : Spares unloaded u
  before : DistinctIds (itemsOf unloaded ++ φ.allItems)
  after : DistinctIds (itemsOf unloaded ++ φ'.allItems)
  keeps : KeepsIds φ u

variable {unloaded : Chain Item Gap} {us : List (Update Item Gap)}

theorem LoadedStep.stored (h : LoadedStep unloaded φ u φ')
    (hdistinct : (identifiers (unloaded ++ φ.chain)).Nodup) :
    StoredStep (φ.prepend unloaded) u (φ'.prepend unloaded) where
  step := h.step.prepend unloaded h.spares.1 h.spares.2
  before := by
    rw [allItems_prepend]
    exact h.before
  after := by
    rw [allItems_prepend]
    exact h.after
  keeps := by
    intro position old item hu hat
    subst hu
    have hmem : position.chunkIdentifier ∈ identifiers φ.chain := by
      obtain ⟨l, r, id, before, after, old, rfl, rfl⟩ := h.step.replaceItem_inv
      simp [Phase.chain]
    have hnot : position.chunkIdentifier ∉ identifiers unloaded := by
      rw [identifiers_append] at hdistinct
      exact fun hunloaded => (nodup_append.mp hdistinct).2.2 _ hunloaded _ hmem rfl
    rw [chain_prepend, itemAt_append hnot] at hat
    exact h.keeps position old item rfl hat

theorem storedSteps_of_loadedSteps (h : Trace (LoadedStep unloaded) φ us φ')
    (hdistinct : (identifiers (unloaded ++ φ.chain)).Nodup) :
    Trace StoredStep (φ.prepend unloaded) us (φ'.prepend unloaded) := by
  induction h with
  | nil φ => exact .nil _
  | cons head _ ih =>
    have hstored := head.stored hdistinct
    have hnext := hstored.step.distinct (by rwa [chain_prepend])
    rw [chain_prepend] at hnext
    exact .cons hstored (ih hnext)

section

variable (hsteps : Steps (lastIdentifier none unloaded) φ us φ')
  (hspares : ∀ u ∈ us, Spares unloaded u)
include hsteps hspares

/-- Items that are only added are distinct all along when they are distinct at the end. -/
theorem loadedSteps_of_keepsItems (hus : ∀ u ∈ us, keepsItems u = true)
    (h : DistinctIds (itemsOf unloaded ++ φ'.allItems)) :
    Trace (LoadedStep unloaded) φ us φ' ∧ DistinctIds (itemsOf unloaded ++ φ.allItems) := by
  induction hsteps with
  | nil φ => exact ⟨.nil φ, h⟩
  | cons head _ ih =>
    obtain ⟨htail, hmiddle⟩ := ih (fun u hu => hspares u (mem_cons_of_mem _ hu))
      (fun u hu => hus u (mem_cons_of_mem _ hu)) h
    have hu := hus _ mem_cons_self
    have hbefore := hmiddle.sublist ((head.allItems_of_keepsItems hu).append_left _)
    exact ⟨.cons ⟨head, hspares _ mem_cons_self, hbefore, hmiddle, by
      rintro position old item rfl
      cases hu⟩ htail, hbefore⟩

/-- Items that are only removed are distinct all along when they are distinct at first. -/
theorem loadedSteps_of_addsNoItem (hus : ∀ u ∈ us, addsNoItem u = true)
    (h : DistinctIds (itemsOf unloaded ++ φ.allItems)) :
    Trace (LoadedStep unloaded) φ us φ' ∧ DistinctIds (itemsOf unloaded ++ φ'.allItems) := by
  induction hsteps with
  | nil φ => exact ⟨.nil φ, h⟩
  | cons head _ ih =>
    have hu := hus _ mem_cons_self
    have hmiddle := h.sublist ((head.allItems_of_addsNoItem hu).append_left _)
    obtain ⟨htail, hafter⟩ := ih (fun u hu => hspares u (mem_cons_of_mem _ hu))
      (fun u hu => hus u (mem_cons_of_mem _ hu)) hmiddle
    refine ⟨.cons ⟨head, hspares _ mem_cons_self, h, hmiddle, ?_⟩ htail, hafter⟩
    intro position old item heq
    subst heq
    cases hu

end

end StoredSteps

variable [DecidableEq Lid] [DecidableEq ItemId]

/-- The store holds the chain, and nothing else. -/
structure Holds (store : RelationalLinkedChunk Lid ItemId Item Gap) (lid : Lid)
    (chain : Chain Item Gap) : Prop where
  distinct : (identifiers chain).Nodup
  chunks : store.chunks.Perm (rowsOf lid none chain none)
  rows : store.itemsChunks.Perm (itemRowsOf lid chain)
  positions : ∀ p, p ∈ store.itemsPositions ↔ p.1 = lid ∧ (itemAt chain p.2).isSome
  contents : ∀ id item position, store.lookup lid id = some (item, some position) ↔
    itemAt chain position = some item ∧ IndexableItem.id item = id

section Updates

variable {store : RelationalLinkedChunk Lid ItemId Item Gap} {lid : Lid} {l r : Chain Item Gap}
  {id : ℕ} {content : ChunkContent Item Gap}

theorem holds_new (lid : Lid) :
    Holds (RelationalLinkedChunk.new : RelationalLinkedChunk Lid ItemId Item Gap) lid [] where
  distinct := by simp
  chunks := List.Perm.refl _
  rows := List.Perm.refl _
  positions p := by simp [RelationalLinkedChunk.new, itemAt]
  contents id item position := by
    simp [RelationalLinkedChunk.new, RelationalLinkedChunk.lookup, RelationalLinkedChunk.itemsOf,
      itemAt]

theorem applyUpdate_newChunk (h : Holds store lid (l ++ r)) (hempty : content.numItems = 0)
    (hfresh : id ∉ identifiers (l ++ r)) :
    ∃ store', store.applyUpdate lid (LinkedChunk.newChunkUpdate (lastIdentifier none l) id
        (headIdentifier r) content) = some (.ok (), store') ∧
      Holds store' lid (l ++ (id, content) :: r) := by
  obtain ⟨chunks, hinsert, hchunks⟩ := insertChunk_eq h.distinct id h.chunks
  have hdistinct : (identifiers (l ++ (id, content) :: r)).Nodup := by
    have hold := h.distinct
    simp only [identifiers_append, identifiers_cons] at hold hfresh ⊢
    exact nodup_middle.mpr (nodup_cons.mpr ⟨hfresh, hold⟩)
  have hrows : (store.itemsChunks ++ contentRows lid id content).Perm
      (itemRowsOf lid (l ++ (id, content) :: r)) := by
    refine (h.rows.append_right _).trans ?_
    simp only [itemRowsOf_append, itemRowsOf_cons, append_assoc]
    exact (perm_append_comm).append_left _
  refine ⟨{ store with
    chunks := chunks, itemsChunks := store.itemsChunks ++ contentRows lid id content }, ?_,
    hdistinct, hchunks, hrows, ?_, ?_⟩
  · cases content with
    | gap gap =>
      simp only [LinkedChunk.newChunkUpdate, applyUpdate, hinsert, contentRows]
    | items items =>
      obtain rfl : items = [] := length_eq_zero_iff.mp hempty
      simp [LinkedChunk.newChunkUpdate, applyUpdate, hinsert, contentRows, rowsFrom]
  · intro p
    rw [itemAt_of_empty hfresh hempty]
    exact h.positions p
  · intro k item position
    rw [itemAt_of_empty hfresh hempty]
    exact h.contents k item position

theorem applyUpdate_removeChunk (h : Holds store lid (l ++ (id, content) :: r))
    (hempty : content.numItems = 0) :
    ∃ store', store.applyUpdate lid (.removeChunk id) = some (.ok (), store') ∧
      Holds store' lid (l ++ r) := by
  obtain ⟨chunks, hremove, hchunks⟩ := removeChunk_eq h.distinct h.chunks
  obtain ⟨hfresh, hdistinct⟩ : id ∉ identifiers (l ++ r) ∧ (identifiers (l ++ r)).Nodup := by
    have hold := h.distinct
    simp only [identifiers_append, identifiers_cons] at hold ⊢
    exact nodup_cons.mp (nodup_middle.mp hold)
  refine ⟨{ store with
    chunks := chunks
    itemsChunks := store.itemsChunks.filter fun row =>
      !(row.linkedChunkId = lid && row.position.chunkIdentifier = id) },
    by simp only [applyUpdate, hremove, Option.bind_eq_bind, Option.bind_some],
    hdistinct, hchunks, ?_, ?_, ?_⟩
  · refine (h.rows.filter _).trans ?_
    have hkeep : ∀ row ∈ (itemRowsOf lid (l ++ r) : List (ItemRow Lid ItemId Gap)),
        (!(decide (row.linkedChunkId = lid) &&
          decide (row.position.chunkIdentifier = id))) = true := by
      intro row hrow
      have hne : row.position.chunkIdentifier ≠ id := by
        rintro rfl
        exact hfresh (mem_itemRowsOf hrow).2
      simp [hne]
    have hdrop : ∀ row ∈ (contentRows lid id content : List (ItemRow Lid ItemId Gap)),
        ¬(!(decide (row.linkedChunkId = lid) &&
          decide (row.position.chunkIdentifier = id))) = true := by
      intro row hrow
      simp [mem_contentRows hrow]
    rw [itemRowsOf_append] at hkeep
    rw [itemRowsOf_append, itemRowsOf_cons, filter_append, filter_append,
      filter_eq_self.mpr fun row hrow => hkeep row (mem_append_left _ hrow),
      filter_eq_self.mpr fun row hrow => hkeep row (mem_append_right _ hrow),
      filter_eq_nil_iff.mpr hdrop, nil_append, itemRowsOf_append]
  · intro p
    rw [← itemAt_of_empty hfresh hempty]
    exact h.positions p
  · intro k item position
    rw [← itemAt_of_empty hfresh hempty]
    exact h.contents k item position

theorem Holds.notMem (h : Holds store lid (l ++ (id, content) :: r)) : id ∉ identifiers l := by
  intro hmem
  have hdistinct := h.distinct
  rw [identifiers_append, identifiers_cons] at hdistinct
  exact (nodup_append.mp hdistinct).2.2 id hmem id (by simp) rfl

variable {current : List Item}

theorem pushItem_eq (h : Holds store lid (l ++ (id, .items current) :: r))
    (hnew : ∀ y ∈ itemsOf (l ++ (id, .items current) :: r),
      (IndexableItem.id y : ItemId) ≠ IndexableItem.id item) :
    ∃ store', store.pushItem lid ⟨id, current.length⟩ item = (.ok (), store') ∧
      Holds store' lid (l ++ (id, .items (current ++ [item])) :: r) := by
  set chain := l ++ (id, ChunkContent.items current) :: r with hchain
  set position : Position := ⟨id, current.length⟩ with hposition
  have hunknown : ((store.lookup lid (IndexableItem.id item)).bind Prod.snd).isSome = false := by
    cases hlookup : store.lookup lid (IndexableItem.id item) with
    | none => rfl
    | some e =>
      obtain ⟨i, _ | p⟩ := e
      · rfl
      · obtain ⟨hat, hid⟩ := (h.contents _ _ _).mp hlookup
        exact absurd hid (hnew i (mem_itemsOf_of_itemAt hat))
  have hfree : itemAt chain position = none := by
    rw [hchain, itemAt_split h.notMem, if_pos rfl]
    simp [hposition]
  have hvacant : (lid, position) ∉ store.itemsPositions := by
    rw [h.positions]
    simp [hfree]
  let row : ItemRow Lid ItemId Gap := ⟨lid, position, .item (IndexableItem.id item)⟩
  let placed := placeItem
    { store.upsertItems lid (fun items => items) with
      itemsPositions := insert (lid, position) store.itemsPositions
      itemsChunks := store.itemsChunks ++ [row] } lid position item
  have hlookup : ∀ k, placed.lookup lid k =
      if k = IndexableItem.id item then some (item, some position) else store.lookup lid k := by
    intro k
    rw [lookup_placeItem, if_pos rfl]
    have hsame : (store.upsertItems lid (fun items => items)).lookup lid k =
        store.lookup lid k := by
      rw [lookup_upsertItems, if_pos rfl]
      rfl
    exact congrArg (ite (k = IndexableItem.id item) (some (item, some position))) hsame
  have hids : identifiers (l ++ (id, .items (current ++ [item])) :: r) = identifiers chain :=
    identifiers_replace _
  have hat := itemAt_push (r := r) h.notMem current item
  rw [← hchain, ← hposition] at hat
  refine ⟨placed, ?_, ?_, ?_, ?_, ?_, ?_⟩
  · have hunknown' : (((store.upsertItems lid (fun items => items)).lookup lid
        (IndexableItem.id item)).bind Prod.snd).isSome = false := by
      rw [lookup_upsertItems, if_pos rfl]
      exact hunknown
    simp only [pushItem, hunknown', Bool.false_eq_true, if_false]
    exact if_neg hvacant
  · rw [hids]
    exact h.distinct
  · rw [rowsOf_congr none hids]
    exact h.chunks
  · refine (h.rows.append_right [row]).trans ?_
    simp only [hchain, itemRowsOf_append, itemRowsOf_cons, contentRows, rowsFrom_append, rowsFrom,
      Nat.zero_add, append_assoc]
    exact ((perm_append_comm).append_left _).append_left _
  · rintro ⟨lid', p⟩
    change (lid', p) ∈ insert (lid, position) store.itemsPositions ↔ _
    rw [Finset.mem_insert, h.positions, hat, Prod.mk.injEq]
    by_cases hp : p = position <;> simp [hp, hfree]
  · intro k i p
    rw [hlookup]
    refine contents_place h.contents hat ?_ ?_ k i p
    · intro i hi
      rw [hfree] at hi
      cases hi
    · intro q i _ hi
      exact hnew i (mem_itemsOf_of_itemAt hi)

/-- Several items, by induction on them. -/
theorem pushItems_eq (items : List Item) (h : Holds store lid (l ++ (id, .items current) :: r))
    (hdistinct : ((itemsOf (l ++ (id, .items (current ++ items)) :: r)).map
      (IndexableItem.id : Item → ItemId)).Nodup) :
    ∃ store', store.pushItems lid ⟨id, current.length⟩ items = (.ok (), store') ∧
      Holds store' lid (l ++ (id, .items (current ++ items)) :: r) := by
  induction items generalizing store current with
  | nil => exact ⟨store, rfl, by simpa using h⟩
  | cons item items ih =>
    have hnew : ∀ y ∈ itemsOf (l ++ (id, .items current) :: r),
        (IndexableItem.id y : ItemId) ≠ IndexableItem.id item := by
      intro y hy heq
      simp at hdistinct hy
      rw [← append_assoc] at hdistinct
      have hnot := (nodup_cons.mp (nodup_middle.mp hdistinct)).1
      refine hnot ?_
      rw [← heq]
      simp only [mem_append] at hy ⊢
      rcases hy with hy | hy | hy
      · exact .inl (.inl (mem_map_of_mem hy))
      · exact .inl (.inr (mem_map_of_mem hy))
      · exact .inr (.inr (mem_map_of_mem hy))
    obtain ⟨store₁, hpush, h₁⟩ := pushItem_eq h hnew
    have happend : current ++ item :: items = (current ++ [item]) ++ items := by simp
    rw [happend] at hdistinct ⊢
    obtain ⟨store₂, hmore, h₂⟩ := ih h₁ hdistinct
    refine ⟨store₂, ?_, h₂⟩
    rw [length_append, length_singleton] at hmore
    simp only [pushItems, hpush, hmore]

section At

variable {before after : List Item} {old item : Item}

theorem Holds.notMem_right (h : Holds store lid (l ++ (id, content) :: r)) :
    id ∉ identifiers r := by
  have hdistinct := h.distinct
  rw [identifiers_append, identifiers_cons] at hdistinct
  exact (nodup_cons.mp (nodup_append.mp hdistinct).2.1).1

section

variable (h : Holds store lid (l ++ (id, .items (before ++ old :: after)) :: r))
include h

theorem applyUpdate_replaceItem
    (hdistinct : ((itemsOf (l ++ (id, .items (before ++ old :: after)) :: r)).map
      (IndexableItem.id : Item → ItemId)).Nodup)
    (hsame : (IndexableItem.id old : ItemId) = IndexableItem.id item) :
    ∃ store', store.applyUpdate lid (.replaceItem ⟨id, before.length⟩ item) =
        some (.ok (), store') ∧
      Holds store' lid (l ++ (id, .items (before ++ item :: after)) :: r) := by
  set position : Position := ⟨id, before.length⟩ with hposition
  have hold : itemAt (l ++ (id, .items (before ++ old :: after)) :: r) position = some old := by
    rw [itemAt_split h.notMem, if_pos rfl]
    simp [hposition]
  have hat := itemAt_set (r := r) h.notMem before after old item
  have hperm := h.rows
  rw [itemRowsOf_middle] at hperm
  have hother : ∀ row ∈ (itemRowsOf lid l ++ rowsFrom lid id 0 before) ++
      (rowsFrom lid id (before.length + 1) after ++ itemRowsOf lid r),
      decide ((row : ItemRow Lid ItemId Gap).position = position) = false :=
    fun row hrow => by simpa using position_ne_of_mem h.notMem h.notMem_right hrow
  have hfind := find?_of_perm hperm (by simp [hposition]) hother
  obtain ⟨rows, hmodify, hrows⟩ := modifyFirst_of_perm
    (f := fun row : ItemRow Lid ItemId Gap => { row with item := .item (IndexableItem.id item) })
    hperm (by simp [hposition]) hother
  have hids : identifiers (l ++ (id, .items (before ++ item :: after)) :: r) =
      identifiers (l ++ (id, .items (before ++ old :: after)) :: r) := identifiers_replace _
  refine ⟨{ store with itemsChunks := rows }.placeItem lid position item, ?_, ?_, ?_, ?_, ?_, ?_⟩
  · simp [applyUpdate, replaceItem, hfind, hmodify]
  · rw [hids]
    exact h.distinct
  · rw [rowsOf_congr none hids]
    exact h.chunks
  · rw [itemRowsOf_middle]
    exact hrows
  · rintro ⟨lid', p⟩
    change (lid', p) ∈ store.itemsPositions ↔ _
    rw [h.positions, hat]
    by_cases hp : p = position
    · simp [hp, hold, ← hposition]
    · rw [if_neg hp]
  · intro k i p
    rw [lookup_placeItem, if_pos rfl]
    refine contents_place h.contents hat ?_ ?_ k i p
    · intro i hi
      rw [← hposition, hold] at hi
      cases hi
      exact hsame
    · intro q i hq hi heq
      exact hq (itemAt_inj hdistinct hi hold (heq.trans hsame.symm))

theorem applyUpdate_removeItem :
    ∃ store', store.applyUpdate lid (.removeItem ⟨id, before.length⟩) = some (.ok (), store') ∧
      Holds store' lid (l ++ (id, .items (before ++ after)) :: r) := by
  set position : Position := ⟨id, before.length⟩ with hposition
  have hlargest := largest_eq h.rows h.notMem h.notMem_right
  have hperm := h.rows
  rw [itemRowsOf_middle] at hperm
  have hother : ∀ row ∈ (itemRowsOf lid l ++ rowsFrom lid id 0 before) ++
      (rowsFrom lid id (before.length + 1) after ++ itemRowsOf lid r),
      (decide ((row : ItemRow Lid ItemId Gap).linkedChunkId = lid) &&
        decide (row.position = position)) = false := by
    intro row hrow
    have hne := position_ne_of_mem h.notMem h.notMem_right hrow
    simp [hposition, hne]
  obtain ⟨rows, hremove, hrows⟩ := removeFirst_of_perm hperm (by simp [hposition]) hother
  have hone := length_filter_of_perm hperm (by simp [hposition]) hother
  have hids : identifiers (l ++ (id, .items (before ++ after)) :: r) =
      identifiers (l ++ (id, .items (before ++ old :: after)) :: r) := identifiers_replace _
  let removed := modifyItems
    { store with
      itemsChunks := rows.map (shiftRow lid position)
      itemsPositions := store.itemsPositions.erase (lid, ⟨id, before.length + after.length⟩) }
    lid fun e => (e.1, e.2.bind fun candidate =>
      if candidate = position then none
      else some (shiftAfter position candidate))
  refine ⟨removed, ?_, ?_, ?_, ?_, ?_, ?_⟩
  · have hcall : store.removeItem lid position = some removed := by
      unfold removeItem
      simp only [hposition, hlargest, Option.bind_eq_bind, Option.bind_some]
      simp only [← hposition, hone, hremove, ne_eq, not_true_eq_false, if_false, Option.bind_some]
      rfl
    simp [applyUpdate, hcall]
  · rw [hids]
    exact h.distinct
  · rw [rowsOf_congr none hids]
    exact h.chunks
  · refine (hrows.map (shiftRow lid position)).trans ?_
    rw [hposition, map_shiftRow h.notMem h.notMem_right]
  · rintro ⟨lid', k, index⟩
    change _ ∈ store.itemsPositions.erase _ ↔ _
    rw [Finset.mem_erase, h.positions, itemAt_split h.notMem, itemAt_split h.notMem]
    by_cases hk : k = id
    · simp only [hk, if_true, contentItems_items, ne_eq, Prod.mk.injEq, Position.mk.injEq, true_and,
        not_and, isSome_getElem?, length_append, length_cons]
      constructor
      · rintro ⟨hne, rfl, hlt⟩
        have := hne rfl
        exact ⟨rfl, by omega⟩
      · rintro ⟨rfl, hlt⟩
        exact ⟨fun _ => by omega, rfl, by omega⟩
    · simp [hk]
  · intro k i p
    rw [lookup_modifyItems, if_pos rfl]
    exact contents_move h.contents (itemAt_remove h.notMem after old) k i p

end

variable {xs detached : List Item}

section

variable (h : Holds store lid (l ++ (id, .items (xs ++ detached)) :: r))
include h

/-- The positions that are freed are those of the detached items. -/
theorem mem_freed_iff (k index : ℕ)
    (hat : (itemAt (l ++ (id, .items (xs ++ detached)) :: r) ⟨k, index⟩).isSome) :
    (lid, ⟨k, index⟩) ∈ (store.itemsChunks.filter fun row => decide (row.linkedChunkId = lid) &&
        isDetached ⟨id, xs.length⟩ row.position).map
          (fun row => (lid, row.position)) ↔ k = id ∧ xs.length ≤ index := by
  simp only [isDetached, mem_map, mem_filter, Bool.and_eq_true,
    decide_eq_true_eq, Prod.mk.injEq, true_and]
  constructor
  · rintro ⟨row, ⟨-, -, hchunk, hle⟩, heq⟩
    rw [heq] at hchunk hle
    exact ⟨hchunk, hle⟩
  · rintro ⟨rfl, hle⟩
    rw [itemAt_split h.notMem, if_pos rfl, contentItems_items, isSome_getElem?] at hat
    obtain ⟨(row : ItemRow Lid ItemId Gap), hrow, hlid, hposition⟩ :=
      exists_mem_rowsFrom lid k 0 hat
    rw [Nat.zero_add] at hposition
    refine ⟨row, ⟨h.rows.mem_iff.mpr ?_, hlid, ?_⟩, hposition⟩
    · simp [contentRows, hrow]
    · rw [hposition]
      exact ⟨rfl, hle⟩

theorem applyUpdate_detachLastItems :
    ∃ store', store.applyUpdate lid (.detachLastItems ⟨id, xs.length⟩) = some (.ok (), store') ∧
      Holds store' lid (l ++ (id, .items xs) :: r) := by
  have hids : identifiers (l ++ (id, .items xs) :: r) =
      identifiers (l ++ (id, .items (xs ++ detached)) :: r) := identifiers_replace _
  refine ⟨store.detachLastItems lid ⟨id, xs.length⟩, rfl, ?_, ?_, ?_, ?_, ?_⟩
  · rw [hids]
    exact h.distinct
  · rw [rowsOf_congr none hids]
    exact h.chunks
  · rw [← filter_detached h.notMem h.notMem_right detached]
    exact h.rows.filter _
  · rintro ⟨lid', k, index⟩
    change _ ∈ store.itemsPositions.filter _ ↔ _
    rw [Finset.mem_filter, h.positions]
    have hsome : (itemAt (l ++ (id, .items xs) :: r) ⟨k, index⟩).isSome ↔
        (itemAt (l ++ (id, .items (xs ++ detached)) :: r) ⟨k, index⟩).isSome ∧
          ¬(k = id ∧ xs.length ≤ index) := by
      rw [itemAt_split h.notMem, itemAt_split h.notMem]
      by_cases hk : k = id
      · simp only [hk, if_true, contentItems_items, isSome_getElem?, length_append, true_and]
        omega
      · simp [hk]
    rw [hsome]
    constructor
    · rintro ⟨⟨rfl, hat⟩, hnot⟩
      exact ⟨rfl, hat, fun hfreed => hnot ((mem_freed_iff h k index hat).mpr hfreed)⟩
    · rintro ⟨rfl, hat, hnot⟩
      exact ⟨⟨rfl, hat⟩, fun hfreed => hnot ((mem_freed_iff h k index hat).mp hfreed)⟩
  · intro k i p
    change RelationalLinkedChunk.lookup (modifyItems _ _ _) _ _ = _ ↔ _
    rw [lookup_modifyItems, if_pos rfl]
    exact contents_move h.contents (itemAt_detach h.notMem detached) k i p

end

end At

theorem applyUpdate_clear {chain : Chain Item Gap} (h : Holds store lid chain) :
    ∃ store', store.applyUpdate lid .clear = some (.ok (), store') ∧ Holds store' lid [] := by
  refine ⟨store.clearItems lid, rfl, by simp, ?_, ?_, ?_, ?_⟩
  · change (store.chunks.filter _).Perm []
    rw [perm_nil, filter_eq_nil_iff]
    intro row hrow
    simp [(mem_rowsOf_chunk (h.chunks.mem_iff.mp hrow)).1]
  · change (store.itemsChunks.filter _).Perm []
    rw [perm_nil, filter_eq_nil_iff]
    intro row hrow
    simp [(mem_itemRowsOf (h.rows.mem_iff.mp hrow)).1]
  · intro p
    change p ∈ store.itemsPositions.filter _ ↔ _
    rw [Finset.mem_filter, h.positions]
    simp only [itemAt, Option.isSome_none, Bool.false_eq_true, and_false, iff_false]
    rintro ⟨⟨hlid, -⟩, hne⟩
    exact absurd hlid (by simpa using hne)
  · intro k i p
    change RelationalLinkedChunk.lookup (modifyItems _ _ _) _ _ = _ ↔ _
    rw [lookup_modifyItems, if_pos rfl]
    simp [itemAt]

section Steps

variable {φ φ' : Phase Item Gap} {u : Update Item Gap}

/-- Any update that is a step of the chain is applied without error. -/
theorem applyUpdate_step (h : Holds store lid φ.chain) (hstep : Step none φ u φ')
    (hitems : DistinctIds (itemsOf φ.chain)) (hitems' : DistinctIds (itemsOf φ'.chain))
    (hkeeps : KeepsIds φ u) :
    ∃ store', store.applyUpdate lid u = some (.ok (), store') ∧ Holds store' lid φ'.chain := by
  cases hstep with
  | newChunk l r new content hempty hfresh => exact applyUpdate_newChunk h hempty hfresh
  | removeChunk l r id content hempty => exact applyUpdate_removeChunk h hempty
  | pushItems l r id items new =>
    obtain ⟨store', hpush, h'⟩ := pushItems_eq new h hitems'
    exact ⟨store', congrArg some hpush, h'⟩
  | replaceItem l r id before after old item =>
    have hat : itemAt (l ++ (id, .items (before ++ old :: after)) :: r) ⟨id, before.length⟩ =
        some old := by
      rw [itemAt_split h.notMem, if_pos rfl]
      simp
    exact applyUpdate_replaceItem h hitems (hkeeps _ _ _ rfl hat)
  | removeItem l r id before after old => exact applyUpdate_removeItem h
  | clear c => exact applyUpdate_clear h
  | detachLastItems l r id items detached =>
    obtain ⟨store', hdetach, h'⟩ := applyUpdate_detachLastItems h
    exact ⟨store', hdetach, by simpa [Phase.chain] using h'⟩
  | cutNewChunk reattaching l r detached new content hempty hfresh =>
    obtain ⟨store', hnew, h'⟩ := applyUpdate_newChunk h hempty hfresh
    exact ⟨store', hnew, by simpa [Phase.chain] using h'⟩
  | cutPushItems l r detached id items new | reattachItems l r detached id items new =>
    simp only [Phase.chain, append_assoc, cons_append, nil_append] at h hitems' ⊢
    obtain ⟨store', hpush, h'⟩ := pushItems_eq new h hitems'
    exact ⟨store', congrArg some hpush, h'⟩
  | startReattachItems l r detached => exact ⟨store, rfl, h⟩
  | endReattachItems l r => exact ⟨store, rfl, h⟩

theorem applyUpdates_steps {us : List (Update Item Gap)} (h : Holds store lid φ.chain)
    (hsteps : Trace StoredStep φ us φ') :
    ∃ store', store.applyUpdates lid us = some (.ok (), store') ∧ Holds store' lid φ'.chain := by
  induction hsteps generalizing store with
  | nil φ => exact ⟨store, rfl, h⟩
  | cons head _ ih =>
    obtain ⟨store₁, hupdate, h₁⟩ := applyUpdate_step h head.step
      (head.before.sublist (itemsOf_sublist_allItems _))
      (head.after.sublist (itemsOf_sublist_allItems _)) head.keeps
    obtain ⟨store₂, hupdates, h₂⟩ := ih h₁
    refine ⟨store₂, ?_, h₂⟩
    rw [applyUpdates, hupdate]
    exact hupdates

end Steps

end Updates

end MatrixSdk.Relational

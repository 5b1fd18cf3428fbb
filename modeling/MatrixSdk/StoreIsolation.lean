import MatrixSdk.Relational
import MatrixSdk.Runs

/-!
Several linked chunks in one store. An update applied under one identifier leaves the
chunks of every other identifier as they are, except that an item it carries is refreshed
wherever it is known. The one exception is a replacement: it looks for the row to change by
its position only, and may find the row of another linked chunk.
-/
namespace MatrixSdk.Relational

open Updates Chunks LazyLoader FirstMatches Traces RelationalLinkedChunk List

variable {Lid ItemId Item Gap : Type} [IndexableItem Item ItemId]

/-- The items an update carries. -/
def carried : Update Item Gap → List Item
  | .pushItems _ items => items
  | .replaceItem _ item => [item]
  | _ => []

/-- The same item, or another version of it that was carried. -/
def Refreshed (items : List Item) (x y : Item) : Prop :=
  y = x ∨ y ∈ items ∧ (IndexableItem.id y : ItemId) = IndexableItem.id x

variable {items : List Item} {x y : Item} {α β : Type} {R : α → β → Prop}

theorem Refreshed.trans {z : Item} (h₁ : Refreshed items x y) (h₂ : Refreshed items y z) :
    Refreshed items x z := by
  rcases h₂ with rfl | ⟨hz, hid⟩
  · exact h₁
  · rcases h₁ with rfl | ⟨-, hid'⟩
    · exact .inr ⟨hz, hid⟩
    · exact .inr ⟨hz, hid.trans hid'⟩

variable {items' : List Item}

theorem Refreshed.mono (hsub : items ⊆ items') (h : Refreshed items x y) : Refreshed items' x y :=
  h.imp id fun h => ⟨hsub h.1, h.2⟩

inductive ContentRefreshed (items : List Item) :
    ChunkContent Item Gap → ChunkContent Item Gap → Prop
  | gap (content : Gap) : ContentRefreshed items (.gap content) (.gap content)
  | items {xs ys : List Item} (refreshed : List.Forall₂ (Refreshed items) xs ys) :
      ContentRefreshed items (.items xs) (.items ys)

structure RawRefreshed (items : List Item) (raw raw' : RawChunk Item Gap) : Prop where
  content : ContentRefreshed items raw.content raw'.content
  previous : raw'.previous = raw.previous
  identifier : raw'.identifier = raw.identifier
  next : raw'.next = raw.next

/-- The same error, or values that are related. -/
inductive Agrees {α β : Type} (R : α → β → Prop) : Except String α → Except String β → Prop
  | ok {a : α} {b : β} (related : R a b) : Agrees R (.ok a) (.ok b)
  | error (e : String) : Agrees R (.error e) (.error e)

section Lists

variable {α β γ : Type} {R : β → γ → Prop}

theorem forall₂_filterMap {f : α → Option β} {g : α → Option γ} (xs : List α)
    (h : ∀ x ∈ xs, Option.Rel R (f x) (g x)) :
    List.Forall₂ R (xs.filterMap f) (xs.filterMap g) := by
  induction xs with
  | nil => exact .nil
  | cons x xs ih =>
    have htail := ih fun y hy => h y (mem_cons_of_mem _ hy)
    have hhead := h x mem_cons_self
    rw [filterMap_cons, filterMap_cons]
    generalize f x = a at hhead ⊢
    generalize g x = b at hhead ⊢
    cases hhead with
    | some hR => exact .cons hR htail
    | none => exact htail

theorem agrees_mapM {f : α → Except String β} {g : α → Except String γ} (xs : List α)
    (h : ∀ x ∈ xs, Agrees R (f x) (g x)) : Agrees (List.Forall₂ R) (xs.mapM f) (xs.mapM g) := by
  induction xs with
  | nil => exact .ok .nil
  | cons x xs ih =>
    have htail := ih fun y hy => h y (mem_cons_of_mem _ hy)
    have hhead := h x mem_cons_self
    rw [mapM_cons, mapM_cons]
    generalize f x = a at hhead ⊢
    generalize g x = b at hhead ⊢
    generalize xs.mapM f = as at htail ⊢
    generalize xs.mapM g = bs at htail ⊢
    cases hhead with
    | error e => exact .error e
    | ok hR =>
      cases htail with
      | error e => exact .error e
      | ok htail => exact .ok (.cons hR htail)

end Lists

theorem optionRel_refreshed (e : Option (Item × Option Position)) :
    Option.Rel (fun e e' => Refreshed items e.1 e'.1) e e := by
  cases e with
  | none => exact .none
  | some e => exact .some (.inl rfl)

theorem optionRel_mono {R' : α → β → Prop} (hsub : ∀ a b, R a b → R' a b) {a : Option α}
    {b : Option β} (h : Option.Rel R a b) : Option.Rel R' a b := by
  cases h with
  | none => exact .none
  | some h => exact .some (hsub _ _ h)

section Frames

variable [DecidableEq Lid] [DecidableEq ItemId]
  {store store' store'' : RelationalLinkedChunk Lid ItemId Item Gap} {lid other : Lid}
  {items : List Item}

/-- What the loads of `other` depend on: its rows, and the items that its rows name. -/
structure Frame (items : List Item) (store store' : RelationalLinkedChunk Lid ItemId Item Gap)
    (other : Lid) : Prop where
  chunks : store'.chunkRows other = store.chunkRows other
  rows : store'.itemsChunks.filter (fun row => row.linkedChunkId = other) =
    store.itemsChunks.filter fun row => row.linkedChunkId = other
  lookup : ∀ id, Option.Rel (fun e e' => Refreshed items e.1 e'.1) (store.lookup other id)
    (store'.lookup other id)

theorem frame_of_lookup (hchunks : store'.chunkRows other = store.chunkRows other)
    (hrows : store'.itemsChunks.filter (fun row => row.linkedChunkId = other) =
      store.itemsChunks.filter fun row => row.linkedChunkId = other)
    (hlookup : ∀ id, store'.lookup other id = store.lookup other id) :
    Frame items store store' other where
  chunks := hchunks
  rows := hrows
  lookup id := by
    rw [hlookup]
    exact optionRel_refreshed _

theorem Frame.refl : Frame items store store other :=
  frame_of_lookup rfl rfl fun _ => rfl

theorem Frame.trans (h₁ : Frame items store store' other) (h₂ : Frame items store' store'' other) :
    Frame items store store'' other where
  chunks := h₂.chunks.trans h₁.chunks
  rows := h₂.rows.trans h₁.rows
  lookup id := by
    have hfirst := h₁.lookup id
    have hsecond := h₂.lookup id
    generalize store'.lookup other id = b at hfirst hsecond
    generalize store.lookup other id = a at hfirst ⊢
    generalize store''.lookup other id = c at hsecond ⊢
    cases hfirst with
    | none =>
      cases hsecond
      exact .none
    | some hab =>
      cases hsecond with
      | some hbc => exact .some (hab.trans hbc)

theorem Frame.mono (hsub : items ⊆ items') (h : Frame items store store' other) :
    Frame items' store store' other :=
  ⟨h.chunks, h.rows, fun id => optionRel_mono (fun _ _ hr => hr.mono hsub) (h.lookup id)⟩

/-- Every item is stored under its own identifier. -/
def Keyed (store : RelationalLinkedChunk Lid ItemId Item Gap) : Prop :=
  ∀ lid id e, store.lookup lid id = some e → IndexableItem.id e.1 = id

/-- A change made under `lid`. -/
structure Confined (items : List Item) (lid : Lid)
    (store store' : RelationalLinkedChunk Lid ItemId Item Gap) : Prop where
  keyed : Keyed store → Keyed store'
  frame : Keyed store → ∀ other, other ≠ lid → Frame items store store' other

theorem Confined.refl : Confined items lid store store :=
  ⟨fun h => h, fun _ _ _ => .refl⟩

theorem Confined.trans (h₁ : Confined items lid store store')
    (h₂ : Confined items lid store' store'') : Confined items lid store store'' :=
  ⟨fun h => h₂.keyed (h₁.keyed h), fun h other hother =>
    (h₁.frame h other hother).trans (h₂.frame (h₁.keyed h) other hother)⟩

theorem Confined.mono (hsub : items ⊆ items') (h : Confined items lid store store') :
    Confined items' lid store store' :=
  ⟨h.keyed, fun hkeyed other hother => (h.frame hkeyed other hother).mono hsub⟩

/-- Only rows of `lid` change. -/
theorem confined_of_rows
    (hchunks : ∀ other, other ≠ lid → store'.chunkRows other = store.chunkRows other)
    (hrows : ∀ other, other ≠ lid →
      store'.itemsChunks.filter (fun row => row.linkedChunkId = other) =
        store.itemsChunks.filter fun row => row.linkedChunkId = other)
    (hitems : store'.items = store.items) : Confined items lid store store' := by
  have hlookup : ∀ other id, store'.lookup other id = store.lookup other id := by
    intro other id
    unfold RelationalLinkedChunk.lookup RelationalLinkedChunk.itemsOf
    rw [hitems]
  refine ⟨fun h other id e he => h other id e (hlookup other id ▸ he), fun _ other hother => ?_⟩
  exact frame_of_lookup (hchunks other hother) (hrows other hother) (hlookup other)

/-- Positions of items of `lid` change. -/
theorem confined_modifyItems (f : Item × Option Position → Item × Option Position)
    (hf : ∀ e, (f e).1 = e.1) : Confined items lid store (store.modifyItems lid f) := by
  constructor
  · intro h other id e he
    rw [lookup_modifyItems] at he
    split at he
    · next hother =>
      subst hother
      obtain ⟨e₀, he₀, rfl⟩ := Option.map_eq_some_iff.mp he
      rw [hf]
      exact h other id e₀ he₀
    · exact h other id e he
  · intro _ other hother
    refine frame_of_lookup rfl rfl fun id => ?_
    rw [lookup_modifyItems, if_neg hother]

theorem confined_placeItem (position : Position) (item : Item) :
    Confined [item] lid store (store.placeItem lid position item) := by
  constructor
  · intro h other id e he
    rw [lookup_placeItem] at he
    split at he
    · next hid =>
      split at he
      · cases he
        exact hid.symm
      · obtain ⟨e₀, -, rfl⟩ := Option.map_eq_some_iff.mp he
        exact hid.symm
    · exact h other id e he
  · intro h other hother
    refine ⟨rfl, rfl, fun id => ?_⟩
    rw [lookup_placeItem, if_neg hother]
    split
    · next hid =>
      cases hlookup : store.lookup other id with
      | none => exact .none
      | some e =>
        refine .some (.inr ⟨mem_singleton_self item, ?_⟩)
        rw [h other id e hlookup, hid]
    · exact optionRel_refreshed _

theorem confined_pushItem (position : Position) (item : Item) :
    Confined [item] lid store (store.pushItem lid position item).2 := by
  have hsame : ∀ other id, (store.upsertItems lid fun items => items).lookup other id =
      store.lookup other id := by
    intro other id
    rw [lookup_upsertItems]
    split
    · next h =>
      subst h
      rfl
    · rfl
  have hentry : Confined [item] lid store (store.upsertItems lid fun items => items) :=
    ⟨fun h other id e he => h other id e (hsame other id ▸ he),
      fun _ other _ => frame_of_lookup rfl rfl (hsame other)⟩
  unfold pushItem
  simp only
  split
  · exact hentry
  · split
    · exact hentry
    · refine (hentry.trans ?_).trans (confined_placeItem position item)
      refine confined_of_rows (fun _ _ => rfl) (fun other hother => ?_) rfl
      simp [filter_append, hother.symm]

theorem confined_pushItems (position : Position) :
    Confined items lid store (store.pushItems lid position items).2 := by
  induction items generalizing store position with
  | nil => exact .refl
  | cons item items ih =>
    have hsub : [item] ⊆ item :: items := by simp
    have hhead : Confined _ lid store (store.pushItem lid position item).2 :=
      (confined_pushItem position item).mono hsub
    rw [pushItems]
    generalize store.pushItem lid position item = result at hhead ⊢
    obtain ⟨_ | _, store₁⟩ := result
    · exact hhead
    · exact hhead.trans ((ih _).mono (subset_cons_self item items))

/-- The first row at the position belongs to another linked chunk, and another item is there. -/
def Strays (store : RelationalLinkedChunk Lid ItemId Item Gap) (lid : Lid) :
    Update Item Gap → Prop
  | .replaceItem position item =>
    ∃ row, store.itemsChunks.find? (fun row => row.position = position) = some row ∧
      row.linkedChunkId ≠ lid ∧ row.item ≠ .item (IndexableItem.id item)
  | _ => False

variable {position : Position} {chunks chunks' : List (ChunkRow Lid)}

theorem confined_replaceItem {item : Item} (hstray : ¬Strays store lid (.replaceItem position item))
    (h : store.replaceItem lid position item = some store') : Confined [item] lid store store' := by
  unfold replaceItem at h
  cases hfind : store.itemsChunks.find? (fun row => row.position = position) with
  | none => simp [hfind] at h
  | some row =>
    simp [hfind] at h
    cases hitem : row.item with
    | gap gap => simp [hitem] at h
    | item id =>
      simp [hitem, Option.bind_eq_some_iff] at h
      obtain ⟨rows, hrows, h⟩ := h
      cases h
      refine Confined.trans ?_ (confined_placeItem position item)
      refine confined_of_rows (fun _ _ => rfl) (fun other hother => ?_) rfl
      refine filter_modifyFirst (fun found hfound => ?_) hrows
      obtain rfl : row = found := Option.some.inj (hfind.symm.trans hfound)
      by_cases hlid : row.linkedChunkId = lid
      · right
        simp [hlid, hother.symm]
      · left
        have hsame : row.item = .item (IndexableItem.id item) := by
          by_contra hne
          exact hstray ⟨row, hfind, hlid, hne⟩
        rw [← hsame]

/-- The links of `lid` are columns of rows of `lid`. -/
theorem filter_linkRow {identifier : Option ℕ} {f : ChunkRow Lid → ChunkRow Lid}
    (hother : other ≠ lid) (h : linkRow chunks lid identifier f = some chunks')
    (hf : ∀ row, (f row).linkedChunkId = row.linkedChunkId) :
    chunks'.filter (fun row => row.linkedChunkId = other) =
      chunks.filter fun row => row.linkedChunkId = other := by
  cases identifier with
  | none =>
    cases h
    rfl
  | some identifier =>
    refine filter_modifyFirst (fun row hrow => .inr ?_) h
    have hlid := find?_some hrow
    simp only [Bool.and_eq_true, decide_eq_true_eq] at hlid
    simp [hf, hlid.1, hother.symm]

theorem filter_insertChunk (chunks : List (ChunkRow Lid)) (previous next : Option ℕ) (new : ℕ)
    (hother : other ≠ lid) :
    (insertChunk chunks lid previous new next).2.filter (fun row => row.linkedChunkId = other) =
      chunks.filter fun row => row.linkedChunkId = other := by
  unfold insertChunk
  cases hprevious : linkRow chunks lid previous fun row => { row with nextChunk := some new } with
  | none => rfl
  | some chunks₁ =>
    have h₁ := filter_linkRow hother hprevious fun _ => rfl
    simp only
    cases hnext : linkRow chunks₁ lid next fun row => { row with previousChunk := some new } with
    | none => exact h₁
    | some chunks₂ =>
      have h₂ := filter_linkRow hother hnext fun _ => rfl
      simp [filter_append, hother.symm, h₂, h₁]

theorem filter_removeChunk {identifier : ℕ} (hother : other ≠ lid)
    (h : removeChunk chunks lid identifier = some chunks') :
    chunks'.filter (fun row => row.linkedChunkId = other) =
      chunks.filter fun row => row.linkedChunkId = other := by
  unfold removeChunk at h
  simp only [Option.bind_eq_bind, Option.bind_eq_some_iff] at h
  obtain ⟨⟨removed, chunks₁⟩, hremove, chunks₂, hprevious, hnext⟩ := h
  have hlid := removeFirst_satisfies hremove
  simp only [Bool.and_eq_true, decide_eq_true_eq] at hlid
  have h₁ : chunks₁.filter (fun row => decide (row.linkedChunkId = other)) =
      chunks.filter fun row => row.linkedChunkId = other := by
    refine filter_removeFirst (fun row hrow => ?_) hremove
    simp at hrow
    simp [hrow.1, hother.symm]
  rw [hlid.1] at hprevious hnext
  rw [filter_linkRow hother hnext fun _ => rfl,
    filter_linkRow hother hprevious fun _ => rfl, h₁]

theorem confined_removeItem (h : store.removeItem lid position = some store') :
    Confined items lid store store' := by
  unfold removeItem at h
  simp only [Option.bind_eq_bind, Option.bind_eq_some_iff] at h
  obtain ⟨largest, -, h⟩ := h
  split at h
  · cases h
  · obtain ⟨⟨removed, rows⟩, hremove, h⟩ := Option.bind_eq_some_iff.mp h
    cases h
    refine Confined.trans ?_ (confined_modifyItems _ fun _ => rfl)
    refine confined_of_rows (fun _ _ => rfl) (fun other hother => ?_) rfl
    refine (filter_map_eq (fun row => ?_) rows).trans
      (filter_removeFirst (fun row hrow => ?_) hremove)
    · by_cases hlid : row.linkedChunkId = lid
      · simp [hlid, hother.symm]
      · simp [hlid]
    · simp only [Bool.and_eq_true, decide_eq_true_eq] at hrow
      simp [hrow.1, hother.symm]

theorem confined_detachLastItems :
    Confined items lid store (store.detachLastItems lid position) := by
  refine Confined.trans ?_ (confined_modifyItems _ fun _ => rfl)
  refine confined_of_rows (fun _ _ => rfl) (fun other hother => ?_) rfl
  refine filter_filter_eq (fun row hrow => ?_) _
  rw [decide_eq_true_eq] at hrow
  simp [hrow, hother]

theorem confined_clearItems : Confined items lid store (store.clearItems lid) := by
  refine Confined.trans ?_ (confined_modifyItems _ fun _ => rfl)
  refine confined_of_rows (fun other hother => ?_) (fun other hother => ?_) rfl
  · refine filter_filter_eq (fun row hrow => ?_) _
    rw [decide_eq_true_eq] at hrow
    simp [hrow, hother]
  · refine filter_filter_eq (fun row hrow => ?_) _
    rw [decide_eq_true_eq] at hrow
    simp [hrow, hother]

/-- Every update but a stray replacement is confined to its linked chunk. -/
theorem confined_applyUpdate {u : Update Item Gap} {result : Except RelationalLinkedChunkError Unit}
    (hstray : ¬Strays store lid u) (h : store.applyUpdate lid u = some (result, store')) :
    Confined (carried u) lid store store' := by
  cases u with
  | newItemsChunk previous new next =>
    have hchunks := fun other (hother : other ≠ lid) =>
      filter_insertChunk store.chunks previous next new hother
    cases h
    exact confined_of_rows hchunks (fun _ _ => rfl) rfl
  | newGapChunk previous new next gap =>
    have hchunks := fun other (hother : other ≠ lid) =>
      filter_insertChunk store.chunks previous next new hother
    simp [applyUpdate] at h
    generalize insertChunk store.chunks lid previous new next = inserted at h hchunks
    obtain ⟨_ | _, chunks⟩ := inserted
    · cases h
      exact confined_of_rows hchunks (fun _ _ => rfl) rfl
    · cases h
      refine confined_of_rows hchunks (fun other hother => ?_) rfl
      simp [filter_append, hother.symm]
  | removeChunk identifier =>
    simp only [applyUpdate, Option.bind_eq_bind, Option.bind_eq_some_iff] at h
    obtain ⟨chunks, hremove, h⟩ := h
    cases h
    refine confined_of_rows (fun other hother => filter_removeChunk hother hremove)
      (fun other hother => filter_filter_eq (fun row hrow => ?_) _) rfl
    rw [decide_eq_true_eq] at hrow
    simp [hrow, hother]
  | pushItems position items =>
    have hpush : Confined items lid store (store.pushItems lid position items).2 :=
      confined_pushItems position
    simp only [applyUpdate, Option.some.injEq] at h
    rw [h] at hpush
    exact hpush
  | replaceItem position item =>
    obtain ⟨_, hreplace, heq⟩ := Option.map_eq_some_iff.mp h
    cases heq
    exact confined_replaceItem hstray hreplace
  | removeItem position =>
    obtain ⟨_, hremove, heq⟩ := Option.map_eq_some_iff.mp h
    cases heq
    exact confined_removeItem hremove
  | detachLastItems position =>
    cases h
    exact confined_detachLastItems
  | startReattachItems | endReattachItems =>
    cases h
    exact .refl
  | clear =>
    cases h
    exact confined_clearItems

end Frames

section Loads

variable [DecidableEq Lid] [DecidableEq ItemId]
  {store store' : RelationalLinkedChunk Lid ItemId Item Gap} {other : Lid} {items : List Item}

section

variable (h : Frame items store store' other)
include h

theorem Frame.rowsOfChunk (chunk : ℕ) :
    store'.rowsOfChunk other chunk = store.rowsOfChunk other chunk := by
  have hsplit : ∀ s : RelationalLinkedChunk Lid ItemId Item Gap, s.rowsOfChunk other chunk =
      (s.itemsChunks.filter fun row => row.linkedChunkId = other).filter
        fun row => row.position.chunkIdentifier = chunk := by
    intro s
    rw [filter_filter]
    exact filter_congr fun row _ => Bool.and_comm _ _
  rw [hsplit, hsplit, h.rows]

theorem Frame.loadRawChunk (row : ChunkRow Lid) :
    Agrees (RawRefreshed items) (store.loadRawChunk row other) (store'.loadRawChunk row other) := by
  unfold RelationalLinkedChunk.loadRawChunk
  rw [h.rowsOfChunk]
  cases store.rowsOfChunk other row.chunk with
  | nil => exact .ok ⟨.items .nil, rfl, rfl, rfl⟩
  | cons first rest =>
    simp only
    cases first.item with
    | gap gap =>
      simp only
      split
      · exact .ok ⟨.gap gap, rfl, rfl, rfl⟩
      · exact .error _
    | item id =>
      cases collectItems row.chunk (first :: rest) with
      | error e => exact .error e
      | ok collected =>
        refine .ok ⟨.items (forall₂_filterMap _ fun a _ => ?_), rfl, rfl, rfl⟩
        have hlookup := h.lookup a.1
        generalize store.lookup other a.1 = e at hlookup ⊢
        generalize store'.lookup other a.1 = e' at hlookup ⊢
        cases hlookup with
        | none => exact .none
        | some hrefreshed => exact .some hrefreshed

theorem Frame.loadRawChunkMetadata (row : ChunkRow Lid) :
    store'.loadRawChunkMetadata row other = store.loadRawChunkMetadata row other := by
  unfold RelationalLinkedChunk.loadRawChunkMetadata
  rw [h.rowsOfChunk]

end

/-- What is loaded of `other` is the same, except for items that were refreshed. -/
structure Isolated (items : List Item) (store store' : RelationalLinkedChunk Lid ItemId Item Gap)
    (other : Lid) : Prop where
  all : Agrees (List.Forall₂ (RawRefreshed items)) (store.loadAllChunks other)
    (store'.loadAllChunks other)
  last : Agrees (fun a b => Option.Rel (RawRefreshed items) a.1 b.1 ∧ b.2 = a.2)
    (store.loadLastChunk other) (store'.loadLastChunk other)
  previous : ∀ chunk, Agrees (Option.Rel (RawRefreshed items))
    (store.loadPreviousChunk other chunk) (store'.loadPreviousChunk other chunk)
  metadata : store'.loadAllChunksMetadata other = store.loadAllChunksMetadata other

theorem Agrees.map {γ δ : Type} {S : γ → δ → Prop} {f : α → γ} {g : β → δ} {a : Except String α}
    {b : Except String β} (h : Agrees R a b) (hfg : ∀ a b, R a b → S (f a) (g b)) :
    Agrees S (a.map f) (b.map g) := by
  cases h with
  | ok h => exact .ok (hfg _ _ h)
  | error e => exact .error e

theorem Frame.isolated (h : Frame items store store' other) :
    Isolated items store store' other where
  all := by
    unfold loadAllChunks
    rw [h.chunks]
    exact agrees_mapM _ fun row _ => h.loadRawChunk row
  last := by
    unfold loadLastChunk
    rw [h.chunks]
    simp only
    split
    · exact (h.loadRawChunk _).map fun a b hab => ⟨.some hab, rfl⟩
    · split
      · exact .ok ⟨.none, rfl⟩
      · exact .error _
  previous chunk := by
    unfold loadPreviousChunk
    rw [h.chunks]
    split
    · exact .ok .none
    · exact (h.loadRawChunk _).map fun a b hab => .some hab
  metadata := by
    unfold loadAllChunksMetadata
    rw [h.chunks]
    congr 1
    funext row
    exact h.loadRawChunkMetadata row

/-- One update, applied under the identifier of a linked chunk. -/
def Applies (store : RelationalLinkedChunk Lid ItemId Item Gap) (event : Lid × Update Item Gap)
    (store' : RelationalLinkedChunk Lid ItemId Item Gap) : Prop :=
  ¬Strays store event.1 event.2 ∧
    ∃ result, store.applyUpdate event.1 event.2 = some (result, store')

theorem Applies.keyed {event : Lid × Update Item Gap} (h : Keyed store)
    (happlies : Applies store event store') : Keyed store' := by
  obtain ⟨hstray, result, happly⟩ := happlies
  exact (confined_applyUpdate hstray happly).keyed h

/-- However the updates of several linked chunks are interleaved, an update leaves alone
what is loaded of the others, as long as no replacement finds the row of another item of
another linked chunk. -/
theorem updates_are_isolated {events : List (Lid × Update Item Gap)} {lid : Lid}
    {u : Update Item Gap}
    (hrun : Trace Applies (RelationalLinkedChunk.new : RelationalLinkedChunk Lid ItemId Item Gap)
      events store)
    (happlies : Applies store (lid, u) store') (hother : other ≠ lid) :
    Isolated (carried u) store store' other := by
  have hkeyed := hrun.preserves (fun _ _ _ h happlies => Applies.keyed h happlies)
    fun lid id e he => by
      simp [RelationalLinkedChunk.new, RelationalLinkedChunk.lookup,
        RelationalLinkedChunk.itemsOf] at he
  obtain ⟨hstray, result, happly⟩ := happlies
  exact ((confined_applyUpdate hstray happly).frame hkeyed other hother).isolated

end Loads

/-- An item that two linked chunks share is refreshed in the first by the second. -/
theorem updates_are_isolated_shared_item :
    ∃ store store' : RelationalLinkedChunk ℕ ℕ (ℕ × ℕ) ℕ,
      Trace Applies RelationalLinkedChunk.new
        [(1, .newItemsChunk none 0 none), (1, .pushItems ⟨0, 0⟩ [(7, 0)]),
          (2, .newItemsChunk none 0 none)] store ∧
      Applies store (2, .pushItems ⟨0, 0⟩ [(7, 1)]) store' ∧
      Isolated [(7, 1)] store store' 1 := by
  exact ⟨_, _, and_of_imp (.cons ⟨id, _, rfl⟩ (.cons ⟨id, _, rfl⟩ (.single ⟨id, _, rfl⟩)))
    fun hrun => and_of_imp ⟨id, _, rfl⟩
    fun happlies => updates_are_isolated hrun happlies (by decide)⟩

/-- The updates of two linked chunks that hold one item each. Replacing the item of the
second by another version of itself makes the item of the first disappear. -/
theorem replacement_strays :
    ((Runs.run 2 (LinkedChunk.newWithUpdateHistory : LinkedChunk (ℕ × ℕ) ℕ)
        [.mutate (.pushItemsBack [(7, 0)])]).map fun lc =>
      lc.updates.map UpdatesInner.updates) =
      some (some [.newItemsChunk none 0 none, .pushItems ⟨0, 0⟩ [(7, 0)]]) ∧
    ((Runs.run 2 (LinkedChunk.newWithUpdateHistory : LinkedChunk (ℕ × ℕ) ℕ)
        [.mutate (.pushItemsBack [(8, 0)]), .mutate (.replaceItemAt ⟨0, 0⟩ (8, 1))]).map fun lc =>
      lc.updates.map UpdatesInner.updates) =
      some (some [.newItemsChunk none 0 none, .pushItems ⟨0, 0⟩ [(8, 0)],
        .replaceItem ⟨0, 0⟩ (8, 1)]) ∧
    ∃ store store' : RelationalLinkedChunk ℕ ℕ (ℕ × ℕ) ℕ,
      ((RelationalLinkedChunk.new.applyUpdates 1
          [.newItemsChunk none 0 none, .pushItems ⟨0, 0⟩ [(7, 0)]]).bind fun r =>
        r.2.applyUpdates 2 [.newItemsChunk none 0 none, .pushItems ⟨0, 0⟩ [(8, 0)]]) =
        some (.ok (), store) ∧
      store.applyUpdate 2 (.replaceItem ⟨0, 0⟩ (8, 1)) = some (.ok (), store') ∧
      store.loadAllChunks 1 = .ok [⟨.items [(7, 0)], none, 0, none⟩] ∧
      store'.loadAllChunks 1 = .ok [⟨.items [], none, 0, none⟩] := by
  refine ⟨by decide, by decide, _, _, rfl, rfl, rfl, rfl⟩

end MatrixSdk.Relational

import MatrixSdk.StoredChains

/-!
Reading back: what the loads return from a store that holds a chain.
-/
namespace MatrixSdk.Relational

open Chunks Chains LazyLoader FirstMatches RelationalLinkedChunk List

variable {Lid ItemId Item Gap : Type}

/-- The raw chunks of a chain, with their links, between `previous` and `next`. -/
def rawsOf (previous : Option ℕ) (chain : Chain Item Gap) (next : Option ℕ) :
    List (RawChunk Item Gap) :=
  match chain with
  | [] => []
  | (id, content) :: rest =>
    ⟨content, previous, id, (headIdentifier rest).or next⟩ :: rawsOf (some id) rest next

variable (previous next : Option ℕ)

theorem rawsOf_append (l r : Chain Item Gap) :
    rawsOf previous (l ++ r) next =
      rawsOf previous l ((headIdentifier r).or next) ++
        rawsOf (lastIdentifier previous l) r next := by
  induction l generalizing previous with
  | nil => simp [rawsOf]
  | cons chunk l ih =>
    obtain ⟨id, content⟩ := chunk
    have hhead := headIdentifier_append_or next l r
    have hlast := lastIdentifier_cons previous id content l
    simp [rawsOf, ih, hhead, hlast]

theorem map_identifier_rawsOf (chain : Chain Item Gap) :
    (rawsOf previous chain next).map RawChunk.identifier = identifiers chain := by
  induction chain generalizing previous with
  | nil => rfl
  | cons chunk chain ih => simp [rawsOf, ih, identifiers]

theorem head?_rawsOf (chain : Chain Item Gap) :
    (rawsOf previous chain next).head?.map RawChunk.identifier = headIdentifier chain := by
  cases chain <;> rfl

section Rows

variable [IndexableItem Item ItemId]

theorem rowsFrom_eq_map (lid : Lid) (id index : ℕ) (xs : List Item) :
    (rowsFrom lid id index xs : List (ItemRow Lid ItemId Gap)) =
      (xs.zipIdx index).map fun x => ⟨lid, ⟨id, x.2⟩, .item (IndexableItem.id x.1)⟩ := by
  induction xs generalizing index with
  | nil => rfl
  | cons x xs ih => rw [rowsFrom, ih, zipIdx_cons, map_cons]

/-- What is collected from a row of an item. -/
def collected (row : ItemRow Lid ItemId Gap) : Option (ItemId × ℕ) :=
  match row.item with
  | .gap _ => none
  | .item id => some (id, row.position.index)

theorem collectItems_eq (chunk : ℕ) {rows : List (ItemRow Lid ItemId Gap)}
    (h : ∀ row ∈ rows, (collected row).isSome) :
    collectItems chunk rows = .ok (rows.filterMap collected) := by
  induction rows with
  | nil => rfl
  | cons row rows ih =>
    have hrow := h row mem_cons_self
    have htail := ih fun other hother => h other (mem_cons_of_mem _ hother)
    unfold collectItems
    cases hitem : row.item with
    | gap content => simp [collected, hitem] at hrow
    | item id => simp [collected, hitem, htail, Except.map]

variable {xs : List Item}

theorem isSome_collected {lid : Lid} {id index : ℕ} {row : ItemRow Lid ItemId Gap}
    (h : row ∈ rowsFrom lid id index xs) : (collected row).isSome := by
  rw [rowsFrom_eq_map] at h
  obtain ⟨x, -, rfl⟩ := mem_map.mp h
  rfl

theorem filterMap_collected_rowsFrom (lid : Lid) (id index : ℕ) (xs : List Item) :
    (rowsFrom lid id index xs : List (ItemRow Lid ItemId Gap)).filterMap collected =
      (xs.zipIdx index).map fun x => (IndexableItem.id x.1, x.2) := by
  rw [rowsFrom_eq_map, filterMap_map]
  exact congrFun filterMap_eq_map' _

/-- Sorting by index gives back the items in their order, whatever the order of the rows. -/
theorem insertionSort_collected {pairs : List (ItemId × ℕ)}
    (h : pairs.Perm (xs.zipIdx.map fun x => (IndexableItem.id x.1, x.2))) :
    pairs.insertionSort (fun a b => a.2 ≤ b.2) =
      xs.zipIdx.map fun x => (IndexableItem.id x.1, x.2) := by
  have : Std.Total fun a b : ItemId × ℕ => a.2 ≤ b.2 := ⟨fun a b => Nat.le_total a.2 b.2⟩
  have : IsTrans (ItemId × ℕ) fun a b => a.2 ≤ b.2 := ⟨fun _ _ _ => Nat.le_trans⟩
  have hsorted := pairwise_insertionSort (fun a b : ItemId × ℕ => a.2 ≤ b.2) pairs
  have hperm := perm_insertionSort (fun a b : ItemId × ℕ => a.2 ≤ b.2) pairs
  have hindexed : (xs.zipIdx.map fun x => ((IndexableItem.id x.1 : ItemId), x.2)).Pairwise
      fun a b => a.2 ≤ b.2 := by
    have hrange : (xs.zipIdx.map Prod.snd).Pairwise (· < ·) := by
      rw [zipIdx_map_snd]
      exact pairwise_lt_range'
    rw [pairwise_map] at hrange ⊢
    exact hrange.imp Nat.le_of_lt
  refine List.Perm.eq_of_pairwise ?_ hsorted hindexed (hperm.trans h)
  intro a b ha hb hab hba
  have ha' := (hperm.trans h).mem_iff.mp ha
  obtain ⟨⟨x, i⟩, hx, rfl⟩ := mem_map.mp ha'
  obtain ⟨⟨y, j⟩, hy, rfl⟩ := mem_map.mp hb
  obtain rfl : i = j := by omega
  rw [mem_zipIdx_iff_getElem?] at hx hy
  obtain rfl : x = y := Option.some.inj (hx.symm.trans hy)
  rfl

end Rows

section Loads

variable [IndexableItem Item ItemId] [DecidableEq Lid] [DecidableEq ItemId]
  {store : RelationalLinkedChunk Lid ItemId Item Gap} {lid : Lid} {chain l r : Chain Item Gap}
  {id : ℕ} {content : ChunkContent Item Gap}

/-- The items of a chunk are found from their identifiers. -/
theorem filterMap_lookup {items : List Item} (h : Holds store lid (l ++ (id, .items items) :: r)) :
    (items.zipIdx.map fun x => ((IndexableItem.id x.1 : ItemId), x.2)).filterMap
      (fun a => (store.lookup lid a.1).map Prod.fst) = items := by
  rw [filterMap_map]
  refine Eq.trans (filterMap_congr fun x hx => ?_)
    ((congrFun filterMap_eq_map' _).trans (zipIdx_map_fst 0 items))
  have hat : itemAt (l ++ (id, .items items) :: r) ⟨id, x.2⟩ = some x.1 := by
    rw [itemAt_split h.notMem, if_pos rfl, contentItems_items]
    exact mem_zipIdx_iff_getElem?.mp hx
  simp [(h.contents _ _ _).mpr ⟨hat, rfl⟩]

theorem chunkRows_perm (h : Holds store lid chain) :
    (store.chunkRows lid).Perm (rowsOf lid none chain none) := by
  have hall : store.chunkRows lid = store.chunks :=
    filter_eq_self.mpr fun row hrow => by simp [(mem_rowsOf_chunk (h.chunks.mem_iff.mp hrow)).1]
  rw [hall]
  exact h.chunks

theorem loadLastChunk_nil (h : Holds store lid ([] : Chain Item Gap)) :
    store.loadLastChunk lid = .ok (none, LinkedChunk.firstIdentifier) := by
  have hrows : store.chunkRows lid = [] := perm_nil.mp (chunkRows_perm h)
  unfold loadLastChunk
  simp [hrows]

variable {n : ℕ}

section

variable (h : Holds store lid (l ++ (id, content) :: r))
include h

theorem rowsOfChunk_perm : (store.rowsOfChunk lid id).Perm (contentRows lid id content) := by
  refine (h.rows.filter _).trans ?_
  have hother : ∀ c : Chain Item Gap, id ∉ identifiers c →
      (itemRowsOf lid c).filter (fun row : ItemRow Lid ItemId Gap =>
        decide (row.linkedChunkId = lid) && decide (row.position.chunkIdentifier = id)) = [] := by
    intro c hc
    refine filter_eq_nil_iff.mpr fun row hrow => ?_
    have hne : row.position.chunkIdentifier ≠ id := by
      rintro rfl
      exact hc (mem_itemRowsOf hrow).2
    simp [hne]
  have hown : (contentRows lid id content).filter (fun row : ItemRow Lid ItemId Gap =>
      decide (row.linkedChunkId = lid) && decide (row.position.chunkIdentifier = id)) =
      contentRows lid id content :=
    filter_eq_self.mpr fun row hrow => by simp [mem_contentRows hrow]
  rw [itemRowsOf_append, itemRowsOf_cons, filter_append, filter_append,
    hother l h.notMem, hother r h.notMem_right, hown, nil_append, append_nil]

/-- A chunk is read back with its content, and with the links of its row. -/
theorem loadRawChunk_eq (previous next : Option ℕ) :
    store.loadRawChunk ⟨lid, previous, id, next⟩ lid = .ok ⟨content, previous, id, next⟩ := by
  have hperm := rowsOfChunk_perm h
  unfold loadRawChunk
  cases content with
  | gap gap =>
    rw [contentRows, perm_singleton] at hperm
    simp [hperm]
  | items items =>
    simp [contentRows] at hperm
    have hitems : ∀ row ∈ store.rowsOfChunk lid id, (collected row).isSome :=
      fun row hrow => isSome_collected (hperm.mem_iff.mp hrow)
    have hcollect := collectItems_eq id hitems
    have hsort := insertionSort_collected (filterMap_collected_rowsFrom lid id 0 items ▸
      hperm.filterMap collected)
    cases hrows : store.rowsOfChunk lid id with
    | nil =>
      rw [hrows, nil_perm] at hperm
      cases items with
      | nil => rfl
      | cons item items => cases hperm
    | cons first rest =>
      rw [hrows] at hitems hcollect hsort
      have hfirst := hitems first mem_cons_self
      cases hitem : first.item with
      | gap gap => simp [collected, hitem] at hfirst
      | item k => simp only [hitem, hcollect, Except.map, hsort, filterMap_lookup h]

/-- The chunk before a given one is read back. -/
theorem loadPreviousChunk_eq (hn : headIdentifier r = some n) :
    store.loadPreviousChunk lid n = .ok (some ⟨content, lastIdentifier none l, id, some n⟩) := by
  have hperm := chunkRows_perm h
  rw [rowsOf_cut, headIdentifier_cons] at hperm
  simp only [rowsOf, hn, Option.some_or] at hperm
  have hdistinct := h.distinct
  simp only [identifiers_append, identifiers_cons, nodup_append, nodup_cons] at hdistinct
  obtain ⟨-, ⟨hid, hr⟩, hdisjoint⟩ := hdistinct
  have hmem : n ∈ identifiers r := by
    cases r with
    | nil => cases hn
    | cons chunk r =>
      cases hn
      simp [identifiers]
  have hother : ∀ row ∈ rowsOf lid none l (some id) ++ rowsOf lid (some id) r none,
      decide (row.nextChunk = some n) = false := by
    intro row hrow
    rw [decide_eq_false_iff_not]
    intro heq
    rcases mem_append.mp hrow with hrow | hrow
    · rcases mem_rowsOf_next hrow with hnext | ⟨k, hk, hnext⟩
      · obtain rfl := Option.some.inj (hnext.symm.trans heq)
        exact hid hmem
      · obtain rfl := Option.some.inj (hnext.symm.trans heq)
        exact hdisjoint k (mem_of_mem_tail hk) k (mem_cons_of_mem _ hmem) rfl
    · exact nextChunk_ne_head hr hn hrow heq
  have hfind := find?_of_perm (p := fun row => decide (row.nextChunk = some n)) hperm
    (by simp) hother
  unfold loadPreviousChunk
  simp only [hfind, loadRawChunk_eq h, Except.map]

end

/-- What is loaded for every row is loaded for the chain. -/
theorem mapM_rowsOf {α : Type} {load : ChunkRow Lid → Except String α}
    {view : RawChunk Item Gap → α} (hload : ∀ {l id content r} previous next,
      Holds store lid (l ++ (id, content) :: r) →
        load ⟨lid, previous, id, next⟩ = .ok (view ⟨content, previous, id, next⟩))
    (h : Holds store lid (l ++ r)) : (rowsOf lid (lastIdentifier none l) r none).mapM load =
      .ok ((rawsOf (lastIdentifier none l) r none).map view) := by
  induction r generalizing l with
  | nil => rfl
  | cons chunk r ih =>
    obtain ⟨id, content⟩ := chunk
    have htail := ih (l := l ++ [(id, content)]) (by simpa using h)
    rw [lastIdentifier_append, lastIdentifier_singleton] at htail
    rw [rowsOf, rawsOf, mapM_cons_eq_ok]
    exact ⟨_, _, hload _ _ h, htail, rfl⟩

/-- All the chunks are read back, with their links. -/
theorem loadAllChunks_eq (h : Holds store lid chain) :
    ∃ raws, store.loadAllChunks lid = .ok raws ∧ raws.Perm (rawsOf none chain none) := by
  rw [← map_id (rawsOf none chain none)]
  exact mapM_of_perm (chunkRows_perm h)
    (mapM_rowsOf (l := []) (fun previous next h => loadRawChunk_eq h previous next) h)

/-- The last chunk is read back, with a counter that is below no identifier. -/
theorem loadLastChunk_eq (h : Holds store lid (l ++ [(id, content)])) :
    ∃ generator, store.loadLastChunk lid =
        .ok (some ⟨content, lastIdentifier none l, id, none⟩, generator) ∧
      ∀ k ∈ identifiers (l ++ [(id, content)]), k ≤ generator := by
  have hperm := chunkRows_perm h
  have hids := hperm.map ChunkRow.chunk
  rw [map_chunk_rowsOf] at hids
  rw [rowsOf_cut, headIdentifier_cons] at hperm
  simp only [rowsOf, headIdentifier_nil, Option.none_or] at hperm
  have hother : ∀ row ∈ rowsOf lid none l (some id) ++ [], row.nextChunk.isNone = false := by
    intro row hrow
    rw [append_nil] at hrow
    rcases mem_rowsOf_next hrow with hnext | ⟨k, -, hnext⟩ <;> simp [hnext]
  have hfind := find?_of_perm (p := fun row => row.nextChunk.isNone) hperm rfl hother
  refine ⟨((store.chunkRows lid).map ChunkRow.chunk).max?.getD LinkedChunk.firstIdentifier, ?_,
    fun k hk => ?_⟩
  · unfold loadLastChunk
    simp [hfind, loadRawChunk_eq h, Except.map]
  · exact le_max?_getD_of_mem (hids.mem_iff.mpr hk)

/-- There is no chunk before the first one. -/
theorem loadPreviousChunk_none (h : Holds store lid chain) (hn : headIdentifier chain = some n) :
    store.loadPreviousChunk lid n = .ok none := by
  have hnone : (store.chunkRows lid).find? (fun row => decide (row.nextChunk = some n)) = none := by
    rw [find?_eq_none]
    intro row hrow
    rw [decide_eq_true_eq]
    exact nextChunk_ne_head h.distinct hn ((chunkRows_perm h).mem_iff.mp hrow)
  unfold loadPreviousChunk
  simp [hnone]

theorem loadPreviousChunk_nil (h : Holds store lid ([] : Chain Item Gap)) (n : ℕ) :
    store.loadPreviousChunk lid n = .ok none := by
  have hrows : store.chunkRows lid = [] := perm_nil.mp (chunkRows_perm h)
  unfold loadPreviousChunk
  rw [hrows]
  rfl

end Loads

end MatrixSdk.Relational

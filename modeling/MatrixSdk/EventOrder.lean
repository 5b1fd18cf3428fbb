import MatrixSdk.Rooms

/-!
The order of the events of a room. In every run the tracker knows the lengths of a chain that
its pending updates lead to the whole chain, whether or not its chunks are loaded; so once
nothing is pending it counts the events of the stored chain.
-/
namespace MatrixSdk.Rooms

open Updates Chunks Chains Traces Layouts LazyLoader Runs Relational VectorDiffs Room
open OrderTrackers EventLinkedChunks Persistence StoredMetadata LinkedChunk UpdatesInner
open EventLinkedChunk List Option OrderTracker

variable {Lid ItemId Item Gap : Type} {token : ℕ}

section Readers

variable {cap : ℕ} {lc lc' : LinkedChunk Item Gap} {base : Option ℕ} {chain : Chain Item Gap}
  {v t : ℕ} {q₀ q₁ q₂ us : List (Update Item Gap)}

/-- What the store and the reader `v` have not read yet. -/
structure Watched (lc : LinkedChunk Item Gap) (v : ℕ) (q₀ q₁ : List (Update Item Gap)) : Prop where
  log : ∃ inner, lc.updates = some inner ∧ inner.WellFormed ∧
    inner.pending mainReaderToken = some q₀ ∧ inner.pending v = some q₁
  vector_ne : v ≠ mainReaderToken

/-- What the store, the observers `v` and the order tracker `t` have not read yet. -/
structure Readers (lc : LinkedChunk Item Gap) (v t : ℕ) (q₀ q₁ q₂ : List (Update Item Gap)) :
    Prop where
  log : ∃ inner, lc.updates = some inner ∧ inner.WellFormed ∧
    inner.pending mainReaderToken = some q₀ ∧ inner.pending v = some q₁ ∧
    inner.pending t = some q₂
  vector_ne : v ≠ mainReaderToken
  tracker_ne : t ≠ mainReaderToken
  readers_ne : t ≠ v

section

variable (h : Readers lc v t q₀ q₁ q₂)
include h

theorem Readers.watched : Watched lc v q₀ q₁ := by
  obtain ⟨inner, hlog, hwf, hmain, hvector, -⟩ := h.log
  exact ⟨⟨inner, hlog, hwf, hmain, hvector⟩, h.vector_ne⟩

theorem Readers.pending : pendingUpdates lc = some q₀ := by
  obtain ⟨inner, hlog, -, hmain, -⟩ := h.log
  unfold pendingUpdates
  rw [hlog, bind_some, hmain]

theorem Readers.append (hlog : lc'.updates = lc.updates.map (appendUpdates us)) :
    Readers lc' v t (q₀ ++ us) (q₁ ++ us) (q₂ ++ us) := by
  obtain ⟨inner, hinner, hwf, hmain, hvector, htracker⟩ := h.log
  have hpending := pending_appendUpdates hwf us
  refine ⟨⟨appendUpdates us inner, by rw [hlog, hinner, map_some],
    wellFormed_appendUpdates hwf us, ?_, ?_, ?_⟩, h.vector_ne, h.tracker_ne, h.readers_ne⟩
  · rw [hpending, hmain, map_some]
  · rw [hpending, hvector, map_some]
  · rw [hpending, htracker, map_some]

theorem Readers.reset (hlog : lc'.updates = lc.updates.map (resetUpdates us)) :
    Readers lc' v t us us us := by
  obtain ⟨inner, hinner, hwf, hmain, hvector, htracker⟩ := h.log
  have hpending := pending_resetUpdates hwf us
  refine ⟨⟨resetUpdates us inner, by rw [hlog, hinner, map_some],
    wellFormed_resetUpdates hwf us, ?_, ?_, ?_⟩, h.vector_ne, h.tracker_ne, h.readers_ne⟩
  · rw [hpending, hmain, map_some]
  · rw [hpending, hvector, map_some]
  · rw [hpending, htracker, map_some]

theorem Readers.takeMain : ∃ inner, takeUpdates lc = some (q₀, { lc with updates := some inner }) ∧
      Readers { lc with updates := some inner } v t [] q₁ q₂ := by
  obtain ⟨inner, hlog, hwf, hmain, hvector, htracker⟩ := h.log
  obtain ⟨inner', htake, hwf', -, hpending⟩ := hwf.takeWithToken _ _ hmain
  refine ⟨inner', ?_, ⟨inner', rfl, hwf', ?_, ?_, ?_⟩, h.vector_ne, h.tracker_ne, h.readers_ne⟩
  · unfold takeUpdates UpdatesInner.take
    simp [hlog, htake]
  · rw [hpending, if_pos rfl]
  · rw [hpending, if_neg h.vector_ne, hvector]
  · rw [hpending, if_neg h.tracker_ne, htracker]

theorem Readers.takeTracker :
    ∃ inner inner', lc.updates = some inner ∧ inner.takeWithToken t = some (q₂, inner') ∧
      Readers { lc with updates := some inner' } v t q₀ q₁ [] := by
  obtain ⟨inner, hlog, hwf, hmain, hvector, htracker⟩ := h.log
  obtain ⟨inner', htake, hwf', -, hpending⟩ := hwf.takeWithToken _ _ htracker
  refine ⟨inner, inner', hlog, htake, ⟨inner', rfl, hwf', ?_, ?_, ?_⟩, h.vector_ne, h.tracker_ne,
    h.readers_ne⟩
  · rw [hpending, if_neg h.tracker_ne.symm, hmain]
  · rw [hpending, if_neg h.readers_ne.symm, hvector]
  · rw [hpending, if_pos rfl]

end

theorem newToken_ne {inner : UpdatesInner (Update Item Gap)} (hwf : inner.WellFormed)
    {queue : List (Update Item Gap)} (h : inner.pending token = some queue) :
    inner.lastToken + 1 ≠ token := by
  rintro rfl
  refine hwf.lastToken_succ_notMem ?_
  rw [← pending_isSome, h]
  rfl

theorem Watched.orderTracker_some (h : Watched lc v q₀ q₁) (metas : List ChunkMetadata) :
    ∃ t inner, orderTracker lc (some metas) =
        some (⟨t, fromMetadata metas⟩, { lc with updates := some inner }) ∧
      Readers { lc with updates := some inner } v t q₀ q₁ [] := by
  obtain ⟨inner, hlog, hwf, hmain, hvector⟩ := h.log
  obtain ⟨inner', hcreate, hwf', hpending⟩ := OrderTrackers.orderTracker_some hlog hwf metas
  have hmain_ne := newToken_ne hwf hmain
  have hvector_ne := newToken_ne hwf hvector
  refine ⟨_, inner', hcreate, ⟨inner', rfl, hwf', ?_, ?_, ?_⟩, h.vector_ne, hmain_ne, hvector_ne⟩
  · rw [hpending, if_neg hmain_ne.symm, hmain]
  · rw [hpending, if_neg hvector_ne.symm, hvector]
  · rw [hpending, if_pos rfl]

theorem Watched.orderTracker_none (h : Watched lc v q₀ q₁) (hrep : Represents cap lc base chain) :
    ∃ t lc', orderTracker lc none = some (⟨t, ⟨lengthsOf (started chain)⟩⟩, lc') ∧
      Represents cap lc' base (started chain) ∧
      Readers lc' v t (q₀ ++ startUpdates chain) (q₁ ++ startUpdates chain) [] := by
  obtain ⟨inner, hlog, hwf, hmain, hvector⟩ := h.log
  obtain ⟨inner', hcreate, hwf', hpending⟩ := OrderTrackers.orderTracker_none hrep hlog hwf
  obtain ⟨-, -, -, -, -, hmut⟩ := hrep.starts
  have hmain_ne := newToken_ne hwf hmain
  have hvector_ne := newToken_ne hwf hvector
  refine ⟨_, _, hcreate, represents_withUpdates hmut.represents _, ⟨inner', rfl, hwf', ?_, ?_, ?_⟩,
    h.vector_ne, hmain_ne, hvector_ne⟩
  · rw [hpending, if_neg hmain_ne.symm, hmain, map_some]
  · rw [hpending, if_neg hvector_ne.symm, hvector, map_some]
  · rw [hpending, if_pos rfl]

theorem asVector_watched {inner : UpdatesInner (Update Item Gap)}
    (hrep : Represents cap lc base chain)
    (hlog : lc.updates = some inner) (hwf : inner.WellFormed)
    (hmain : inner.pending mainReaderToken = some q₀) :
    ∃ v lc', asVector lc = some (⟨v, ⟨lengthsOf (started chain)⟩⟩, lc') ∧
      Represents cap lc' base (started chain) ∧
      lc'.chunkIdentifierGenerator = lc.chunkIdentifierGenerator ∧
      Watched lc' v (q₀ ++ startUpdates chain) [] := by
  obtain ⟨inner', hcreate, hwf', hpending⟩ := asVector_eq hrep hlog hwf
  obtain ⟨-, -, -, -, -, hmut⟩ := hrep.starts
  have hne := newToken_ne hwf hmain
  refine ⟨_, _, hcreate, represents_withUpdates hmut.represents _,
    start_chunkIdentifierGenerator lc, ⟨inner', rfl, hwf', ?_, ?_⟩, hne⟩
  · rw [hpending, if_neg hne.symm, hmain, map_some]
  · rw [hpending, if_pos rfl]

/-- A room that is opened: the metadata are those of all the chunks, loaded or not. -/
theorem withInitialLinkedChunk_some (hrep : Represents cap lc base chain) (hne : chain ≠ [])
    (hlog : lc.updates = some UpdatesInner.new) (metas : List ChunkMetadata) :
    ∃ v t lc', withInitialLinkedChunk (some lc) (some metas) =
        some ⟨lc', ⟨v, ⟨lengthsOf chain⟩⟩, ⟨t, fromMetadata metas⟩⟩ ∧
      Represents cap lc' base chain ∧
      lc'.chunkIdentifierGenerator = lc.chunkIdentifierGenerator ∧
      Readers lc' v t [] [] [] := by
  obtain ⟨v, lc', hvector, hrep', hgen, hwatched⟩ := asVector_watched hrep hlog
    wellFormed_new pending_new_main
  rw [started_of_ne_nil hne] at hvector hrep'
  have hnone : startUpdates chain = [] := by
    cases chain with
    | nil => exact absurd rfl hne
    | cons => rfl
  rw [hnone] at hwatched
  obtain ⟨t, inner, hcreate, hreaders⟩ := hwatched.orderTracker_some metas
  refine ⟨v, t, { lc' with updates := some inner }, ?_, represents_withUpdates hrep' _, hgen,
    hreaders⟩
  simp [withInitialLinkedChunk, hvector, hcreate]

end Readers

section Mirrors

variable {mapper : UpdateToVectorDiff} {queue us : List (Update Item Gap)}
  {chain chain' : Chain Item Gap}

/-- The mapper knows the lengths of a chain that `queue` leads to `chain`. -/
def Mirrors (mapper : UpdateToVectorDiff) (queue : List (Update Item Gap))
    (chain : Chain Item Gap) : Prop :=
  ∃ seen, mapper = ⟨lengthsOf seen⟩ ∧ (identifiers seen).Nodup ∧
    Trace AnyStep (.whole seen) queue (.whole chain)

theorem mirrors_refl (hdistinct : (identifiers chain).Nodup) :
    Mirrors ⟨lengthsOf chain⟩ [] chain :=
  ⟨chain, rfl, hdistinct, .nil _⟩

section

variable (h : Mirrors mapper queue chain)
include h

theorem Mirrors.append (hsteps : Trace AnyStep (.whole chain) us (.whole chain')) :
    Mirrors mapper (queue ++ us) chain' := by
  obtain ⟨seen, hmapper, hdistinct, hqueue⟩ := h
  exact ⟨seen, hmapper, hdistinct, hqueue.append hsteps⟩

theorem Mirrors.reset (hsteps : Trace AnyStep (.whole []) us (.whole chain')) :
    Mirrors mapper (.clear :: us) chain' := by
  obtain ⟨seen, hmapper, hdistinct, -⟩ := h
  exact ⟨seen, hmapper, hdistinct, .cons ⟨none, .clear seen⟩ hsteps⟩

/-- Mapping what is pending gives the lengths of the chain. -/
theorem Mirrors.map : ∃ diffs, mapper.map queue = some (diffs, ⟨lengthsOf chain⟩) := by
  obtain ⟨seen, rfl, hdistinct, hqueue⟩ := h
  obtain ⟨diffs, hmap, -⟩ := map_of_steps hqueue hdistinct
  exact ⟨diffs, hmap⟩

end

variable [IndexableItem Item ItemId]

theorem anySteps_of_storedSteps {φ φ' : Phase Item Gap} (h : Trace StoredStep φ us φ') :
    Trace AnyStep φ us φ' :=
  h.mono fun _ _ _ hstep => ⟨none, hstep.step⟩

theorem Lags.mirrors {unloaded seen : Chain Item Gap} (h : Lags unloaded chain queue seen) :
    Mirrors ⟨lengthsOf seen⟩ queue (unloaded ++ chain) :=
  ⟨seen, rfl, h.identifiers, anySteps_of_storedSteps h.stored⟩

end Mirrors

section Flush

variable {lc : LinkedChunk Item Gap} {tracker : OrderTracker} {v : ℕ}
  {q₀ q₁ q₂ : List (Update Item Gap)} {full : Chain Item Gap}

theorem flushUpdates_eq (hreaders : Readers lc v tracker.token q₀ q₁ q₂)
    (hmirrors : Mirrors tracker.mapper q₂ full) :
    ∃ inner, tracker.flushUpdates lc false =
        some (⟨tracker.token, ⟨lengthsOf full⟩⟩, { lc with updates := some inner }) ∧
      Readers { lc with updates := some inner } v tracker.token q₀ q₁ [] := by
  obtain ⟨inner, inner', hlog, htake, hreaders'⟩ := hreaders.takeTracker
  obtain ⟨diffs, hmap⟩ := hmirrors.map
  refine ⟨inner', ?_, hreaders'⟩
  simp [flushUpdates, hlog, htake, hmap]

theorem flushUpdates_inhibited (tracker : OrderTracker)
    (hreaders : Readers lc v tracker.token q₀ q₁ q₂) :
    ∃ inner, tracker.flushUpdates lc true = some (tracker, { lc with updates := some inner }) ∧
      Readers { lc with updates := some inner } v tracker.token q₀ q₁ [] := by
  obtain ⟨inner, inner', hlog, htake, hreaders'⟩ := hreaders.takeTracker
  refine ⟨inner', ?_, hreaders'⟩
  simp [flushUpdates, hlog, htake]

end Flush

section Reload

variable {cap : ℕ} {e : EventLinkedChunk Item Gap} {base : Option ℕ} {chain full : Chain Item Gap}
  {q₀ q₁ q₂ : List (Update Item Gap)} {raw : RawChunk Item Gap} {generator : ℕ}
  (hrep : Represents cap e.chunks base chain)
  (hreaders : Readers e.chunks e.chunksUpdatesAsVectordiffs.token e.orderTracker.token q₀ q₁ q₂)
  (hmirrors : Mirrors e.orderTracker.mapper q₂ full)

include hrep hreaders hmirrors

/-- The observers are told that the other chunks are gone; the store and the new tracker,
which starts from the metadata of all the chunks, are not. -/
theorem shrinkToLastReloadedChunk_some (hlast : IsLast cap raw)
    (hbound : raw.identifier ≤ generator)
    (metas : List ChunkMetadata) :
    ∃ t lc, e.shrinkToLastReloadedChunk cap (some raw) generator (some metas) =
        some (.ok (), ⟨lc, e.chunksUpdatesAsVectordiffs, ⟨t, fromMetadata metas⟩⟩) ∧
      Represents cap lc raw.previous [(raw.identifier, raw.content)] ∧
      lc.chunkIdentifierGenerator = generator ∧
      Readers lc e.chunksUpdatesAsVectordiffs.token t []
        (.clear :: firstChunkUpdates raw.previous raw.identifier none raw.content) [] := by
  obtain ⟨inner₁, hflush, hreaders₁⟩ := flushUpdates_eq hreaders hmirrors
  obtain ⟨lc, hreplace, hrep', hgen, hlog⟩ :=
    replaceWith_ok (represents_withUpdates hrep (some inner₁)) hlast hbound
  obtain ⟨inner₂, htake, hreaders₂⟩ := (hreaders₁.reset hlog).takeMain
  obtain ⟨t, inner₃, hcreate, hreaders₃⟩ := hreaders₂.watched.orderTracker_some metas
  obtain ⟨inner₄, hinhibit, hreaders₄⟩ :=
    flushUpdates_inhibited ⟨t, fromMetadata metas⟩ hreaders₃
  refine ⟨t, { lc with updates := some inner₄ }, ?_, represents_withUpdates hrep' _, hgen,
    hreaders₄⟩
  simp [shrinkToLastReloadedChunk, inhibitUpdatesToOrderingTracker, flushOrderTracker, hflush,
    hreplace, htake, hcreate, hinhibit]

/-- Nothing is stored, so the first chunk is created again. -/
theorem shrinkToLastReloadedChunk_none (generator : ℕ) :
    ∃ t lc, e.shrinkToLastReloadedChunk cap none generator none =
        some (.ok (), ⟨lc, e.chunksUpdatesAsVectordiffs,
          ⟨t, ⟨lengthsOf (started ([] : Chain Item Gap))⟩⟩⟩) ∧
      Represents cap lc none (started []) ∧
      Readers lc e.chunksUpdatesAsVectordiffs.token t (startUpdates [])
        (.clear :: startUpdates []) [] := by
  obtain ⟨inner₁, hflush, hreaders₁⟩ := flushUpdates_eq hreaders hmirrors
  obtain ⟨lc, hreplace, hrep', -, hlog⟩ :=
    replaceWith_none (represents_withUpdates hrep (some inner₁)) generator
  obtain ⟨inner₂, htake, hreaders₂⟩ := (hreaders₁.reset hlog).takeMain
  have hrep₂ := represents_withUpdates hrep' (some inner₂)
  obtain ⟨t, lc₃, hcreate, hrep₃, hreaders₃⟩ := hreaders₂.watched.orderTracker_none hrep₂
  obtain ⟨inner₄, hinhibit, hreaders₄⟩ := flushUpdates_inhibited
    ⟨t, ⟨lengthsOf (started ([] : Chain Item Gap))⟩⟩ hreaders₃
  refine ⟨t, { lc₃ with updates := some inner₄ }, ?_, represents_withUpdates hrep₃ _, hreaders₄⟩
  simp [shrinkToLastReloadedChunk, inhibitUpdatesToOrderingTracker, flushOrderTracker, hflush,
    hreplace, htake, hcreate, hinhibit]

end Reload

/-- The positions of a chain hold its items, in order. -/
theorem map_itemAt_positionsOf {chain : Chain Item Gap} (hdistinct : (identifiers chain).Nodup) :
    (positionsOf chain).map (itemAt chain) = (itemsOf chain).map some := by
  induction chain with
  | nil => rfl
  | cons chunk chain ih =>
    obtain ⟨id, content⟩ := chunk
    rw [identifiers_cons, nodup_cons] at hdistinct
    rw [positionsOf_cons, itemsOf_cons, map_append, map_append]
    congr 1
    · apply ext_getElem?
      intro index
      by_cases hindex : index < content.numItems
      · have hlength : index < (contentItems content).length := by
          rwa [← numItems_eq]
        simp [itemAt, hindex, hlength]
      · have hlength : (contentItems content).length ≤ index := by
          rw [← numItems_eq]
          omega
        simp [hindex, hlength]
    · rw [← ih hdistinct.2]
      apply map_congr_left
      intro position hposition
      rw [itemAt, if_neg]
      intro hid
      rw [← hid] at hdistinct
      exact hdistinct.1 (mem_positionsOf hposition)

section Runs

variable [IndexableItem Item ItemId] [DecidableEq Lid] [DecidableEq ItemId] {cap : ℕ} {lid : Lid}
  {s s' : Room Lid ItemId Item Gap} {chain chain' stored tracked : Chain Item Gap}
  {q₀ q₁ q₂ us : List (Update Item Gap)}

/-- The store holds `stored` and the tracker knows the lengths of `tracked`; both lag behind
the whole chain by what they have not read. -/
structure Tracked (cap : ℕ) (lid : Lid) (s : Room Lid ItemId Item Gap)
    (chain stored tracked : Chain Item Gap) (q₀ q₁ q₂ : List (Update Item Gap)) : Prop where
  loaded : Loaded cap s.linkedChunk.chunks s.unloaded chain
  distinct : DistinctIds (itemsOf (s.unloaded ++ chain))
  readers : Readers s.linkedChunk.chunks s.linkedChunk.chunksUpdatesAsVectordiffs.token
    s.linkedChunk.orderTracker.token q₀ q₁ q₂
  vector : Mirrors s.linkedChunk.chunksUpdatesAsVectordiffs.mapper q₁ chain
  holds : Holds s.store lid stored
  stored : Lags s.unloaded chain q₀ stored
  tracker : s.linkedChunk.orderTracker.mapper = ⟨lengthsOf tracked⟩
  tracked : Lags s.unloaded chain q₂ tracked

/-- Some chain and some queues are as above. -/
def Follows (cap : ℕ) (lid : Lid) (s : Room Lid ItemId Item Gap) : Prop :=
  ∃ chain stored tracked q₀ q₁ q₂, Tracked cap lid s chain stored tracked q₀ q₁ q₂

variable {lc : LinkedChunk Item Gap} {t : ℕ}

section Steps

variable (h : Tracked cap lid s chain stored tracked q₀ q₁ q₂)
include h

/-- Updates of the loaded chunks are for everybody to read. -/
theorem Tracked.mutates
    (hmut : Mutates cap (lastIdentifier none s.unloaded) s.linkedChunk.chunks chain us lc chain')
    (hsteps : Trace (LoadedStep s.unloaded) (.whole chain) us (.whole chain'))
    (hdistinct : DistinctIds (itemsOf (s.unloaded ++ chain'))) :
    Tracked cap lid { s with linkedChunk := { s.linkedChunk with chunks := lc } } chain' stored
      tracked (q₀ ++ us) (q₁ ++ us) (q₂ ++ us) where
  loaded := h.loaded.mutates hmut
  distinct := hdistinct
  readers := h.readers.append hmut.log
  vector := h.vector.append (anySteps_of_steps hmut.steps)
  holds := h.holds
  stored := h.stored.append hsteps
  tracker := h.tracker
  tracked := h.tracked.append hsteps

theorem Tracked.start :
    Tracked cap lid { s with linkedChunk :=
        { s.linkedChunk with chunks := Layouts.start s.linkedChunk.chunks } } (started chain) stored
      tracked (q₀ ++ startUpdates chain) (q₁ ++ startUpdates chain) (q₂ ++ startUpdates chain) := by
  obtain ⟨-, -, -, -, -, hmut⟩ := h.loaded.represents.starts
  obtain ⟨hsteps, hdistinct⟩ := h.loaded.startSteps h.distinct
  exact h.mutates hmut hsteps hdistinct

theorem Tracked.mutate (hcap : 0 < cap) (m : Mutation Item Gap) (hallowed : Allowed s (.mutate m)) :
    ∃ s', s.step cap lid (.mutate m) = some s' ∧
      (DistinctIds s'.allEvents → Follows cap lid s') := by
  obtain ⟨result, lc, hmutate, hmutated⟩ := mutate_spec hcap h.loaded.represents m
  refine ⟨{ s with linkedChunk := { s.linkedChunk with chunks := lc } },
    by simp [Room.step, hmutate], fun hdistinct => ?_⟩
  have hkeeps : ∀ position item old, m = .replaceItemAt position item →
      itemAt chain position = some old →
        (IndexableItem.id old : ItemId) = IndexableItem.id item := by
    intro position item old hm hat
    subst hm
    rw [← loadedChain_eq h.loaded.represents] at hat
    exact hallowed old hat
  cases hmutated with
  | failed e => exact ⟨_, _, _, _, _, _, h.start⟩
  | done hmut htame =>
    have hloaded := h.loaded.mutates hmut
    rw [allEvents, hloaded.items_eq] at hdistinct
    have hsteps := h.loaded.loadedSteps h.distinct hmut htame hdistinct hkeeps
    exact ⟨_, _, _, _, _, _, h.mutates hmut hsteps hdistinct⟩

theorem Tracked.reset :
    ∃ s', s.step cap lid .reset = some s' ∧ Follows cap lid s' := by
  obtain ⟨lc, hclear, hrep, -, hlog⟩ := clear_eq h.loaded.represents
  refine ⟨⟨{ s.linkedChunk with chunks := lc }, s.store, []⟩,
    by simp [Room.step, EventLinkedChunk.reset, hclear], [], stored, tracked, [.clear], [.clear],
    [.clear], ?_⟩
  exact {
    loaded := ⟨hrep, fun _ => rfl, by simp, by simp, by simp⟩
    distinct := nodup_nil
    readers := h.readers.reset hlog
    vector := h.vector.reset (.nil _)
    holds := h.holds
    stored := h.stored.clear
    tracker := h.tracker
    tracked := h.tracked.clear }

/-- The store catches up. -/
theorem Tracked.propagateChanges :
    ∃ s', s.step cap lid .propagateChanges = some s' ∧ s'.unloaded = s.unloaded ∧
      Tracked cap lid s' chain (s.unloaded ++ chain) tracked [] q₁ q₂ := by
  obtain ⟨inner, htake, hreaders⟩ := h.readers.takeMain
  obtain ⟨store, happly, hholds⟩ := applyUpdates_steps h.holds h.stored.stored
  refine ⟨⟨{ s.linkedChunk with chunks := { s.linkedChunk.chunks with updates := some inner } },
    store, s.unloaded⟩, ?_, rfl, ?_⟩
  · simp [Room.step, takeStoreUpdates, sendUpdatesToStore, htake, happly]
  · exact {
      loaded := h.loaded.withUpdates _
      distinct := h.distinct
      readers := hreaders
      vector := h.vector
      holds := hholds
      stored := lags_refl h.loaded.distinct h.distinct
      tracker := h.tracker
      tracked := h.tracked }

theorem Tracked.chain_distinct :
    (identifiers chain).Nodup := by
  have hdistinct := h.loaded.distinct
  rw [identifiers_append] at hdistinct
  exact (nodup_append.mp hdistinct).2.1

/-- The tracker catches up, and so do the observers. -/
theorem Tracked.updatesAsVectorDiffs :
    ∃ s', s.step cap lid .updatesAsVectorDiffs = some s' ∧ s'.unloaded = s.unloaded ∧
      Tracked cap lid s' chain stored (s.unloaded ++ chain) q₀ [] [] := by
  have hreaders := h.readers
  obtain ⟨inner, hlog, hwf, hmain, hvector, htracker⟩ := hreaders.log
  obtain ⟨inner', htake, hwf', -, hpending⟩ := hwf.takeWithToken _ _ hvector
  replace hreaders : Readers { s.linkedChunk.chunks with updates := some inner' } _ _ q₀ [] q₂ :=
    ⟨⟨inner', rfl, hwf', by rw [hpending, if_neg hreaders.vector_ne.symm, hmain],
      by rw [hpending, if_pos rfl], by rw [hpending, if_neg hreaders.readers_ne, htracker]⟩,
      hreaders.vector_ne, hreaders.tracker_ne, hreaders.readers_ne⟩
  obtain ⟨diffs, hmap⟩ := h.vector.map
  have hmirrors := h.tracked.mirrors
  rw [← h.tracker] at hmirrors
  obtain ⟨inner'', hflush, hreaders'⟩ := flushUpdates_eq hreaders hmirrors
  refine ⟨⟨⟨{ s.linkedChunk.chunks with updates := some inner'' },
    ⟨s.linkedChunk.chunksUpdatesAsVectordiffs.token, ⟨lengthsOf chain⟩⟩,
    ⟨s.linkedChunk.orderTracker.token, ⟨lengthsOf (s.unloaded ++ chain)⟩⟩⟩, s.store, s.unloaded⟩,
    ?_, rfl, ?_⟩
  · simp [Room.step, EventLinkedChunk.updatesAsVectorDiffs, AsVector.take, hlog, htake, hmap,
      hflush]
  · exact {
      loaded := h.loaded.withUpdates _
      distinct := h.distinct
      readers := hreaders'
      vector := mirrors_refl h.chain_distinct
      holds := h.holds
      stored := h.stored
      tracker := rfl
      tracked := lags_refl h.loaded.distinct h.distinct }

/-- The store and the tracker are told of an update of an unloaded chunk. -/
theorem Tracked.applyStoreOnlyUpdates (hallowed : Allowed s (.applyStoreOnlyUpdates us)) :
    ∃ s', s.step cap lid (.applyStoreOnlyUpdates us) = some s' ∧
      (DistinctIds s'.allEvents → Follows cap lid s') := by
  obtain ⟨unloaded, honly⟩ := isSome_iff_exists.mp hallowed
  obtain ⟨stored', hstored, hlags⟩ := h.stored.storeOnlyUpdates honly
  obtain ⟨tracked', htracked, hlags'⟩ := h.tracked.storeOnlyUpdates honly
  obtain ⟨store, happly, hholds⟩ := applyUpdates_steps h.holds hstored
  obtain ⟨diffs, hmap, -⟩ := map_of_steps (anySteps_of_storedSteps htracked) h.tracked.identifiers
  rw [← h.tracker] at hmap
  have hloaded := loaded_storeOnlyUpdates honly h.loaded
  refine ⟨⟨{ s.linkedChunk with
    orderTracker := ⟨s.linkedChunk.orderTracker.token, ⟨lengthsOf tracked'⟩⟩ }, store, unloaded⟩,
    ?_, fun hdistinct => ?_⟩
  · simp [Room.step, OrderTracker.mapUpdates, sendUpdatesToStore, hmap, happly, honly]
  · rw [allEvents, hloaded.items_eq] at hdistinct
    exact ⟨chain, stored', tracked', q₀, q₁, q₂, {
      loaded := hloaded
      distinct := hdistinct
      readers := h.readers
      vector := h.vector
      holds := hholds
      stored := hlags
      tracker := rfl
      tracked := hlags' }⟩

end Steps

theorem fromMetadata_metadataOf (previous next : Option ℕ) (chain : Chain Item Gap) :
    fromMetadata (metadataOf previous chain next) = ⟨lengthsOf chain⟩ := by
  induction chain generalizing previous with
  | nil => rfl
  | cons chunk chain ih =>
    have htail : (metadataOf (some chunk.1) chain next).map
        (fun chunk => (chunk.identifier, chunk.numItems)) = lengthsOf chain :=
      congrArg UpdateToVectorDiff.chunks (ih (some chunk.1))
    obtain ⟨id, content⟩ := chunk
    simp [fromMetadata, metadataOf_cons, htail]

/-- What is stored is the whole chain, or nothing at all. -/
theorem Tracked.settled (h : Tracked cap lid s chain stored tracked q₀ q₁ q₂)
    (hsettled : Settled s.linkedChunk.chunks) :
    s.allButLast = stored.dropLast ∧ (∀ chunk ∈ stored, chunk.2.numItems ≤ cap) ∧
      (stored = s.unloaded ++ chain ∧ q₀ = [] ∨ stored = [] ∧ chain ≠ []) := by
  have hlags := h.stored
  unfold Room.allButLast
  rw [loadedChain_eq h.loaded.represents]
  rcases hsettled with hpending | hpending
  · obtain rfl : q₀ = [] := Option.some.inj (h.readers.pending.symm.trans hpending)
    obtain rfl := hlags.eq_of_nil
    exact ⟨rfl, h.loaded.numItems_le, .inl ⟨rfl, rfl⟩⟩
  · obtain rfl := Option.some.inj (h.readers.pending.symm.trans hpending)
    -- only the first chunk of an empty chain is still to be stored
    rcases hlags.behind with ⟨past, rfl, hpast⟩ | ⟨-, us, hqueue, -⟩
    · cases hpast with
      | cons head tail =>
        cases tail
        obtain ⟨hbase, rfl, chunk, hchain⟩ := eq_nil_of_newItemsChunk head.step
        obtain rfl := Phase.whole.inj hchain
        rw [(eq_nil_of_lastIdentifier hbase).2]
        exact ⟨rfl, by simp, .inr ⟨rfl, by simp⟩⟩
    · cases hqueue

variable (store : RelationalLinkedChunk Lid ItemId Item Gap)

/-- The last of the stored chunks is in memory. -/
theorem follows_last {v : AsVector} {l : Chain Item Gap} {id : ℕ}
    {content : ChunkContent Item Gap} (hholds : Holds store lid (l ++ [(id, content)]))
    (hitems : DistinctIds (itemsOf (l ++ [(id, content)])))
    (hcapacity : ∀ chunk ∈ l ++ [(id, content)], chunk.2.numItems ≤ cap)
    (hbound : ∀ k ∈ identifiers (l ++ [(id, content)]), k ≤ lc.chunkIdentifierGenerator)
    (hrep : Represents cap lc (lastIdentifier none l) [(id, content)])
    (hreaders : Readers lc v.token t [] q₁ []) (hvector : Mirrors v.mapper q₁ [(id, content)]) :
    Follows cap lid (⟨⟨lc, v, ⟨t, fromMetadata (metadataOf none (l ++ [(id, content)]) none)⟩⟩,
      store, l⟩ : Room Lid ItemId Item Gap) := by
  refine ⟨[(id, content)], l ++ [(id, content)], l ++ [(id, content)], [], q₁, [], ?_⟩
  exact {
    loaded := loaded_last hrep hbound hcapacity hholds.distinct
    distinct := hitems
    readers := hreaders
    vector := hvector
    holds := hholds
    stored := lags_refl hholds.distinct hitems
    tracker := fromMetadata_metadataOf none none _
    tracked := lags_refl hholds.distinct hitems }

/-- Nothing is stored, and the first chunk has just been created. -/
theorem follows_empty {v : AsVector} (hholds : Holds store lid ([] : Chain Item Gap))
    (hrep : Represents cap lc none (started []))
    (hreaders : Readers lc v.token t (startUpdates []) q₁ [])
    (hvector : Mirrors v.mapper q₁ (started [])) :
    Follows cap lid (⟨⟨lc, v, ⟨t, ⟨lengthsOf (started ([] : Chain Item Gap))⟩⟩⟩, store, []⟩ :
      Room Lid ItemId Item Gap) := by
  have hempty : Loaded cap (LinkedChunk.new : LinkedChunk Item Gap) [] [] :=
    ⟨represents_empty, fun _ => rfl, by simp, by simp, by simp⟩
  have hnil : DistinctIds (itemsOf ([] ++ [] : Chain Item Gap)) := nodup_nil
  obtain ⟨hsteps, hdistinct⟩ := hempty.startSteps hnil
  have hnodup : (identifiers (started ([] : Chain Item Gap))).Nodup := by simp [started]
  have hnone : Lags ([] : Chain Item Gap) [] [] [] := lags_refl nodup_nil hnil
  have hcurrent : Lags [] (started ([] : Chain Item Gap)) [] (started []) :=
    lags_refl hnodup hdistinct
  refine ⟨started [], [], started [], startUpdates [], q₁, [], ?_⟩
  exact {
    loaded := ⟨hrep, by simp [started], by simp, by simp, hnodup⟩
    distinct := hdistinct
    readers := hreaders
    vector := hvector
    holds := hholds
    stored := hnone.append hsteps
    tracker := rfl
    tracked := hcurrent }

section

variable (h : Tracked cap lid s chain stored tracked q₀ q₁ q₂)
  (hsettled : Settled s.linkedChunk.chunks)
include h hsettled

theorem Tracked.shrink : ∃ s', s.step cap lid .shrink = some s' ∧ Follows cap lid s' := by
  obtain ⟨hghost, hcapacity, -⟩ := h.settled hsettled
  have hmetadata := loadLinkedChunkMetadata_eq h.holds
  have hmirrors := h.tracked.mirrors
  rw [← h.tracker] at hmirrors
  rcases eq_nil_or_concat stored with rfl | ⟨l, ⟨id, content⟩, rfl⟩
  · rw [if_pos rfl] at hmetadata
    obtain ⟨t, lc, hshrink, hrep, hreaders⟩ := shrinkToLastReloadedChunk_none h.loaded.represents
      h.readers hmirrors firstIdentifier
    refine ⟨_, ?_, follows_empty s.store h.holds hrep hreaders
      (h.vector.reset (.single ⟨none, .newChunk [] [] firstIdentifier (.items []) rfl (by simp)⟩))⟩
    simp [Room.step, Room.shrink, hmetadata, loadLastChunk_nil h.holds, hshrink, hghost]
  · rw [concat_eq_append] at h hghost hcapacity hmetadata
    rw [if_neg (by simp)] at hmetadata
    obtain ⟨generator, hload, hbound⟩ := loadLastChunk_eq h.holds
    have hlast : IsLast cap (⟨content, lastIdentifier none l, id, none⟩ : RawChunk Item Gap) :=
      ⟨hcapacity (id, content) (by simp), rfl⟩
    obtain ⟨t, lc, hshrink, hrep, hgen, hreaders⟩ := shrinkToLastReloadedChunk_some
      h.loaded.represents h.readers hmirrors hlast (hbound id (by simp))
      (metadataOf none (l ++ [(id, content)]) none)
    refine ⟨_, ?_, follows_last s.store h.holds h.stored.items hcapacity (hgen ▸ hbound) hrep
      hreaders
      (h.vector.reset (anySteps_of_steps
        (steps_firstChunkUpdates (lastIdentifier none l) id content (by simp))))⟩
    simp [Room.step, Room.shrink, hmetadata, hload, hshrink, hghost]

theorem Tracked.loadPrevious :
    ∃ s', s.step cap lid .loadPrevious = some s' ∧ Follows cap lid s' := by
  obtain ⟨-, -, hstored⟩ := h.settled hsettled
  obtain ⟨p, b, xs, hlayout, hzs, -, hptr, -⟩ := h.loaded.represents.firstChunk
  have hread := hlayout.cells.read_head
  have hholds := h.holds
  -- nothing is before the first chunk, which may have just been created
  have hnone : s.store.loadPreviousChunk lid b.identifier = .ok none →
      ∃ s', s.step cap lid .loadPrevious = some s' ∧ Follows cap lid s' := by
    intro hload
    refine ⟨_, ?_, _, _, _, _, _, _, h.start⟩
    simp [Room.step, Room.loadPrevious, hptr, hread, hload]
  rcases hstored with ⟨rfl, rfl⟩ | ⟨rfl, -⟩
  swap
  · exact hnone (loadPreviousChunk_nil hholds b.identifier)
  by_cases hnil : chain = []
  · rw [hnil, h.loaded.nothing hnil] at hholds
    exact hnone (loadPreviousChunk_nil hholds b.identifier)
  rw [started_of_ne_nil hnil] at hzs
  have hhead : headIdentifier chain = some b.identifier := by
    rw [← hzs]
    rfl
  rcases eq_nil_or_concat s.unloaded with hunloaded | ⟨l, ⟨id, content⟩, hunloaded⟩
  · rw [hunloaded] at hholds
    exact hnone (loadPreviousChunk_none hholds hhead)
  rw [h.loaded.represents.start_eq hnil] at hptr hread
  rw [concat_eq_append] at hunloaded
  have hmirrors := h.tracked.mirrors
  rw [← h.tracker] at hmirrors
  have hloaded := h.loaded
  have hdistinct := h.distinct
  rw [hunloaded] at hloaded
  rw [hunloaded, append_assoc, singleton_append] at hholds hdistinct hmirrors
  have hload := loadPreviousChunk_eq hholds hhead
  obtain ⟨hconnects, hfresh⟩ := hloaded.connects hhead
  -- the store and the observers get the chunk in front; the tracker knew it already
  obtain ⟨inner₁, hflush, hreaders₁⟩ := flushUpdates_eq h.readers hmirrors
  obtain ⟨lc, hinsert, hrep, hgen, hlog⟩ := insertNewFirstChunk_ok
    (represents_withUpdates hloaded.represents (some inner₁)) hconnects hfresh
    (hloaded.bounded id (by simp))
  obtain ⟨inner₂, hinhibit, hreaders₂⟩ := flushUpdates_inhibited
    ⟨s.linkedChunk.orderTracker.token, ⟨lengthsOf (l ++ (id, content) :: chain)⟩⟩
    (hreaders₁.append hlog)
  obtain ⟨inner, htake, hreaders'⟩ := hreaders₂.takeMain
  refine ⟨⟨⟨{ lc with updates := some inner }, s.linkedChunk.chunksUpdatesAsVectordiffs,
    ⟨s.linkedChunk.orderTracker.token, ⟨lengthsOf (l ++ (id, content) :: chain)⟩⟩⟩, s.store, l⟩, ?_,
    (id, content) :: chain, l ++ (id, content) :: chain, l ++ (id, content) :: chain, [],
    q₁ ++ firstChunkUpdates (lastIdentifier none l) id (headIdentifier chain) content, [], ?_⟩
  · simp [Room.step, Room.loadPrevious, takeStoreUpdates, hptr, hread, hload, hunloaded,
      insertNewChunkAsFirst, inhibitUpdatesToOrderingTracker, flushOrderTracker, hflush, hinsert,
      hinhibit, htake, -lengthsOf_append]
  · have hloaded' := hloaded.linkFirst (represents_withUpdates hrep (some inner₂)) hgen
    exact {
      loaded := hloaded'.withUpdates _
      distinct := hdistinct
      readers := hreaders'
      vector := h.vector.append (anySteps_of_steps
        (steps_firstChunkUpdates (lastIdentifier none l) id content hfresh))
      holds := hholds
      stored := lags_refl hloaded'.distinct hdistinct
      tracker := rfl
      tracked := lags_refl hloaded'.distinct hdistinct }

end

/-- Opening a room whose store holds a chain. -/
theorem loadLinkedChunk_eq {store : RelationalLinkedChunk Lid ItemId Item Gap}
    (hholds : Holds store lid stored) (hitems : DistinctIds (itemsOf stored))
    (hcapacity : ∀ chunk ∈ stored, chunk.2.numItems ≤ cap) :
    ∃ e, Room.loadLinkedChunk cap lid store = some e ∧
      Follows cap lid (⟨e, store, stored.dropLast⟩ : Room Lid ItemId Item Gap) := by
  have hmetadata := loadLinkedChunkMetadata_eq hholds
  rcases eq_nil_or_concat stored with rfl | ⟨l, ⟨id, content⟩, rfl⟩
  · rw [if_pos rfl] at hmetadata
    have hempty : Represents cap (newWithUpdateHistory : LinkedChunk Item Gap) none [] :=
      represents_empty
    obtain ⟨v, lc₁, hvector, hrep₁, -, hwatched⟩ :=
      asVector_watched hempty rfl wellFormed_new pending_new_main
    obtain ⟨t, lc, hcreate, hrep, hreaders⟩ := hwatched.orderTracker_none hrep₁
    have hopen : withInitialLinkedChunk none none =
        some ⟨lc, ⟨v, ⟨lengthsOf (started ([] : Chain Item Gap))⟩⟩,
          ⟨t, ⟨lengthsOf (started ([] : Chain Item Gap))⟩⟩⟩ := by
      simp only [withInitialLinkedChunk, getD_none, hvector, hcreate, bind_eq_bind, bind_some]
      rfl
    have hnodup : (identifiers (started ([] : Chain Item Gap))).Nodup := by simp [started]
    refine ⟨⟨lc, ⟨v, ⟨lengthsOf (started [])⟩⟩, ⟨t, ⟨lengthsOf (started [])⟩⟩⟩, ?_,
      follows_empty store hholds hrep hreaders (mirrors_refl hnodup)⟩
    simp [loadLinkedChunk, hmetadata, loadLastChunk_nil hholds, fromLastChunk, hopen]
  · rw [concat_eq_append] at hholds hitems hcapacity hmetadata
    rw [if_neg (by simp)] at hmetadata
    obtain ⟨generator, hload, hbound⟩ := loadLastChunk_eq hholds
    have hlast : IsLast cap (⟨content, lastIdentifier none l, id, none⟩ : RawChunk Item Gap) :=
      ⟨hcapacity (id, content) (by simp), rfl⟩
    obtain ⟨lc, hfrom, hrep, hgen, hlog⟩ := represents_fromLastChunk hlast (hbound id (by simp))
    obtain ⟨v, t, lc', hopen, hrep', hgen', hreaders⟩ := withInitialLinkedChunk_some hrep (by simp)
      hlog (metadataOf none (l ++ [(id, content)]) none)
    refine ⟨⟨lc', ⟨v, ⟨lengthsOf [(id, content)]⟩⟩,
      ⟨t, fromMetadata (metadataOf none (l ++ [(id, content)]) none)⟩⟩, ?_, ?_⟩
    · simp only [loadLinkedChunk, hmetadata, hload, hfrom, hopen, bind_eq_bind, bind_some]
    · rw [concat_eq_append, dropLast_concat]
      exact follows_last store hholds hitems hcapacity (by rw [hgen', hgen]; exact hbound) hrep'
        hreaders (mirrors_refl (by simp))

theorem Tracked.reopen (h : Tracked cap lid s chain stored tracked q₀ q₁ q₂)
    (hsettled : Settled s.linkedChunk.chunks) :
    ∃ s', s.step cap lid .reopen = some s' ∧ Follows cap lid s' := by
  obtain ⟨hghost, hcapacity, -⟩ := h.settled hsettled
  obtain ⟨e, hload, hfollows⟩ := loadLinkedChunk_eq h.holds h.stored.items hcapacity
  exact ⟨⟨e, s.store, stored.dropLast⟩, by simp [Room.step, hload, hghost], hfollows⟩

theorem follows_new : ∃ s : Room Lid ItemId Item Gap, Room.new cap lid = some s ∧
    Follows cap lid s := by
  have hholds :
      Holds (RelationalLinkedChunk.new : RelationalLinkedChunk Lid ItemId Item Gap) lid [] :=
    holds_new lid
  have hcapacity : ∀ chunk ∈ ([] : Chain Item Gap), chunk.2.numItems ≤ cap := by simp
  obtain ⟨e, hload, hfollows⟩ := loadLinkedChunk_eq hholds nodup_nil hcapacity
  exact ⟨_, by simp [Room.new, hload], hfollows⟩

theorem step_spec (hcap : 0 < cap) (h : Follows cap lid s) (event : Event Item Gap)
    (hallowed : Allowed s event) :
    ∃ s', s.step cap lid event = some s' ∧ (DistinctIds s'.allEvents → Follows cap lid s') := by
  obtain ⟨chain, stored, tracked, q₀, q₁, q₂, h⟩ := h
  have hkept : (∃ s', s.step cap lid event = some s' ∧ Follows cap lid s') →
      ∃ s', s.step cap lid event = some s' ∧ (DistinctIds s'.allEvents → Follows cap lid s') := by
    intro hstep
    obtain ⟨s', hs, hfollows⟩ := hstep
    exact ⟨s', hs, fun _ => hfollows⟩
  cases event with
  | mutate m => exact h.mutate hcap m hallowed
  | reset => exact hkept h.reset
  | propagateChanges =>
    obtain ⟨s', hs, -, hnext⟩ := h.propagateChanges
    exact hkept ⟨s', hs, _, _, _, _, _, _, hnext⟩
  | updatesAsVectorDiffs =>
    obtain ⟨s', hs, -, hnext⟩ := h.updatesAsVectorDiffs
    exact hkept ⟨s', hs, _, _, _, _, _, _, hnext⟩
  | applyStoreOnlyUpdates updates => exact h.applyStoreOnlyUpdates hallowed
  | loadPrevious => exact hkept (h.loadPrevious hallowed)
  | shrink => exact hkept (h.shrink hallowed)
  | reopen => exact hkept (h.reopen hallowed)

/-- One allowed event, after which no two events of the room have the same identifier. -/
def Tracks (cap : ℕ) (lid : Lid) (s : Room Lid ItemId Item Gap) (event : Event Item Gap)
    (s' : Room Lid ItemId Item Gap) : Prop :=
  Allowed s event ∧ s.step cap lid event = some s' ∧ DistinctIds s'.allEvents

theorem Tracks.follows (hcap : 0 < cap) {s' : Room Lid ItemId Item Gap} {event : Event Item Gap}
    (h : Follows cap lid s) (htracks : Tracks cap lid s event s') : Follows cap lid s' := by
  obtain ⟨hallowed, hstep, hdistinct⟩ := htracks
  obtain ⟨t, ht, hnext⟩ := step_spec hcap h event hallowed
  rw [hstep] at ht
  cases ht
  exact hnext hdistinct

/-- The store and the order tracker have read every update. -/
def Flushed (s : Room Lid ItemId Item Gap) : Prop :=
  pendingUpdates s.linkedChunk.chunks = some [] ∧
    s.linkedChunk.chunks.updates.bind (·.pending s.linkedChunk.orderTracker.token) = some []

instance [DecidableEq Item] [DecidableEq Gap] (s : Room Lid ItemId Item Gap) :
    Decidable (Flushed s) :=
  inferInstanceAs (Decidable (_ ∧ _))

theorem Readers.flushed {v : ℕ} (h : Readers lc v t q₀ q₁ q₂) :
    lc.updates.bind (·.pending t) = some q₂ := by
  obtain ⟨inner, hlog, -, -, -, htracker⟩ := h.log
  rw [hlog, bind_some, htracker]

theorem Tracked.eventOrder_eq (h : Tracked cap lid s chain stored tracked q₀ q₁ [])
    (position : Position) :
    s.linkedChunk.eventOrder position =
      some ((positionsOf (s.unloaded ++ chain)).idxOf? position) := by
  obtain ⟨inner, hlog, hwf, -, -, htracker⟩ := h.readers.log
  have hmapper := h.tracker
  rw [h.tracked.eq_of_nil] at hmapper
  have hfind := findOrdering_eq h.loaded.distinct position 0
  simp only [Nat.zero_add, Option.map_id'] at hfind
  have huptodate : inner.isReaderUpToDate s.linkedChunk.orderTracker.token = some true := by
    obtain ⟨index, hlookup, hdrop⟩ := map_eq_some_iff.mp htracker
    have hle := hwf.index_le _ index hlookup
    rw [drop_eq_nil_iff] at hdrop
    simp only [isReaderUpToDate, hlookup, map_some, Option.some.injEq, beq_iff_eq]
    omega
  simp only [eventOrder, ordering, hlog, hmapper, hfind, huptodate, bind_eq_bind, bind_some,
    if_true]

/-- No event of a run fails and flushing succeeds. Once flushed, the order of an event is the
number of events before it in the stored chain, and no other position has an order. -/
theorem eventOrder_counts_the_events_before (hcap : 0 < cap) {s₀ : Room Lid ItemId Item Gap}
    {events : List (Event Item Gap)} (hnew : Room.new cap lid = some s₀)
    (hrun : Trace (Tracks cap lid) s₀ events s) :
    (∀ event, Allowed s event → ∃ s', s.step cap lid event = some s') ∧
    (∃ s₁ s₂, s.step cap lid .propagateChanges = some s₁ ∧
      s₁.step cap lid .updatesAsVectorDiffs = some s₂ ∧ Flushed s₂) ∧
    (Flushed s → ∃ chain stored, s.store.loadAllChunks lid = .ok stored ∧
      stored.Perm (rawsOf none chain none) ∧ (identifiers chain).Nodup ∧
      (positionsOf chain).map (itemAt chain) = (itemsOf chain).map some ∧
      ∀ position, s.linkedChunk.eventOrder position =
        some ((positionsOf chain).idxOf? position)) := by
  obtain ⟨s', hs', hfollows⟩ := (follows_new : ∃ s : Room Lid ItemId Item Gap,
    Room.new cap lid = some s ∧ Follows cap lid s)
  rw [hnew] at hs'
  cases hs'
  have hfollows' : Follows cap lid s :=
    hrun.preserves (fun _ _ _ h htracks => htracks.follows hcap h) hfollows
  obtain ⟨chain, stored, tracked, q₀, q₁, q₂, h⟩ := id hfollows'
  refine ⟨fun event hallowed => ?_, ?_, fun hflushed => ?_⟩
  · obtain ⟨s', hs, -⟩ := step_spec hcap hfollows' event hallowed
    exact ⟨s', hs⟩
  · obtain ⟨s₁, hs₁, -, h₁⟩ := h.propagateChanges
    obtain ⟨s₂, hs₂, -, h₂⟩ := h₁.updatesAsVectorDiffs
    exact ⟨s₁, s₂, hs₁, hs₂, h₂.readers.pending, h₂.readers.flushed⟩
  · obtain rfl : q₀ = [] := Option.some.inj (h.readers.pending.symm.trans hflushed.1)
    obtain rfl : q₂ = [] := Option.some.inj (h.readers.flushed.symm.trans hflushed.2)
    obtain rfl := h.stored.eq_of_nil
    obtain ⟨raws, hload, hperm⟩ := loadAllChunks_eq h.holds
    exact ⟨s.unloaded ++ chain, raws, hload, hperm, h.loaded.distinct,
      map_itemAt_positionsOf h.loaded.distinct, h.eventOrder_eq⟩

end Runs

/-- Two events fill two chunks; the first one is unloaded, replaced in the store only, and
loaded again. -/
theorem eventOrder_counts_two_events :
    ∃ s₀ s : Room Unit ℕ (ℕ × ℕ) ℕ, Room.new 1 () = some s₀ ∧
      Trace (Tracks 1 ()) s₀
        [.mutate (.pushItemsBack [(7, 0), (8, 0)]), .propagateChanges, .updatesAsVectorDiffs,
          .shrink,
          .applyStoreOnlyUpdates [.replaceItem ⟨0, 0⟩ (7, 1)], .loadPrevious] s ∧
      Flushed s ∧ s.linkedChunk.eventOrder ⟨1, 0⟩ = some (some 1) ∧
      (∀ event, Allowed s event → ∃ s', s.step 1 () event = some s') ∧
      (∃ s₁ s₂, s.step 1 () .propagateChanges = some s₁ ∧
        s₁.step 1 () .updatesAsVectorDiffs = some s₂ ∧ Flushed s₂) ∧
      (Flushed s → ∃ chain stored, s.store.loadAllChunks () = .ok stored ∧
        stored.Perm (rawsOf none chain none) ∧ (identifiers chain).Nodup ∧
        (positionsOf chain).map (itemAt chain) = (itemsOf chain).map some ∧
        ∀ position,
          s.linkedChunk.eventOrder position = some ((positionsOf chain).idxOf? position)) := by
  refine ⟨_, _, rfl, and_of_imp
    (.cons ⟨trivial, rfl, ?_⟩ <| .cons ⟨trivial, rfl, ?_⟩ <| .cons ⟨trivial, rfl, ?_⟩ <|
      .cons ⟨?_, rfl, ?_⟩ <| .cons ⟨?_, rfl, ?_⟩ <| .single ⟨?_, rfl, ?_⟩)
    fun hrun => ⟨?_, ?_, eventOrder_counts_the_events_before (by decide) rfl hrun⟩⟩
  all_goals first | decide | (unfold Allowed; decide)

end MatrixSdk.Rooms

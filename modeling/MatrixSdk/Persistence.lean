import MatrixSdk.Runs
import MatrixSdk.StoredLoads

/-!
A linked chunk and the store that follows it. The main reader takes the updates from the
log, and the store applies them later, in batches; chunks are unloaded from memory and
loaded again without the store noticing. Whenever nothing is pending the store holds the
chunks that are not in memory followed by those that are.
-/
namespace MatrixSdk.Persistence

open Updates Chunks Chains Traces Layouts LazyLoader Runs Relational UpdatesInner List
open Option RawChunk

variable {Lid ItemId Item Gap : Type}

/-- `backlog` was taken from the log and is still to be applied. `unloaded` is no part of
the program: it remembers which stored chunks are not in memory. -/
structure Session (Lid ItemId Item Gap : Type) where
  lc : LinkedChunk Item Gap
  store : RelationalLinkedChunk Lid ItemId Item Gap
  backlog : List (Update Item Gap)
  unloaded : Chain Item Gap

inductive Event (Item Gap : Type) where
  | mutate (mutation : Mutation Item Gap)
  | clear
  | take
  | apply (count : ℕ)
  | loadLast
  | loadPrevious

variable (lc : LinkedChunk Item Gap)

/-- The main reader takes its updates. -/
def takeUpdates :
    Option (List (Update Item Gap) × LinkedChunk Item Gap) := do
  let inner ← lc.updates
  let (updates, inner) ← inner.take
  some (updates, { lc with updates := some inner })

def pendingUpdates : Option (List (Update Item Gap)) :=
  lc.updates.bind fun inner => inner.pending mainReaderToken

def loadedChain : Chain Item Gap := chainOf ((chunks lc).getD [])

/-- A chunk in memory, with its links as identifiers. -/
def rawChunk (pointer : ℕ) : Option (RawChunk Item Gap) := do
  let chunk ← lc.heap.read pointer
  let previous ← lc.identifierAt chunk.previous
  let next ← lc.identifierAt chunk.next
  some ⟨chunk.value.content, previous.or chunk.value.lazyPrevious, chunk.value.identifier, next⟩

def rawChunks : Option (List (RawChunk Item Gap)) := do
  let cells ← chunks lc
  cells.mapM fun x => rawChunk lc x.1

namespace Session

variable [DecidableEq Lid] [DecidableEq ItemId] [IndexableItem Item ItemId]

def new : Session Lid ItemId Item Gap :=
  ⟨LinkedChunk.newWithUpdateHistory, RelationalLinkedChunk.new, [], []⟩

/-- Only the last stored chunk stays in memory. -/
def loadLast (cap : ℕ) (lid : Lid) (s : Session Lid ItemId Item Gap) :
    Option (Session Lid ItemId Item Gap) :=
  match s.store.loadLastChunk lid with
  | .error _ => none
  | .ok (raw, generator) => do
    match ← replaceWith cap s.lc raw generator with
    | (.error _, _) => none
    | (.ok (), lc) =>
      let (_, lc) ← takeUpdates lc
      some { s with lc := lc, unloaded := (s.unloaded ++ loadedChain s.lc).dropLast }

/-- The stored chunk before the first one in memory is loaded, if there is one. -/
def loadPrevious (cap : ℕ) (lid : Lid) (s : Session Lid ItemId Item Gap) :
    Option (Session Lid ItemId Item Gap) := do
  let (first, lc) := s.lc.firstChunkPtr
  let firstChunk ← lc.heap.read first
  match s.store.loadPreviousChunk lid firstChunk.value.identifier with
  | .error _ => none
  | .ok none => some { s with lc := lc }
  | .ok (some raw) =>
    match ← insertNewFirstChunk cap lc raw with
    | (.error _, _) => none
    | (.ok (), lc) =>
      let (_, lc) ← takeUpdates lc
      some { s with lc := lc, unloaded := s.unloaded.dropLast }

/-- `none` is a panic, or an error of the store or of the lazy loader. A mutation may fail. -/
def step (cap : ℕ) (lid : Lid) (s : Session Lid ItemId Item Gap) :
    Event Item Gap → Option (Session Lid ItemId Item Gap)
  | .mutate mutation => (Runs.mutate cap s.lc mutation).map fun r => { s with lc := r.2 }
  | .clear => s.lc.clear.map fun lc => { s with lc := lc, unloaded := [] }
  | .take => (takeUpdates s.lc).map fun (updates, lc) =>
    { s with lc := lc, backlog := s.backlog ++ updates }
  | .apply count => do
    match ← s.store.applyUpdates lid (s.backlog.take count) with
    | (.error _, _) => none
    | (.ok (), store) => some { s with store := store, backlog := s.backlog.drop count }
  | .loadLast => s.loadLast cap lid
  | .loadPrevious => s.loadPrevious cap lid

end Session

variable (s : Session Lid ItemId Item Gap)

def Flushed : Prop :=
  s.backlog = [] ∧ pendingUpdates s.lc = some []

instance [DecidableEq Item] [DecidableEq Gap] (s : Session Lid ItemId Item Gap) :
    Decidable (Flushed s) :=
  inferInstanceAs (Decidable (s.backlog = [] ∧ pendingUpdates s.lc = some []))

variable [IndexableItem Item ItemId]

/-- A replacement keeps the identifier of the item, and chunks are loaded when nothing is
pending. -/
def Allowed (s : Session Lid ItemId Item Gap) : Event Item Gap → Prop
  | .mutate (.replaceItemAt position item) => ∀ old, itemAt (loadedChain s.lc) position = some old →
    (IndexableItem.id old : ItemId) = IndexableItem.id item
  | .loadLast | .loadPrevious => Flushed s
  | _ => True

/-- The items of the stored chain, once everything is applied. -/
def Session.allItems : List Item :=
  itemsOf s.unloaded ++ items s.lc

section Loaded

variable {cap : ℕ} {lc lc' : LinkedChunk Item Gap} {base : Option ℕ}
  {unloaded chain chain' : Chain Item Gap} {us : List (Update Item Gap)}

theorem loadedChain_eq (h : Represents cap lc base chain) : loadedChain lc = chain := by
  obtain ⟨xs, hlayout, rfl, -⟩ := h
  unfold loadedChain
  rw [chunks_eq hlayout, getD_some]

/-- The chunks in memory are the end of a chain that starts with `unloaded`. -/
structure Loaded (cap : ℕ) (lc : LinkedChunk Item Gap) (unloaded chain : Chain Item Gap) :
    Prop where
  represents : Represents cap lc (lastIdentifier none unloaded) chain
  nothing : chain = [] → unloaded = []
  bounded : ∀ id ∈ identifiers unloaded, id ≤ lc.chunkIdentifierGenerator
  capacity : ∀ chunk ∈ unloaded, chunk.2.numItems ≤ cap
  distinct : (identifiers (unloaded ++ chain)).Nodup

theorem Loaded.withUpdates (h : Loaded cap lc unloaded chain)
    (updates : Option (UpdatesInner (Update Item Gap))) :
    Loaded cap { lc with updates := updates } unloaded chain :=
  ⟨represents_withUpdates h.represents updates, h.nothing, h.bounded, h.capacity, h.distinct⟩

section

variable (h : Loaded cap lc unloaded chain)
  (hmut : Mutates cap (lastIdentifier none unloaded) lc chain us lc' chain')
include h hmut

/-- A mutation introduces no identifier of an unloaded chunk. -/
theorem Loaded.spares : ∀ u ∈ us, Spares unloaded u := by
  intro u hu
  refine ⟨fun hclear => hmut.noClear (hclear ▸ hu), fun new hnew hmem => ?_⟩
  by_cases hchain : chain = []
  · rw [h.nothing hchain] at hmem
    cases hmem
  · have hlt := (hmut.fresh u hu new hnew).2 hchain
    have hle := h.bounded new hmem
    omega

theorem Loaded.steps : Steps none (.whole (unloaded ++ chain)) us (.whole (unloaded ++ chain')) :=
  steps_prepend unloaded hmut.noClear (fun u hu => (h.spares hmut u hu).2) hmut.steps

end

/-- Only the last chunk is loaded. -/
theorem loaded_last {l : Chain Item Gap} {id : ℕ} {content : ChunkContent Item Gap}
    (hrep : Represents cap lc (lastIdentifier none l) [(id, content)])
    (hbound : ∀ k ∈ identifiers (l ++ [(id, content)]), k ≤ lc.chunkIdentifierGenerator)
    (hcapacity : ∀ chunk ∈ l ++ [(id, content)], chunk.2.numItems ≤ cap)
    (hdistinct : (identifiers (l ++ [(id, content)])).Nodup) : Loaded cap lc l [(id, content)] :=
  ⟨hrep, by simp, fun k hk => hbound k (by simp [hk]),
    fun chunk hchunk => hcapacity chunk (by simp [hchunk]), hdistinct⟩

section

variable (h : Loaded cap lc unloaded chain)
include h

theorem Loaded.mutates (hmut : Mutates cap (lastIdentifier none unloaded) lc chain us lc' chain') :
    Loaded cap lc' unloaded chain' where
  represents := hmut.represents
  nothing hnil := absurd hnil hmut.nonempty
  bounded id hid := (h.bounded id hid).trans hmut.generator
  capacity := h.capacity
  distinct := @Trace.preserves _ _ _ _ _ _ (fun φ : Phase Item Gap => (identifiers φ.chain).Nodup)
    (fun _ _ _ hdistinct hstep => hstep.distinct hdistinct) (h.steps hmut) h.distinct

theorem Loaded.numItems_le : ∀ chunk ∈ unloaded ++ chain, chunk.2.numItems ≤ cap := by
  obtain ⟨xs, hlayout, hxs, -⟩ := h.represents
  exact forall_mem_append.mpr ⟨h.capacity, hxs ▸ hlayout.capacity⟩

theorem Loaded.items_eq : itemsOf unloaded ++ items lc = itemsOf (unloaded ++ chain) := by
  rw [Runs.items_eq h.represents, itemsOf_append]

end

section

variable {l : Chain Item Gap} {id : ℕ} {content : ChunkContent Item Gap}
  (h : Loaded cap lc (l ++ [(id, content)]) chain)
include h

/-- The last chunk that is not loaded can be linked before the first one that is. -/
theorem Loaded.connects {first : ℕ} (hhead : headIdentifier chain = some first) :
    Connects cap (lastIdentifier none (l ++ [(id, content)])) chain
      ⟨content, lastIdentifier none l, id, some first⟩ ∧ id ∉ identifiers chain := by
  have hnil : chain ≠ [] := by
    rintro rfl
    cases hhead
  have hids := h.distinct
  simp only [append_assoc, singleton_append, identifiers_append, identifiers_cons, nodup_append,
    nodup_cons] at hids
  refine ⟨⟨h.capacity (id, content) (by simp), ?_, ?_, by simp⟩, hids.2.1.1⟩
  · intro k hk hmem
    rw [started_of_ne_nil hnil] at hmem
    exact hids.2.2 k (mem_identifiers_of_lastIdentifier hk) k (mem_cons_of_mem _ hmem) rfl
  · rw [started_of_ne_nil hnil, hhead]

theorem Loaded.linkFirst
    (hrep : Represents cap lc' (lastIdentifier none l) ((id, content) :: chain))
    (hgen : lc'.chunkIdentifierGenerator = lc.chunkIdentifierGenerator) :
    Loaded cap lc' l ((id, content) :: chain) := by
  refine ⟨hrep, by simp, fun k hk => ?_, fun chunk hchunk => ?_, ?_⟩
  · rw [hgen]
    exact h.bounded k (by simp [hk])
  · exact h.capacity chunk (by simp [hchunk])
  · simpa using h.distinct

end

end Loaded

section RawChunks

variable {cap : ℕ} {lc : LinkedChunk Item Gap} {base : Option ℕ} {chain : Chain Item Gap}

theorem rawChunk_eq {xs ys : Cells Item Gap} {p : ℕ} {b : ChunkBody Item Gap}
    (h : Layout cap lc (xs ++ (p, b) :: ys)) :
    rawChunk lc p = some ⟨b.content, lastIdentifier (baseOf (xs ++ (p, b) :: ys)) (chainOf xs),
      b.identifier, headIdentifier (chainOf ys)⟩ := by
  have hprevious := identifierAt_lastPtr lc xs ((p, b) :: ys) h.cells
  have hnext := identifierAt_headPtr lc (xs ++ [(p, b)]) ys (by simpa using h.cells)
  have hor : (lastIdentifier none (chainOf xs)).or b.lazyPrevious =
      lastIdentifier (baseOf (xs ++ (p, b) :: ys)) (chainOf xs) := by
    rcases eq_nil_or_concat xs with rfl | ⟨l, x, rfl⟩
    · rfl
    · simp
  unfold rawChunk
  simp only [h.cells.read_eq, hprevious, hnext, hor, bind_eq_bind, bind_some]

/-- The chunks in memory are linked as those of the chain they represent. -/
theorem rawChunks_eq (h : Represents cap lc base chain) :
    rawChunks lc = some (rawsOf base chain none) := by
  obtain ⟨zs, hlayout, rfl, rfl⟩ := h
  have hmap : ∀ xs ys, zs = xs ++ ys → ys.mapM (fun x => rawChunk lc x.1) =
      some (rawsOf (lastIdentifier (baseOf zs) (chainOf xs)) (chainOf ys) none) := by
    intro xs ys hzs
    induction ys generalizing xs with
    | nil => rfl
    | cons y ys ih =>
      obtain ⟨p, b⟩ := y
      have hhead := rawChunk_eq (hzs ▸ hlayout)
      have htail := ih (xs ++ [(p, b)]) (by simpa using hzs)
      rw [chainOf_append, lastIdentifier_append] at htail
      rw [← hzs] at hhead
      rw [mapM_cons, hhead, htail]
      simp [rawsOf]
  unfold rawChunks
  rw [chunks_eq hlayout]
  exact hmap [] zs rfl

end RawChunks

section Log

variable {lc lc' : LinkedChunk Item Gap} {queue us : List (Update Item Gap)}

/-- What the main reader has not taken yet. -/
def Pending (lc : LinkedChunk Item Gap) (queue : List (Update Item Gap)) : Prop :=
  ∃ inner, lc.updates = some inner ∧ inner.WellFormed ∧
    inner.pending mainReaderToken = some queue

section

variable (h : Pending lc queue)
include h

theorem Pending.eq : pendingUpdates lc = some queue := by
  obtain ⟨inner, hlog, -, hqueue⟩ := h
  unfold pendingUpdates
  rw [hlog, bind_some, hqueue]

theorem Pending.append (hlog : lc'.updates = lc.updates.map (appendUpdates us)) :
    Pending lc' (queue ++ us) := by
  obtain ⟨inner, hinner, hwf, hqueue⟩ := h
  refine ⟨appendUpdates us inner, by rw [hlog, hinner, map_some],
    wellFormed_appendUpdates hwf us, ?_⟩
  rw [pending_appendUpdates hwf, hqueue, map_some]

theorem Pending.reset (hlog : lc'.updates = lc.updates.map (resetUpdates us)) : Pending lc' us := by
  obtain ⟨inner, hinner, hwf, hqueue⟩ := h
  refine ⟨resetUpdates us inner, by rw [hlog, hinner, map_some], wellFormed_resetUpdates hwf us, ?_⟩
  rw [pending_resetUpdates hwf, hqueue, map_some]

theorem Pending.take : ∃ inner, takeUpdates lc = some (queue, { lc with updates := some inner }) ∧
      Pending { lc with updates := some inner } [] := by
  obtain ⟨inner, hlog, hwf, hqueue⟩ := h
  obtain ⟨inner', htake, hwf', -, hpending⟩ := hwf.takeWithToken _ queue hqueue
  refine ⟨inner', ?_, inner', rfl, hwf', by rw [hpending, if_pos rfl]⟩
  unfold takeUpdates UpdatesInner.take
  simp [hlog, htake]

end

end Log

section Stored

variable [DecidableEq Lid] [DecidableEq ItemId] {lid : Lid}
  {store : RelationalLinkedChunk Lid ItemId Item Gap} {backlog queue us : List (Update Item Gap)}
  {full full' : Chain Item Gap}

/-- The store holds a chain that `backlog` and then `queue` lead to `full`. -/
def Stored (lid : Lid) (store : RelationalLinkedChunk Lid ItemId Item Gap)
    (backlog queue : List (Update Item Gap)) (full : Chain Item Gap) : Prop :=
  ∃ φ taken, Holds store lid φ.chain ∧ Trace StoredStep φ backlog (.whole taken) ∧
    DistinctIds (itemsOf taken) ∧ Trace StoredStep (.whole taken) queue (.whole full)

theorem stored_of_holds (h : Holds store lid full) (hdistinct : DistinctIds (itemsOf full)) :
    Stored lid store [] [] full :=
  ⟨.whole full, full, h, .nil _, hdistinct, .nil _⟩

theorem Stored.holds (h : Stored lid store [] [] full) : Holds store lid full := by
  obtain ⟨φ, taken, hholds, hbacklog, -, hqueue⟩ := h
  cases hbacklog
  cases hqueue
  exact hholds

section

variable (h : Stored lid store backlog queue full)
include h

theorem Stored.append (hsteps : Trace StoredStep (.whole full) us (.whole full')) :
    Stored lid store backlog (queue ++ us) full' := by
  obtain ⟨φ, taken, hholds, hbacklog, hdistinct, hqueue⟩ := h
  exact ⟨φ, taken, hholds, hbacklog, hdistinct, hqueue.append hsteps⟩

/-- Clearing drops what was not taken, not what was. -/
theorem Stored.clear : Stored lid store backlog [.clear] [] := by
  obtain ⟨φ, taken, hholds, hbacklog, hdistinct, -⟩ := h
  have hclear : StoredStep (.whole taken) .clear (.whole []) := by
    refine ⟨.clear taken, hdistinct, nodup_nil, ?_⟩
    rintro position old item heq
    cases heq
  exact ⟨φ, taken, hholds, hbacklog, hdistinct, .single hclear⟩

theorem Stored.take (hdistinct : DistinctIds (itemsOf full)) :
    Stored lid store (backlog ++ queue) [] full := by
  obtain ⟨φ, taken, hholds, hbacklog, -, hqueue⟩ := h
  exact ⟨φ, full, hholds, hbacklog.append hqueue, hdistinct, .nil _⟩

/-- Any batch of the backlog is applied without error. -/
theorem Stored.apply (count : ℕ) :
    ∃ store', store.applyUpdates lid (backlog.take count) = some (.ok (), store') ∧
      Stored lid store' (backlog.drop count) queue full := by
  obtain ⟨φ, taken, hholds, hbacklog, hdistinct, hqueue⟩ := h
  rw [← take_append_drop count backlog] at hbacklog
  obtain ⟨ψ, hbatch, hrest⟩ := hbacklog.of_append
  obtain ⟨store', happly, hholds'⟩ := applyUpdates_steps hholds hbatch
  exact ⟨store', happly, ψ, taken, hholds', hrest, hdistinct, hqueue⟩

end

end Stored

section Mutations

variable {cap : ℕ} {lc lc' : LinkedChunk Item Gap} {unloaded chain chain' : Chain Item Gap}
  {us : List (Update Item Gap)}

theorem startUpdates_tame (chain : Chain Item Gap) :
    ∀ u ∈ startUpdates chain, keepsItems u = true ∧ addsNoItem u = true := by
  cases chain <;> simp [startUpdates, keepsItems, addsNoItem]

section

variable (h : Loaded cap lc unloaded chain) (hdistinct : DistinctIds (itemsOf (unloaded ++ chain)))
include h hdistinct

theorem Loaded.replaces {position : Position} {item : Item}
    (hmut : Mutates cap (lastIdentifier none unloaded) lc chain
      (startUpdates chain ++ [.replaceItem position item]) lc' chain')
    (hdistinct' : DistinctIds (itemsOf (unloaded ++ chain')))
    (hkeeps : ∀ old, itemAt chain position = some old →
      (IndexableItem.id old : ItemId) = IndexableItem.id item) :
    Trace (LoadedStep unloaded) (.whole chain) (startUpdates chain ++ [.replaceItem position item])
      (.whole chain') := by
  have hspares := h.spares hmut
  cases chain with
  | nil =>
    -- the chunk that is created has no item to replace
    obtain ⟨φ, hstart, hreplace⟩ := hmut.steps.of_append
    have hnone := steps_allItems_of_addsNoItem hstart fun u hu => (startUpdates_tame [] u hu).2
    cases hreplace with
    | cons head _ =>
      obtain ⟨l, r, id, before, after, old, rfl, -⟩ := head.replaceItem_inv
      simp [Phase.allItems] at hnone
  | cons chunk chain =>
    rw [itemsOf_append] at hdistinct hdistinct'
    cases hmut.steps with
    | cons head tail =>
      cases tail
      refine .single ⟨head, hspares _ (by simp [startUpdates]), hdistinct, hdistinct', ?_⟩
      intro position' old item' heq hat
      cases heq
      exact hkeeps old hat

/-- The updates of a mutation can be stored. -/
theorem Loaded.loadedSteps {m : Mutation Item Gap}
    (hmut : Mutates cap (lastIdentifier none unloaded) lc chain (startUpdates chain ++ us) lc'
      chain') (htame : Tame m us)
    (hdistinct' : DistinctIds (itemsOf (unloaded ++ chain')))
    (hkeeps : ∀ position item old, m = .replaceItemAt position item →
      itemAt chain position = some old →
        (IndexableItem.id old : ItemId) = IndexableItem.id item) :
    Trace (LoadedStep unloaded) (.whole chain) (startUpdates chain ++ us) (.whole chain') := by
  have hstart := startUpdates_tame chain
  cases htame with
  | grows hus =>
    rw [itemsOf_append] at hdistinct'
    exact (loadedSteps_of_keepsItems hmut.steps (h.spares hmut)
      (forall_mem_append.mpr ⟨fun u hu => (hstart u hu).1, hus⟩) hdistinct').1
  | shrinks hus =>
    rw [itemsOf_append] at hdistinct
    exact (loadedSteps_of_addsNoItem hmut.steps (h.spares hmut)
      (forall_mem_append.mpr ⟨fun u hu => (hstart u hu).2, hus⟩) hdistinct).1
  | replaces position item =>
    exact h.replaces hdistinct hmut hdistinct' fun old => hkeeps position item old rfl

/-- Creating the first chunk adds no item. -/
theorem Loaded.startSteps :
    Trace (LoadedStep unloaded) (.whole chain) (startUpdates chain) (.whole (started chain)) ∧
      DistinctIds (itemsOf (unloaded ++ started chain)) := by
  obtain ⟨-, -, -, -, -, hmut⟩ := h.represents.starts
  rw [itemsOf_append] at hdistinct ⊢
  exact loadedSteps_of_addsNoItem hmut.steps (h.spares hmut)
    (fun u hu => (startUpdates_tame chain u hu).2) hdistinct

end

end Mutations

section Sessions

variable [DecidableEq Lid] [DecidableEq ItemId] {cap : ℕ} {lid : Lid}
  {s s' : Session Lid ItemId Item Gap} {chain : Chain Item Gap} {queue : List (Update Item Gap)}

structure Synced (cap : ℕ) (lid : Lid) (s : Session Lid ItemId Item Gap) (chain : Chain Item Gap)
    (queue : List (Update Item Gap)) : Prop where
  loaded : Loaded cap s.lc s.unloaded chain
  pending : Pending s.lc queue
  distinct : DistinctIds (itemsOf (s.unloaded ++ chain))
  stored : Stored lid s.store s.backlog queue (s.unloaded ++ chain)

theorem synced_new :
    Synced cap lid (Session.new : Session Lid ItemId Item Gap) [] [] where
  loaded := ⟨represents_empty, fun _ => rfl, by simp [Session.new], by simp [Session.new],
    by simp [Session.new]⟩
  pending := ⟨UpdatesInner.new, rfl, wellFormed_new, pending_new_main⟩
  distinct := nodup_nil
  stored := stored_of_holds (holds_new lid) nodup_nil

/-- Creating the first chunk is stored like any other update. -/
theorem Synced.start (h : Synced cap lid s chain queue) :
    Synced cap lid { s with lc := Layouts.start s.lc } (started chain)
      (queue ++ startUpdates chain) := by
  obtain ⟨-, -, -, -, -, hmut⟩ := h.loaded.represents.starts
  obtain ⟨hsteps, hdistinct⟩ := h.loaded.startSteps h.distinct
  exact ⟨h.loaded.mutates hmut, h.pending.append hmut.log, hdistinct,
    h.stored.append (storedSteps_of_loadedSteps hsteps h.loaded.distinct)⟩

theorem Synced.mutate (hcap : 0 < cap) (h : Synced cap lid s chain queue)
    (m : Mutation Item Gap) (hallowed : Allowed s (.mutate m)) :
    ∃ s', s.step cap lid (.mutate m) = some s' ∧
      (DistinctIds s'.allItems → ∃ chain' queue', Synced cap lid s' chain' queue') := by
  obtain ⟨result, lc', hmutate, hmutated⟩ := mutate_spec hcap h.loaded.represents m
  refine ⟨{ s with lc := lc' }, by simp [Session.step, hmutate], fun hdistinct' => ?_⟩
  have hkeeps : ∀ position item old, m = .replaceItemAt position item →
      itemAt chain position = some old →
        (IndexableItem.id old : ItemId) = IndexableItem.id item := by
    rintro position item old rfl hat
    rw [← loadedChain_eq h.loaded.represents] at hat
    exact hallowed old hat
  cases hmutated with
  | failed e => exact ⟨_, _, h.start⟩
  | done hmut htame =>
    have hloaded := h.loaded.mutates hmut
    rw [Session.allItems, hloaded.items_eq] at hdistinct'
    have hsteps := h.loaded.loadedSteps h.distinct hmut htame hdistinct' hkeeps
    exact ⟨_, _, hloaded, h.pending.append hmut.log, hdistinct',
      h.stored.append (storedSteps_of_loadedSteps hsteps h.loaded.distinct)⟩

section

variable (h : Synced cap lid s chain queue)
include h

theorem Synced.clear :
    ∃ s', s.step cap lid .clear = some s' ∧ ∃ chain' queue', Synced cap lid s' chain' queue' := by
  obtain ⟨lc', hclear, hrep, -, hlog⟩ := clear_eq h.loaded.represents
  refine ⟨{ s with lc := lc', unloaded := [] }, by simp [Session.step, hclear], [], [.clear], ?_⟩
  exact ⟨⟨hrep, fun _ => rfl, by simp, by simp, by simp⟩, h.pending.reset hlog, nodup_nil,
    h.stored.clear⟩

theorem Synced.take :
    ∃ s', s.step cap lid .take = some s' ∧ ∃ chain' queue', Synced cap lid s' chain' queue' := by
  obtain ⟨inner, htake, hpending⟩ := h.pending.take
  refine ⟨{ s with lc := { s.lc with updates := some inner }, backlog := s.backlog ++ queue },
    by simp [Session.step, htake], chain, [], ?_⟩
  exact ⟨h.loaded.withUpdates _, hpending, h.distinct, h.stored.take h.distinct⟩

theorem Synced.apply (count : ℕ) :
    ∃ s', s.step cap lid (.apply count) = some s' ∧
      ∃ chain' queue', Synced cap lid s' chain' queue' := by
  obtain ⟨store', happly, hstored⟩ := h.stored.apply count
  refine ⟨{ s with store := store', backlog := s.backlog.drop count },
    by simp [Session.step, happly], chain, queue, ?_⟩
  exact ⟨h.loaded, h.pending, h.distinct, hstored⟩

/-- Nothing is pending, so the store holds the whole chain. -/
theorem Synced.holds (hflushed : Flushed s) :
    queue = [] ∧ Holds s.store lid (s.unloaded ++ chain) := by
  obtain ⟨hbacklog, hpending⟩ := hflushed
  obtain rfl : queue = [] := Option.some.inj (h.pending.eq.symm.trans hpending)
  refine ⟨rfl, ?_⟩
  have hstored := h.stored
  rw [hbacklog] at hstored
  exact hstored.holds

theorem Synced.loadLast (hflushed : Flushed s) :
    ∃ s', s.step cap lid .loadLast = some s' ∧
      ∃ chain' queue', Synced cap lid s' chain' queue' := by
  obtain ⟨rfl, hholds⟩ := h.holds hflushed
  have hchain := loadedChain_eq h.loaded.represents
  rcases eq_nil_or_concat (s.unloaded ++ chain) with hnil | ⟨l, ⟨id, content⟩, hfull⟩
  · rw [hnil] at hholds
    have hload := loadLastChunk_nil hholds
    obtain ⟨lc', hreplace, hrep, -, hlog⟩ :=
      replaceWith_none h.loaded.represents LinkedChunk.firstIdentifier
    obtain ⟨inner, htake, hpending⟩ := (h.pending.reset hlog).take
    refine ⟨{ s with lc := { lc' with updates := some inner }, unloaded := [] }, ?_, [], [], ?_⟩
    · simp [Session.step, Session.loadLast, hload, hreplace, htake, hchain, hnil]
    · refine ⟨⟨represents_withUpdates hrep _, fun _ => rfl, by simp, by simp, by simp⟩, hpending,
        nodup_nil, ?_⟩
      rw [hflushed.1]
      exact stored_of_holds hholds nodup_nil
  · rw [concat_eq_append] at hfull
    have hdistinct := h.distinct
    have hnodup := h.loaded.distinct
    have hnumItems := h.loaded.numItems_le
    rw [hfull] at hholds hdistinct hnodup hnumItems
    obtain ⟨generator, hload, hbound⟩ := loadLastChunk_eq hholds
    have hlast : IsLast cap (⟨content, lastIdentifier none l, id, none⟩ : RawChunk Item Gap) :=
      ⟨hnumItems (id, content) (by simp), rfl⟩
    obtain ⟨lc', hreplace, hrep, hgen, hlog⟩ :=
      replaceWith_ok h.loaded.represents hlast (hbound id (by simp))
    obtain ⟨inner, htake, hpending⟩ := (h.pending.reset hlog).take
    refine ⟨{ s with lc := { lc' with updates := some inner }, unloaded := l }, ?_,
      [(id, content)], [], ?_⟩
    · simp only [Session.step, Session.loadLast, hload, hreplace, htake, hchain, hfull,
        bind_eq_bind, bind_some, dropLast_concat]
    · have hloaded : Loaded cap lc' l [(id, content)] :=
        loaded_last hrep (hgen ▸ hbound) hnumItems hnodup
      refine ⟨hloaded.withUpdates _, hpending, hdistinct, ?_⟩
      rw [hflushed.1]
      exact stored_of_holds hholds hdistinct

theorem Synced.loadPrevious (hflushed : Flushed s) :
    ∃ s', s.step cap lid .loadPrevious = some s' ∧
      ∃ chain' queue', Synced cap lid s' chain' queue' := by
  obtain ⟨rfl, hholds⟩ := h.holds hflushed
  obtain ⟨p, b, xs, hlayout, hzs, -, hptr, -⟩ := h.loaded.represents.firstChunk
  have hread := hlayout.cells.read_head
  by_cases hnil : chain = []
  · -- the first chunk has just been created, and nothing is stored
    rw [hnil, h.loaded.nothing hnil] at hholds
    have hload := loadPreviousChunk_nil hholds b.identifier
    refine ⟨{ s with lc := Layouts.start s.lc }, ?_, _, _, h.start⟩
    simp [Session.step, Session.loadPrevious, hptr, hread, hload]
  rw [started_of_ne_nil hnil] at hzs
  rw [h.loaded.represents.start_eq hnil] at hptr hread
  have hhead : headIdentifier chain = some b.identifier := by
    rw [← hzs]
    rfl
  rcases eq_nil_or_concat s.unloaded with hunloaded | ⟨l, ⟨id, content⟩, hunloaded⟩
  · rw [hunloaded] at hholds
    have hload := loadPreviousChunk_none hholds hhead
    refine ⟨s, ?_, chain, [], h⟩
    simp [Session.step, Session.loadPrevious, hptr, hread, hload]
  · rw [concat_eq_append] at hunloaded
    have hloaded := h.loaded
    have hdistinct := h.distinct
    rw [hunloaded] at hloaded
    rw [hunloaded, append_assoc, singleton_append] at hholds hdistinct
    have hload := loadPreviousChunk_eq hholds hhead
    obtain ⟨hconnects, hfresh⟩ := hloaded.connects hhead
    obtain ⟨lc', hinsert, hrep, hgen, hlog⟩ := insertNewFirstChunk_ok hloaded.represents hconnects
      hfresh (hloaded.bounded id (by simp))
    obtain ⟨inner, htake, hpending⟩ := (h.pending.append hlog).take
    refine ⟨{ s with lc := { lc' with updates := some inner }, unloaded := l }, ?_,
      (id, content) :: chain, [], ?_⟩
    · simp only [Session.step, Session.loadPrevious, hptr, hread, hload, hinsert, htake, hunloaded,
        bind_eq_bind, bind_some, dropLast_concat]
    · refine ⟨(hloaded.linkFirst hrep hgen).withUpdates _, hpending, hdistinct, ?_⟩
      rw [hflushed.1]
      exact stored_of_holds hholds hdistinct

end

theorem step_spec (hcap : 0 < cap) (h : Synced cap lid s chain queue) (event : Event Item Gap)
    (hallowed : Allowed s event) :
    ∃ s', s.step cap lid event = some s' ∧
      (DistinctIds s'.allItems → ∃ chain' queue', Synced cap lid s' chain' queue') := by
  cases event with
  | mutate m => exact h.mutate hcap m hallowed
  | clear =>
    obtain ⟨s', hs, hsynced⟩ := h.clear
    exact ⟨s', hs, fun _ => hsynced⟩
  | take =>
    obtain ⟨s', hs, hsynced⟩ := h.take
    exact ⟨s', hs, fun _ => hsynced⟩
  | apply count =>
    obtain ⟨s', hs, hsynced⟩ := h.apply count
    exact ⟨s', hs, fun _ => hsynced⟩
  | loadLast =>
    obtain ⟨s', hs, hsynced⟩ := h.loadLast hallowed
    exact ⟨s', hs, fun _ => hsynced⟩
  | loadPrevious =>
    obtain ⟨s', hs, hsynced⟩ := h.loadPrevious hallowed
    exact ⟨s', hs, fun _ => hsynced⟩

/-- One allowed event, after which no two items of the whole chain have the same identifier. -/
def Persists (cap : ℕ) (lid : Lid) (s : Session Lid ItemId Item Gap) (event : Event Item Gap)
    (s' : Session Lid ItemId Item Gap) : Prop :=
  Allowed s event ∧ s.step cap lid event = some s' ∧ DistinctIds s'.allItems

theorem Persists.synced (hcap : 0 < cap) {event : Event Item Gap}
    (h : ∃ chain queue, Synced cap lid s chain queue) (hpersists : Persists cap lid s event s') :
    ∃ chain queue, Synced cap lid s' chain queue := by
  obtain ⟨chain, queue, hsynced⟩ := h
  obtain ⟨hallowed, hstep, hdistinct⟩ := hpersists
  obtain ⟨t, ht, hnext⟩ := step_spec hcap hsynced event hallowed
  rw [hstep] at ht
  cases ht
  exact hnext hdistinct

/-- No event of a run fails. Whenever nothing is pending, the chunks that are read back are
those that were not loaded followed by those in memory, with the links they have there. -/
theorem store_follows_the_linked_chunk (hcap : 0 < cap) {events : List (Event Item Gap)}
    (hrun : Trace (Persists cap lid) (Session.new : Session Lid ItemId Item Gap) events s) :
    (∀ event, Allowed s event → ∃ s', s.step cap lid event = some s') ∧
    (Flushed s → ∃ stored loaded, s.store.loadAllChunks lid = .ok stored ∧
      rawChunks s.lc = some loaded ∧ (stored.map identifier).Nodup ∧
      stored.Perm (rawsOf none s.unloaded (loaded.head?.map identifier) ++ loaded)) := by
  obtain ⟨chain, queue, h⟩ := hrun.preserves (fun _ _ _ h hp => Persists.synced hcap h hp)
    ⟨[], [], synced_new⟩
  constructor
  · intro event hallowed
    obtain ⟨s', hs, -⟩ := step_spec hcap h event hallowed
    exact ⟨s', hs⟩
  · intro hflushed
    obtain ⟨-, hholds⟩ := h.holds hflushed
    obtain ⟨stored, hload, hperm⟩ := loadAllChunks_eq hholds
    refine ⟨stored, _, hload, rawChunks_eq h.loaded.represents, ?_, ?_⟩
    · rw [(hperm.map identifier).nodup_iff, map_identifier_rawsOf]
      exact h.loaded.distinct
    · rw [rawsOf_append, or_none] at hperm
      rw [head?_rawsOf]
      exact hperm

end Sessions

/-- Two items fill two chunks, are stored, and are then loaded again one chunk at a time. -/
theorem store_follows_two_chunks :
    ∃ s : Session Unit ℕ (ℕ × ℕ) ℕ,
      Trace (Persists 1 ()) Session.new
        [.mutate (.pushItemsBack [(7, 0), (8, 0)]), .take, .apply 4, .loadLast, .loadPrevious] s ∧
      Flushed s ∧
      (∀ event, Allowed s event → ∃ s', s.step 1 () event = some s') ∧
      (Flushed s → ∃ stored loaded, s.store.loadAllChunks () = .ok stored ∧
        rawChunks s.lc = some loaded ∧ (stored.map identifier).Nodup ∧
        stored.Perm (rawsOf none s.unloaded (loaded.head?.map identifier) ++ loaded)) := by
  refine ⟨_, and_of_imp (.cons ⟨trivial, rfl, by decide⟩ <| .cons ⟨trivial, rfl, by decide⟩ <|
      .cons ⟨trivial, rfl, by decide⟩ <| .cons ⟨(by decide : Flushed _), rfl, by decide⟩ <|
      .single ⟨(by decide : Flushed _), rfl, by decide⟩)
    fun hrun => ⟨by decide, store_follows_the_linked_chunk (by decide) hrun⟩⟩

end MatrixSdk.Persistence

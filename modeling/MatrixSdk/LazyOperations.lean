import MatrixSdk.ItemOperations
import MatrixSdk.LazyLoader

/-!
Specifications of clearing and of the lazy loader. Clearing drops the pending updates;
a lazily loaded chunk is put in front of the loaded ones, and the updates it emits lead
from the old chain to the new one like those of any other operation.
-/
namespace MatrixSdk.Layouts

open LinkedCells Updates Chunks Chains LazyLoader LinkedChunk List

variable {Item Gap : Type} {cap : ℕ} {lc : LinkedChunk Item Gap} {base : Option ℕ}
  {chain : Chain Item Gap} {xs : Cells Item Gap}

theorem Layout.latest_or_first (h : Layout cap lc xs) : lc.last.or lc.first = lastPtr none xs := by
  rcases h.last with hlast | ⟨hlast, hlen⟩
  · rw [hlast]
    cases xs with
    | nil => simp [h.first, lastPtr, headPtr]
    | cons x xs => exact lastPtr_some_or xs x.1 lc.first
  · rw [hlast, h.first, Option.none_or]
    cases xs with
    | nil => rfl
    | cons x xs =>
      obtain rfl : xs = [] := by simpa using hlen
      rfl

/-- Every chunk is dropped; a chunk that is not linked survives. -/
theorem Layout.clearLinks (h : Layout cap lc xs) :
    ∃ heap, lc.clearLinks = some { lc with heap := heap, first := none, last := none } ∧
      ∀ q ∉ xs.map Prod.fst, heap.read q = lc.heap.read q := by
  obtain ⟨heap, hfree, hsame⟩ := freeBackward_of_seg lc.heap none xs lc.heap.length h.cells.seg
    h.cells.nodup h.cells.length_le
  refine ⟨heap, ?_, hsame⟩
  simp [LinkedChunk.clearLinks, h.latest_or_first, hfree]

/-- The pending updates are dropped before `us` is emitted. -/
def resetUpdates (us : List (Update Item Gap)) (inner : UpdatesInner (Update Item Gap)) :
    UpdatesInner (Update Item Gap) :=
  appendUpdates us inner.clearPending

theorem clear_eq (h : Represents cap lc base chain) :
    ∃ lc', lc.clear = some lc' ∧ Represents cap lc' none [] ∧
      lc'.chunkIdentifierGenerator = firstIdentifier ∧
      lc'.updates = lc.updates.map (resetUpdates [.clear]) := by
  obtain ⟨xs, hlayout, -, -⟩ := h
  obtain ⟨heap, hclear, -⟩ := hlayout.clearLinks
  refine ⟨_, by simp [LinkedChunk.clear, hclear]; rfl, ⟨[], ?_, rfl, rfl⟩, rfl, ?_⟩
  · exact ⟨⟨DList.nil, by simp, by simp, by simp, by simp⟩, rfl, .inl rfl⟩
  · cases lc.updates <;> rfl

/-- The updates of a chunk that is put in front of everything else. -/
def firstChunkUpdates (previous : Option ℕ) (new : ℕ) (next : Option ℕ) :
    ChunkContent Item Gap → List (Update Item Gap)
  | .gap gap => [.newGapChunk previous new next gap]
  | .items items => [.newItemsChunk previous new next, .pushItems ⟨new, 0⟩ items]

theorem steps_firstChunkUpdates (previous : Option ℕ) (new : ℕ) (content : ChunkContent Item Gap)
    (hfresh : new ∉ identifiers chain) :
    Steps previous (.whole chain) (firstChunkUpdates previous new (headIdentifier chain) content)
      (.whole ((new, content) :: chain)) := by
  cases content with
  | gap g => exact .single (Step.newChunk (b := previous) [] chain new (.gap g) rfl hfresh)
  | items items =>
    exact .cons (Step.newChunk (b := previous) [] chain new (.items []) rfl hfresh)
      (.single (Step.pushItems (b := previous) [] chain new [] items))

variable {p : ℕ} {b : ChunkBody Item Gap}

theorem emitNewFirstChunkUpdates_eq (lc : LinkedChunk Item Gap) (h : DList lc.heap ((p, b) :: xs)) :
    emitNewFirstChunkUpdates lc p = some { lc with updates := lc.updates.map (appendUpdates
      (firstChunkUpdates b.lazyPrevious b.identifier (headIdentifier (chainOf xs))
        b.content)) } := by
  have hread : lc.heap.read p = some ⟨none, headPtr xs none, b⟩ := h.read_head
  have hnext := identifierAt_headPtr lc [(p, b)] xs h
  have hnone : lc.identifierAt none = some none := rfl
  cases hcontent : b.content <;>
    simp [emitNewFirstChunkUpdates, hread, hnext, hnone, hcontent,
      LinkedChunk.push, firstChunkUpdates, firstPosition] <;>
    cases lc.updates <;> simp [appendUpdates, UpdatesInner.push]

section InsertNewFirstChunk

def withGenerator (generator : ℕ) (lc : LinkedChunk Item Gap) : LinkedChunk Item Gap :=
  { lc with chunkIdentifierGenerator := generator }

variable {raw : RawChunk Item Gap} {generator : ℕ}

/-- The lazy loader does not look at the generator, so it need not be above the identifiers. -/
theorem Represents.firstCells (h : Represents cap (withGenerator generator lc) base chain) :
    ∃ p b xs, DList (start lc).heap ((p, b) :: xs) ∧ chainOf ((p, b) :: xs) = started chain ∧
      b.lazyPrevious = base ∧ (start lc).first = some p ∧ lc.firstChunkPtr = (p, start lc) := by
  obtain ⟨p, b, xs, hlayout, hzs, hbase, hptr, -⟩ := h.firstChunk
  have hstart : start (withGenerator generator lc) = withGenerator generator (start lc) ∧
      (withGenerator generator lc).firstChunkPtr.1 = lc.firstChunkPtr.1 := by
    cases hfirst : lc.first <;>
      simp [start, withGenerator, LinkedChunk.firstChunkPtr, hfirst, LinkedChunk.push, newLeaked]
  rw [hstart.1] at hlayout
  refine ⟨p, b, xs, hlayout.cells, hzs, hbase, hlayout.first, Prod.ext ?_ rfl⟩
  rw [← hstart.2, hptr]

/-- The cycle check looks at the chunks that are loaded. -/
theorem findCycle_eq (raw : RawChunk Item Gap)
    (h : Represents cap (withGenerator generator lc) base chain) :
    findCycle lc raw = match raw.previous with
      | none => some (none, lc)
      | some previous =>
        some (if previous ∈ identifiers (started chain) then some previous else none,
          start lc) := by
  cases hprevious : raw.previous with
  | none => simp [findCycle, hprevious]
  | some previous =>
    obtain ⟨p, b, xs, hcells, hzs, -, -, hptr⟩ := h.firstCells
    have hwalk : (start lc).heap.walkForward (start lc).heap.length (some p) =
        some ((p, b) :: xs) :=
      walkForward_of_seg _ none _ _ hcells.seg hcells.length_le
    have hany : (((p, b) :: xs).any fun x => x.2.identifier == previous) =
        decide (previous ∈ identifiers (started chain)) := by
      rw [← hzs, Bool.eq_iff_iff, any_eq_true, decide_eq_true_eq]
      constructor
      · rintro ⟨x, hx, heq⟩
        exact mem_map.mpr ⟨_, mem_map.mpr ⟨x, hx, rfl⟩, by simpa using heq⟩
      · intro hmem
        obtain ⟨_, hy, rfl⟩ := mem_map.mp hmem
        obtain ⟨x, hx, rfl⟩ := mem_map.mp hy
        exact ⟨x, hx, by simp⟩
    simp [findCycle, hprevious, hptr, hwalk, hany]

/-- What `insert_new_first_chunk` checks. -/
structure Connects (cap : ℕ) (base : Option ℕ) (chain : Chain Item Gap)
    (raw : RawChunk Item Gap) : Prop where
  size : raw.content.numItems ≤ cap
  acyclic : ∀ previous, raw.previous = some previous → previous ∉ identifiers (started chain)
  next : raw.next = headIdentifier (started chain)
  lazy : base = some raw.identifier

theorem started_of_ne_nil (hne : chain ≠ []) : started chain = chain := by
  cases chain with
  | nil => exact absurd rfl hne
  | cons chunk chain => rfl

/-- The new chunk takes the place of the first one, whose `lazy_previous` it replaces. -/
theorem linkFirstChunk_eq (h : Layout cap (withGenerator generator lc) ((p, b) :: xs))
    (hsize : raw.content.numItems ≤ cap)
    (hfresh : raw.identifier ∉ identifiers (chainOf ((p, b) :: xs)))
    (hbound : raw.identifier ≤ generator) :
    ∃ lc', linkFirstChunk lc p raw = some lc' ∧
      Represents cap (withGenerator generator lc') raw.previous
        ((raw.identifier, raw.content) :: chainOf ((p, b) :: xs)) ∧
      lc'.chunkIdentifierGenerator = lc.chunkIdentifierGenerator ∧
      lc'.updates = lc.updates.map (appendUpdates (firstChunkUpdates raw.previous raw.identifier
        (headIdentifier (chainOf ((p, b) :: xs))) raw.content)) := by
  set q := lc.heap.length with hqlen
  let body : ChunkBody Item Gap := ⟨none, raw.identifier, raw.content⟩
  let body' : ChunkBody Item Gap := ⟨raw.previous, raw.identifier, raw.content⟩
  let b' : ChunkBody Item Gap := ⟨none, b.identifier, b.content⟩
  let leaked : LinkedChunk Item Gap := { lc with heap := lc.heap.alloc body }
  have hcells : DList leaked.heap ((p, b) :: xs) := h.cells.alloc body
  have hq : leaked.heap.read q = some ⟨none, none, body⟩ := Arena.read_alloc_new lc.heap
  have hnot : q ∉ ((p, b) :: xs).map Prod.fst := h.cells.length_notMem
  have hpq : q ≠ p := fun he => hnot (by simp [he])
  obtain ⟨heap₁, hset₁, hcells₁⟩ :=
    (show DList leaked.heap ([] ++ (p, b) :: xs) from hcells).setValue b'
  have hq₁ : heap₁.read q = some ⟨none, none, body⟩ := by
    rw [Arena.read_setValue_ne _ hset₁ hpq, hq]
  obtain ⟨heap₂, hset₂, hcells₂, hq₂⟩ := hcells₁.setValue_unlisted hq₁ (by simpa using hnot) body'
  obtain ⟨heap₃, hlink, hcells₃⟩ := hcells₂.linkBefore hq₂ (by simpa using hnot)
  have h₁ := setLazyPrevious_eq leaked none hcells.read_head hset₁
  have h₂ := setLazyPrevious_eq { leaked with heap := heap₁ } raw.previous hq₁ hset₂
  let lc₃ : LinkedChunk Item Gap :=
    { lc with heap := heap₃, first := some q, last := lc.last.or (some p) }
  have hemit := emitNewFirstChunkUpdates_eq lc₃ hcells₃
  refine ⟨{ lc₃ with updates := lc.updates.map (appendUpdates (firstChunkUpdates raw.previous
    raw.identifier (headIdentifier (chainOf ((p, b) :: xs))) raw.content)) }, ?_,
    ⟨_, ⟨⟨hcells₃, ?_, ?_, ?_, ?_⟩, rfl, .inl ?_⟩, rfl, rfl⟩, rfl, rfl⟩
  · have hfirst : isFirstChunk (⟨none, headPtr xs none, b⟩ : Chunk Item Gap) = true := rfl
    have hleak : lc.newLeaked raw.identifier raw.content = (q, leaked) := rfl
    simp only [linkFirstChunk, hleak, hcells.read_head, hfirst, if_true, h₁, h₂, hlink,
      Option.bind_eq_bind, Option.bind_some]
    exact hemit
  · exact nodup_cons.mpr ⟨hfresh, h.distinct⟩
  · exact forall_mem_cons.mpr ⟨hbound, h.bounded⟩
  · exact forall_mem_cons.mpr ⟨hsize, h.capacity⟩
  · exact forall_mem_cons.mpr ⟨rfl, h.lazy⟩
  · change (withGenerator generator lc).last.or (some p) = lastPtr (some q) ((p, b') :: xs)
    rcases h.last with hlast | ⟨hlast, hlen⟩
    · rw [hlast]
      exact lastPtr_some_or xs p (some p)
    · obtain rfl : xs = [] := length_eq_zero_iff.mp (by simpa using hlen)
      rw [hlast]
      rfl

section

variable (h : Represents cap (withGenerator generator lc) base chain)
include h

/-- A failure leaves the linked chunk as it is, or with its first chunk created. -/
theorem insertNewFirstChunk_error (hnot : ¬Connects cap base chain raw) :
    ∃ e lc', insertNewFirstChunk cap lc raw = some (.error e, lc') ∧
      (lc' = lc ∨ lc' = start lc) := by
  by_cases hsize : cap < raw.content.numItems
  · exact ⟨_, lc, by simp [insertNewFirstChunk, hsize]; rfl, .inl rfl⟩
  obtain ⟨p, b, xs, hcells, hzs, hlazy, hfirst, hptr⟩ := h.firstCells
  have hread : (start lc).heap.read p = some ⟨none, headPtr xs none, b⟩ := hcells.read_head
  have hstart : (start lc).firstChunkPtr = (p, start lc) := firstChunkPtr_of_some hfirst
  -- the checks that follow the cycle check, from a state whose first chunk is `p`
  have hchecks : ∀ lc₀ : LinkedChunk Item Gap, lc₀.firstChunkPtr = (p, start lc) →
      findCycle lc raw = some (none, lc₀) →
      (raw.next = headIdentifier (started chain) → base ≠ some raw.identifier) →
      ∃ e lc', insertNewFirstChunk cap lc raw = some (.error e, lc') ∧
        (lc' = lc ∨ lc' = start lc) := by
    intro lc₀ hptr₀ hcycle hconnect
    have hhead : headIdentifier (started chain) = some b.identifier := by
      rw [← hzs]
      rfl
    simp only [insertNewFirstChunk, hsize, if_false, hcycle, hptr₀, hread, Option.bind_eq_bind,
      Option.bind_some]
    cases hnext : raw.next with
    | none => exact ⟨_, _, rfl, .inr rfl⟩
    | some next =>
      by_cases hid : next = b.identifier
      · have hne : b.lazyPrevious ≠ some raw.identifier := by
          rw [hlazy]
          exact hconnect (by rw [hnext, hhead, hid])
        exact ⟨_, _, by simp [hid, hne]; rfl, .inr rfl⟩
      · exact ⟨_, _, by simp [hid]; rfl, .inr rfl⟩
  have hcycle := findCycle_eq raw h
  cases hprevious : raw.previous with
  | none =>
    rw [hprevious] at hcycle
    refine hchecks lc hptr hcycle ?_
    intro hnext hlazy
    exact hnot ⟨by omega, by simp [hprevious], hnext, hlazy⟩
  | some previous =>
    rw [hprevious] at hcycle
    by_cases hmem : previous ∈ identifiers (started chain)
    · simp only [hmem, if_true] at hcycle
      exact ⟨_, start lc, by simp [insertNewFirstChunk, hsize, hcycle]; rfl, .inr rfl⟩
    · simp only [hmem, if_false] at hcycle
      refine hchecks (start lc) hstart hcycle ?_
      intro hnext hlazy
      refine hnot ⟨by omega, ?_, hnext, hlazy⟩
      intro q hq
      rw [hprevious, Option.some.injEq] at hq
      exact hq ▸ hmem

/-- A chunk that connects, and whose identifier is not loaded yet, becomes the first one. -/
theorem insertNewFirstChunk_connects (hconnects : Connects cap base chain raw)
    (hfresh : raw.identifier ∉ identifiers chain) (hbound : raw.identifier ≤ generator) :
    ∃ lc', insertNewFirstChunk cap lc raw = some (.ok (), lc') ∧
      Represents cap (withGenerator generator lc') raw.previous
        ((raw.identifier, raw.content) :: chain) ∧
      lc'.chunkIdentifierGenerator = lc.chunkIdentifierGenerator ∧
      lc'.updates = lc.updates.map (appendUpdates (firstChunkUpdates raw.previous raw.identifier
        (headIdentifier chain) raw.content)) := by
  obtain ⟨hsize, hacyclic, hnext, hlazy⟩ := hconnects
  have hcycle := findCycle_eq raw h
  obtain ⟨xs, hlayout, rfl, rfl⟩ := h
  have hne : xs ≠ [] := by
    rintro rfl
    cases hlazy
  obtain ⟨⟨p, b⟩, xs, rfl⟩ := exists_cons_of_ne_nil hne
  have hfirst : lc.first = some p := hlayout.first
  have hnone : findCycle lc raw = some (none, lc) := by
    cases hprevious : raw.previous with
    | none => simpa [hprevious] using hcycle
    | some previous =>
      have hnot := hacyclic previous hprevious
      rw [hprevious] at hcycle
      simpa only [hnot, if_false, start_of_some hfirst] using hcycle
  obtain ⟨lc', hlink, hspec⟩ := linkFirstChunk_eq hlayout hsize hfresh hbound
  refine ⟨lc', ?_, hspec⟩
  have hhead : raw.next = some b.identifier := hnext
  have hbase : b.lazyPrevious = some raw.identifier := hlazy
  have hread : lc.heap.read p = some ⟨none, headPtr xs none, b⟩ := hlayout.cells.read_head
  simp [insertNewFirstChunk, Nat.not_lt.mpr hsize, hnone, firstChunkPtr_of_some hfirst, hread,
    hhead, hbase, hlink]

end

theorem insertNewFirstChunk_ok (h : Represents cap lc base chain)
    (hconnects : Connects cap base chain raw) (hfresh : raw.identifier ∉ identifiers chain)
    (hbound : raw.identifier ≤ lc.chunkIdentifierGenerator) :
    ∃ lc', insertNewFirstChunk cap lc raw = some (.ok (), lc') ∧
      Represents cap lc' raw.previous ((raw.identifier, raw.content) :: chain) ∧
      lc'.chunkIdentifierGenerator = lc.chunkIdentifierGenerator ∧
      lc'.updates = lc.updates.map (appendUpdates (firstChunkUpdates raw.previous raw.identifier
        (headIdentifier chain) raw.content)) := by
  obtain ⟨lc', hinsert, hrep, hgenerator, hlog⟩ :=
    insertNewFirstChunk_connects h hconnects hfresh hbound
  rw [← hgenerator] at hrep
  exact ⟨lc', hinsert, hrep, hgenerator, hlog⟩

end InsertNewFirstChunk

section ReplaceWith

variable {raw : RawChunk Item Gap}

/-- What `from_last_chunk` and `replace_with` check. -/
structure IsLast (cap : ℕ) (raw : RawChunk Item Gap) : Prop where
  size : raw.content.numItems ≤ cap
  next : raw.next = none

/-- A linked chunk that holds the given chunk alone. -/
theorem layout_singleton {q : ℕ} (hlast : IsLast cap raw)
    (hbound : raw.identifier ≤ lc.chunkIdentifierGenerator)
    (hread : lc.heap.read q =
      some ⟨none, none, ⟨raw.previous, raw.identifier, raw.content⟩⟩)
    (hends : lc.first = some q ∧ lc.last = none) :
    Layout cap lc [(q, ⟨raw.previous, raw.identifier, raw.content⟩)] := by
  refine ⟨⟨⟨⟨hread, trivial⟩, by simp⟩, by simp, ?_, ?_, by simp⟩, hends.1, .inr ⟨hends.2, le_rfl⟩⟩
  · intro id hid
    obtain rfl : id = raw.identifier := by simpa [identifiers] using hid
    exact hbound
  · intro chunk hchunk
    obtain rfl : chunk = (raw.identifier, raw.content) := by simpa using hchunk
    exact hlast.size

variable {generator : ℕ}

theorem represents_fromLastChunk (hlast : IsLast cap raw) (hbound : raw.identifier ≤ generator) :
    ∃ lc, fromLastChunk cap (some raw) generator = .ok (some lc) ∧
      Represents cap lc raw.previous [(raw.identifier, raw.content)] ∧
      lc.chunkIdentifierGenerator = generator ∧ lc.updates = some UpdatesInner.new := by
  refine ⟨_, by simp [fromLastChunk, Nat.not_lt.mpr hlast.size, hlast.next]; rfl,
    ⟨_, layout_singleton (q := 0) hlast hbound rfl ⟨rfl, rfl⟩, rfl, rfl⟩, rfl, rfl⟩

theorem replaceWith_none (h : Represents cap lc base chain) (generator : ℕ) :
    ∃ lc', replaceWith cap lc none generator = some (.ok (), lc') ∧ Represents cap lc' none [] ∧
      lc'.chunkIdentifierGenerator = firstIdentifier ∧
      lc'.updates = lc.updates.map (resetUpdates [.clear]) := by
  obtain ⟨lc', hclear, hspec⟩ := clear_eq h
  exact ⟨lc', by simp [replaceWith, hclear], hspec⟩

theorem replaceWith_ok (h : Represents cap lc base chain) (hlast : IsLast cap raw)
    (hbound : raw.identifier ≤ generator) :
    ∃ lc', replaceWith cap lc (some raw) generator = some (.ok (), lc') ∧
      Represents cap lc' raw.previous [(raw.identifier, raw.content)] ∧
      lc'.chunkIdentifierGenerator = generator ∧
      lc'.updates = lc.updates.map (resetUpdates
        (.clear :: firstChunkUpdates raw.previous raw.identifier none raw.content)) := by
  obtain ⟨xs, hlayout, -, -⟩ := h
  set q := lc.heap.length with hqlen
  let body : ChunkBody Item Gap := ⟨none, raw.identifier, raw.content⟩
  let body' : ChunkBody Item Gap := ⟨raw.previous, raw.identifier, raw.content⟩
  let leaked : LinkedChunk Item Gap :=
    { lc with heap := lc.heap.alloc body, chunkIdentifierGenerator := generator }
  have hcells : DList leaked.heap xs := hlayout.cells.alloc body
  have hq : leaked.heap.read q = some ⟨none, none, body⟩ := Arena.read_alloc_new lc.heap
  have hnot : q ∉ xs.map Prod.fst := hlayout.cells.length_notMem
  obtain ⟨heap₁, hset, hcells₁, hq₁⟩ := hcells.setValue_unlisted hq hnot body'
  have hlazy := setLazyPrevious_eq leaked raw.previous hq hset
  obtain ⟨heap₂, hfree, hsame⟩ := freeBackward_of_seg heap₁ none xs heap₁.length hcells₁.seg
    hcells₁.nodup hcells₁.length_le
  have hclear : LinkedChunk.clearLinks { leaked with heap := heap₁ } =
      some { leaked with heap := heap₂, first := none, last := none } := by
    have hends : lc.last.or lc.first = lastPtr none xs := hlayout.latest_or_first
    simp [LinkedChunk.clearLinks, leaked, hends, hfree]
  have hread : heap₂.read q = some ⟨none, none, body'⟩ := (hsame q hnot).trans hq₁
  let lc₂ : LinkedChunk Item Gap := { leaked with
    heap := heap₂, first := some q, last := none,
    updates := lc.updates.map UpdatesInner.clearPending }
  have hone : DList heap₂ [(q, body')] := ⟨⟨hread, trivial⟩, by simp⟩
  have hemit := emitNewFirstChunkUpdates_eq (lc₂.push .clear) hone
  refine ⟨{ lc₂ with updates := lc.updates.map (resetUpdates
    (.clear :: firstChunkUpdates raw.previous raw.identifier none raw.content)) }, ?_,
    ⟨_, layout_singleton hlast hbound hread ⟨rfl, rfl⟩, rfl, rfl⟩, rfl, rfl⟩
  · have hleak : newLeaked { lc with chunkIdentifierGenerator := generator }
        raw.identifier raw.content = (q, leaked) := rfl
    have hlog : (lc₂.push .clear).updates.map (appendUpdates
        (firstChunkUpdates raw.previous raw.identifier none raw.content)) =
        lc.updates.map (resetUpdates
          (.clear :: firstChunkUpdates raw.previous raw.identifier none raw.content)) := by
      cases hupdates : lc.updates <;>
        simp [lc₂, LinkedChunk.push, hupdates, resetUpdates, appendUpdates, UpdatesInner.push]
    simp only [replaceWith, Nat.not_lt.mpr hlast.size, if_false, hlast.next, Option.isSome_none,
      Bool.false_eq_true, hleak, hlazy, hclear, Option.bind_eq_bind, Option.bind_some]
    rw [← hlog]
    exact congrArg (fun lc' => lc' >>= fun lc' => some (Except.ok (), lc')) hemit

end ReplaceWith

end MatrixSdk.Layouts

import MatrixSdk.Chains

/-!
How a linked chunk lies in its arena. `Linked` lists the chunks with their pointers and
carries the invariants of the list; `Layout` adds the two ends. An operation is described
by how the list evolves and by the updates it emits; `Evolves` says both at once.
-/
namespace MatrixSdk.Layouts

open LinkedCells Updates Chunks Chains LinkedChunk List Option

variable {Item Gap : Type}

/-- The chunks from first to last, each one with its pointer. -/
abbrev Cells (Item Gap : Type) := List (ℕ × ChunkBody Item Gap)

def chainOf (xs : Cells Item Gap) : Chain Item Gap :=
  xs.map fun x => (x.2.identifier, x.2.content)

def baseOf (xs : Cells Item Gap) : Option ℕ := xs.head?.bind fun x => x.2.lazyPrevious

@[simp]
theorem chainOf_append (xs ys : Cells Item Gap) : chainOf (xs ++ ys) = chainOf xs ++ chainOf ys :=
  map_append

@[simp]
theorem chainOf_cons (x : ℕ × ChunkBody Item Gap) (xs : Cells Item Gap) :
    chainOf (x :: xs) = (x.2.identifier, x.2.content) :: chainOf xs := rfl

@[simp]
theorem chainOf_nil : chainOf ([] : Cells Item Gap) = [] := rfl

structure Linked (cap : ℕ) (lc : LinkedChunk Item Gap) (xs : Cells Item Gap) : Prop where
  cells : DList lc.heap xs
  distinct : (identifiers (chainOf xs)).Nodup
  bounded : ∀ id ∈ identifiers (chainOf xs), id ≤ lc.chunkIdentifierGenerator
  capacity : ∀ chunk ∈ chainOf xs, chunk.2.numItems ≤ cap
  lazy : ∀ x ∈ xs.tail, x.2.lazyPrevious = none

/-- `last` may be missing when there is at most one chunk. -/
structure Layout (cap : ℕ) (lc : LinkedChunk Item Gap) (xs : Cells Item Gap) : Prop
    extends Linked cap lc xs where
  first : lc.first = headPtr xs none
  last : lc.last = lastPtr none xs ∨ lc.last = none ∧ xs.length ≤ 1

def appendUpdates (us : List (Update Item Gap)) (inner : UpdatesInner (Update Item Gap)) :
    UpdatesInner (Update Item Gap) :=
  { inner with updates := inner.updates ++ us }

/-- `lc'` holds the chunks `xs'` where `lc` held `xs`, after emitting `us`. -/
structure Evolves (cap : ℕ) (lc : LinkedChunk Item Gap) (xs : Cells Item Gap)
    (us : List (Update Item Gap)) (lc' : LinkedChunk Item Gap) (xs' : Cells Item Gap) : Prop where
  linked : Linked cap lc' xs'
  base : baseOf xs' = baseOf xs
  generator : lc.chunkIdentifierGenerator ≤ lc'.chunkIdentifierGenerator
  first : lc'.first = lc.first
  last : lc'.last = lc.last
  log : lc'.updates = lc.updates.map (appendUpdates us)
  fresh : ∀ u ∈ us, ∀ new, newIdentifier u = some new →
    lc.chunkIdentifierGenerator < new ∧ new ≤ lc'.chunkIdentifierGenerator
  noClear : .clear ∉ us

namespace Evolves

variable {cap : ℕ} {lc lc' lc'' : LinkedChunk Item Gap} {xs xs' xs'' : Cells Item Gap}
  {us us' : List (Update Item Gap)}

theorem refl (h : Linked cap lc xs) : Evolves cap lc xs [] lc xs where
  linked := h
  base := rfl
  generator := le_rfl
  first := rfl
  last := rfl
  log := by
    cases hupdates : lc.updates <;> simp [appendUpdates]
  fresh := by simp
  noClear := by simp

theorem trans (h₁ : Evolves cap lc xs us lc' xs') (h₂ : Evolves cap lc' xs' us' lc'' xs'') :
    Evolves cap lc xs (us ++ us') lc'' xs'' where
  linked := h₂.linked
  base := h₂.base.trans h₁.base
  generator := h₁.generator.trans h₂.generator
  first := h₂.first.trans h₁.first
  last := h₂.last.trans h₁.last
  log := by
    rw [h₂.log, h₁.log]
    cases lc.updates <;> simp [appendUpdates]
  fresh u hu new hnew := by
    have hg₁ := h₁.generator
    have hg₂ := h₂.generator
    rcases mem_append.mp hu with hu | hu
    · have := h₁.fresh u hu new hnew
      omega
    · have := h₂.fresh u hu new hnew
      omega
  noClear := by simp [h₁.noClear, h₂.noClear]

end Evolves

section Pieces

variable {cap : ℕ} {lc : LinkedChunk Item Gap} {xs ys : Cells Item Gap} {p : ℕ}
  {b : ChunkBody Item Gap}

/-- Emitting an update that introduces no chunk. -/
theorem Linked.push (h : Linked cap lc xs) (u : Update Item Gap) (hnew : newIdentifier u = none)
    (hclear : u ≠ .clear) : Evolves cap lc xs [u] (lc.push u) xs where
  linked := ⟨h.cells, h.distinct, h.bounded, h.capacity, h.lazy⟩
  base := rfl
  generator := le_rfl
  first := rfl
  last := rfl
  log := rfl
  fresh v hv new hv' := by
    simp only [mem_singleton] at hv
    rw [hv, hnew] at hv'
    cases hv'
  noClear := by simpa using hclear.symm

theorem identifierAt_headPtr (lc : LinkedChunk Item Gap) (xs ys : Cells Item Gap)
    (h : DList lc.heap (xs ++ ys)) :
    lc.identifierAt (headPtr ys none) = some (headIdentifier (chainOf ys)) := by
  cases ys with
  | nil => rfl
  | cons y ys =>
    obtain ⟨p, b⟩ := y
    simp [identifierAt, headPtr, h.read_eq, headIdentifier]

theorem identifierAt_lastPtr (lc : LinkedChunk Item Gap) (xs ys : Cells Item Gap)
    (h : DList lc.heap (xs ++ ys)) :
    lc.identifierAt (lastPtr none xs) = some (lastIdentifier none (chainOf xs)) := by
  rcases eq_nil_or_concat xs with rfl | ⟨l, ⟨p, b⟩, rfl⟩
  · rfl
  · have hread : lc.heap.read p = some ⟨lastPtr none l, headPtr ys none, b⟩ :=
      DList.read_eq (by simpa using h)
    simp [identifierAt, lastPtr_append, lastPtr, hread]

section

variable (h : Linked cap lc (xs ++ (p, b) :: ys))
include h

/-- Replacing the body of a chunk by one with the same identifier and links. -/
theorem Linked.setBody (b' : ChunkBody Item Gap) (hid : b'.identifier = b.identifier)
    (hlazy : b'.lazyPrevious = b.lazyPrevious) (hcap : b'.content.numItems ≤ cap) :
    ∃ heap, lc.heap.setValue p b' = some heap ∧
      Evolves cap lc (xs ++ (p, b) :: ys) [] { lc with heap := heap } (xs ++ (p, b') :: ys) := by
  obtain ⟨heap, hset, hcells⟩ := h.cells.setValue b'
  have hbase : baseOf (xs ++ (p, b') :: ys) = baseOf (xs ++ (p, b) :: ys) := by
    cases xs <;> simp [baseOf, hlazy]
  refine ⟨heap, hset, ⟨⟨hcells, ?_, ?_, ?_, ?_⟩, hbase, le_rfl, rfl, rfl, ?_, by simp, by simp⟩⟩
  · simpa [hid] using h.distinct
  · intro id hmem
    exact h.bounded id (by simpa [hid] using hmem)
  · have hold := h.capacity
    simp only [chainOf_append, chainOf_cons, forall_mem_append, forall_mem_cons] at hold ⊢
    exact ⟨hold.1, hcap, hold.2.2⟩
  · have hold := h.lazy
    cases xs with
    | nil => exact hold
    | cons x xs =>
      simp only [cons_append, tail_cons, forall_mem_append, forall_mem_cons] at hold ⊢
      exact ⟨hold.1, hlazy.trans hold.2.1, hold.2.2⟩
  · cases lc.updates <;> simp [appendUpdates]

theorem Linked.setContent (content : ChunkContent Item Gap) (hcap : content.numItems ≤ cap) :
    ∃ lc', lc.setContent p content = some lc' ∧
      Evolves cap lc (xs ++ (p, b) :: ys) [] lc'
        (xs ++ (p, { b with content := content }) :: ys) := by
  obtain ⟨heap, hset, hev⟩ := h.setBody { b with content := content } rfl rfl hcap
  exact ⟨_, by simp [LinkedChunk.setContent, h.cells.read_eq, hset], hev⟩

theorem Linked.extendItems (items new : List Item) (hcap : (items ++ new).length ≤ cap) :
    ∃ lc', lc.extendItems p b.identifier items new = some lc' ∧
      Evolves cap lc (xs ++ (p, b) :: ys) [.pushItems ⟨b.identifier, items.length⟩ new] lc'
        (xs ++ (p, { b with content := .items (items ++ new) }) :: ys) := by
  obtain ⟨lc', hset, hev⟩ := h.setContent (.items (items ++ new)) hcap
  refine ⟨lc'.push (.pushItems ⟨b.identifier, items.length⟩ new), ?_, ?_⟩
  · simp [LinkedChunk.extendItems, hset]
  · exact hev.trans (hev.linked.push _ rfl (by simp))

end

variable {heap : Arena (ChunkBody Item Gap)} {q : ℕ}

/-- A new empty chunk with the next identifier, wherever it goes. -/
theorem Linked.insertChunk (h : Linked cap lc (xs ++ ys)) (b' : ChunkBody Item Gap)
    (xs' ys' : Cells Item Gap) (previous next : Option ℕ)
    (hcells : DList heap (xs' ++ (q, b') :: ys')) (hxs : chainOf xs' = chainOf xs)
    (hys : chainOf ys' = chainOf ys) (hid : b'.identifier = lc.chunkIdentifierGenerator + 1)
    (hempty : b'.content.numItems = 0)
    (hlazy : ∀ x ∈ (xs' ++ (q, b') :: ys').tail, x.2.lazyPrevious = none)
    (hbase : baseOf (xs' ++ (q, b') :: ys') = baseOf (xs ++ ys)) :
    Evolves cap lc (xs ++ ys)
      [newChunkUpdate previous (lc.chunkIdentifierGenerator + 1) next b'.content]
      (LinkedChunk.push
        { lc with heap := heap, chunkIdentifierGenerator := lc.chunkIdentifierGenerator + 1 }
        (newChunkUpdate previous (lc.chunkIdentifierGenerator + 1) next b'.content))
      (xs' ++ (q, b') :: ys') := by
  have hchain : chainOf (xs' ++ (q, b') :: ys') =
      chainOf xs ++ (lc.chunkIdentifierGenerator + 1, b'.content) :: chainOf ys := by
    simp [hxs, hys, hid]
  have hfresh : lc.chunkIdentifierGenerator + 1 ∉ identifiers (chainOf (xs ++ ys)) := by
    intro hmem
    have := h.bounded _ hmem
    omega
  refine ⟨⟨hcells, ?_, ?_, ?_, hlazy⟩, hbase, Nat.le_succ _, rfl, rfl, rfl, ?_, ?_⟩
  · have hdistinct := h.distinct
    rw [chainOf_append, identifiers_append] at hdistinct hfresh
    rw [hchain, identifiers_append, identifiers_cons]
    exact nodup_middle.mpr (nodup_cons.mpr ⟨hfresh, hdistinct⟩)
  · have hold : ∀ id ∈ identifiers (chainOf (xs ++ ys)), id ≤ lc.chunkIdentifierGenerator + 1 :=
      fun id hmem => Nat.le_succ_of_le (h.bounded id hmem)
    simp only [hchain, chainOf_append, identifiers_append, identifiers_cons, forall_mem_append,
      forall_mem_cons] at hold ⊢
    exact ⟨hold.1, le_rfl, hold.2⟩
  · have hold := h.capacity
    simp only [hchain, chainOf_append, forall_mem_append, forall_mem_cons] at hold ⊢
    exact ⟨hold.1, hempty ▸ Nat.zero_le _, hold.2⟩
  · intro u hu new hnew
    simp only [mem_singleton] at hu
    subst hu
    simp at hnew
    subst hnew
    exact ⟨Nat.lt_succ_self _, le_rfl⟩
  · cases b'.content <;> simp [newChunkUpdate]

variable {b' : ChunkBody Item Gap}

/-- Linking a leaked chunk after another one. -/
theorem insertNext_eq (lc : LinkedChunk Item Gap) (h : DList lc.heap (xs ++ (p, b) :: ys))
    (hq : lc.heap.read q = some ⟨none, none, b'⟩) (hnew : q ∉ (xs ++ (p, b) :: ys).map Prod.fst) :
    ∃ heap, DList heap (xs ++ (p, b) :: (q, b') :: ys) ∧
      lc.insertNext p q = some (LinkedChunk.push { lc with heap := heap }
        (newChunkUpdate (some b.identifier) b'.identifier
          (headIdentifier (chainOf ys)) b'.content)) := by
  obtain ⟨heap, hlink, hcells⟩ := h.linkAfter hq hnew
  have hcells' : DList heap ((xs ++ [(p, b)]) ++ (q, b') :: ys) := by simpa using hcells
  have hprevious := identifierAt_lastPtr { lc with heap := heap } _ _ hcells'
  have hnext := identifierAt_headPtr { lc with heap := heap } (xs ++ [(p, b), (q, b')]) ys
    (by simpa using hcells)
  simp at hprevious
  refine ⟨heap, hcells, ?_⟩
  simp [insertNext, hlink, hcells'.read_eq, hprevious, hnext]

theorem Linked.insertNextLeaked (h : Linked cap lc (xs ++ (p, b) :: ys))
    (content : ChunkContent Item Gap) (hempty : content.numItems = 0) :
    ∃ q lc', lc.insertNextLeaked p content = some (q, lc') ∧
      Evolves cap lc (xs ++ (p, b) :: ys)
        [newChunkUpdate (some b.identifier) (lc.chunkIdentifierGenerator + 1)
          (headIdentifier (chainOf ys)) content] lc'
        (xs ++ (p, b) :: (q, ⟨none, lc.chunkIdentifierGenerator + 1, content⟩) :: ys) := by
  set gen := lc.chunkIdentifierGenerator with hgen
  set body : ChunkBody Item Gap := ⟨none, gen + 1, content⟩ with hbody
  let leaked : LinkedChunk Item Gap :=
    { lc with heap := lc.heap.alloc body, chunkIdentifierGenerator := gen + 1 }
  obtain ⟨heap, hcells, hins⟩ := insertNext_eq leaked (h.cells.alloc body)
    (Arena.read_alloc_new lc.heap) h.cells.length_notMem
  refine ⟨lc.heap.length, LinkedChunk.push { leaked with heap := heap }
    (newChunkUpdate (some b.identifier) (gen + 1) (headIdentifier (chainOf ys))
      content), ?_, ?_⟩
  · change (leaked.insertNext p lc.heap.length >>= fun lc' => some (lc.heap.length, lc')) = _
    rw [hins]
    rfl
  · have hlinked : Linked cap lc ((xs ++ [(p, b)]) ++ ys) := by simpa using h
    have hev := hlinked.insertChunk body (xs ++ [(p, b)]) ys
      (some b.identifier) (headIdentifier (chainOf ys)) (by simpa using hcells) rfl rfl rfl hempty
      ?_ (by cases xs <;> rfl)
    · simpa using hev
    · have hold := h.lazy
      rw [append_assoc]
      cases xs with
      | nil => simpa [hbody] using hold
      | cons x xs =>
        simp only [cons_append, nil_append, tail_cons, forall_mem_append, forall_mem_cons] at hold ⊢
        exact ⟨hold.1, hold.2.1, rfl, hold.2.2⟩

theorem setLazyPrevious_eq (lc : LinkedChunk Item Gap) {c : Chunk Item Gap}
    {heap : Arena (ChunkBody Item Gap)} (lazyPrevious : Option ℕ) (hread : lc.heap.read p = some c)
    (hset : lc.heap.setValue p { c.value with lazyPrevious := lazyPrevious } = some heap) :
    lc.setLazyPrevious p lazyPrevious = some { lc with heap := heap } := by
  simp [setLazyPrevious, hread, hset]

theorem linkBefore_eq (lc : LinkedChunk Item Gap) (h : DList lc.heap (xs ++ (p, b) :: ys))
    (hq : lc.heap.read q = some ⟨none, none, b'⟩) (hnew : q ∉ (xs ++ (p, b) :: ys).map Prod.fst) :
    ∃ heap, DList heap (xs ++ (q, b') :: (p, b) :: ys) ∧
      lc.linkBefore p q = some (LinkedChunk.push { lc with heap := heap }
        (newChunkUpdate (lastIdentifier b'.lazyPrevious (chainOf xs)) b'.identifier
          (some b.identifier) b'.content)) := by
  obtain ⟨heap, hlink, hcells⟩ := h.linkBefore hq hnew
  have hprevious := identifierAt_lastPtr { lc with heap := heap } _ _ hcells
  have hnext := identifierAt_headPtr { lc with heap := heap } (xs ++ [(q, b')]) ((p, b) :: ys)
    (by simpa using hcells)
  have hor : (lastIdentifier none (chainOf xs)).or b'.lazyPrevious =
      lastIdentifier b'.lazyPrevious (chainOf xs) := by
    simp [lastIdentifier]
  refine ⟨heap, hcells, ?_⟩
  simp only [linkBefore, hlink, hcells.read_eq, hprevious, hnext, hor, bind_eq_bind, bind_some]
  rfl

section

variable (h : Linked cap lc (xs ++ (p, b) :: ys))
include h

/-- Inserting a leaked chunk before another one. The new chunk takes the `lazy_previous`
of the chunk it precedes when that was the first one. -/
theorem Linked.insertBeforeLeaked (content : ChunkContent Item Gap)
    (hempty : content.numItems = 0) :
    ∃ lc' b₁ b₂,
      (lc.nextIdentifier.2.newLeaked (lc.chunkIdentifierGenerator + 1) content).2.insertBefore p
        lc.heap.length = some lc' ∧
      b₁.identifier = lc.chunkIdentifierGenerator + 1 ∧ b₁.content = content ∧
      b₂.identifier = b.identifier ∧ b₂.content = b.content ∧
      Evolves cap lc (xs ++ (p, b) :: ys)
        [newChunkUpdate (lastIdentifier (baseOf (xs ++ (p, b) :: ys)) (chainOf xs))
          (lc.chunkIdentifierGenerator + 1) (some b.identifier) content] lc'
        (xs ++ (lc.heap.length, b₁) :: (p, b₂) :: ys) := by
  set gen := lc.chunkIdentifierGenerator with hgen
  set q := lc.heap.length with hqlen
  set body : ChunkBody Item Gap := ⟨none, gen + 1, content⟩ with hbody
  let leaked : LinkedChunk Item Gap :=
    { lc with heap := lc.heap.alloc body, chunkIdentifierGenerator := gen + 1 }
  have halloc : DList leaked.heap (xs ++ (p, b) :: ys) := h.cells.alloc body
  have hq : leaked.heap.read q = some ⟨none, none, body⟩ := Arena.read_alloc_new lc.heap
  have hnot : q ∉ (xs ++ (p, b) :: ys).map Prod.fst := h.cells.length_notMem
  have hold := h.lazy
  rcases eq_nil_or_concat xs with rfl | ⟨l, ⟨a, c⟩, rfl⟩
  · let body' : ChunkBody Item Gap := ⟨b.lazyPrevious, gen + 1, content⟩
    let b' : ChunkBody Item Gap := ⟨none, b.identifier, b.content⟩
    have hpq : q ≠ p := fun he => hnot (by simp [he])
    obtain ⟨heap₁, hset₁, hcells₁, hq₁⟩ := halloc.setValue_unlisted hq hnot body'
    obtain ⟨heap₂, hset₂, hcells₂⟩ := hcells₁.setValue (v := b) b'
    have hq₂ : heap₂.read q = some ⟨none, none, body'⟩ := by
      rw [Arena.read_setValue_ne _ hset₂ hpq, hq₁]
    obtain ⟨heap₃, hcells₃, hlink⟩ := linkBefore_eq { leaked with heap := heap₂ }
      hcells₂ hq₂ (by simpa using hnot)
    have h₁ := setLazyPrevious_eq leaked b.lazyPrevious hq hset₁
    have h₂ := setLazyPrevious_eq { leaked with heap := heap₁ } none
      hcells₁.read_eq hset₂
    have heq : leaked.insertBefore p q =
        linkBefore { leaked with heap := heap₂ } p q := by
      simp only [insertBefore, halloc.read_eq, lastPtr, h₁, h₂, bind_eq_bind, bind_some]
    refine ⟨_, body', b', heq.trans hlink, rfl, rfl, rfl, rfl, ?_⟩
    refine h.insertChunk body' [] ((p, b') :: ys) _ _ hcells₃ rfl rfl rfl
      hempty ?_ rfl
    exact forall_mem_cons.mpr ⟨rfl, hold⟩
  · obtain ⟨heap, hcells, hlink⟩ := linkBefore_eq leaked halloc hq hnot
    have heq : leaked.insertBefore p q = leaked.linkBefore p q := by
      simp [insertBefore, halloc.read_eq, lastPtr_append, lastPtr]
    refine ⟨_, body, b, heq.trans hlink, rfl, rfl, rfl, rfl, ?_⟩
    have hbase : lastIdentifier (baseOf (l.concat (a, c) ++ (p, b) :: ys))
        (chainOf (l.concat (a, c))) =
        lastIdentifier body.lazyPrevious (chainOf (l.concat (a, c))) := by simp
    rw [hbase]
    refine h.insertChunk body (l.concat (a, c)) ((p, b) :: ys) _ _ hcells
      rfl rfl rfl hempty ?_ (by cases l <;> rfl)
    cases l with
    | nil => exact forall_mem_cons.mpr ⟨rfl, hold⟩
    | cons z l =>
      simp only [concat_eq_append, cons_append, append_assoc, tail_cons, nil_append,
        forall_mem_append, forall_mem_cons] at hold ⊢
      exact ⟨hold.1, hold.2.1, rfl, hold.2.2⟩

/-- A chunk is taken out of the list, and what follows keeps its identifiers and contents. -/
theorem Linked.removeChunk {ys' : Cells Item Gap} (hcells : DList heap (xs ++ ys'))
    (hys : chainOf ys' = chainOf ys) (hlazy : ∀ x ∈ (xs ++ ys').tail, x.2.lazyPrevious = none)
    (hbase : baseOf (xs ++ ys') = baseOf (xs ++ (p, b) :: ys)) :
    Evolves cap lc (xs ++ (p, b) :: ys) [.removeChunk b.identifier]
      (LinkedChunk.push { lc with heap := heap } (.removeChunk b.identifier)) (xs ++ ys') := by
  have hsub : Sublist (chainOf (xs ++ ys')) (chainOf (xs ++ (p, b) :: ys)) := by
    rw [chainOf_append, chainOf_append, hys]
    exact Sublist.append_left (sublist_cons_self _ _) _
  refine ⟨⟨hcells, ?_, ?_, ?_, hlazy⟩, hbase, le_rfl, rfl, rfl, rfl, ?_, by simp⟩
  · exact h.distinct.sublist (hsub.map _)
  · exact fun id hmem => h.bounded id ((hsub.map _).subset hmem)
  · exact fun chunk hmem => h.capacity chunk (hsub.subset hmem)
  · intro u hu new hnew
    simp only [mem_singleton] at hu
    subst hu
    cases hnew

theorem Linked.unlink (hne : xs = [] → ys ≠ []) :
    ∃ lc' ys', lc.unlink p = some lc' ∧ chainOf ys' = chainOf ys ∧
      ys'.map Prod.fst = ys.map Prod.fst ∧
      Evolves cap lc (xs ++ (p, b) :: ys) [.removeChunk b.identifier] lc' (xs ++ ys') := by
  obtain ⟨heap₁, hset₁, hcells₁⟩ :=
    h.cells.setValue (⟨none, b.identifier, b.content⟩ : ChunkBody Item Gap)
  obtain ⟨heap₂, hunlink, hcells₂⟩ := hcells₁.unlink
  have h₁ := setLazyPrevious_eq lc none h.cells.read_eq hset₁
  have hold := h.lazy
  cases ys with
  | nil =>
    have hxs : xs ≠ [] := fun he => hne he rfl
    refine ⟨LinkedChunk.push { lc with heap := heap₂ } (.removeChunk b.identifier), [], ?_, rfl,
      rfl, h.removeChunk hcells₂ rfl ?_ ?_⟩
    · simp [unlink, h.cells.read_eq, h₁, hunlink, headPtr]
    · rw [append_nil]
      rw [tail_append_of_ne_nil hxs] at hold
      exact (forall_mem_append.mp hold).1
    · cases xs with
      | nil => exact absurd rfl hxs
      | cons x xs => rfl
  | cons y r =>
    obtain ⟨q, c⟩ := y
    let c' : ChunkBody Item Gap := ⟨b.lazyPrevious, c.identifier, c.content⟩
    obtain ⟨heap₃, hset₃, hcells₃⟩ := hcells₂.setValue c'
    have h₃ := setLazyPrevious_eq { lc with heap := heap₂ } b.lazyPrevious
      hcells₂.read_eq hset₃
    refine ⟨LinkedChunk.push { lc with heap := heap₃ } (.removeChunk b.identifier),
      (q, c') :: r, ?_, rfl, rfl, h.removeChunk hcells₃ rfl ?_ ?_⟩
    · simp [unlink, h.cells.read_eq, h₁, hunlink, headPtr, h₃]
    · cases xs with
      | nil => exact fun z hz => hold z (mem_cons_of_mem _ hz)
      | cons x xs =>
        simp only [cons_append, tail_cons, forall_mem_append, forall_mem_cons] at hold ⊢
        exact ⟨hold.1, hold.2.1, hold.2.2.2⟩
    · cases xs <;> rfl

end

theorem Linked.next_fresh (h : Linked cap lc xs) :
    lc.chunkIdentifierGenerator + 1 ∉ identifiers (chainOf xs) := by
  intro hmem
  have := h.bounded _ hmem
  omega

/-- `Chunk::push_items` fills the chunk `p` and the chunks it opens after it; `q` is the
last of them. -/
theorem Linked.pushItems (hcap : 0 < cap) (fuel : ℕ) (h : Linked cap lc (xs ++ (p, b) :: ys))
    (items : List Item)
    (hfuel : items.length + 1 ≤ fuel ∨ 0 < fuel ∧ items.length ≤ fuel ∧ b.content = .items []) :
    ∃ q lc' us content zs, pushItems cap fuel lc p items = some (q, lc') ∧
      Evolves cap lc (xs ++ (p, b) :: ys) us lc'
        (xs ++ (p, { b with content := content }) :: zs ++ ys) ∧
      lastPtr (some p) zs = some q ∧
      Grow (baseOf (xs ++ (p, b) :: ys)) (chainOf ys) (chainOf (xs ++ [(p, b)])) items us
        (chainOf (xs ++ (p, { b with content := content }) :: zs)) := by
  induction fuel generalizing lc xs p b items with
  | zero => omega
  | succ fuel ih =>
    by_cases hempty : items = []
    · subst hempty
      refine ⟨p, lc, [], b.content, [], by simp [pushItems], by simpa using .refl h, rfl, ?_⟩
      exact .done _
    -- open a new chunk after `p`, whose body is now `b'`, and push the remaining items there
    have hspill : ∀ (lc₁ : LinkedChunk Item Gap) (b' : ChunkBody Item Gap) (rest : List Item),
        rest.length ≤ fuel → 0 < fuel → Linked cap lc₁ (xs ++ (p, b') :: ys) →
        ∃ q lc' us zs,
          (lc₁.insertNextLeaked p (.items []) >>= fun opened =>
            pushItems cap fuel opened.2 opened.1 rest) = some (q, lc') ∧
          Evolves cap lc₁ (xs ++ (p, b') :: ys) us lc' (xs ++ (p, b') :: zs ++ ys) ∧
          lastPtr (some p) zs = some q ∧
          Grow (baseOf (xs ++ (p, b') :: ys)) (chainOf ys) (chainOf (xs ++ [(p, b')])) rest us
            (chainOf (xs ++ (p, b') :: zs)) := by
      intro lc₁ b' rest hrest hpos h₁
      obtain ⟨q₁, lc₂, hins, hev₁⟩ := h₁.insertNextLeaked (.items []) rfl
      have h₂ := hev₁.linked
      rw [show xs ++ (p, b') :: (q₁, ⟨none, lc₁.chunkIdentifierGenerator + 1, .items []⟩) :: ys =
        (xs ++ [(p, b')]) ++ (q₁, ⟨none, lc₁.chunkIdentifierGenerator + 1, .items []⟩) :: ys by
          simp] at h₂
      obtain ⟨q, lc', us, content', zs, hpush, hev₂, hlast, hgrow⟩ :=
        ih h₂ rest (.inr ⟨hpos, hrest, rfl⟩)
      have hbase := hev₁.base
      refine ⟨q, lc', _, (q₁, ⟨none, lc₁.chunkIdentifierGenerator + 1, content'⟩) :: zs, ?_,
        by simpa using hev₁.trans (by simpa using hev₂), hlast, ?_⟩
      · rw [hins]
        exact hpush
      · rw [show baseOf (xs ++ [(p, b')] ++ (q₁, _) :: ys) = baseOf (xs ++ (p, b') :: ys) by
          simpa using hbase] at hgrow
        have hspill := Grow.spill (b := baseOf (xs ++ (p, b') :: ys)) (r := chainOf ys)
          (chainOf (xs ++ [(p, b')])) (lc₁.chunkIdentifierGenerator + 1)
          (by simpa using h₁.next_fresh) (by simpa using hgrow)
        simpa [newChunkUpdate] using hspill
    have hpos : 0 < items.length := length_pos_iff.mpr hempty
    have hne : items.isEmpty = false := by simpa using hempty
    simp only [pushItems, hne, h.cells.read_eq, bind_eq_bind, bind_some]
    cases hcontent : b.content with
    | gap g =>
      have hlen : items.length ≤ fuel := by
        rcases hfuel with hfuel | ⟨-, -, hitems⟩
        · omega
        · rw [hcontent] at hitems
          cases hitems
      obtain ⟨q, lc', us, zs, hpush, hev, hlast, hgrow⟩ :=
        hspill lc b items hlen (by omega) h
      exact ⟨q, lc', us, b.content, zs, by simpa using hpush, hev, hlast, hgrow⟩
    | items current =>
      by_cases hfits : items.length ≤ cap - current.length
      · obtain ⟨lc', hext, hev⟩ := h.extendItems current items (by
          have := h.capacity (b.identifier, b.content) (by simp)
          simp only [hcontent, ChunkContent.numItems] at this
          simp only [length_append]
          omega)
        refine ⟨p, lc', _, .items (current ++ items), [], by simp [hfits, hext], by simpa using hev,
          rfl, ?_⟩
        have hgrow := Grow.extend (b := baseOf (xs ++ (p, b) :: ys)) (r := chainOf ys)
          (chainOf xs) b.identifier current items [] (.done _)
        simpa [hcontent] using hgrow
      · by_cases hfree : 0 < cap - current.length
        · obtain ⟨lc₁, hext, hev₁⟩ := h.extendItems current (items.take (cap - current.length)) (by
            simp only [length_append, length_take]
            omega)
          obtain ⟨q, lc', us, zs, hpush, hev₂, hlast, hgrow⟩ :=
            hspill lc₁ _ (items.drop (cap - current.length))
              (by simp only [length_drop]; omega) (by omega) hev₁.linked
          refine ⟨q, lc', _, _, zs, ?_, hev₁.trans hev₂, hlast, ?_⟩
          · simpa [hfits, hfree, hext] using hpush
          · rw [hev₁.base] at hgrow
            have hextend := Grow.extend (b := baseOf (xs ++ (p, b) :: ys))
              (r := chainOf ys) (chainOf xs) b.identifier current
              (items.take (cap - current.length)) (items.drop (cap - current.length))
              (by simpa using hgrow)
            rw [take_append_drop] at hextend
            simpa [hcontent] using hextend
        · have hfull : current ≠ [] := by
            rintro rfl
            simp at hfree
            omega
          have hlen : items.length ≤ fuel := by
            rcases hfuel with hfuel | ⟨-, -, hitems⟩
            · omega
            · rw [hcontent] at hitems
              exact absurd (by simpa using hitems) hfull
          obtain ⟨q, lc', us, zs, hpush, hev, hlast, hgrow⟩ :=
            hspill lc b items hlen (by omega) h
          refine ⟨q, lc', us, b.content, zs, ?_, hev, hlast, hgrow⟩
          have hzero : cap - current.length = 0 := by omega
          simpa [hfits, hzero, hempty] using hpush

theorem Linked.free (h : Linked cap lc xs) (hp : p ∉ xs.map Prod.fst) :
    Linked cap (lc.free p) xs :=
  ⟨h.cells.free_unlisted hp, h.distinct, h.bounded, h.capacity, h.lazy⟩

end Pieces

end MatrixSdk.Layouts

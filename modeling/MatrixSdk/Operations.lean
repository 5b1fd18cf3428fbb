import MatrixSdk.Layouts

/-!
The operations of the linked chunk, each one specified on the chain it represents: the
new chain, the updates it emits, and that these updates lead from the one to the other.
A linked chunk without a first chunk gets one as soon as it is looked at, so every
specification starts from `started chain`.
-/
namespace MatrixSdk.Layouts

open LinkedCells Chunks Chains LinkedChunk List

variable {Item Gap : Type} {cap : ℕ} {lc lc' lc'' : LinkedChunk Item Gap} {xs ys : Cells Item Gap}
  {base : Option ℕ} {chain chain' chain'' : Chain Item Gap} {us us' : List (Update Item Gap)}

/-- `lc` holds the chunks of `chain` in order; `base` is the `lazy_previous` of the first. -/
def Represents (cap : ℕ) (lc : LinkedChunk Item Gap) (base : Option ℕ)
    (chain : Chain Item Gap) : Prop :=
  ∃ xs, Layout cap lc xs ∧ chainOf xs = chain ∧ baseOf xs = base

structure Mutates (cap : ℕ) (base : Option ℕ) (lc : LinkedChunk Item Gap)
    (chain : Chain Item Gap) (us : List (Update Item Gap)) (lc' : LinkedChunk Item Gap)
    (chain' : Chain Item Gap) : Prop where
  represents : Represents cap lc' base chain'
  nonempty : chain' ≠ []
  generator : lc.chunkIdentifierGenerator ≤ lc'.chunkIdentifierGenerator
  log : lc'.updates = lc.updates.map (appendUpdates us)
  fresh : ∀ u ∈ us, ∀ new, newIdentifier u = some new →
    new ≤ lc'.chunkIdentifierGenerator ∧ (chain ≠ [] → lc.chunkIdentifierGenerator < new)
  noClear : .clear ∉ us
  steps : Steps base (.whole chain) us (.whole chain')

theorem Mutates.trans (h₁ : Mutates cap base lc chain us lc' chain')
    (h₂ : Mutates cap base lc' chain' us' lc'' chain'') :
    Mutates cap base lc chain (us ++ us') lc'' chain'' where
  represents := h₂.represents
  nonempty := h₂.nonempty
  generator := h₁.generator.trans h₂.generator
  log := by
    rw [h₂.log, h₁.log]
    cases lc.updates <;> simp [appendUpdates]
  fresh u hu new hnew := by
    have hg₁ := h₁.generator
    have hg₂ := h₂.generator
    rcases mem_append.mp hu with hu | hu
    · exact ⟨(h₁.fresh u hu new hnew).1.trans hg₂, (h₁.fresh u hu new hnew).2⟩
    · have hlt := (h₂.fresh u hu new hnew).2 h₁.nonempty
      exact ⟨(h₂.fresh u hu new hnew).1, fun _ => hg₁.trans_lt hlt⟩
  noClear := by simp [h₁.noClear, h₂.noClear]
  steps := h₁.steps.append h₂.steps

/-- What the linked chunk looks like once its first chunk has been asked for. -/
def started : Chain Item Gap → Chain Item Gap
  | [] => [(firstIdentifier, .items [])]
  | chunk :: chain => chunk :: chain

def startUpdates : Chain Item Gap → List (Update Item Gap)
  | [] => [.newItemsChunk none firstIdentifier none]
  | _ :: _ => []

/-- The linked chunk after its first chunk has been asked for. -/
def start (lc : LinkedChunk Item Gap) : LinkedChunk Item Gap := lc.firstChunkPtr.2

@[simp]
theorem start_chunkIdentifierGenerator (lc : LinkedChunk Item Gap) :
    (start lc).chunkIdentifierGenerator = lc.chunkIdentifierGenerator := by
  cases hfirst : lc.first <;>
    simp [start, LinkedChunk.firstChunkPtr, hfirst, LinkedChunk.push, newLeaked]

variable {p id : ℕ} {b : ChunkBody Item Gap}

theorem firstChunkPtr_of_some (h : lc.first = some p) : lc.firstChunkPtr = (p, lc) := by
  simp [LinkedChunk.firstChunkPtr, h]

theorem start_of_some (h : lc.first = some p) : start lc = lc := by
  simp [start, firstChunkPtr_of_some h]

theorem Layout.first_eq (h : Layout cap lc ((p, b) :: xs)) : lc.first = some p := h.first

theorem Layout.start_eq (h : Layout cap lc xs) (hne : xs ≠ []) : start lc = lc := by
  cases xs with
  | nil => exact absurd rfl hne
  | cons x xs => exact start_of_some h.first

variable {q : ℕ} {l r : Chain Item Gap} {content : ChunkContent Item Gap}

/-- Asking for the first chunk of an empty linked chunk creates it. -/
theorem Layout.start_nil (h : Layout cap lc []) :
    Layout cap (start lc) [(lc.heap.length, ⟨none, firstIdentifier, .items []⟩)] ∧
    (start lc).updates = lc.updates.map
      (appendUpdates [.newItemsChunk none firstIdentifier none]) ∧
    (start lc).chunkIdentifierGenerator = lc.chunkIdentifierGenerator := by
  have hfirst : lc.first = none := h.first
  have hlast : lc.last = none := by
    rcases h.last with hlast | hlast
    · exact hlast
    · exact hlast.1
  simp only [start, LinkedChunk.firstChunkPtr, hfirst, LinkedChunk.push, newLeaked]
  refine ⟨⟨⟨⟨⟨?_, trivial⟩, by simp⟩, by simp, by simp [firstIdentifier],
    by simp [ChunkContent.numItems], by simp⟩, rfl, .inr ⟨hlast, by simp⟩⟩, rfl, trivial⟩
  exact Arena.read_alloc_new _

theorem Represents.start_eq (h : Represents cap lc base chain) (hne : chain ≠ []) :
    start lc = lc := by
  obtain ⟨xs, hlayout, rfl, -⟩ := h
  refine hlayout.start_eq ?_
  rintro rfl
  exact hne rfl

theorem Represents.starts (h : Represents cap lc base chain) :
    ∃ xs, Layout cap (start lc) xs ∧ xs ≠ [] ∧ chainOf xs = started chain ∧ baseOf xs = base ∧
      Mutates cap base lc chain (startUpdates chain) (start lc) (started chain) := by
  obtain ⟨xs, hlayout, rfl, rfl⟩ := h
  cases xs with
  | nil =>
    obtain ⟨hstart, hlog, hgen⟩ := hlayout.start_nil
    refine ⟨_, hstart, by simp, rfl, rfl, ⟨⟨_, hstart, rfl, rfl⟩, by simp [started], hgen.ge, hlog,
      ?_, by simp [startUpdates], ?_⟩⟩
    · intro u hu new hnew
      simp only [chainOf_nil, startUpdates, mem_singleton] at hu
      subst hu
      simp [newIdentifier] at hnew
      subst hnew
      exact ⟨Nat.zero_le _, fun hne => absurd rfl hne⟩
    · exact .single (Step.newChunk (b := none) [] [] _ (.items []) rfl (by simp))
  | cons x xs =>
    have heq : start lc = lc := hlayout.start_eq (by simp)
    rw [heq]
    refine ⟨_, hlayout, by simp, rfl, rfl, ⟨⟨_, hlayout, rfl, rfl⟩, by simp [started], le_rfl, ?_,
      by simp [startUpdates], by simp [startUpdates], .nil _⟩⟩
    cases lc.updates <;> simp [startUpdates, appendUpdates]

section

variable (h : Layout cap lc xs)
include h

theorem Layout.latestChunkPtr (hq : lastPtr none xs = some q) : lc.latestChunkPtr = (q, lc) := by
  rcases h.last with hlast | ⟨hlast, hlen⟩
  · simp [LinkedChunk.latestChunkPtr, hlast, hq]
  · match xs, hlen with
    | [], _ => cases hq
    | [(p, b)], _ =>
      obtain rfl : p = q := by simpa [lastPtr] using hq
      simp [LinkedChunk.latestChunkPtr, hlast, firstChunkPtr_of_some h.first_eq]

theorem Layout.start_latestChunkPtr : (start lc).latestChunkPtr = lc.latestChunkPtr := by
  cases xs with
  | nil =>
    obtain ⟨hstart, -, -⟩ := h.start_nil
    have hlast : lc.last = none := by
      rcases h.last with hlast | hlast
      · exact hlast
      · exact hlast.1
    rw [hstart.latestChunkPtr rfl]
    simp [LinkedChunk.latestChunkPtr, hlast, start, LinkedChunk.firstChunkPtr,
      show lc.first = none from h.first, LinkedChunk.push, newLeaked]
  | cons x xs => rw [h.start_eq (by simp)]

theorem Layout.start_chunkPtr (id : ℕ) : (start lc).chunkPtr id = lc.chunkPtr id := by
  simp [chunkPtr, h.start_latestChunkPtr]

/-- The lookup by identifier searches the whole list. -/
theorem Layout.chunkPtr_eq (hne : xs ≠ []) (id : ℕ) :
    lc.chunkPtr id =
      some ((xs.reverse.find? fun x => x.2.identifier == id).map Prod.fst, lc) := by
  obtain ⟨q, hq⟩ : ∃ q, lastPtr none xs = some q := by
    rw [lastPtr_none_eq, getLast?_eq_some_getLast hne]
    exact ⟨_, rfl⟩
  have hfind := findBackward_of_seg lc.heap (fun body => body.identifier == id) none xs
    lc.heap.length h.cells.seg h.cells.length_le
  rw [hq] at hfind
  simp [chunkPtr, h.latestChunkPtr hq, hfind]

theorem Layout.chunkPtr_missing (hne : xs ≠ []) (hid : id ∉ identifiers (chainOf xs)) :
    lc.chunkPtr id = some (none, lc) := by
  rw [h.chunkPtr_eq hne]
  have hnone : xs.reverse.find? (fun x => x.2.identifier == id) = none := by
    rw [find?_eq_none]
    intro y hy heq
    refine hid (mem_map.mpr ⟨_, mem_map.mpr ⟨y, mem_reverse.mp hy, rfl⟩, ?_⟩)
    simpa using heq
  simp [hnone]

end

theorem Layout.chunkPtr_found (h : Layout cap lc (xs ++ (p, b) :: ys)) :
    lc.chunkPtr b.identifier = some (some p, lc) := by
  have hnone : ys.reverse.find? (fun x => x.2.identifier == b.identifier) = none := by
    rw [find?_eq_none]
    intro y hy heq
    have hdistinct := h.distinct
    simp at hdistinct
    have hnot := (nodup_cons.mp (nodup_append.mp hdistinct).2.1).1
    refine hnot ?_
    have hid : y.2.identifier = b.identifier := by simpa using heq
    rw [← hid]
    exact mem_map.mpr ⟨_, mem_map.mpr ⟨y, mem_reverse.mp hy, rfl⟩, rfl⟩
  rw [h.chunkPtr_eq (by simp)]
  simp [find?_append, hnone]

theorem exists_cells_of_chainOf (h : chainOf xs = l ++ (id, content) :: r) :
    ∃ xs₁ p b xs₂, xs = xs₁ ++ (p, b) :: xs₂ ∧ chainOf xs₁ = l ∧ b.identifier = id ∧
      b.content = content ∧ chainOf xs₂ = r := by
  obtain ⟨xs₁, rest, rfl, hl, hrest⟩ := map_eq_append_iff.mp h
  obtain ⟨⟨p, b⟩, xs₂, rfl, hhead, hr⟩ := map_eq_cons_iff.mp hrest
  exact ⟨xs₁, p, b, xs₂, rfl, hl, congrArg Prod.fst hhead, congrArg Prod.snd hhead, hr⟩

section

variable (h : Represents cap lc base chain)
include h

/-- The operations that look a chunk up start from the chunk `p` of `start lc`. -/
theorem Represents.located (hchain : started chain = l ++ (id, content) :: r) :
    ∃ xs p b ys, Layout cap (start lc) (xs ++ (p, b) :: ys) ∧ chainOf xs = l ∧
      b.identifier = id ∧ b.content = content ∧ chainOf ys = r ∧
      baseOf (xs ++ (p, b) :: ys) = base ∧ lc.chunkPtr id = some (some p, start lc) ∧
      Mutates cap base lc chain (startUpdates chain) (start lc) (started chain) := by
  obtain ⟨zs, hlayout, -, hzs, hbase, hmut⟩ := h.starts
  obtain ⟨ws, hold, -, -⟩ := h
  obtain ⟨xs, p, b, ys, rfl, hl, hid, hcontent, hr⟩ := exists_cells_of_chainOf (hzs.trans hchain)
  refine ⟨xs, p, b, ys, hlayout, hl, hid, hcontent, hr, hbase, ?_, hmut⟩
  rw [← hold.start_chunkPtr, ← hid]
  exact hlayout.chunkPtr_found

/-- The operations at the end of the list start from the last chunk of `start lc`. -/
theorem Represents.latest :
    ∃ xs p b, Layout cap (start lc) (xs ++ [(p, b)]) ∧ chainOf (xs ++ [(p, b)]) = started chain ∧
      baseOf (xs ++ [(p, b)]) = base ∧ lc.latestChunkPtr = (p, start lc) ∧
      Mutates cap base lc chain (startUpdates chain) (start lc) (started chain) := by
  obtain ⟨zs, hlayout, hne, hzs, hbase, hmut⟩ := h.starts
  obtain ⟨ws, hold, -, -⟩ := h
  obtain ⟨xs, ⟨p, b⟩, rfl⟩ : ∃ xs x, zs = xs ++ [x] :=
    ⟨zs.dropLast, zs.getLast hne, (dropLast_append_getLast hne).symm⟩
  refine ⟨xs, p, b, hlayout, hzs, hbase, ?_, hmut⟩
  rw [← hold.start_latestChunkPtr]
  exact hlayout.latestChunkPtr (by simp [lastPtr_append, lastPtr])

theorem Represents.firstChunk :
    ∃ p b xs, Layout cap (start lc) ((p, b) :: xs) ∧ chainOf ((p, b) :: xs) = started chain ∧
      baseOf ((p, b) :: xs) = base ∧ lc.firstChunkPtr = (p, start lc) ∧
      Mutates cap base lc chain (startUpdates chain) (start lc) (started chain) := by
  obtain ⟨zs, hlayout, hne, hzs, hbase, hmut⟩ := h.starts
  obtain ⟨⟨p, b⟩, xs, rfl⟩ := exists_cons_of_ne_nil hne
  refine ⟨p, b, xs, hlayout, hzs, hbase, Prod.ext ?_ rfl, hmut⟩
  have hfirst : (start lc).first = some p := hlayout.first
  cases hold : lc.first with
  | none =>
    simpa [start, LinkedChunk.firstChunkPtr, hold, LinkedChunk.push, newLeaked]
      using hfirst
  | some q =>
    rw [start_of_some hold, hold] at hfirst
    simpa [LinkedChunk.firstChunkPtr, hold] using hfirst

theorem Represents.chunkPtr_missing (hid : id ∉ identifiers (started chain)) :
    lc.chunkPtr id = some (none, start lc) := by
  obtain ⟨zs, hlayout, hne, hzs, -, -⟩ := h.starts
  obtain ⟨ws, hold, -, -⟩ := h
  rw [← hold.start_chunkPtr]
  exact hlayout.chunkPtr_missing hne (hzs ▸ hid)

end

section WithItems

variable {α : Type} {l r : Chain Item Gap} {id : ℕ}
  (operation : ℕ → Chunk Item Gap → List Item → LinkedChunk Item Gap →
    Option (Outcome Item Gap α))

section

variable (h : Represents cap lc base chain)
include h

theorem Represents.withItems_gap {g : Gap} (hchain : started chain = l ++ (id, .gap g) :: r) :
    lc.withItems id operation = some (.error (.chunkIsAGap id), start lc) := by
  obtain ⟨xs, p, b, ys, hlayout, -, rfl, hcontent, -, -, hptr, -⟩ := h.located hchain
  simp [withItems, hptr, hlayout.cells.read_eq, hcontent]

theorem Represents.withItems_items {current : List Item}
    (hchain : started chain = l ++ (id, .items current) :: r) :
    ∃ xs p b ys, Layout cap (start lc) (xs ++ (p, b) :: ys) ∧ chainOf xs = l ∧
      b.identifier = id ∧ b.content = .items current ∧ chainOf ys = r ∧
      baseOf (xs ++ (p, b) :: ys) = base ∧
      Mutates cap base lc chain (startUpdates chain) (start lc) (started chain) ∧
      ∀ (β : Type) (operation : ℕ → Chunk Item Gap → List Item → LinkedChunk Item Gap →
          Option (Outcome Item Gap β)),
        lc.withItems id operation =
          operation p ⟨lastPtr none xs, headPtr ys none, b⟩ current (start lc) := by
  obtain ⟨xs, p, b, ys, hlayout, hl, hid, hcontent, hr, hbase, hptr, hmut⟩ := h.located hchain
  refine ⟨xs, p, b, ys, hlayout, hl, hid, hcontent, hr, hbase, hmut, fun β operation => ?_⟩
  simp [withItems, hptr, hlayout.cells.read_eq, hcontent]

end

end WithItems

theorem Evolves.mutates {xs' : Cells Item Gap} (hev : Evolves cap lc xs us lc' xs')
    (hlayout : Layout cap lc'' xs') (hne : xs' ≠ [])
    (hgen : lc''.chunkIdentifierGenerator = lc'.chunkIdentifierGenerator)
    (hlog : lc''.updates = lc'.updates)
    (hsteps : Steps (baseOf xs) (.whole (chainOf xs)) us (.whole (chainOf xs'))) :
    Mutates cap (baseOf xs) lc (chainOf xs) us lc'' (chainOf xs') where
  represents := ⟨xs', hlayout, rfl, hev.base⟩
  nonempty := by simpa [chainOf] using hne
  generator := hgen ▸ hev.generator
  log := hlog.trans hev.log
  fresh u hu new hnew := ⟨hgen ▸ (hev.fresh u hu new hnew).2, fun _ => (hev.fresh u hu new hnew).1⟩
  noClear := hev.noClear
  steps := hsteps

theorem Linked.of_ends (h : Linked cap lc xs) (hheap : lc'.heap = lc.heap)
    (hgen : lc'.chunkIdentifierGenerator = lc.chunkIdentifierGenerator) : Linked cap lc' xs :=
  ⟨hheap ▸ h.cells, h.distinct, hgen ▸ h.bounded, h.capacity, h.lazy⟩

/-- Where `Chunk::push_items` ends: at a chunk `q` that stands right before what followed. -/
theorem Linked.pushItems_end (hcap : 0 < cap) (h : Linked cap lc (xs ++ (p, b) :: ys))
    (items : List Item) :
    ∃ q c lc' us before, LinkedChunk.pushItems cap (items.length + 1) lc p items = some (q, lc') ∧
      Evolves cap lc (xs ++ (p, b) :: ys) us lc' (before ++ (q, c) :: ys) ∧
      headPtr (before ++ [(q, c)]) none = headPtr (xs ++ [(p, b)]) none ∧
      xs.length ≤ before.length ∧
      Grow (baseOf (xs ++ (p, b) :: ys)) (chainOf ys) (chainOf (xs ++ [(p, b)])) items us
        (chainOf (before ++ [(q, c)])) := by
  obtain ⟨q, lc', us, content, zs, hpush, hev, hlast, hgrow⟩ :=
    h.pushItems hcap (items.length + 1) items (.inl le_rfl)
  obtain ⟨before, c, hsplit⟩ : ∃ before c,
      xs ++ (p, { b with content := content }) :: zs = before ++ [(q, c)] := by
    refine (lastPtr_eq_some_iff none _ (by simp)).mp ?_
    rw [lastPtr_append]
    exact hlast
  rw [hsplit] at hev hgrow
  refine ⟨q, c, lc', us, before, hpush, by simpa using hev, ?_, ?_, hgrow⟩
  · rw [← hsplit, headPtr_append, headPtr_append]
    rfl
  · have hlen := congrArg List.length hsplit
    simp at hlen
    omega

theorem isFirstChunk_iff (next : Option ℕ) (b : ChunkBody Item Gap) :
    isFirstChunk ⟨lastPtr none xs, next, b⟩ = decide (xs = []) := by
  rcases eq_nil_or_concat xs with rfl | ⟨l, x, rfl⟩
  · rfl
  · simp [isFirstChunk, lastPtr_append, lastPtr]

theorem isLastChunk_iff (previous : Option ℕ) (b : ChunkBody Item Gap) :
    isLastChunk ⟨previous, headPtr xs none, b⟩ = decide (xs = []) := by
  cases xs <;> simp [isLastChunk, headPtr]

section

variable (h : Layout cap lc (xs ++ (p, b) :: ys))
include h

/-- Changing what is in the chunk `p` leaves the two ends where they are. -/
theorem Layout.ends_set {b' : ChunkBody Item Gap} (hlinked : Linked cap lc' (xs ++ (p, b') :: ys))
    (hfirst : lc'.first = lc.first) (hlast : lc'.last = lc.last) :
    Layout cap lc' (xs ++ (p, b') :: ys) := by
  refine ⟨hlinked, ?_, ?_⟩
  · rw [hfirst, h.first, headPtr_append, headPtr_append]
    rfl
  · rw [hlast]
    rcases h.last with hold | ⟨hold, hlen⟩
    · refine .inl ?_
      rw [hold, lastPtr_append, lastPtr_append]
      rfl
    · exact .inr ⟨hold, by simpa using hlen⟩

/-- With several chunks `last` is set. -/
theorem Layout.last_eq (hmany : xs ≠ [] ∨ ys ≠ []) :
    lc.last = lastPtr none (xs ++ (p, b) :: ys) := by
  rcases h.last with hold | ⟨-, hlen⟩
  · exact hold
  · simp at hlen
    rw [← length_pos_iff, ← length_pos_iff] at hmany
    omega

/-- `last` moves to the chunk that was pushed to last, when this is the end of the list. -/
theorem Layout.updateLast {c : ChunkBody Item Gap} {before : Cells Item Gap}
    (hlinked : Linked cap lc' (before ++ (q, c) :: ys)) (hfirst : lc'.first = lc.first)
    (hlast : lc'.last = lc.last)
    (hhead : headPtr (before ++ [(q, c)]) none = headPtr (xs ++ [(p, b)]) none)
    (hlen : xs.length ≤ before.length) :
    ∃ lc'', lc'.updateLast q = some lc'' ∧ Layout cap lc'' (before ++ (q, c) :: ys) ∧
      lc''.chunkIdentifierGenerator = lc'.chunkIdentifierGenerator ∧
      lc''.updates = lc'.updates := by
  have hfirst' : lc'.first = headPtr (before ++ (q, c) :: ys) none := by
    have hold : ∀ (zs : Cells Item Gap) (x : ℕ × ChunkBody Item Gap),
        headPtr (zs ++ x :: ys) none = headPtr (zs ++ [x]) none := by
      intro zs x
      cases zs <;> rfl
    rw [hfirst, h.first, hold, hold, hhead]
  have hread : lc'.heap.read q = some ⟨lastPtr none before, headPtr ys none, c⟩ :=
    hlinked.cells.read_eq
  by_cases hend : ys = []
  · subst hend
    by_cases hempty : before = []
    · subst hempty
      obtain rfl : xs = [] := length_eq_zero_iff.mp (by simpa using hlen)
      obtain rfl : q = p := by simpa [headPtr] using hhead
      refine ⟨lc', by simp [LinkedChunk.updateLast, hread, isFirstChunk_iff],
        ⟨hlinked, hfirst', ?_⟩, rfl, rfl⟩
      rcases h.last with hold | ⟨hold, -⟩
      · exact .inl (hlast.trans hold)
      · exact .inr ⟨hlast.trans hold, by simp⟩
    · refine ⟨{ lc' with last := some q },
        by simp [LinkedChunk.updateLast, hread, isFirstChunk_iff, isLastChunk_iff, hempty],
        ⟨?_, hfirst', .inl ?_⟩, rfl, rfl⟩
      · exact ⟨hlinked.cells, hlinked.distinct, hlinked.bounded, hlinked.capacity, hlinked.lazy⟩
      · simp [lastPtr_append, lastPtr]
  · refine ⟨lc', by simp [LinkedChunk.updateLast, hread, isLastChunk_iff, hend],
      ⟨hlinked, hfirst', .inl ?_⟩, rfl, rfl⟩
    rw [hlast, h.last_eq (.inr hend), lastPtr_append, lastPtr_append]
    exact lastPtr_congr (some p) (some q) ys ys rfl hend

end

/-- The chunk `p` is unlinked and freed, and the chunks `zs` stand in its place. An end that
pointed at it moves to its neighbour. -/
theorem Layout.unlink (zs : Cells Item Gap) {b' : ChunkBody Item Gap}
    (h : Layout cap lc (xs ++ (p, b) :: ys))
    (hev : Evolves cap lc (xs ++ (p, b) :: ys) us lc' (xs ++ (p, b') :: (zs ++ ys)))
    (hsteps : Steps (baseOf (xs ++ (p, b) :: ys)) (.whole (chainOf (xs ++ (p, b) :: ys))) us
      (.whole (chainOf (xs ++ (p, b') :: (zs ++ ys)))))
    (hempty : b'.content.numItems = 0) (hne : xs = [] → zs ++ ys ≠ []) :
    ∃ lc₁ lc₂ ys', lc'.unlink p = some lc₁ ∧
      lc₂ = LinkedChunk.free { lc₁ with
        first := if xs = [] then headPtr (zs ++ ys) none else lc₁.first
        last := if ys = [] then lastPtr none (xs ++ zs) else lc₁.last } p ∧
      chainOf ys' = chainOf (zs ++ ys) ∧ ys'.map Prod.fst = (zs ++ ys).map Prod.fst ∧
      Layout cap lc₂ (xs ++ ys') ∧ Mutates cap (baseOf (xs ++ (p, b) :: ys)) lc
        (chainOf (xs ++ (p, b) :: ys)) (us ++ [.removeChunk b'.identifier]) lc₂
        (chainOf (xs ++ (zs ++ ys))) := by
  obtain ⟨lc₁, ys', hunlink, hys, hptrs, hev₁⟩ := hev.linked.unlink hne
  have hall := hev.trans hev₁
  have hnot : p ∉ (xs ++ ys').map Prod.fst := by
    have hsplit := hev.linked.cells.nodup_split
    rw [map_append, hptrs, mem_append, not_or]
    exact ⟨hsplit.1, hsplit.2.1⟩
  have hnonempty : xs ++ ys' ≠ [] := by
    intro hnil
    obtain ⟨rfl, rfl⟩ := append_eq_nil_iff.mp hnil
    exact hne rfl (by simpa using hptrs.symm)
  let lc₂ : LinkedChunk Item Gap := LinkedChunk.free { lc₁ with
    first := if xs = [] then headPtr (zs ++ ys) none else lc₁.first
    last := if ys = [] then lastPtr none (xs ++ zs) else lc₁.last } p
  have hlayout : Layout cap lc₂ (xs ++ ys') := by
    refine ⟨(hall.linked.free hnot).of_ends rfl rfl, ?_, .inl ?_⟩
    · cases xs with
      | nil =>
        change headPtr (zs ++ ys) none = headPtr ys' none
        rw [headPtr_none_eq, headPtr_none_eq, ← head?_map, ← head?_map, hptrs]
      | cons x xs =>
        change lc₁.first = some x.1
        rw [hall.first, h.first]
        rfl
    · have hend : lastPtr none (xs ++ ys') = lastPtr none (xs ++ zs ++ ys) := by
        rw [lastPtr_none_eq, lastPtr_none_eq, ← getLast?_map, ← getLast?_map, map_append, hptrs,
          ← map_append, append_assoc]
      rw [hend]
      by_cases hnil : ys = []
      · simp [lc₂, LinkedChunk.free, hnil]
      · simp only [lc₂, LinkedChunk.free, hnil, if_false]
        rw [hall.last, h.last_eq (.inr hnil), lastPtr_append, lastPtr_append]
        exact lastPtr_congr _ _ ys ys rfl hnil
  have hmutates := hall.mutates hlayout hnonempty rfl rfl (hsteps.append (.single (by
    simpa [hys] using Step.removeChunk (b := baseOf (xs ++ (p, b) :: ys)) (chainOf xs)
      (chainOf (zs ++ ys)) b'.identifier b'.content hempty)))
  rw [chainOf_append xs ys', hys, ← chainOf_append] at hmutates
  exact ⟨lc₁, lc₂, ys', hunlink, rfl, hys, hptrs, hlayout, hmutates⟩

end MatrixSdk.Layouts

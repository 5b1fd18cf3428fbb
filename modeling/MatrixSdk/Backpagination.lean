import MatrixSdk.EventLinkedChunks

/-!
Back-pagination. The events of a page take the place of a gap, or go before the first known
event, and a new gap goes in front of them. Where an empty page leaves a new gap and the chunk
after the replaced gap is a gap as well, there is no place for the new one.
-/
namespace MatrixSdk.Backpagination

open LinkedCells Updates Chunks Chains Traces Layouts Runs EventLinkedChunks List

variable {Item Gap : Type} {cap : ℕ} {lc : LinkedChunk Item Gap} {base : Option ℕ}
  {chain l r : Chain Item Gap} {before after rest : List (Entry Item Gap)} {gapId : ℕ}
  {gap : Gap}

/-- The loaded chunks from first to last. -/
def loaded (lc : LinkedChunk Item Gap) : Chain Item Gap := chainOf ((chunks lc).getD [])

def isGap : Entry Item Gap → Bool
  | .gap _ => true
  | .item _ => false

/-- What is read before and after the place of a page: the gap that it replaces, or else the
first known event. -/
def Around (chain : Chain Item Gap) (before after : List (Entry Item Gap)) : Option ℕ → Prop
  | some gapId => ∃ l gap r, chain = l ++ (gapId, .gap gap) :: r ∧ entriesOf l = before ∧
      entriesOf r = after
  | none => (entriesOf chain).takeWhile isGap = before ∧ (entriesOf chain).dropWhile isGap = after

/-- An empty page leaves a new gap, and the gap that it replaces is followed by another one. -/
def NoPlace (chain : Chain Item Gap) (prevGapId : Option ℕ) (newGap : Option Gap)
    (events : List Item) : Prop :=
  events = [] ∧ newGap.isSome = true ∧ ∃ l gapId gap next other r, prevGapId = some gapId ∧
    chain = l ++ (gapId, .gap gap) :: (next, .gap other) :: r

/-- An operation, or readers of the update log that come, read and go. -/
def Changes (cap : ℕ) (lc : LinkedChunk Item Gap) (op : Option (Op Item Gap))
    (lc' : LinkedChunk Item Gap) : Prop :=
  match op with
  | some op => Performs cap lc op lc'
  | none => ∃ updates, lc' = { lc with updates := updates }

theorem Changes.represents (hcap : 0 < cap) {op : Option (Op Item Gap)}
    {lc' : LinkedChunk Item Gap} (h : ∃ base chain, Represents cap lc base chain)
    (hchange : Changes cap lc op lc') : ∃ base chain, Represents cap lc' base chain := by
  cases op with
  | some op => exact Performs.represents hcap h hchange
  | none =>
    obtain ⟨base, chain, hrep⟩ := h
    obtain ⟨updates, rfl⟩ := hchange
    exact ⟨base, chain, represents_withUpdates hrep updates⟩

theorem loaded_eq (h : Represents cap lc base chain) : loaded lc = chain := by
  obtain ⟨xs, hlayout, rfl, -⟩ := h
  unfold loaded
  rw [chunks_eq hlayout, Option.getD_some]

variable {position : Option Position}

section Reading

theorem iterChunks_eq (h : Represents cap lc base chain) :
    ∃ p b xs, iterChunks lc = some ((p, b) :: xs, start lc) ∧
      chainOf ((p, b) :: xs) = started chain ∧ (start lc).first = some p ∧
      (start lc).heap.read p = some ⟨none, headPtr xs none, b⟩ := by
  obtain ⟨p, b, xs, hlayout, hchain, -, hptr, -⟩ := h.firstChunk
  have hwalk := walkForward_of_seg _ none _ _ hlayout.cells.seg hlayout.cells.length_le
  refine ⟨p, b, xs, ?_, hchain, hlayout.first, hlayout.cells.read_head⟩
  simp only [iterChunks, hptr]
  exact congrArg (Option.bind · fun chunks => some (chunks, start lc)) hwalk

/-- The first event of the chunks is the first item of its chunk. -/
inductive FirstEvent (chain : Chain Item Gap) : Option Position → Prop
  | none (h : ∀ entry ∈ entriesOf chain, isGap entry = true) : FirstEvent chain none
  | some {l r : Chain Item Gap} {id : ℕ} {event : Item} {events : List Item}
      (hchain : chain = l ++ (id, .items (event :: events)) :: r)
      (hl : ∀ entry ∈ entriesOf l, isGap entry = true) : FirstEvent chain (some ⟨id, 0⟩)

theorem FirstEvent.cons (h : FirstEvent chain position) (id : ℕ) {content : ChunkContent Item Gap}
    (hcontent : ∀ entry ∈ contentEntries content, isGap entry = true) :
    FirstEvent ((id, content) :: chain) position := by
  have hcons : ∀ l : Chain Item Gap, (∀ entry ∈ entriesOf l, isGap entry = true) →
      ∀ entry ∈ entriesOf ((id, content) :: l), isGap entry = true :=
    fun l hl => forall_mem_append.mpr ⟨hcontent, hl⟩
  cases h with
  | none h => exact .none (hcons chain h)
  | some hchain hl =>
    subst hchain
    exact .some (l := (id, content) :: _) rfl (hcons _ hl)

theorem firstEvent_positions (xs : Cells Item Gap) :
    FirstEvent (chainOf xs) ((xs.flatMap fun chunk =>
      match chunk.2.content with
      | .gap _ => []
      | .items items => items.mapIdx fun index item =>
          ((⟨chunk.2.identifier, index⟩ : Position), item)).head?.map Prod.fst) := by
  induction xs with
  | nil => exact .none (by simp)
  | cons x xs ih =>
    rw [chainOf_cons, flatMap_cons]
    cases hcontent : x.2.content with
    | gap gap => exact ih.cons _ (by simp [isGap])
    | items items =>
      cases items with
      | nil => exact ih.cons _ (by simp)
      | cons event events =>
        simp only [mapIdx_cons]
        exact .some (l := []) rfl (by simp)

theorem firstEventPosition_eq (h : Represents cap lc base chain) :
    ∃ position, firstEventPosition lc = some (position, start lc) ∧
      FirstEvent (started chain) position := by
  obtain ⟨p, b, xs, hlayout, hchain, -, hptr, -⟩ := h.firstChunk
  have hwalk : (start lc).heap.walkForward (start lc).heap.length (some p) = some ((p, b) :: xs) :=
    walkForward_of_seg _ none _ _ hlayout.cells.seg hlayout.cells.length_le
  have hfound : (start lc).chunkPtr b.identifier = some (some p, start lc) :=
    (show Layout cap (start lc) ([] ++ (p, b) :: xs) from hlayout).chunkPtr_found
  have hfirst := firstEvent_positions ((p, b) :: xs)
  rw [hchain] at hfirst
  refine ⟨_, ?_, hfirst⟩
  simp only [firstEventPosition, iterItems, hptr, hlayout.cells.read_head, hfound,
    Option.bind_eq_bind, Option.bind_some]
  rw [hwalk]
  rfl

/-- The leading gaps end where something else follows. -/
theorem span_gaps {s t : List (Entry Item Gap)} (hs : ∀ entry ∈ s, isGap entry = true)
    (ht : ∀ entry ∈ t.head?, isGap entry = false) :
    (s ++ t).takeWhile isGap = s ∧ (s ++ t).dropWhile isGap = t := by
  rw [takeWhile_append_of_pos hs, dropWhile_append_of_pos hs]
  cases t with
  | nil => simp
  | cons entry t => simp [ht entry rfl]

end Reading

section Inserting

/-- The events are there, and there is a place for a new gap. -/
inductive Ready (chain : Chain Item Gap) (before rest : List (Entry Item Gap)) :
    Option Position → Prop
  | chunk {l r : Chain Item Gap} {id : ℕ} {current : List Item}
      (hchain : chain = l ++ (id, .items current) :: r) (hl : entriesOf l = before)
      (hr : current.map .item ++ entriesOf r = rest) : Ready chain before rest (some ⟨id, 0⟩)
  | last (hchain : entriesOf chain = before) (hrest : rest = []) : Ready chain before rest none

theorem Ready.entriesOf_eq (h : Ready chain before rest position) :
    entriesOf chain = before ++ rest := by
  cases h with
  | chunk hchain hl hr =>
    rw [hchain, entriesOf_append, entriesOf_cons, contentEntries_items, hl, hr]
  | last hchain hrest => rw [hchain, hrest, append_nil]

theorem insertPaginatedGap_ok (h : Represents cap lc base chain) (hne : chain ≠ [])
    (hready : Ready chain before rest position) (newGap : Option Gap) :
    ∃ lc' chain', insertPaginatedGap cap lc newGap position = some lc' ∧
      Represents cap lc' base chain' ∧ chain' ≠ [] ∧
      entriesOf chain' = before ++ newGap.toList.map .gap ++ rest := by
  have hstarted := started_of_ne_nil hne
  cases newGap with
  | none => exact ⟨lc, chain, rfl, h, hne, by simp [hready.entriesOf_eq]⟩
  | some gap =>
    cases hready with
    | chunk hchain hl hr =>
      obtain ⟨lc', hinsert, hmut⟩ := insertGapAt_front h (hstarted.trans hchain) gap
      refine ⟨lc', _, ?_, hmut.represents, hmut.nonempty, ?_⟩
      · simp [insertPaginatedGap, hinsert, expect]
      · simp [← hl, ← hr]
    | last hchain hrest =>
      obtain ⟨lc', hpush, hmut⟩ := pushGapBack_eq h gap
      refine ⟨lc', _, hpush, hmut.represents, hmut.nonempty, ?_⟩
      simp [hstarted, ← hchain, hrest]

section

variable (h : Represents cap lc base chain) (hchain : chain = l ++ (gapId, .gap gap) :: r)
include h hchain

/-- Whether the gap is the only chunk is seen by iterating over the chunks. -/
theorem iterChunks_only : ∃ x xs, iterChunks lc = some (x :: xs, lc) ∧ (xs = [] ↔ l ++ r = []) := by
  have hne : chain ≠ [] := by simp [hchain]
  obtain ⟨p, b, xs, hiter, hxs, -, -⟩ := iterChunks_eq h
  rw [h.start_eq hne] at hiter
  rw [started_of_ne_nil hne, hchain] at hxs
  have hlength := congrArg List.length hxs
  simp [chainOf] at hlength
  refine ⟨_, xs, hiter, ?_⟩
  rw [← length_eq_zero_iff, ← length_eq_zero_iff, length_append]
  omega

/-- Without events the gap is removed. -/
theorem replaceGapAt_nil (hmany : l ++ r ≠ []) :
    ∃ lc', replaceGapAt cap lc gapId [] =
        some (.ok ((headIdentifier r).map fun next => ⟨next, 0⟩), lc') ∧
      Represents cap lc' base (l ++ r) := by
  have hstarted : started chain = l ++ (gapId, .gap gap) :: r := by
    rw [started_of_ne_nil (by simp [hchain]), hchain]
  obtain ⟨x, xs, hiter, htail⟩ := iterChunks_only h hchain
  have hlength : (started chain).length ≠ 1 := by
    have hpos := length_pos_iff.mpr hmany
    rw [length_append] at hpos
    rw [hstarted, length_append, length_cons]
    omega
  obtain ⟨lc', hremove, hmut⟩ := removeEmptyChunkAt_ok h hlength hstarted rfl
  refine ⟨lc', ?_, hmut.represents⟩
  simp [replaceGapAt, hiter, mt htail.mp hmany, hremove]

end

theorem replaceGapAt_ok (hcap : 0 < cap) (h : Represents cap lc base chain)
    (hchain : chain = l ++ (gapId, .gap gap) :: r) {events : List Item}
    (hplace : events = [] → ∀ next other r', r ≠ (next, .gap other) :: r') :
    ∃ position lc' chain', replaceGapAt cap lc gapId events = some (.ok position, lc') ∧
      Represents cap lc' base chain' ∧ chain' ≠ [] ∧
      Ready chain' (entriesOf l) (events.map .item ++ entriesOf r) position := by
  by_cases hempty : events = [] ∧ l ++ r ≠ []
  · obtain ⟨rfl, hmany⟩ := hempty
    obtain ⟨lc', hreplace, hrep⟩ := replaceGapAt_nil h hchain hmany
    refine ⟨_, lc', _, hreplace, hrep, hmany, ?_⟩
    cases r with
    | nil => exact .last (by simp) rfl
    | cons chunk r =>
      obtain ⟨next, content⟩ := chunk
      cases content with
      | gap other => exact absurd rfl (hplace rfl next other r)
      | items current => exact .chunk rfl rfl (by simp)
  · obtain ⟨x, xs, hiter, htail⟩ := iterChunks_only h hchain
    obtain ⟨new, chunk, lc', us, current, more, hreplace, hread, hid, hmut, -, hentries⟩ :=
      Layouts.replaceGapAt_ok hcap h ((started_of_ne_nil (by simp [hchain])).trans hchain) events
    have hrep := hmut.represents
    rw [append_assoc, cons_append] at hrep
    refine ⟨_, lc', _, ?_, hrep, by simp, .chunk rfl rfl ?_⟩
    · rw [ne_eq, ← htail] at hempty
      simp [replaceGapAt, hiter, hempty, hreplace, hread, firstPosition, hid]
    · rw [entriesOf_append, ← append_assoc, hentries]

/-- Without a gap to replace the events go before the first known event, or to the end. -/
theorem insertPaginatedEvents_none (hcap : 0 < cap) (h : Represents cap lc base chain)
    (haround : Around chain before after none) (events : List Item) :
    ∃ position lc' chain', insertPaginatedEvents cap lc none events = some (position, lc') ∧
      Represents cap lc' base chain' ∧ chain' ≠ [] ∧
      Ready chain' before (events.map .item ++ after) position := by
  obtain ⟨hbefore, hafter⟩ := haround
  obtain ⟨-, -, -, -, -, hmut₀⟩ := h.starts
  have hrep := hmut₀.represents
  have hstart : start (start lc) = start lc := hrep.start_eq hmut₀.nonempty
  have hentries : entriesOf (started chain) = entriesOf chain := by cases chain <;> rfl
  obtain ⟨position, hposition, hfirst⟩ := firstEventPosition_eq h
  cases hfirst with
  | @some l r id event rest hchain hl =>
    obtain ⟨htake, hdrop⟩ := span_gaps
      (t := Entry.item event :: (rest.map .item ++ entriesOf r)) hl (by simp [isGap])
    rw [hchain] at hentries
    simp [entriesOf_append] at hentries
    rw [← hentries] at hbefore hafter
    obtain ⟨lc', us, left, hinsert, hmut, -, ⟨current, more, rfl⟩, hleft⟩ :=
      insertItemsAt_ok hcap hrep
        ((started_of_ne_nil hmut₀.nonempty).trans hchain) (Nat.zero_le _) events
    have hnew := hmut.represents
    rw [append_assoc, cons_append] at hnew
    refine ⟨_, lc', _, ?_, hnew, by simp, .chunk rfl (htake.symm.trans hbefore) ?_⟩
    · simp [insertPaginatedEvents, hposition, hinsert, expect]
    · rw [entriesOf_append, ← append_assoc, ← hafter, hdrop]
      simp at hleft
      simp [hleft]
  | none hgaps =>
    rw [hentries] at hgaps
    obtain ⟨htake, hdrop⟩ := span_gaps (t := []) hgaps (by simp)
    rw [append_nil] at htake hdrop
    rw [← hbefore, ← hafter, htake, hdrop, append_nil]
    obtain ⟨lc', us, chain', hpush, hmut, hgrow⟩ := pushItemsBack_eq hcap hrep events
    rw [started_of_ne_nil hmut₀.nonempty] at hgrow
    have hgrown : entriesOf chain' = entriesOf chain ++ events.map .item := by
      rw [hgrow.entriesOf_eq, hentries]
    obtain ⟨position', hposition', hfirst⟩ := firstEventPosition_eq hmut.represents
    rw [hmut.represents.start_eq hmut.nonempty] at hposition'
    rw [started_of_ne_nil hmut.nonempty] at hfirst
    refine ⟨position', lc', chain', ?_, hmut.represents, hmut.nonempty, ?_⟩
    · simp [insertPaginatedEvents, hposition, hpush, hposition']
    · cases hfirst with
      | none hall =>
        have hevents : events = [] := by
          refine eq_nil_iff_forall_not_mem.mpr fun event hevent => ?_
          cases hall (.item event) (by simp [hgrown, hevent])
        exact .last (by simp [hgrown, hevents]) (by simp [hevents])
      | @some l r id event rest hsplit hl =>
        -- the leading gaps of the chunks end where the events begin
        obtain ⟨htake, hdrop⟩ := span_gaps (t := events.map .item) hgaps (by
          cases events <;> simp [isGap])
        have hspan := span_gaps
          (t := Entry.item event :: (rest.map .item ++ entriesOf r)) hl (by simp [isGap])
        rw [hsplit] at hgrown
        simp at hgrown
        rw [hgrown] at hspan
        exact .chunk hsplit (hspan.1.symm.trans htake) (hspan.2.symm.trans hdrop)

/-- With a gap to replace, the events are there and a place for a new gap is known, unless the
gap is removed and followed by another one. -/
theorem insertPaginatedEvents_some (h : Represents cap lc base chain)
    (hchain : chain = l ++ (gapId, .gap gap) :: r) (events : List Item) :
    insertPaginatedEvents cap lc (some gapId) events =
      (replaceGapAt cap lc gapId events).bind expect := by
  obtain ⟨position, hposition, -⟩ := firstEventPosition_eq h
  rw [h.start_eq (by simp [hchain])] at hposition
  simp [insertPaginatedEvents, hposition]

end Inserting

/-- The page stands in its place behind the new gap, and the start of the timeline is reached
only where no gap is left and nothing can be loaded before the first chunk. -/
structure Spliced (before after : List (Entry Item Gap)) (newGap : Option Gap)
    (events : List Item) (reachedStart : Bool) (lc : LinkedChunk Item Gap) : Prop where
  entries : entriesOf (loaded lc) =
    before ++ newGap.toList.map .gap ++ (events.map .item ++ after)
  reached : reachedStart = true → (∀ chunk ∈ loaded lc, chunk.2.isGap = false) ∧
    ∃ pointer chunk, lc.first = some pointer ∧ lc.heap.read pointer = some chunk ∧
      isDefinitiveHead chunk = true

section Splicing

variable {prevGapId : Option ℕ} {newGap : Option Gap} {events : List Item}

/-- The end of the function: whether the start is reached is read off the chunks. -/
theorem spliced_of_insertions {lc₁ lc₂ : LinkedChunk Item Gap}
    (hevents : insertPaginatedEvents cap lc prevGapId events = some (position, lc₁))
    (hgap : insertPaginatedGap cap lc₁ newGap position = some lc₂)
    (hrep : Represents cap lc₂ base chain) (hne : chain ≠ [])
    (hentries : entriesOf chain = before ++ newGap.toList.map .gap ++ (events.map .item ++ after)) :
    ∃ reachedStart, pushBackwardsPaginationEvents cap lc prevGapId newGap events =
        some (reachedStart, lc₂) ∧ Spliced before after newGap events reachedStart lc₂ := by
  obtain ⟨p, b, xs, hiter, hxs, hfirst, hread⟩ := iterChunks_eq hrep
  rw [hrep.start_eq hne] at hiter hfirst hread
  rw [started_of_ne_nil hne] at hxs
  refine ⟨!((p, b) :: xs).any (fun chunk => chunk.2.content.isGap) &&
    isDefinitiveHead ⟨none, headPtr xs none, b⟩, ?_, by rw [loaded_eq hrep, hentries], ?_⟩
  · simp [pushBackwardsPaginationEvents, hevents, hgap, hiter, hread]
  · rw [Bool.and_eq_true, Bool.not_eq_true', any_eq_false]
    rintro ⟨hgaps, hhead⟩
    refine ⟨fun chunk hchunk => ?_, p, _, hfirst, hread, hhead⟩
    rw [loaded_eq hrep, ← hxs] at hchunk
    obtain ⟨x, hx, rfl⟩ := mem_map.mp hchunk
    exact Bool.eq_false_iff.mpr (hgaps x hx)

theorem spliced_of_place (hcap : 0 < cap) (h : Represents cap lc base chain)
    (haround : Around chain before after prevGapId)
    (hplace : ¬NoPlace chain prevGapId newGap events) :
    ∃ reachedStart lc', pushBackwardsPaginationEvents cap lc prevGapId newGap events =
        some (reachedStart, lc') ∧ Spliced before after newGap events reachedStart lc' := by
  -- once there is a place for the new gap, it is inserted there
  have hready : ∀ position lc₁ chain₁,
      insertPaginatedEvents cap lc prevGapId events = some (position, lc₁) →
      Represents cap lc₁ base chain₁ → chain₁ ≠ [] →
      Ready chain₁ before (events.map .item ++ after) position →
      ∃ reachedStart lc', pushBackwardsPaginationEvents cap lc prevGapId newGap events =
        some (reachedStart, lc') ∧ Spliced before after newGap events reachedStart lc' := by
    intro position lc₁ chain₁ hevents hrep hne hready
    obtain ⟨lc₂, chain₂, hgap, hrep₂, hne₂, hentries⟩ :=
      insertPaginatedGap_ok hrep hne hready newGap
    obtain ⟨reachedStart, hpush⟩ := spliced_of_insertions hevents hgap hrep₂ hne₂ hentries
    exact ⟨reachedStart, lc₂, hpush⟩
  cases prevGapId with
  | none =>
    obtain ⟨position, lc₁, chain₁, hevents, hrep, hne, h₁⟩ :=
      insertPaginatedEvents_none hcap h haround events
    exact hready position lc₁ chain₁ hevents hrep hne h₁
  | some gapId =>
    obtain ⟨l, gap, r, hchain, rfl, rfl⟩ := haround
    have hinsert := insertPaginatedEvents_some h hchain events
    by_cases hnext : events = [] ∧ ∃ next other r', r = (next, .gap other) :: r'
    · obtain ⟨rfl, next, other, r', rfl⟩ := hnext
      have hnone : newGap = none := by
        refine Option.not_isSome_iff_eq_none.mp fun hsome => hplace ⟨rfl, hsome, ?_⟩
        exact ⟨l, gapId, gap, next, other, r', rfl, hchain⟩
      obtain ⟨lc₁, hreplace, hrep⟩ := replaceGapAt_nil h hchain (by simp)
      rw [hreplace] at hinsert
      subst hnone
      have hgap : insertPaginatedGap cap lc₁ none (some ⟨next, 0⟩) = some lc₁ := rfl
      obtain ⟨reachedStart, hpush⟩ := spliced_of_insertions hinsert hgap hrep (by simp)
        (show _ = entriesOf l ++ [] ++ ([] ++ entriesOf ((next, .gap other) :: r')) by simp)
      exact ⟨reachedStart, lc₁, hpush⟩
    · obtain ⟨position, lc₁, chain₁, hreplace, hrep, hne, h₁⟩ :=
        replaceGapAt_ok hcap h hchain fun hempty next other r' hr =>
          hnext ⟨hempty, next, other, r', hr⟩
      rw [hreplace] at hinsert
      exact hready position lc₁ chain₁ hinsert hrep hne h₁

end Splicing

/-- In every state of a run, a page is spliced in without a panic if and only if there is a
place for its new gap. -/
theorem backpagination_splices_iff (hcap : 0 < cap) {lc₀ : LinkedChunk Item Gap}
    {ops : List (Option (Op Item Gap))} (hinit : Initial cap lc₀)
    (hrun : Trace (Changes cap) lc₀ ops lc) (prevGapId : Option ℕ) (newGap : Option Gap)
    (events : List Item) (haround : Around (loaded lc) before after prevGapId) :
    (∃ reachedStart lc', pushBackwardsPaginationEvents cap lc prevGapId newGap events =
        some (reachedStart, lc') ∧ Spliced before after newGap events reachedStart lc') ↔
      ¬NoPlace (loaded lc) prevGapId newGap events := by
  obtain ⟨base, chain, h⟩ := hrun.preserves (fun _ _ _ h hstep => Changes.represents hcap h hstep)
    hinit.represents
  rw [loaded_eq h] at haround ⊢
  constructor
  · -- a gap is no place for another gap
    rintro ⟨reachedStart, lc', hpush, -⟩ ⟨rfl, hnew, l, gapId, gap, next, other, r, rfl, hchain⟩
    obtain ⟨new, rfl⟩ := Option.isSome_iff_exists.mp hnew
    obtain ⟨lc₁, hreplace, hrep⟩ := replaceGapAt_nil h hchain (by simp)
    have hinsert := insertPaginatedEvents_some h hchain []
    rw [hreplace] at hinsert
    have hgap : lc₁.insertGapAt cap new ⟨next, 0⟩ = some (.error (.chunkIsAGap next), start lc₁) :=
      hrep.withItems_gap _ (started_of_ne_nil (by simp))
    simp [pushBackwardsPaginationEvents, hinsert, expect, insertPaginatedGap, hgap] at hpush
  · exact spliced_of_place hcap h haround

theorem page_replaces_first_chunk : ∃ lc : LinkedChunk ℕ ℕ, Initial 2 lc ∧
    Around (loaded lc) [] [] (some 4) ∧
    ∃ reachedStart lc', pushBackwardsPaginationEvents 2 lc (some 4) (some 6) [7, 8, 9] =
      some (reachedStart, lc') ∧ Spliced [] [] (some 6) [7, 8, 9] reachedStart lc' := by
  have hinit : Initial 2 (⟨[some ⟨none, none, ⟨some 3, 4, .gap 5⟩⟩], some 0, none, 4,
      some UpdatesInner.new⟩ : LinkedChunk ℕ ℕ) :=
    @Initial.fromLastChunk _ _ 2 ⟨.gap 5, some 3, 4, none⟩ 4 _ le_rfl rfl
  refine ⟨_, hinit, ⟨[], 5, [], rfl, rfl, rfl⟩, ?_⟩
  refine (backpagination_splices_iff (by decide) hinit (.nil _) (some 4) (some 6) [7, 8, 9]
    ⟨[], 5, [], rfl, rfl, rfl⟩).mpr ?_
  rintro ⟨hevents, -⟩
  cases hevents

/-- Two gaps in a row, the first of which is replaced by an empty page that leaves a gap. -/
theorem empty_page_before_gap_panics :
    ((EventLinkedChunk.new : Option (EventLinkedChunk ℕ ℕ)).bind fun e =>
      (pushLiveEvents 2 e.chunks (some 10) []).bind fun lc =>
        (pushLiveEvents 2 lc (some 20) []).map fun lc => (loadedIdentifiers lc,
          (pushBackwardsPaginationEvents 2 lc (some 1) (some 30) []).isSome)) =
      some ([1, 2], false) := by
  decide

end MatrixSdk.Backpagination

import MatrixSdk.Operations

/-!
Specifications of the operations: pushing, inserting, removing and replacing items, adding,
removing and filling gaps, and clearing everything.
-/
namespace MatrixSdk.Layouts

open LinkedCells Chunks Chains LinkedChunk List ChunkContent Option

variable {Item Gap : Type} {cap : ℕ} {lc : LinkedChunk Item Gap} {base : Option ℕ}
  {chain l r : Chain Item Gap} {id index : ℕ}

variable {old : Item} {before after : List Item}

section

variable (h : Represents cap lc base chain)
  (hchain : started chain = l ++ (id, .items (before ++ old :: after)) :: r)
include h hchain

theorem replaceItemAt_ok (item : Item) :
    ∃ lc', lc.replaceItemAt ⟨id, before.length⟩ item = some (.ok (), lc') ∧
      Mutates cap base lc chain (startUpdates chain ++ [.replaceItem ⟨id, before.length⟩ item]) lc'
        (l ++ (id, .items (before ++ item :: after)) :: r) := by
  obtain ⟨xs, p, b, ys, hlayout, rfl, rfl, hcontent, rfl, rfl, hmut, heq⟩ :=
    h.withItems_items hchain
  have hpush := hlayout.toLinked.push (.replaceItem ⟨b.identifier, before.length⟩ item) rfl
    (by simp)
  obtain ⟨lc', hset, hev⟩ := hpush.linked.setContent (.items (before ++ item :: after)) (by
    have := hlayout.capacity (b.identifier, b.content) (by simp)
    simpa [hcontent, numItems] using this)
  refine ⟨lc', ?_, hmut.trans ?_⟩
  · simp [replaceItemAt, heq, hset]
  · have hmutates := (hpush.trans hev).mutates
      (hlayout.ends_set hev.linked (hpush.trans hev).first (hpush.trans hev).last) (by simp) rfl rfl
      (.single (by
        simpa [hcontent] using Step.replaceItem (b := baseOf (xs ++ (p, b) :: ys)) (chainOf xs)
          (chainOf ys) b.identifier before after old item))
    rw [hchain]
    simpa [hcontent] using hmutates

/-- The chunk stays when it still has items or when it is the first one. -/
theorem removeItemAt_keep (hkeep : before ++ after ≠ [] ∨ l = []) :
    ∃ lc', lc.removeItemAt ⟨id, before.length⟩ = some (.ok old, lc') ∧
      Mutates cap base lc chain (startUpdates chain ++ [.removeItem ⟨id, before.length⟩]) lc'
        (l ++ (id, .items (before ++ after)) :: r) := by
  obtain ⟨xs, p, b, ys, hlayout, rfl, rfl, hcontent, rfl, rfl, hmut, heq⟩ :=
    h.withItems_items hchain
  obtain ⟨lc₁, hset, hev₁⟩ := hlayout.toLinked.setContent (.items (before ++ after)) (by
    have := hlayout.capacity (b.identifier, b.content) (by simp)
    simp [hcontent, numItems] at this ⊢
    omega)
  have hev := hev₁.trans
    (hev₁.linked.push (.removeItem ⟨b.identifier, before.length⟩) rfl (by simp))
  have herase : (before ++ old :: after).eraseIdx before.length = before ++ after := by
    rw [eraseIdx_append_of_length_le le_rfl]
    simp
  have hstay : ((before ++ after).isEmpty && !decide (xs = [])) = false := by
    rcases hkeep with hkeep | hkeep
    · rw [isEmpty_eq_false_iff.mpr hkeep, Bool.false_and]
    · have hxs : xs = [] := by simpa [chainOf] using hkeep
      simp [hxs]
  refine ⟨lc₁.push (.removeItem ⟨b.identifier, before.length⟩), ?_, hmut.trans ?_⟩
  · simp only [removeItemAt, heq,
      getElem?_append_right le_rfl, Nat.sub_self, getElem?_cons_zero, herase, hset,
      isFirstChunk_iff, hstay, bind_eq_bind, bind_some]
    rfl
  · have hmutates := hev.mutates (hlayout.ends_set hev.linked hev.first hev.last) (by simp) rfl rfl
      (.single (by
        simpa [hcontent] using Step.removeItem (b := baseOf (xs ++ (p, b) :: ys)) (chainOf xs)
          (chainOf ys) b.identifier before after old))
    rw [hchain]
    simpa [hcontent] using hmutates

end

/-- The last item of a chunk that is not the first one takes its chunk with it. -/
theorem removeItemAt_unlink (h : Represents cap lc base chain)
    (hchain : started chain = l ++ (id, .items [old]) :: r) (hl : l ≠ []) :
    ∃ lc', lc.removeItemAt ⟨id, 0⟩ = some (.ok old, lc') ∧
      Mutates cap base lc chain (startUpdates chain ++ [.removeItem ⟨id, 0⟩, .removeChunk id]) lc'
        (l ++ r) := by
  obtain ⟨xs, p, b, ys, hlayout, rfl, rfl, hcontent, rfl, rfl, hmut, heq⟩ :=
    h.withItems_items hchain
  have hxs : xs ≠ [] := by
    rintro rfl
    exact hl rfl
  obtain ⟨lc₁, hset, hev⟩ := hlayout.toLinked.setContent (.items []) (Nat.zero_le _)
  obtain ⟨lc₂, lc₃, -, hunlink, rfl, -, -, -, hmutates⟩ := hlayout.unlink []
    (hev.trans (hev.linked.push (.removeItem ⟨b.identifier, 0⟩) rfl (by simp))) (.single (by
      simpa [hcontent] using Step.removeItem (b := baseOf (xs ++ (p, b) :: ys)) (chainOf xs)
        (chainOf ys) b.identifier [] [] old)) rfl (fun he => absurd he hxs)
  rw [show chainOf (xs ++ (p, b) :: ys) = started chain by rw [hchain]; simp [hcontent],
    nil_append, chainOf_append] at hmutates
  refine ⟨_, ?_, hmut.trans hmutates⟩
  simp only [removeItemAt, heq, getElem?_cons_zero, eraseIdx_cons_zero, hset,
    isFirstChunk_iff, isLastChunk_iff, hxs, hunlink, bind_eq_bind, bind_some]
  by_cases hys : ys = [] <;> simp [hys]

/-- What is left is the chain without the item, and without its chunk when that is empty. -/
theorem removeItemAt_ok (h : Represents cap lc base chain)
    (hchain : started chain = l ++ (id, .items (before ++ old :: after)) :: r) :
    ∃ lc' us chain', lc.removeItemAt ⟨id, before.length⟩ = some (.ok old, lc') ∧
      Mutates cap base lc chain (startUpdates chain ++ us) lc' chain' ∧
      (∀ u ∈ us, addsNoItem u = true) ∧
      (chain' = l ++ (id, .items (before ++ after)) :: r ∨
        before ++ after = [] ∧ chain' = l ++ r) := by
  by_cases hkeep : before ++ after ≠ [] ∨ l = []
  · obtain ⟨lc', hok, hmut⟩ := removeItemAt_keep h hchain hkeep
    exact ⟨lc', _, _, hok, hmut, by simp [addsNoItem], .inl rfl⟩
  · obtain ⟨hempty, hl⟩ := not_or.mp hkeep
    obtain ⟨rfl, rfl⟩ := append_eq_nil_iff.mp (not_not.mp hempty)
    obtain ⟨lc', hok, hmut⟩ := removeItemAt_unlink h hchain hl
    exact ⟨lc', _, _, hok, hmut, by simp [addsNoItem], .inr ⟨rfl, rfl⟩⟩

section Reattach

variable {xs ys : Cells Item Gap} {p : ℕ} {b : ChunkBody Item Gap}
  (h : Layout cap lc (xs ++ (p, b) :: ys))
include h

/-- The items from `index` on are detached. -/
theorem Layout.detach {current : List Item} (hcontent : b.content = .items current)
    (hindex : index ≤ current.length) :
    ∃ lc', (lc.push (.detachLastItems ⟨b.identifier, index⟩)).setContent p
        (.items (current.take index)) = some lc' ∧
      Evolves cap lc (xs ++ (p, b) :: ys) [.detachLastItems ⟨b.identifier, index⟩] lc'
        (xs ++ (p, { b with content := .items (current.take index) }) :: ys) ∧
      Step (baseOf (xs ++ (p, b) :: ys)) (.whole (chainOf (xs ++ (p, b) :: ys)))
        (.detachLastItems ⟨b.identifier, index⟩)
        (.cut false (chainOf (xs ++ [(p, { b with content := .items (current.take index) })]))
          (current.drop index) (chainOf ys)) := by
  have hcapacity := h.capacity (b.identifier, b.content) (by simp)
  simp [hcontent, numItems] at hcapacity
  have hpush := h.toLinked.push (.detachLastItems ⟨b.identifier, index⟩) rfl (by simp)
  obtain ⟨lc', hset, hev⟩ := hpush.linked.setContent (.items (current.take index)) (by
    simp only [numItems, length_take]
    omega)
  refine ⟨lc', hset, hpush.trans hev, ?_⟩
  have hstep := Step.detachLastItems (b := baseOf (xs ++ (p, b) :: ys)) (chainOf xs) (chainOf ys)
    b.identifier (current.take index) (current.drop index)
  simp [take_append_drop, length_take, Nat.min_eq_left hindex] at hstep
  simpa [hcontent] using hstep

/-- The detached items are pushed again after the chunk `q`. -/
theorem Layout.reattach (hcap : 0 < cap) {lc' : LinkedChunk Item Gap} {us : List (Update Item Gap)}
    {zs : Cells Item Gap} {q : ℕ} {c : ChunkBody Item Gap}
    (hev : Evolves cap lc (xs ++ (p, b) :: ys) us lc' (zs ++ (q, c) :: ys))
    (hhead : headPtr (zs ++ [(q, c)]) none = headPtr (xs ++ [(p, b)]) none)
    (hlen : xs.length ≤ zs.length) (detached : List Item)
    (hsteps : Steps (baseOf (xs ++ (p, b) :: ys)) (.whole (chainOf (xs ++ (p, b) :: ys))) us
      (.cut true (chainOf (zs ++ [(q, c)])) detached (chainOf ys))) :
    ∃ q' lc₁ lc₂ us' left, lc'.pushItems cap (detached.length + 1) q detached = some (q', lc₁) ∧
      (lc₁.push .endReattachItems).updateLast q' = some lc₂ ∧
      Mutates cap (baseOf (xs ++ (p, b) :: ys)) lc (chainOf (xs ++ (p, b) :: ys))
        (us ++ (us' ++ [.endReattachItems])) lc₂ (left ++ chainOf ys) ∧
      Grow (baseOf (xs ++ (p, b) :: ys)) (chainOf ys) (chainOf (zs ++ [(q, c)])) detached us'
        left := by
  obtain ⟨q', c', lc₁, us', before, hpush, hev', hhead', hlen', hgrow⟩ :=
    hev.linked.pushItems_end hcap detached
  have hall := hev.trans (hev'.trans (hev'.linked.push .endReattachItems rfl (by simp)))
  obtain ⟨lc₂, hupd, hlayout, hgen, hlog⟩ :=
    h.updateLast hall.linked hall.first hall.last (hhead'.trans hhead) (hlen.trans hlen')
  rw [hev.base] at hgrow
  have hback := hgrow.reattached []
  rw [append_nil] at hback
  have hend := Step.endReattachItems (b := baseOf (xs ++ (p, b) :: ys))
    (chainOf (before ++ [(q', c')])) (chainOf ys)
  have hmutates := hall.mutates hlayout (by simp) hgen hlog
    (hsteps.append (hback.append (.single (by simpa using hend))))
  exact ⟨q', lc₁, lc₂, us', _, hpush, hupd, by simpa using hmutates, hgrow⟩

end Reattach

/-- Items are inserted before the item at `index`; the chunk may spill over into new ones. -/
theorem insertItemsAt_ok (hcap : 0 < cap) (h : Represents cap lc base chain) {current : List Item}
    (hchain : started chain = l ++ (id, .items current) :: r) (hindex : index ≤ current.length)
    (items : List Item) :
    ∃ lc' us left, lc.insertItemsAt cap ⟨id, index⟩ items = some (.ok (), lc') ∧
      Mutates cap base lc chain (startUpdates chain ++ us) lc' (left ++ r) ∧
      (∀ u ∈ us, keepsItems u = true) ∧
      (∃ current' more, left = l ++ (id, .items current') :: more) ∧
      entriesOf left = entriesOf l ++
        (current.take index ++ items ++ current.drop index).map .item := by
  obtain ⟨xs, p, b, ys, hlayout, rfl, rfl, hcontent, rfl, rfl, hmut, heq⟩ :=
    h.withItems_items hchain
  by_cases hlen : index = current.length
  · subst hlen
    obtain ⟨q, c, lc₁, us, before, hpush, hev, hhead, hlen, hgrow⟩ :=
      hlayout.toLinked.pushItems_end hcap items
    obtain ⟨lc₂, hupd, hlayout₂, hgen, hlog⟩ :=
      hlayout.updateLast hev.linked hev.first hev.last hhead hlen
    refine ⟨lc₂, us, chainOf (before ++ [(q, c)]), by simp [insertItemsAt, heq, hpush, hupd],
      hmut.trans ?_, hgrow.keepsItems, ?_, ?_⟩
    · have hmutates := hev.mutates hlayout₂ (by simp) hgen hlog (by simpa using hgrow.whole)
      rw [hchain]
      simpa [hcontent] using hmutates
    · exact hgrow.stays (show _ = chainOf xs ++ (b.identifier, .items current) :: [] by
        simp [hcontent])
    · rw [hgrow.entriesOf_eq]
      simp [hcontent]
  · have hlt : ¬current.length < index := by omega
    -- the tail of the chunk is detached, then pushed again after the new items
    obtain ⟨lc₁, hset, hev₁, hdetach⟩ := hlayout.detach hcontent hindex
    obtain ⟨q, c, lc₂, us, zs, hpush, hev₂, hhead, hle, hgrow⟩ :=
      hev₁.linked.pushItems_end hcap items
    rw [hev₁.base] at hgrow
    obtain ⟨q', lc₃, lc₄, us', left, hback, hupd, hmutates, hgrow'⟩ := hlayout.reattach hcap
      (hev₁.trans (hev₂.trans (hev₂.linked.push .startReattachItems rfl (by simp))))
      (by rw [hhead, headPtr_append, headPtr_append]; rfl) hle (current.drop index)
      (.cons hdetach ((hgrow.detached _).append (.single (.startReattachItems _ _ _))))
    rw [show chainOf (xs ++ (p, b) :: ys) = started chain by rw [hchain]; simp [hcontent]]
      at hmutates
    refine ⟨lc₄, _, left, ?_, hmut.trans hmutates, ?_, ?_, ?_⟩
    · simp at hback
      simp [insertItemsAt, heq, hlt, hlen, hset, hpush, hback, hupd]
    · simp only [forall_mem_append, forall_mem_singleton]
      exact ⟨⟨rfl, hgrow.keepsItems, rfl⟩, hgrow'.keepsItems, rfl⟩
    · obtain ⟨current', more, hmore⟩ := hgrow.stays
        (show _ = chainOf xs ++ (b.identifier, .items (current.take index)) :: [] by simp)
      exact hgrow'.stays hmore
    · rw [hgrow'.entriesOf_eq, hgrow.entriesOf_eq]
      simp

/-- Items are pushed at the end. -/
theorem pushItemsBack_eq (hcap : 0 < cap) (h : Represents cap lc base chain) (items : List Item) :
    ∃ lc' us chain', lc.pushItemsBack cap items = some lc' ∧
      Mutates cap base lc chain (startUpdates chain ++ us) lc' chain' ∧
      Grow base [] (started chain) items us chain' := by
  obtain ⟨xs, p, b, hlayout, hzs, rfl, hptr, hmut⟩ := h.latest
  obtain ⟨q, c, lc₁, us, before, hpush, hev, hhead, hlen, hgrow⟩ :=
    hlayout.toLinked.pushItems_end hcap items
  obtain ⟨lc₂, hupd, hlayout₂, hgen, hlog⟩ :=
    hlayout.updateLast hev.linked hev.first hev.last hhead hlen
  have hread := hev.linked.cells.read_eq
  refine ⟨lc₂, us, chainOf (before ++ [(q, c)]), ?_, hmut.trans ?_, ?_⟩
  · simp [updateLast, hread] at hupd
    by_cases hbefore : before = []
    · simpa [pushItemsBack, hptr, hpush, hread, isFirstChunk_iff, isLastChunk_iff,
        hbefore] using hupd
    · simpa [pushItemsBack, hptr, hpush, hread, isFirstChunk_iff, isLastChunk_iff,
        hbefore] using hupd
  · have hmutates := hev.mutates hlayout₂ (by simp) hgen hlog (by simpa using hgrow.whole)
    rw [← hzs]
    simpa using hmutates
  · rw [← hzs]
    simpa using hgrow

section Gaps

open Step

theorem pushGapBack_eq (h : Represents cap lc base chain) (g : Gap) :
    ∃ lc', lc.pushGapBack g = some lc' ∧
      Mutates cap base lc chain (startUpdates chain ++
        [.newGapChunk (lastIdentifier base (started chain)) (lc.chunkIdentifierGenerator + 1) none
          g]) lc' (started chain ++ [(lc.chunkIdentifierGenerator + 1, .gap g)]) := by
  obtain ⟨xs, p, b, hlayout, hzs, rfl, hptr, hmut⟩ := h.latest
  obtain ⟨q, lc₁, hins, hev⟩ := hlayout.toLinked.insertNextLeaked (.gap g) rfl
  rw [start_chunkIdentifierGenerator] at hev
  have hread := hev.linked.cells.read_eq
  refine ⟨{ lc₁ with last := some q }, ?_, hmut.trans ?_⟩
  · simp [pushGapBack, hptr, hins, hread, headPtr]
  · have hlayout' : Layout cap { lc₁ with last := some q }
        (xs ++ [(p, b), (q, ⟨none, lc.chunkIdentifierGenerator + 1, .gap g⟩)]) := by
      refine ⟨hev.linked.of_ends rfl rfl, ?_, .inl (by simp [lastPtr_append, lastPtr])⟩
      rw [hev.first, hlayout.first, headPtr_append, headPtr_append]
      rfl
    have hmutates := hev.mutates hlayout' (by simp) rfl rfl (.single (by
      have hstep := newChunk (b := baseOf (xs ++ [(p, b)])) (chainOf (xs ++ [(p, b)])) []
        (lc.chunkIdentifierGenerator + 1) (.gap g) rfl
        (by simpa using hlayout.toLinked.next_fresh)
      simpa using hstep))
    rw [← hzs]
    simpa [newChunkUpdate, headIdentifier] using hmutates

variable {current : List Item}

section

variable (h : Represents cap lc base chain)
  (hchain : started chain = l ++ (id, .items current) :: r)
include h hchain

/-- At index 0 the gap goes before the chunk, which is not split. -/
theorem insertGapAt_front (g : Gap) :
    ∃ lc', lc.insertGapAt cap g ⟨id, 0⟩ = some (.ok (), lc') ∧
      Mutates cap base lc chain (startUpdates chain ++
        [.newGapChunk (lastIdentifier base l) (lc.chunkIdentifierGenerator + 1) (some id) g]) lc'
        (l ++ (lc.chunkIdentifierGenerator + 1, .gap g) :: (id, .items current) :: r) := by
  obtain ⟨xs, p, b, ys, hlayout, rfl, rfl, hcontent, rfl, rfl, hmut, heq⟩ :=
    h.withItems_items hchain
  obtain ⟨lc₁, b₁, b₂, hins, hid₁, hcontent₁, hid₂, hcontent₂, hev⟩ :=
    hlayout.toLinked.insertBeforeLeaked (.gap g) rfl
  rw [start_chunkIdentifierGenerator] at hev hid₁ hins
  set q := (start lc).heap.length with hq
  let lc₂ : LinkedChunk Item Gap := { lc₁ with
    first := if xs = [] then some q else lc₁.first
    last := if xs = [] ∧ ys = [] then some p else lc₁.last }
  have hlayout' : Layout cap lc₂ (xs ++ (q, b₁) :: (p, b₂) :: ys) := by
    refine ⟨hev.linked.of_ends rfl rfl, ?_, .inl ?_⟩
    · cases xs with
      | nil => rfl
      | cons x xs =>
        change lc₁.first = some x.1
        rw [hev.first, hlayout.first]
        rfl
    · by_cases hone : xs = [] ∧ ys = []
      · simp [lc₂, hone, lastPtr]
      · simp only [lc₂, if_neg hone]
        rw [hev.last, hlayout.last_eq (not_and_or.mp hone)]
        simp [lastPtr_append, lastPtr]
  refine ⟨lc₂, ?_, hmut.trans ?_⟩
  · simp only [insertGapAt, heq, if_true]
    change (((start lc).nextIdentifier.2.newLeaked _ _).2.insertBefore p q >>= _) = _
    simp only [nextIdentifier, start_chunkIdentifierGenerator] at hins ⊢
    simp only [hins, bind_eq_bind, bind_some, isFirstChunk_iff, isLastChunk_iff, lc₂]
    by_cases hxs : xs = [] <;> by_cases hys : ys = [] <;> simp [hxs, hys, hq, newLeaked]
  · have hmutates := hev.mutates hlayout' (by simp) rfl rfl (.single (by
      have hstep := newChunk (b := baseOf (xs ++ (p, b) :: ys)) (chainOf xs)
        (chainOf ((p, b) :: ys)) (lc.chunkIdentifierGenerator + 1) (.gap g) rfl
        (by simpa using hlayout.toLinked.next_fresh)
      simpa [hid₁, hcontent₁, hid₂, hcontent₂, headIdentifier] using hstep))
    rw [hchain]
    simpa [newChunkUpdate, hid₁, hcontent₁, hid₂, hcontent₂, hcontent] using hmutates

end

/-- Anywhere else the chunk is split in two around the gap. -/
theorem insertGapAt_split (hcap : 0 < cap) (h : Represents cap lc base chain)
    (hchain : started chain = l ++ (id, .items current) :: r) (hpos : index ≠ 0)
    (hindex : index < current.length) (g : Gap) :
    ∃ lc' us left, lc.insertGapAt cap g ⟨id, index⟩ = some (.ok (), lc') ∧
      Mutates cap base lc chain (startUpdates chain ++ us) lc' (left ++ r) ∧
      (∀ u ∈ us, keepsItems u = true) ∧
      entriesOf left = entriesOf l ++ (current.take index).map .item ++ [.gap g] ++
        (current.drop index).map .item := by
  obtain ⟨xs, p, b, ys, hlayout, rfl, rfl, hcontent, rfl, rfl, hmut, heq⟩ :=
    h.withItems_items hchain
  have hlt : ¬current.length ≤ index := by omega
  obtain ⟨lc₁, hset, hev₁, hdetach⟩ := hlayout.detach hcontent hindex.le
  set b' : ChunkBody Item Gap := { b with content := .items (current.take index) } with hb'
  obtain ⟨q₂, lc₂, hins₂, hev₂⟩ := hev₁.linked.insertNextLeaked (.gap g) rfl
  set c₂ : ChunkBody Item Gap := ⟨none, lc₁.chunkIdentifierGenerator + 1, .gap g⟩ with hc₂
  have hev₃ := hev₂.linked.push .startReattachItems rfl (by simp)
  have hlinked₃ : Linked cap (lc₂.push .startReattachItems)
      ((xs ++ [(p, b')]) ++ (q₂, c₂) :: ys) := by
    simpa using hev₃.linked
  obtain ⟨q₄, lc₄, hins₄, hev₄⟩ := hlinked₃.insertNextLeaked (.items []) rfl
  set c₄ : ChunkBody Item Gap :=
    ⟨none, (lc₂.push .startReattachItems).chunkIdentifierGenerator + 1, .items []⟩ with hc₄
  simp only [append_assoc, cons_append, nil_append] at hev₄
  have hev := hev₁.trans (hev₂.trans (hev₃.trans hev₄))
  rw [show xs ++ (p, b') :: (q₂, c₂) :: (q₄, c₄) :: ys =
    (xs ++ [(p, b'), (q₂, c₂)]) ++ (q₄, c₄) :: ys by simp] at hev
  have hgap := cutNewChunk (b := baseOf (xs ++ (p, b) :: ys)) false (chainOf (xs ++ [(p, b')]))
    (chainOf ys) (current.drop index) (lc₁.chunkIdentifierGenerator + 1) (.gap g) rfl
    (by simpa using hev₁.linked.next_fresh)
  have hitems := cutNewChunk (b := baseOf (xs ++ (p, b) :: ys)) true
    (chainOf (xs ++ [(p, b'), (q₂, c₂)])) (chainOf ys) (current.drop index)
    ((lc₂.push .startReattachItems).chunkIdentifierGenerator + 1) (.items []) rfl
    (by simpa using hlinked₃.next_fresh)
  obtain ⟨q₅, lc₅, lc₆, us, left, hback, hupd, hmutates, hgrow⟩ := hlayout.reattach hcap hev
    (by cases xs <;> rfl) (by simp) (current.drop index)
    (.cons hdetach (.cons (by simpa using hgap) (.cons (.startReattachItems _ _ _)
      (.single (by simpa [lastIdentifier_cons, hc₂, hc₄] using hitems)))))
  rw [show chainOf (xs ++ (p, b) :: ys) = started chain by rw [hchain]; simp [hcontent]]
    at hmutates
  refine ⟨lc₆, _, left, ?_, hmut.trans hmutates, ?_, ?_⟩
  · simp at hback
    simp [insertGapAt, heq, hpos, hlt, hset, hins₂, hins₄, hback, hupd]
  · simp only [forall_mem_append, forall_mem_singleton]
    exact ⟨⟨rfl, rfl, rfl, rfl⟩, hgrow.keepsItems, rfl⟩
  · rw [hgrow.entriesOf_eq]
    simp [hb', hc₂, hc₄]

section RemoveEmptyChunk

section

variable (h : Represents cap lc base chain)
include h

theorem removeEmptyChunkAt_only (hone : (started chain).length = 1) :
    lc.removeEmptyChunkAt id = some (.error .removingLastChunk, start lc) := by
  obtain ⟨p, b, xs, hlayout, hzs, -, hptr, -⟩ := h.firstChunk
  obtain rfl : xs = [] := by
    rw [← hzs] at hone
    simpa [chainOf] using hone
  have hread := hlayout.cells.read_head
  simp [removeEmptyChunkAt, hptr, hread, isLastChunk_iff]

/-- With more than one chunk, the chunk to remove is looked up. -/
private theorem removeEmptyChunkAt_lookup (hmany : (started chain).length ≠ 1) :
    ∃ p b xs, Layout cap (start lc) ((p, b) :: xs) ∧ xs ≠ [] ∧
      chainOf ((p, b) :: xs) = started chain ∧ baseOf ((p, b) :: xs) = base ∧
      lc.firstChunkPtr = (p, start lc) ∧
      (start lc).heap.read p = some ⟨none, headPtr xs none, b⟩ ∧
      Mutates cap base lc chain (startUpdates chain) (start lc) (started chain) := by
  obtain ⟨p, b, xs, hlayout, hzs, hbase, hptr, hmut⟩ := h.firstChunk
  refine ⟨p, b, xs, hlayout, ?_, hzs, hbase, hptr, hlayout.cells.read_head, hmut⟩
  rintro rfl
  rw [← hzs] at hmany
  exact hmany rfl

theorem removeEmptyChunkAt_missing (hmany : (started chain).length ≠ 1)
    (hid : id ∉ identifiers (started chain)) :
    lc.removeEmptyChunkAt id = some (.error (.invalidChunkIdentifier id), start lc) := by
  obtain ⟨p, b, xs, hlayout, hxs, hzs, -, hptr, hread, -⟩ := removeEmptyChunkAt_lookup h hmany
  have hmissing := hlayout.chunkPtr_missing (by simp) (hzs ▸ hid)
  simp [removeEmptyChunkAt, hptr, hread, isLastChunk_iff, hxs, hmissing]

end

variable {content : ChunkContent Item Gap}

section

variable (h : Represents cap lc base chain) (hmany : (started chain).length ≠ 1)
  (hchain : started chain = l ++ (id, content) :: r)
include h hmany hchain

theorem removeEmptyChunkAt_nonEmpty (hitems : 0 < content.numItems) :
    lc.removeEmptyChunkAt id = some (.error (.removingNonEmptyItemsChunk id), start lc) := by
  obtain ⟨p, b, xs, hlayout, hxs, hzs, -, hptr, hread, -⟩ := removeEmptyChunkAt_lookup h hmany
  obtain ⟨zs, q, c, ys, hsplit, -, rfl, rfl, -⟩ := exists_cells_of_chainOf (hzs.trans hchain)
  rw [hsplit] at hlayout
  simp [removeEmptyChunkAt, hptr, hread, isLastChunk_iff, hxs, hlayout.chunkPtr_found,
    hlayout.cells.read_eq, hitems]

theorem removeEmptyChunkAt_ok (hempty : content.numItems = 0) :
    ∃ lc', lc.removeEmptyChunkAt id =
        some (.ok ((headIdentifier r).map fun next => ⟨next, 0⟩), lc') ∧
      Mutates cap base lc chain (startUpdates chain ++ [.removeChunk id]) lc' (l ++ r) := by
  obtain ⟨p₀, b₀, xs₀, hlayout, hxs₀, hzs, rfl, hptr, hread₀, hmut⟩ :=
    removeEmptyChunkAt_lookup h hmany
  obtain ⟨xs, p, b, ys, hsplit, rfl, rfl, rfl, rfl⟩ := exists_cells_of_chainOf (hzs.trans hchain)
  rw [hsplit] at hlayout hmut hzs ⊢
  have hneither : ¬(xs = [] ∧ ys = []) := by
    rintro ⟨rfl, rfl⟩
    rw [hchain] at hmany
    exact hmany rfl
  obtain ⟨lc₁, -, -, hunlink, rfl, -, -, -, hmutates⟩ := hlayout.unlink []
    (.refl hlayout.toLinked) (.nil _) hempty (fun hxs hys => hneither ⟨hxs, hys⟩)
  rw [hzs, nil_append, chainOf_append, append_nil] at hmutates
  refine ⟨_, ?_, hmut.trans hmutates⟩
  have hnext : (start lc).firstPositionAt (headPtr ys none) =
      some ((headIdentifier (chainOf ys)).map fun next => ⟨next, 0⟩) := by
    cases ys with
    | nil => rfl
    | cons y ys =>
      obtain ⟨q, c⟩ := y
      have hread : (start lc).heap.read q =
          some ⟨lastPtr none (xs ++ [(p, b)]), headPtr ys none, c⟩ :=
        DList.read_eq (by simpa using hlayout.cells)
      simp [firstPositionAt, headPtr, hread, firstPosition, headIdentifier]
  have hsome : (headPtr ys none).isSome = !decide (ys = []) := by
    cases ys <;> simp [headPtr]
  have hzero : ¬0 < b.content.numItems := by omega
  simp only [removeEmptyChunkAt, hptr, hread₀, isLastChunk_iff, hxs₀,
    hlayout.chunkPtr_found, hlayout.cells.read_eq, hzero, hnext, hunlink, isFirstChunk_iff, hsome,
    bind_eq_bind, bind_some, decide_false, if_false, Bool.false_eq_true]
  by_cases hxs : xs = []
  · have hys : ys ≠ [] := fun hys => hneither ⟨hxs, hys⟩
    simp [hxs, hys]
  · by_cases hys : ys = [] <;> simp [hxs, hys]

end

end RemoveEmptyChunk

/-- The gap makes room for new chunks that hold the items; `new` is the first of them. -/
theorem replaceGapAt_ok (hcap : 0 < cap) (h : Represents cap lc base chain) {g : Gap}
    (hchain : started chain = l ++ (id, .gap g) :: r) (items : List Item) :
    ∃ new chunk lc' us current more, lc.replaceGapAt cap items id = some (.ok new, lc') ∧
      lc'.heap.read new = some chunk ∧
      chunk.value.identifier = lc.chunkIdentifierGenerator + 1 ∧
      Mutates cap base lc chain (startUpdates chain ++ us) lc'
        (l ++ (lc.chunkIdentifierGenerator + 1, .items current) :: more ++ r) ∧
      (∀ u ∈ us, keepsItems u = true) ∧
      current.map .item ++ entriesOf more = items.map .item := by
  obtain ⟨xs, p, b, ys, hlayout, rfl, rfl, hcontent, rfl, rfl, hptr, hmut⟩ := h.located hchain
  obtain ⟨q, lc₁, hins, hev₁⟩ := hlayout.toLinked.insertNextLeaked (.items []) rfl
  rw [start_chunkIdentifierGenerator] at hev₁
  set gen := lc.chunkIdentifierGenerator with hgen
  have hlinked₁ : Linked cap lc₁ ((xs ++ [(p, b)]) ++ (q, ⟨none, gen + 1, .items []⟩) :: ys) := by
    simpa using hev₁.linked
  obtain ⟨q', lc₂, us, content, zs, hpush, hev₂, hlast, hgrow⟩ :=
    hlinked₁.pushItems hcap (items.length + 1) items (.inl le_rfl)
  set c : ChunkBody Item Gap := ⟨none, gen + 1, content⟩ with hc
  have hlinked₂ : Linked cap lc₂ (xs ++ (p, b) :: ((q, c) :: zs ++ ys)) := by
    simpa [hc] using hev₂.linked
  have hentries : contentEntries content ++ entriesOf (chainOf zs) = items.map .item := by
    have heq := hgrow.entriesOf_eq
    simpa [hcontent] using heq
  obtain ⟨current, rfl⟩ : ∃ current, content = .items current := by
    cases content with
    | gap g' =>
      cases items with
      | nil => simp at hentries
      | cons item items => simp at hentries
    | items current => exact ⟨current, rfl⟩
  have hbase : baseOf (xs ++ [(p, b)] ++ (q, (⟨none, gen + 1, .items []⟩ : ChunkBody Item Gap)) ::
      ys) = baseOf (xs ++ (p, b) :: ys) := by
    cases xs <;> rfl
  rw [hbase] at hgrow
  have hsteps : Steps (baseOf (xs ++ (p, b) :: ys)) (.whole (chainOf (xs ++ (p, b) :: ys)))
      ([newChunkUpdate (some b.identifier) (gen + 1) (headIdentifier (chainOf ys)) (.items [])] ++
        us) (.whole (chainOf (xs ++ (p, b) :: ((q, c) :: zs ++ ys)))) := by
    have hnew := newChunk (b := baseOf (xs ++ (p, b) :: ys)) (chainOf (xs ++ [(p, b)]))
      (chainOf ys) (gen + 1) (.items []) rfl (by simpa using hlayout.toLinked.next_fresh)
    have hfill := hgrow.whole
    simp at hnew hfill ⊢
    exact .cons hnew hfill
  obtain ⟨lc₃, -, ys', hunlink, rfl, hys, hptrs, hlayout', hmutates⟩ :=
    hlayout.unlink ((q, c) :: zs) (hev₁.trans (by simpa [hc] using hev₂)) hsteps
      (by simp [hcontent, ChunkContent.numItems]) (by simp)
  obtain ⟨c', rest, rfl⟩ : ∃ c' rest, ys' = (q, c') :: rest := by
    cases ys' with
    | nil => simp at hptrs
    | cons y rest =>
      obtain ⟨q₀, c'⟩ := y
      simp at hptrs
      exact ⟨c', rest, by rw [hptrs.1]⟩
  have hc' : c'.identifier = gen + 1 := by
    simp at hys
    exact hys.1.1
  obtain ⟨before, d, hsplit⟩ := (lastPtr_eq_some_iff none ((q, c) :: zs) (by simp)).mp hlast
  have hread' : lc₂.heap.read q' = some ⟨lastPtr none (xs ++ (p, b) :: before),
      headPtr ys none, d⟩ := by
    refine DList.read_eq ?_
    have hcells := hlinked₂.cells
    rw [hsplit] at hcells
    simpa using hcells
  have hread : lc₂.heap.read p = some ⟨lastPtr none xs, some q, b⟩ := hlinked₂.cells.read_eq
  have hgap : b.content.isGap = true := by simp [hcontent, ChunkContent.isGap]
  have hend : lastPtr none (xs ++ (q, c) :: zs) = some q' := by
    rw [lastPtr_append]
    exact hlast
  rw [show chainOf (xs ++ (p, b) :: ys) = started chain by rw [hchain]; simp [hcontent],
    show chainOf (xs ++ ((q, c) :: zs ++ ys)) =
      chainOf xs ++ (gen + 1, .items current) :: chainOf zs ++ chainOf ys by simp [hc]] at hmutates
  refine ⟨q, _, _, _, current, chainOf zs, ?_, hlayout'.cells.read_eq, hc', hmut.trans hmutates,
    ?_, hentries⟩
  · simp only [replaceGapAt, hptr, hlayout.cells.read_eq, hgap, hins, hpush, hread',
      hread, hunlink, isFirstChunk_iff, isLastChunk_iff,
      bind_eq_bind, bind_some, Bool.not_true, Bool.false_eq_true, if_false, hend]
    by_cases hxs : xs = [] <;> by_cases hys : ys = [] <;> simp [hxs, hys, headPtr]
  · simp only [forall_mem_append, forall_mem_singleton]
    exact ⟨⟨rfl, hgrow.keepsItems⟩, rfl⟩

end Gaps

end MatrixSdk.Layouts

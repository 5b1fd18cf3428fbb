import MatrixSdk.Relational
import MatrixSdk.Chains

/-!
A chain as rows: the rows of its chunks with their links, the rows of its items with their
positions, and what linking, unlinking, shifting and detaching do to them. Rows stand in no
particular order, so they are compared up to permutation.
-/
namespace MatrixSdk.Relational

open Chunks Chains FirstMatches RelationalLinkedChunk List Option Nat Position

variable {Lid ItemId Item Gap : Type}

/-- The rows of the chunks of a chain, between `previous` and `next`. -/
def rowsOf (lid : Lid) (previous : Option ℕ) (chain : Chain Item Gap) (next : Option ℕ) :
    List (ChunkRow Lid) :=
  match chain with
  | [] => []
  | (id, _) :: rest =>
    ⟨lid, previous, id, (headIdentifier rest).or next⟩ :: rowsOf lid (some id) rest next

variable {lid : Lid} {previous next : Option ℕ} {chain : Chain Item Gap} {n id : ℕ}
  {position : Position} {l r : Chain Item Gap} {before : List Item}

theorem rowsOf_append :
    rowsOf lid previous (l ++ r) next =
      rowsOf lid previous l ((headIdentifier r).or next) ++
        rowsOf lid (lastIdentifier previous l) r next := by
  induction l generalizing previous with
  | nil => simp [rowsOf]
  | cons chunk l ih =>
    obtain ⟨id, content⟩ := chunk
    have hhead := headIdentifier_append_or next l r
    have hlast := lastIdentifier_cons previous id content l
    simp only [cons_append, rowsOf, ih, hhead, hlast]

theorem mem_rowsOf_chunk {row : ChunkRow Lid} (h : row ∈ rowsOf lid previous chain next) :
    row.linkedChunkId = lid ∧ row.chunk ∈ identifiers chain := by
  induction chain generalizing previous with
  | nil => simp [rowsOf] at h
  | cons chunk chain ih =>
    obtain ⟨id, content⟩ := chunk
    rcases mem_cons.mp h with rfl | h
    · exact ⟨rfl, by simp⟩
    · exact ⟨(ih h).1, by simp [(ih h).2]⟩

theorem mem_rowsOf_next {row : ChunkRow Lid} (h : row ∈ rowsOf lid previous chain next) :
    row.nextChunk = next ∨ ∃ k ∈ (identifiers chain).tail, row.nextChunk = some k := by
  induction chain generalizing previous with
  | nil => cases h
  | cons chunk chain ih =>
    obtain ⟨id, content⟩ := chunk
    rcases mem_cons.mp h with rfl | h
    · cases chain with
      | nil => exact .inl rfl
      | cons chunk' chain => exact .inr ⟨chunk'.1, by simp [identifiers], rfl⟩
    · rcases ih h with hnext | ⟨k, hk, hnext⟩
      · exact .inl hnext
      · exact .inr ⟨k, mem_of_mem_tail hk, hnext⟩

theorem mem_identifiers_of_lastIdentifier (h : lastIdentifier none chain = some n) :
    n ∈ identifiers chain := by
  rcases eq_nil_or_concat chain with rfl | ⟨l, chunk, rfl⟩
  · cases h
  · rw [concat_eq_append, lastIdentifier_append, lastIdentifier_singleton] at h
    cases h
    simp [identifiers]

/-- No row is linked to the first chunk. -/
theorem nextChunk_ne_head (hdistinct : (identifiers chain).Nodup)
    (hn : headIdentifier chain = some n) {row : ChunkRow Lid}
    (h : row ∈ rowsOf lid previous chain none) : row.nextChunk ≠ some n := by
  intro heq
  cases chain with
  | nil => cases hn
  | cons chunk chain =>
    cases hn
    rcases mem_rowsOf_next h with hnext | ⟨k, hk, hnext⟩
    · cases hnext.symm.trans heq
    · obtain rfl := Option.some.inj (hnext.symm.trans heq)
      exact (nodup_cons.mp hdistinct).1 hk

/-- Rows of chunks know nothing of what the chunks hold. -/
theorem rowsOf_congr (previous : Option ℕ) {chain' : Chain Item Gap}
    (h : identifiers chain = identifiers chain') :
    rowsOf lid previous chain next = rowsOf lid previous chain' next := by
  induction chain generalizing previous chain' with
  | nil =>
    obtain rfl : chain' = [] := by simpa [identifiers] using h.symm
    rfl
  | cons chunk chain ih =>
    obtain ⟨id, content⟩ := chunk
    cases chain' with
    | nil => simp [identifiers] at h
    | cons chunk' chain' =>
      obtain ⟨id', content'⟩ := chunk'
      obtain ⟨rfl, htail⟩ : id = id' ∧ identifiers chain = identifiers chain' := by simpa using h
      have hhead : headIdentifier chain = headIdentifier chain' := by
        have heads := congrArg List.head? htail
        simpa [identifiers, headIdentifier, head?_map] using heads
      simp only [rowsOf, hhead, ih (some id) htail]

theorem map_chunk_rowsOf :
    (rowsOf lid previous chain next).map ChunkRow.chunk = identifiers chain := by
  induction chain generalizing previous with
  | nil => rfl
  | cons chunk chain ih => simp [rowsOf, ih, identifiers]

/-- Splitting the rows at a cut. -/
theorem rowsOf_cut :
    rowsOf lid none (l ++ r) none =
      rowsOf lid none l (headIdentifier r) ++ rowsOf lid (lastIdentifier none l) r none := by
  rw [rowsOf_append, or_none]

variable {content : ChunkContent Item Gap} {xs : List Item}

section ChunkRows

variable [DecidableEq Lid] {chunks rows : List (ChunkRow Lid)}

/-- The rows of other chunks do not match. -/
theorem row_ne (lid : Lid) (hrows : ∀ row ∈ rows, row.chunk ≠ id) : ∀ row ∈ rows,
    (decide (row.linkedChunkId = lid) && decide (row.chunk = id)) = false := by
  intro row hrow
  simp [hrows row hrow]

/-- Changing the link of the last chunk before a cut. -/
theorem linkRow_previous (hdistinct : (identifiers l).Nodup)
    (hrows : ∀ row ∈ rows, row.chunk ∉ identifiers l) (next' : Option ℕ)
    (h : chunks.Perm (rowsOf lid none l next ++ rows)) :
    ∃ chunks', linkRow chunks lid (lastIdentifier none l)
        (fun row => { row with nextChunk := next' }) = some chunks' ∧
      chunks'.Perm (rowsOf lid none l next' ++ rows) := by
  rcases eq_nil_or_concat l with rfl | ⟨l, ⟨id, content⟩, rfl⟩
  · exact ⟨chunks, rfl, h⟩
  · simp only [concat_eq_append, identifiers_append, identifiers_cons, identifiers_nil,
      nodup_append, mem_append, mem_singleton, not_or] at hdistinct hrows
    simp only [concat_eq_append, rowsOf_append, append_assoc, rowsOf, headIdentifier_nil,
      headIdentifier_cons, none_or, some_or, cons_append, nil_append,
      lastIdentifier_append, lastIdentifier_singleton] at h ⊢
    refine modifyFirst_of_perm h (by simp) (row_ne lid (forall_mem_append.mpr ⟨?_, ?_⟩))
    · exact fun row hrow => hdistinct.2.2 _ (mem_rowsOf_chunk hrow).2 id rfl
    · exact fun row hrow => (hrows row hrow).2

/-- Changing the link of the first chunk after a cut. -/
theorem linkRow_next (hdistinct : (identifiers r).Nodup)
    (hrows : ∀ row ∈ rows, row.chunk ∉ identifiers r) (previous' : Option ℕ)
    (h : chunks.Perm (rows ++ rowsOf lid previous r none)) :
    ∃ chunks', linkRow chunks lid (headIdentifier r)
        (fun row => { row with previousChunk := previous' }) = some chunks' ∧
      chunks'.Perm (rows ++ rowsOf lid previous' r none) := by
  cases r with
  | nil => exact ⟨chunks, rfl, h⟩
  | cons chunk r =>
    obtain ⟨id, content⟩ := chunk
    simp only [identifiers_cons, nodup_cons, mem_cons, not_or] at hdistinct hrows
    simp only [rowsOf] at h ⊢
    refine modifyFirst_of_perm h (by simp) (row_ne lid (forall_mem_append.mpr ⟨?_, ?_⟩))
    · exact fun row hrow => (hrows row hrow).1
    · exact fun row hrow (heq : _ = id) => hdistinct.1 (heq ▸ (mem_rowsOf_chunk hrow).2)

theorem insertChunk_eq (hdistinct : (identifiers (l ++ r)).Nodup) (new : ℕ)
    (h : chunks.Perm (rowsOf lid none (l ++ r) none)) :
    ∃ chunks', insertChunk chunks lid (lastIdentifier none l) new (headIdentifier r) =
        (.ok (), chunks') ∧ chunks'.Perm (rowsOf lid none (l ++ (new, content) :: r) none) := by
  rw [rowsOf_cut] at h
  rw [identifiers_append, nodup_append] at hdistinct
  obtain ⟨hl, hr, hdisjoint⟩ := hdistinct
  obtain ⟨chunks₁, hprevious, h₁⟩ := linkRow_previous hl (fun row hrow hmem =>
    hdisjoint _ hmem _ (mem_rowsOf_chunk hrow).2 rfl) (some new) h
  obtain ⟨chunks₂, hnext, h₂⟩ := linkRow_next hr (fun row hrow hmem =>
    hdisjoint _ (mem_rowsOf_chunk hrow).2 _ hmem rfl) (some new) h₁
  refine ⟨chunks₂ ++ [⟨lid, lastIdentifier none l, new, headIdentifier r⟩], ?_, ?_⟩
  · simp only [insertChunk, hprevious, hnext]
  · rw [rowsOf_cut]
    simp only [headIdentifier_cons, rowsOf, or_none]
    exact (h₂.append_right _).trans (perm_append_singleton _ _ |>.trans
      (perm_middle.symm))

theorem removeChunk_eq (hdistinct : (identifiers (l ++ (id, content) :: r)).Nodup)
    (h : chunks.Perm (rowsOf lid none (l ++ (id, content) :: r) none)) :
    ∃ chunks', removeChunk chunks lid id = some chunks' ∧
      chunks'.Perm (rowsOf lid none (l ++ r) none) := by
  simp only [identifiers_append, identifiers_cons, nodup_append, nodup_cons, mem_cons] at hdistinct
  obtain ⟨hl, ⟨hid, hr⟩, hdisjoint⟩ := hdistinct
  rw [rowsOf_cut] at h
  simp only [headIdentifier_cons, rowsOf, or_none] at h
  have hother : ∀ row ∈ rowsOf lid none l (some id) ++ rowsOf lid (some id) r none,
      row.chunk ≠ id := forall_mem_append.mpr
    ⟨fun row hrow => hdisjoint _ (mem_rowsOf_chunk hrow).2 id (.inl rfl),
      fun row hrow heq => hid (heq ▸ (mem_rowsOf_chunk hrow).2)⟩
  obtain ⟨chunks₁, hremove, h₁⟩ := removeFirst_of_perm h (by simp) (row_ne lid hother)
  obtain ⟨chunks₂, hprevious, h₂⟩ := linkRow_previous hl (fun row hrow hmem =>
    hdisjoint _ hmem _ (.inr (mem_rowsOf_chunk hrow).2) rfl) (headIdentifier r) h₁
  obtain ⟨chunks₃, hnext, h₃⟩ := linkRow_next hr (fun row hrow hmem =>
    hdisjoint _ (mem_rowsOf_chunk hrow).2 _ (.inr hmem) rfl) (lastIdentifier none l) h₂
  refine ⟨chunks₃, ?_, ?_⟩
  · simp only [removeChunk, hremove, hprevious, hnext, bind_eq_bind, bind_some]
  · rw [rowsOf_cut]
    exact h₃

end ChunkRows

/-- The item at a position, if it is one of an items chunk. -/
def itemAt : Chain Item Gap → Position → Option Item
  | [], _ => none
  | (id, content) :: rest, position =>
    if position.chunkIdentifier = id then (contentItems content)[position.index]?
    else itemAt rest position

section ItemAt

theorem itemAt_notMem (h : position.chunkIdentifier ∉ identifiers chain) :
    itemAt chain position = none := by
  induction chain with
  | nil => rfl
  | cons chunk chain ih =>
    obtain ⟨id, content⟩ := chunk
    obtain ⟨hne, h⟩ : position.chunkIdentifier ≠ id ∧
        position.chunkIdentifier ∉ identifiers chain := by simpa using h
    rw [itemAt, if_neg hne]
    exact ih h

/-- What is at a position is in the chunk it names, wherever that chunk stands. -/
theorem itemAt_split (hid : id ∉ identifiers l) (position : Position) :
    itemAt (l ++ (id, content) :: r) position =
      if position.chunkIdentifier = id then (contentItems content)[position.index]?
      else itemAt (l ++ r) position := by
  induction l with
  | nil => rfl
  | cons chunk l ih =>
    obtain ⟨other, c⟩ := chunk
    obtain ⟨hne, hid⟩ : id ≠ other ∧ id ∉ identifiers l := by simpa using hid
    simp only [cons_append, itemAt, ih hid]
    by_cases hother : position.chunkIdentifier = other
    · rw [if_pos hother, if_pos hother, if_neg]
      exact fun heq => hne (heq.symm.trans hother)
    · rw [if_neg hother, if_neg hother]

theorem itemAt_append (h : position.chunkIdentifier ∉ identifiers l) :
    itemAt (l ++ r) position = itemAt r position := by
  induction l with
  | nil => rfl
  | cons chunk l ih =>
    obtain ⟨id, content⟩ := chunk
    obtain ⟨hne, h⟩ : position.chunkIdentifier ≠ id ∧
        position.chunkIdentifier ∉ identifiers l := by simpa using h
    rw [cons_append, itemAt, if_neg hne, ih h]

/-- The identifiers do not depend on what the chunks hold. -/
theorem identifiers_replace (content' : ChunkContent Item Gap) :
    identifiers (l ++ (id, content) :: r) = identifiers (l ++ (id, content') :: r) := by
  simp

theorem mem_itemsOf_of_itemAt {item : Item} (h : itemAt chain position = some item) :
    item ∈ itemsOf chain := by
  induction chain with
  | nil => cases h
  | cons chunk chain ih =>
    obtain ⟨id, content⟩ := chunk
    rw [itemAt] at h
    split at h
    · exact mem_append_left _ (mem_of_getElem? h)
    · exact mem_append_right _ (ih h)

/-- A chunk without items changes nothing at any position. -/
theorem itemAt_of_empty (hid : id ∉ identifiers (l ++ r)) (hempty : content.numItems = 0)
    (position : Position) :
    itemAt (l ++ (id, content) :: r) position = itemAt (l ++ r) position := by
  have hl : id ∉ identifiers l := fun hmem => hid (by simp [hmem])
  rw [itemAt_split hl]
  split
  · next heq =>
    have hitems : contentItems content = [] := by
      rw [numItems_eq] at hempty
      exact length_eq_zero_iff.mp hempty
    rw [hitems, itemAt_notMem (heq ▸ hid)]
    rfl
  · rfl

section

variable (hid : id ∉ identifiers l)
include hid

theorem itemAt_push (current : List Item) (item : Item) (position : Position) :
    itemAt (l ++ (id, .items (current ++ [item])) :: r) position =
      if position = ⟨id, current.length⟩ then some item
      else itemAt (l ++ (id, .items current) :: r) position := by
  obtain ⟨k, index⟩ := position
  rw [itemAt_split hid, itemAt_split hid]
  simp only [contentItems_items, Position.mk.injEq]
  by_cases hk : k = id
  · rw [if_pos hk, if_pos hk]
    by_cases hindex : index = current.length
    · simp [hk, hindex]
    · rw [if_neg (fun h => hindex h.2)]
      rcases lt_or_gt_of_ne hindex with hlt | hgt
      · exact getElem?_append_left hlt
      · rw [getElem?_eq_none (by simp; omega), getElem?_eq_none (by omega)]
  · rw [if_neg hk, if_neg hk, if_neg (fun h => hk h.1)]

theorem itemAt_set (before after : List Item) (old item : Item) (position : Position) :
    itemAt (l ++ (id, .items (before ++ item :: after)) :: r) position =
      if position = ⟨id, before.length⟩ then some item
      else itemAt (l ++ (id, .items (before ++ old :: after)) :: r) position := by
  obtain ⟨k, index⟩ := position
  rw [itemAt_split hid, itemAt_split hid]
  simp only [contentItems_items, Position.mk.injEq]
  by_cases hk : k = id
  · rw [if_pos hk, if_pos hk]
    by_cases hindex : index = before.length
    · simp [hk, hindex]
    · rw [if_neg (fun h => hindex h.2)]
      rcases lt_or_gt_of_ne hindex with hlt | hgt
      · rw [getElem?_append_left hlt, getElem?_append_left hlt]
      · obtain ⟨j, rfl⟩ : ∃ j, index = before.length + (j + 1) :=
          ⟨index - before.length - 1, by omega⟩
        simp [getElem?_append_right]
  · rw [if_neg hk, if_neg hk, if_neg (fun h => hk h.1)]

/-- What is at a position once an item was removed. -/
theorem itemAt_remove (after : List Item) (old : Item) (position : Position) (i : Item) :
    itemAt (l ++ (id, .items (before ++ after)) :: r) position = some i ↔
      ∃ q, (if q = ⟨id, before.length⟩ then none
          else some (shiftAfter ⟨id, before.length⟩ q)) = some position ∧
        itemAt (l ++ (id, .items (before ++ old :: after)) :: r) q = some i := by
  simp only [ite_none_left_eq_some, Option.some.injEq, and_assoc]
  have hskip : ∀ index, (before ++ after)[index]? =
      (before ++ old :: after)[if index < before.length then index else index + 1]? := by
    intro index
    split
    · next hlt => rw [getElem?_append_left hlt, getElem?_append_left hlt]
    · next hge =>
      obtain ⟨j, rfl⟩ := Nat.exists_eq_add_of_le (Nat.not_lt.mp hge)
      rw [getElem?_append_right (by omega), getElem?_append_right (by omega),
        show before.length + j + 1 - before.length = j + 1 by omega,
        show before.length + j - before.length = j by omega, getElem?_cons_succ]
  obtain ⟨k, index⟩ := position
  rw [itemAt_split hid]
  by_cases hk : k = id
  · subst hk
    rw [if_pos rfl, contentItems_items, hskip]
    constructor
    · intro hi
      refine ⟨⟨k, if index < before.length then index else index + 1⟩, ?_, ?_, ?_⟩
      · simp only [Position.mk.injEq, true_and]
        split <;> omega
      · simp only [shiftAfter, true_and]
        split <;> split <;> simp_all
        all_goals omega
      · rw [itemAt_split hid, if_pos rfl, contentItems_items]
        exact hi
    · rintro ⟨⟨k', j⟩, hne, hshift, hi⟩
      simp only [shiftAfter] at hshift
      have hk' : k' = k := by split at hshift <;> exact congrArg chunkIdentifier hshift
      subst hk'
      rw [itemAt_split hid, if_pos rfl, contentItems_items] at hi
      have hj : j ≠ before.length := fun heq => hne (by rw [heq])
      have hindex : (if index < before.length then index else index + 1) = j := by
        split at hshift
        · next h =>
          have heq : j - 1 = index := congrArg Position.index hshift
          have hlt : before.length < j := h.2
          rw [if_neg (by omega)]
          omega
        · next h =>
          have heq : j = index := congrArg Position.index hshift
          rw [if_pos (by omega)]
          exact heq.symm
      rw [hindex]
      exact hi
  · rw [if_neg hk]
    constructor
    · intro hi
      refine ⟨⟨k, index⟩, fun heq => hk (congrArg chunkIdentifier heq), ?_, ?_⟩
      · exact if_neg fun h => hk h.1
      · rw [itemAt_split hid, if_neg hk]
        exact hi
    · rintro ⟨⟨k', j⟩, -, hshift, hi⟩
      simp only [shiftAfter] at hshift
      split at hshift
      · next h => exact absurd ((congrArg chunkIdentifier hshift).symm.trans h.1) hk
      · cases hshift
        rw [itemAt_split hid, if_neg hk] at hi
        exact hi

/-- What is at a position once the last items of a chunk were detached. -/
theorem itemAt_detach (detached : List Item) (position : Position) (i : Item) :
    itemAt (l ++ (id, .items xs) :: r) position = some i ↔
      ∃ q, (if isDetached ⟨id, xs.length⟩ q then none else some q) =
          some position ∧
        itemAt (l ++ (id, .items (xs ++ detached)) :: r) q = some i := by
  obtain ⟨k, index⟩ := position
  have hkeep : (∃ q, (if isDetached ⟨id, xs.length⟩ q then none else some q) =
        some (⟨k, index⟩ : Position) ∧
        itemAt (l ++ (id, .items (xs ++ detached)) :: r) q = some i) ↔
      ¬(k = id ∧ xs.length ≤ index) ∧
        itemAt (l ++ (id, .items (xs ++ detached)) :: r) ⟨k, index⟩ = some i := by
    constructor
    · rintro ⟨q, hq, hi⟩
      rw [ite_none_left_eq_some, Option.some.injEq] at hq
      obtain ⟨hnot, rfl⟩ := hq
      refine ⟨?_, hi⟩
      rintro ⟨rfl, hle⟩
      exact hnot (by simp [isDetached, hle])
    · rintro ⟨hnot, hi⟩
      refine ⟨⟨k, index⟩, if_neg ?_, hi⟩
      simpa [isDetached] using hnot
  rw [hkeep, itemAt_split hid, itemAt_split hid]
  by_cases hk : k = id
  · simp only [hk, if_true, contentItems_items, true_and, not_le]
    constructor
    · intro hi
      have hlt := (List.getElem?_eq_some_iff.mp hi).1
      exact ⟨hlt, by rw [getElem?_append_left hlt, hi]⟩
    · rintro ⟨hlt, hi⟩
      rwa [getElem?_append_left hlt] at hi
  · simp [hk]

end

end ItemAt

variable [IndexableItem Item ItemId]

/-- An identifier of an item is at one position only. -/
theorem itemAt_inj (h : ((itemsOf chain).map (IndexableItem.id : Item → ItemId)).Nodup)
    {p q : Position} {x y : Item} (hp : itemAt chain p = some x) (hq : itemAt chain q = some y)
    (hid : (IndexableItem.id x : ItemId) = IndexableItem.id y) : p = q := by
  induction chain with
  | nil => cases hp
  | cons chunk chain ih =>
    obtain ⟨id, content⟩ := chunk
    rw [itemsOf_cons, map_append, nodup_append] at h
    obtain ⟨hhead, htail, hdisjoint⟩ := h
    rw [itemAt] at hp hq
    by_cases hpid : p.chunkIdentifier = id <;> by_cases hqid : q.chunkIdentifier = id
    · rw [if_pos hpid] at hp
      rw [if_pos hqid] at hq
      have hlt : p.index < (contentItems content).length := (List.getElem?_eq_some_iff.mp hp).1
      have hindex : p.index = q.index := by
        refine (getElem?_inj (by simpa using hlt) hhead).mp ?_
        rw [getElem?_map, getElem?_map, hp, hq, map_some, map_some, hid]
      cases p
      cases q
      simp_all
    · rw [if_pos hpid] at hp
      rw [if_neg hqid] at hq
      exact absurd hid (hdisjoint _ (mem_map_of_mem (mem_of_getElem? hp)) _
        (mem_map_of_mem (mem_itemsOf_of_itemAt hq)))
    · rw [if_neg hpid] at hp
      rw [if_pos hqid] at hq
      exact absurd hid.symm (hdisjoint _ (mem_map_of_mem (mem_of_getElem? hq)) _
        (mem_map_of_mem (mem_itemsOf_of_itemAt hp)))
    · rw [if_neg hpid] at hp
      rw [if_neg hqid] at hq
      exact ih htail hp hq

/-- The rows of consecutive items. -/
def rowsFrom (lid : Lid) (id index : ℕ) : List Item → List (ItemRow Lid ItemId Gap)
  | [] => []
  | item :: items =>
    ⟨lid, ⟨id, index⟩, .item (IndexableItem.id item)⟩ :: rowsFrom lid id (index + 1) items

theorem rowsFrom_append (index : ℕ) (ys : List Item) :
    (rowsFrom lid id index (xs ++ ys) : List (ItemRow Lid ItemId Gap)) =
      rowsFrom lid id index xs ++ rowsFrom lid id (index + xs.length) ys := by
  induction xs generalizing index with
  | nil => rfl
  | cons x xs ih =>
    simp only [cons_append, rowsFrom, ih, length_cons]
    rw [Nat.add_right_comm, Nat.add_assoc]

theorem mem_rowsFrom {index : ℕ} {row : ItemRow Lid ItemId Gap}
    (h : row ∈ rowsFrom lid id index xs) :
    row.linkedChunkId = lid ∧ row.position.chunkIdentifier = id ∧ index ≤ row.position.index ∧
      row.position.index < index + xs.length := by
  induction xs generalizing index with
  | nil => cases h
  | cons x xs ih =>
    rcases mem_cons.mp h with rfl | h
    · exact ⟨rfl, rfl, le_rfl, by simp⟩
    · obtain ⟨hlid, hid, hle, hlt⟩ := ih h
      refine ⟨hlid, hid, by omega, ?_⟩
      simp only [length_cons]
      omega

theorem exists_mem_rowsFrom (lid : Lid) (id index : ℕ) (h : n < xs.length) :
    ∃ row ∈ (rowsFrom lid id index xs : List (ItemRow Lid ItemId Gap)),
      row.linkedChunkId = lid ∧ row.position = ⟨id, index + n⟩ := by
  induction xs generalizing index n with
  | nil => simp at h
  | cons x xs ih =>
    cases n with
    | zero => exact ⟨_, mem_cons_self, rfl, rfl⟩
    | succ n =>
      obtain ⟨row, hrow, hlid, hposition⟩ := ih (index + 1) (lt_of_succ_lt_succ h)
      refine ⟨row, mem_cons_of_mem _ hrow, hlid, ?_⟩
      rw [hposition, Nat.add_right_comm, Nat.add_assoc]

/-- The rows of a chunk. -/
def contentRows (lid : Lid) (id : ℕ) :
    ChunkContent Item Gap → List (ItemRow Lid ItemId Gap)
  | .gap gap => [⟨lid, ⟨id, 0⟩, .gap gap⟩]
  | .items items => rowsFrom lid id 0 items

def itemRowsOf (lid : Lid) (chain : Chain Item Gap) : List (ItemRow Lid ItemId Gap) :=
  chain.flatMap fun chunk => contentRows lid chunk.1 chunk.2

@[simp]
theorem itemRowsOf_append :
    (itemRowsOf lid (l ++ r) : List (ItemRow Lid ItemId Gap)) =
      itemRowsOf lid l ++ itemRowsOf lid r := flatMap_append

@[simp]
theorem itemRowsOf_cons :
    (itemRowsOf lid ((id, content) :: r) : List (ItemRow Lid ItemId Gap)) =
      contentRows lid id content ++ itemRowsOf lid r := rfl

theorem mem_contentRows {row : ItemRow Lid ItemId Gap} (h : row ∈ contentRows lid id content) :
    row.linkedChunkId = lid ∧ row.position.chunkIdentifier = id := by
  cases content with
  | gap gap =>
    obtain rfl := mem_singleton.mp h
    exact ⟨rfl, rfl⟩
  | items items =>
    exact ⟨(mem_rowsFrom h).1, (mem_rowsFrom h).2.1⟩

theorem mem_itemRowsOf {row : ItemRow Lid ItemId Gap} (h : row ∈ itemRowsOf lid chain) :
    row.linkedChunkId = lid ∧ row.position.chunkIdentifier ∈ identifiers chain := by
  obtain ⟨⟨id, content⟩, hchunk, hrow⟩ := mem_flatMap.mp h
  obtain ⟨hlid, rfl⟩ := mem_contentRows hrow
  exact ⟨hlid, mem_map.mpr ⟨_, hchunk, rfl⟩⟩

/-- The row of an item, and the rows around it. -/
theorem itemRowsOf_middle (after : List Item) (old : Item) :
    (itemRowsOf lid (l ++ (id, .items (before ++ old :: after)) :: r) :
      List (ItemRow Lid ItemId Gap)) =
      (itemRowsOf lid l ++ rowsFrom lid id 0 before) ++
        ⟨lid, ⟨id, before.length⟩, .item (IndexableItem.id old)⟩ ::
        (rowsFrom lid id (before.length + 1) after ++ itemRowsOf lid r) := by
  simp [contentRows, rowsFrom_append, rowsFrom]

/-- No other row is at the position of the item. -/
theorem position_ne_of_mem {before after : List Item} (hid : id ∉ identifiers l)
    (hid' : id ∉ identifiers r) {row : ItemRow Lid ItemId Gap}
    (h : row ∈ (itemRowsOf lid l ++ rowsFrom lid id 0 before) ++
      (rowsFrom lid id (before.length + 1) after ++ itemRowsOf lid r)) :
    row.position ≠ ⟨id, before.length⟩ := by
  intro heq
  simp only [mem_append] at h
  rcases h with (h | h) | h | h
  · exact hid (by simpa [heq] using (mem_itemRowsOf h).2)
  · have hlt := (mem_rowsFrom h).2.2.2
    simp [heq] at hlt
  · have hle := (mem_rowsFrom h).2.2.1
    simp only [heq] at hle
    omega
  · exact hid' (by simpa [heq] using (mem_itemRowsOf h).2)

section Shift

variable [DecidableEq Lid] {after : List Item}

/-- What removing the item at `position` does to a row. -/
def shiftRow (lid : Lid) (position : Position) (row : ItemRow Lid ItemId Gap) :
    ItemRow Lid ItemId Gap :=
  if row.linkedChunkId = lid then
    { row with position := shiftAfter position row.position }
  else row

variable {rows : List (ItemRow Lid ItemId Gap)}

theorem map_shiftRow_eq_self
    (h : ∀ row ∈ rows, row.position.chunkIdentifier = position.chunkIdentifier →
      row.position.index ≤ position.index) : rows.map (shiftRow lid position) = rows := by
  refine (map_congr_left fun row hrow => ?_).trans (map_id _)
  have hshift : shiftAfter position row.position = row.position := by
    refine if_neg fun hafter => ?_
    have := h row hrow hafter.1
    omega
  unfold shiftRow
  split
  · rw [hshift]
    rfl
  · rfl

theorem map_shiftRow_rowsFrom {m : ℕ} (hle : n ≤ m) :
    (rowsFrom lid id (m + 1) xs).map (shiftRow lid ⟨id, n⟩) =
      (rowsFrom lid id m xs : List (ItemRow Lid ItemId Gap)) := by
  induction xs generalizing m with
  | nil => rfl
  | cons x xs ih =>
    have hlt : n < m + 1 := by omega
    have hhead : shiftRow lid ⟨id, n⟩
        (⟨lid, ⟨id, m + 1⟩, .item (IndexableItem.id x)⟩ : ItemRow Lid ItemId Gap) =
        ⟨lid, ⟨id, m⟩, .item (IndexableItem.id x)⟩ := by
      simp [shiftRow, shiftAfter, hlt]
    rw [rowsFrom, rowsFrom, map_cons, ih (by omega), hhead]

/-- The rows after the removed one move down, and no other row moves. -/
theorem map_shiftRow (hid : id ∉ identifiers l) (hid' : id ∉ identifiers r) :
    ((itemRowsOf lid l ++ rowsFrom lid id 0 before) ++
        (rowsFrom lid id (before.length + 1) after ++ itemRowsOf lid r)).map
          (shiftRow lid ⟨id, before.length⟩) =
      (itemRowsOf lid (l ++ (id, .items (before ++ after)) :: r) :
        List (ItemRow Lid ItemId Gap)) := by
  have hother : ∀ chain : Chain Item Gap, id ∉ identifiers chain →
      (itemRowsOf lid chain).map (shiftRow lid ⟨id, before.length⟩) =
        (itemRowsOf lid chain : List (ItemRow Lid ItemId Gap)) := by
    intro chain hchain
    refine map_shiftRow_eq_self fun row hrow heq => absurd ?_ hchain
    have hmem := (mem_itemRowsOf hrow).2
    rwa [heq] at hmem
  have hbefore : (rowsFrom lid id 0 before).map (shiftRow lid ⟨id, before.length⟩) =
      (rowsFrom lid id 0 before : List (ItemRow Lid ItemId Gap)) := by
    refine map_shiftRow_eq_self fun row hrow _ => ?_
    have hlt := (mem_rowsFrom hrow).2.2.2
    simp only
    omega
  simp only [map_append, hother l hid, hother r hid', hbefore,
    map_shiftRow_rowsFrom le_rfl, itemRowsOf_append, itemRowsOf_cons, contentRows,
    rowsFrom_append, Nat.zero_add, append_assoc]

/-- The largest index of the chunk is the one that becomes vacant. -/
theorem largest_eq {old : Item}
    (h : rows.Perm (itemRowsOf lid (l ++ (id, .items (before ++ old :: after)) :: r)))
    (hid : id ∉ identifiers l) (hid' : id ∉ identifiers r) :
    (rows.filterMap fun row =>
      if row.linkedChunkId = lid ∧ row.position.chunkIdentifier = id
      then some row.position.index else none).max? = some (before.length + after.length) := by
  rw [max?_eq_some_iff]
  constructor
  · have hlt : before.length + after.length < (before ++ old :: after).length := by simp
    obtain ⟨row, hrow, hlid, hposition⟩ := exists_mem_rowsFrom lid id 0 hlt
    refine mem_filterMap.mpr ⟨row, h.mem_iff.mpr ?_, ?_⟩
    · simp [contentRows, hrow]
    · rw [if_pos ⟨hlid, by rw [hposition]⟩, hposition, Nat.zero_add]
  · intro index hindex
    obtain ⟨row, hrow, hsome⟩ := mem_filterMap.mp hindex
    rw [ite_none_right_eq_some] at hsome
    obtain ⟨⟨-, hchunk⟩, hsome⟩ := hsome
    have hmem := h.mem_iff.mp hrow
    rw [itemRowsOf_append, itemRowsOf_cons, mem_append, mem_append] at hmem
    rcases hmem with hmem | hmem | hmem
    · exact absurd (hchunk ▸ (mem_itemRowsOf hmem).2) hid
    · have hlt := (mem_rowsFrom hmem).2.2.2
      simp only [length_append, length_cons, Option.some.injEq] at hlt hsome
      omega
    · exact absurd (hchunk ▸ (mem_itemRowsOf hmem).2) hid'

end Shift

/-- Only the rows of the detached items go. -/
theorem filter_detached [DecidableEq Lid] (hid : id ∉ identifiers l) (hid' : id ∉ identifiers r)
    (detached : List Item) :
    (itemRowsOf lid (l ++ (id, .items (xs ++ detached)) :: r)).filter (fun row =>
        !(decide (row.linkedChunkId = lid) &&
          isDetached ⟨id, xs.length⟩ row.position)) =
      (itemRowsOf lid (l ++ (id, .items xs) :: r) : List (ItemRow Lid ItemId Gap)) := by
  set keep := fun row : ItemRow Lid ItemId Gap =>
    !(decide (row.linkedChunkId = lid) && isDetached ⟨id, xs.length⟩ row.position) with hkeep
  have hother : ∀ chain : Chain Item Gap, id ∉ identifiers chain →
      (itemRowsOf lid chain).filter keep = itemRowsOf lid chain := by
    intro chain hchain
    refine filter_eq_self.mpr fun row hrow => ?_
    have hne : row.position.chunkIdentifier ≠ id := by
      rintro rfl
      exact hchain (mem_itemRowsOf hrow).2
    simp [hkeep, isDetached, hne]
  have hkept : (rowsFrom lid id 0 xs).filter keep = rowsFrom lid id 0 xs := by
    refine filter_eq_self.mpr fun row hrow => ?_
    have hlt := (mem_rowsFrom hrow).2.2.2
    simp only [hkeep, isDetached, Bool.not_eq_true', Bool.and_eq_false_iff, decide_eq_false_iff_not]
    omega
  have hgone : (rowsFrom lid id (0 + xs.length) detached).filter keep = [] := by
    refine filter_eq_nil_iff.mpr fun row hrow => ?_
    obtain ⟨hlid, hchunk, hle, -⟩ := mem_rowsFrom hrow
    have hle' : xs.length ≤ row.position.index := by omega
    simp [hkeep, isDetached, hlid, hchunk, hle']
  simp only [itemRowsOf_append, itemRowsOf_cons, contentRows, rowsFrom_append, filter_append,
    hother l hid, hother r hid', hkept, hgone, append_nil]

end MatrixSdk.Relational

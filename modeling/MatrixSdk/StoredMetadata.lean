import MatrixSdk.StoredLoads

/-!
The metadata of a whole linked chunk. They are loaded in no particular order, so the links
are checked while they are followed from the last chunk to the first one, and then followed
again in the other direction to put every chunk in its place.
-/
namespace MatrixSdk.StoredMetadata

open Chunks Chains LazyLoader FirstMatches Relational List ChunkContent RelationalLinkedChunk

inductive EventCacheError where
  | storage (details : String)
  | invalidLinkedChunkMetadata (details : String)
deriving DecidableEq

/-- An identifier or its absence, as it is shown in a message. -/
def debugNext : Option ℕ → String
  | none => "None"
  | some identifier => "Some(" ++ toString identifier ++ ")"

variable (allChunks : List ChunkMetadata)

/-- The last chunk of that identifier, as in a map built from all the chunks. -/
def chunkMap (identifier : ℕ) : Option ChunkMetadata :=
  allChunks.reverse.find? fun chunk => chunk.identifier == identifier

/-- Follow the previous links. The fuel bounds the loop, which ends because `seen` grows. -/
def rewind (allChunks : List ChunkMetadata) :
    ℕ → List ℕ → ChunkMetadata → Option (Except EventCacheError ChunkMetadata)
  | 0, _, _ => none
  | fuel + 1, seen, current =>
    if current.identifier ∈ seen then
      some (.error (.invalidLinkedChunkMetadata
        ("cycle detected in linked chunk at " ++ toString current.identifier)))
    else
      let seen := current.identifier :: seen
      match current.previous with
      | none =>
        if seen.length ≠ allChunks.length then
          some (.error (.invalidLinkedChunkMetadata
            ("linked chunk likely has multiple components: " ++ toString seen.length ++
              " chunks seen through the chain of predecessors, but " ++
              toString allChunks.length ++ " expected")))
        else some (.ok current)
      | some previous =>
        match chunkMap allChunks previous with
        | none =>
          some (.error (.invalidLinkedChunkMetadata
            ("missing predecessor " ++ toString previous ++ " chunk for " ++
              toString current.identifier)))
        | some predecessor =>
          if predecessor.next ≠ some current.identifier then
            some (.error (.invalidLinkedChunkMetadata
              ("chunk " ++ toString predecessor.identifier ++ "'s next (" ++
                debugNext predecessor.next ++ ") doesn't match the current chunk (" ++
                toString current.identifier ++ ")")))
          else rewind allChunks fuel seen predecessor

def swap {α : Type} (xs : List α) (i j : ℕ) : Option (List α) := do
  let a ← xs[i]?
  let b ← xs[j]?
  some ((xs.set i b).set j a)

/-- Nothing is swapped with itself. -/
def place (i j : ℕ) : Option (List ChunkMetadata) :=
  if i ≠ j then swap allChunks i j else some allChunks

/-- The index of the last chunk of that identifier. -/
def rposition (identifier : ℕ) : Option ℕ :=
  (allChunks.reverse.findIdx? fun chunk => chunk.identifier == identifier).map fun j =>
    allChunks.length - 1 - j

/-- The chunks before `i` are in their place; `none` is the panic on a chunk that is not there. -/
def reorder : ℕ → ℕ → ℕ → List ChunkMetadata → Option (List ChunkMetadata)
  | 0, _, _, allChunks => some allChunks
  | remaining + 1, i, current, allChunks => do
    let j ← rposition allChunks current
    let allChunks ← place allChunks i j
    let placed ← allChunks[i]?
    reorder remaining (i + 1) (placed.next.getD current) allChunks

/-- `none` is a panic, or a loop that does not end. -/
def orderMetadata : Option (Except EventCacheError (Option (List ChunkMetadata))) :=
  if allChunks.isEmpty then some (.ok none)
  else
    match allChunks.filter fun chunk => chunk.next.isNone with
    | [] => some (.error (.invalidLinkedChunkMetadata "no last chunk found"))
    | last :: otherLast :: _ =>
      some (.error (.invalidLinkedChunkMetadata
        ("chunks " ++ toString last.identifier ++ " and " ++ toString otherLast.identifier ++
          " both claim to be last chunks")))
    | [last] => do
      match ← rewind allChunks (allChunks.length + 1) [] last with
      | .error e => some (.error e)
      | .ok first =>
        let ordered ← reorder allChunks.length 0 first.identifier allChunks
        some (.ok (some ordered))

variable {Lid ItemId Item Gap : Type}

def loadLinkedChunkMetadata [DecidableEq Lid] (store : RelationalLinkedChunk Lid ItemId Item Gap)
    (linkedChunkId : Lid) : Option (Except EventCacheError (Option (List ChunkMetadata))) :=
  match store.loadAllChunksMetadata linkedChunkId with
  | .error e => some (.error (.storage e))
  | .ok allChunks => orderMetadata allChunks

/-- The metadata of a chain that stands between `previous` and `next`. -/
def metadataOf (previous : Option ℕ) (chain : Chain Item Gap) (next : Option ℕ) :
    List ChunkMetadata :=
  (rawsOf previous chain next).map fun raw =>
    ⟨raw.identifier, raw.content.numItems, raw.previous, raw.next⟩

theorem metadataOf_cons (previous next : Option ℕ) (id : ℕ) (content : ChunkContent Item Gap)
    (chain : Chain Item Gap) :
    metadataOf previous ((id, content) :: chain) next =
      ⟨id, content.numItems, previous, (headIdentifier chain).or next⟩ ::
        metadataOf (some id) chain next := rfl

theorem metadataOf_split (l r : Chain Item Gap) (id : ℕ) (content : ChunkContent Item Gap) :
    metadataOf none (l ++ (id, content) :: r) none =
      metadataOf none l (some id) ++
        ⟨id, content.numItems, lastIdentifier none l, headIdentifier r⟩ ::
          metadataOf (some id) r none := by
  unfold metadataOf
  rw [rawsOf_append, map_append]
  simp [rawsOf]

variable {previous : Option ℕ} {chain : Chain Item Gap} {m : ChunkMetadata}

theorem next_isSome_metadataOf {next : ℕ} (h : m ∈ metadataOf previous chain (some next)) :
    m.next.isSome := by
  induction chain generalizing previous with
  | nil => cases h
  | cons chunk chain ih =>
    rw [metadataOf_cons] at h
    rcases mem_cons.mp h with rfl | h
    · simp
    · exact ih h

theorem map_identifier_metadataOf (previous next : Option ℕ) (chain : Chain Item Gap) :
    (metadataOf previous chain next).map ChunkMetadata.identifier = identifiers chain := by
  unfold metadataOf
  rw [map_map, ← map_identifier_rawsOf previous next chain]
  rfl

theorem length_metadataOf (next : Option ℕ) :
    (metadataOf previous chain next).length = chain.length := by
  have hlength := congrArg List.length (map_identifier_metadataOf previous next chain)
  simpa [identifiers] using hlength

theorem mem_metadataOf_identifier {next : Option ℕ} (h : m ∈ metadataOf previous chain next) :
    m.identifier ∈ identifiers chain := by
  rw [← map_identifier_metadataOf previous next chain]
  exact mem_map_of_mem h

section Order

variable {allChunks : List ChunkMetadata} {l r : Chain Item Gap} {id : ℕ}
  {content : ChunkContent Item Gap}

/-- No other chunk has the identifier of the one in the middle. -/
theorem other_identifier (hdistinct : (identifiers (l ++ (id, content) :: r)).Nodup) :
    ∀ m ∈ metadataOf none l (some id) ++ metadataOf (some id) r none,
      (m.identifier == id) = false := by
  intro m hm
  rw [identifiers_append, identifiers_cons, nodup_middle, nodup_cons, mem_append] at hdistinct
  have hmem : m.identifier ∈ identifiers l ∨ m.identifier ∈ identifiers r := by
    rcases mem_append.mp hm with hm | hm
    · exact .inl (mem_metadataOf_identifier hm)
    · exact .inr (mem_metadataOf_identifier hm)
  rw [beq_eq_false_iff_ne]
  intro heq
  rw [heq] at hmem
  exact hdistinct.1 hmem

section

variable (hperm : allChunks.Perm (metadataOf none (l ++ (id, content) :: r) none))
  (hdistinct : (identifiers (l ++ (id, content) :: r)).Nodup)
include hperm hdistinct

/-- Rewinding goes through every chunk before the current one, by induction on them. -/
theorem rewind_eq {fuel : ℕ} (hfuel : l.length < fuel) {seen : List ℕ}
    (hseen : seen.Perm (identifiers r)) :
    ∃ first, rewind allChunks fuel seen
        ⟨id, content.numItems, lastIdentifier none l, headIdentifier r⟩ = some (.ok first) ∧
      some first.identifier = headIdentifier (l ++ (id, content) :: r) := by
  induction l using List.reverseRecOn generalizing fuel seen id content r with
  | nil =>
    obtain ⟨fuel, rfl⟩ : ∃ n, fuel = n + 1 := ⟨fuel - 1, by simp at hfuel; omega⟩
    have hnot : id ∉ seen := by
      rw [hseen.mem_iff]
      exact (nodup_cons.mp hdistinct).1
    have hlength : (id :: seen).length = allChunks.length := by
      rw [hperm.length_eq, length_metadataOf, length_cons, hseen.length_eq]
      simp [identifiers]
    refine ⟨⟨id, content.numItems, none, headIdentifier r⟩, ?_, rfl⟩
    simp only [rewind, lastIdentifier_nil, hnot, hlength, if_false, ne_eq, not_true]
  | append_singleton l chunk ih =>
    obtain ⟨k, c⟩ := chunk
    obtain ⟨fuel, rfl⟩ : ∃ n, fuel = n + 1 := ⟨fuel - 1, by omega⟩
    rw [append_assoc, singleton_append] at hperm hdistinct
    have hnot : id ∉ seen := by
      rw [hseen.mem_iff]
      intro hmem
      simp only [identifiers_append, identifiers_cons, nodup_append, nodup_cons]
        at hdistinct
      exact hdistinct.2.1.2.1 hmem
    have hpredecessor : chunkMap allChunks k =
        some ⟨k, c.numItems, lastIdentifier none l, some id⟩ := by
      rw [metadataOf_split] at hperm
      exact find?_of_perm (allChunks.reverse_perm.trans hperm) (by simp)
        (other_identifier hdistinct)
    rw [length_append, length_singleton] at hfuel
    obtain ⟨first, hrewind, hfirst⟩ := ih hperm hdistinct (Nat.lt_of_succ_lt_succ hfuel)
      (hseen.cons id)
    rw [append_assoc, singleton_append]
    refine ⟨first, ?_, hfirst⟩
    rw [headIdentifier_cons] at hrewind
    simp only [rewind, lastIdentifier_append, lastIdentifier_singleton, hnot, hpredecessor, hrewind,
      if_false, ne_eq, not_true]

end

theorem swap_eq {α : Type} (xs ys zs : List α) (a b : α) :
    swap (xs ++ a :: ys ++ b :: zs) xs.length (xs.length + (ys.length + 1)) =
      some (xs ++ b :: ys ++ a :: zs) := by
  have ha : (xs ++ a :: ys ++ b :: zs)[xs.length]? = some a := by simp
  have hb : (xs ++ a :: ys ++ b :: zs)[xs.length + (ys.length + 1)]? = some b := by
    rw [append_assoc, getElem?_append_right (by omega)]
    simp
  have hset : ((xs ++ a :: ys ++ b :: zs).set xs.length b).set (xs.length + (ys.length + 1)) a =
      xs ++ b :: ys ++ a :: zs := by
    rw [append_assoc, set_append_right _ _ (by omega), set_append_right _ _ (by omega)]
    simp
  simp only [swap, ha, hb, hset, Option.bind_eq_bind, Option.bind_some]

theorem rposition_eq {xs ys : List ChunkMetadata}
    (hother : ∀ other ∈ ys, (other.identifier == m.identifier) = false) :
    rposition (xs ++ m :: ys) m.identifier = some xs.length := by
  have hfind : (ys.reverse ++ m :: xs.reverse).findIdx?
      (fun chunk => chunk.identifier == m.identifier) = some ys.length := by
    rw [findIdx?_append, findIdx?_eq_none_iff.mpr]
    · simp [findIdx?_cons]
    · intro other hmem
      exact hother other (mem_reverse.mp hmem)
  unfold rposition
  rw [reverse_append, reverse_cons, append_assoc, singleton_append, hfind, Option.map_some]
  simp only [length_append, length_cons, Option.some.injEq]
  omega

variable {rest : List ChunkMetadata}

/-- The next chunk is put in its place, wherever it stands among those that remain. -/
theorem place_next (placed : List ChunkMetadata) {others : List ChunkMetadata}
    (hrest : rest.Perm (m :: others))
    (hother : ∀ other ∈ others, (other.identifier == m.identifier) = false) :
    ∃ j rest', rposition (placed ++ rest) m.identifier = some j ∧
      place (placed ++ rest) placed.length j = some (placed ++ m :: rest') ∧
      rest'.Perm others := by
  obtain ⟨a, b, rfl, hab⟩ := exists_split_of_perm (l := []) hrest
  rw [nil_append] at hab
  have hposition : rposition (placed ++ (a ++ m :: b)) m.identifier =
      some (placed.length + a.length) := by
    rw [← append_assoc, rposition_eq, length_append]
    intro other hmem
    exact hother other (hab.mem_iff.mp (mem_append_right _ hmem))
  cases a with
  | nil => exact ⟨_, b, hposition, by simp [place], hab⟩
  | cons x a =>
    refine ⟨_, a ++ x :: b, hposition, ?_, perm_middle.trans hab⟩
    rw [place, if_pos (by simp)]
    simpa using swap_eq placed a b x m

theorem reorder_eq {current : ℕ} (placed : List ChunkMetadata)
    (hrest : rest.Perm (metadataOf previous chain none))
    (hcurrent : ∀ id ∈ headIdentifier chain, current = id) (hdistinct : (identifiers chain).Nodup) :
    reorder chain.length placed.length current (placed ++ rest) =
      some (placed ++ metadataOf previous chain none) := by
  induction chain generalizing previous placed rest current with
  | nil =>
    obtain rfl : rest = [] := perm_nil.mp hrest
    rfl
  | cons chunk chain ih =>
    obtain ⟨id, content⟩ := chunk
    obtain rfl : current = id := hcurrent id rfl
    rw [identifiers_cons, nodup_cons] at hdistinct
    rw [metadataOf_cons] at hrest ⊢
    set m : ChunkMetadata := ⟨current, content.numItems, previous, (headIdentifier chain).or none⟩
      with hm
    have hother : ∀ other ∈ metadataOf (some current) chain none,
        (other.identifier == m.identifier) = false := by
      intro other hmem
      rw [beq_eq_false_iff_ne]
      intro heq
      have hid := mem_metadataOf_identifier hmem
      rw [heq] at hid
      exact hdistinct.1 hid
    obtain ⟨j, rest', hposition, hplace, hperm⟩ := place_next placed hrest hother
    rw [show m.identifier = current from rfl] at hposition
    have hcurrent' : ∀ id ∈ headIdentifier chain, m.next.getD current = id := by
      intro id hid
      simp [hm, Option.mem_def.mp hid]
    have htail := ih (placed ++ [m]) hperm hcurrent' hdistinct.2
    have hplaced : (placed ++ m :: rest')[placed.length]? = some m := by simp
    rw [length_append, length_singleton, append_assoc, append_assoc,
      singleton_append, singleton_append] at htail
    simp only [length_cons, reorder, hposition, hplace, hplaced, htail, Option.bind_eq_bind,
      Option.bind_some]

/-- Whatever the order they are loaded in, the chunks end up in the order of the chain. -/
theorem orderMetadata_eq (hne : chain ≠ []) (hperm : allChunks.Perm (metadataOf none chain none))
    (hdistinct : (identifiers chain).Nodup) :
    orderMetadata allChunks = some (.ok (some (metadataOf none chain none))) := by
  obtain ⟨l, ⟨id, content⟩, rfl⟩ := (eq_nil_or_concat chain).resolve_left hne
  rw [concat_eq_append] at hperm hdistinct ⊢
  set last : ChunkMetadata := ⟨id, content.numItems, lastIdentifier none l, none⟩ with hlast
  have hlength : allChunks.length = (l ++ [(id, content)]).length := by
    rw [hperm.length_eq, length_metadataOf]
  have hempty : allChunks.isEmpty = false := by
    cases allChunks with
    | nil => simp at hlength
    | cons => rfl
  have hnone : (metadataOf none l (some id)).filter (fun chunk => chunk.next.isNone) = [] := by
    rw [filter_eq_nil_iff]
    intro m hm
    simp [Option.isSome_iff_ne_none.mp (next_isSome_metadataOf hm)]
  have hfilter : allChunks.filter (fun chunk => chunk.next.isNone) = [last] := by
    have hsplit := hperm.filter fun chunk => chunk.next.isNone
    rw [metadataOf_split, filter_append, filter_cons_of_pos rfl, hnone] at hsplit
    exact perm_singleton.mp hsplit
  obtain ⟨first, hrewind, hfirst⟩ := rewind_eq hperm hdistinct
    (show l.length < allChunks.length + 1 by simp at hlength; omega) (List.Perm.refl _)
  have hcurrent : ∀ k ∈ headIdentifier (l ++ [(id, content)]), first.identifier = k :=
    fun k hk => Option.some.inj (hfirst.trans hk)
  have hreorder := reorder_eq [] hperm hcurrent hdistinct
  rw [← hlength, nil_append, nil_append] at hreorder
  rw [headIdentifier_nil, identifiers_nil, ← hlast] at hrewind
  rw [length_nil] at hreorder
  simp only [orderMetadata, hempty, hfilter, hrewind, hreorder, Bool.false_eq_true, if_false,
    Option.bind_eq_bind, Option.bind_some]

end Order

section Load

variable [DecidableEq Lid] [DecidableEq ItemId] [IndexableItem Item ItemId]
  {store : RelationalLinkedChunk Lid ItemId Item Gap} {lid : Lid} {chain l r : Chain Item Gap}
  {id : ℕ} {content : ChunkContent Item Gap}

/-- The items of a chunk are counted, with the links of its row. -/
theorem loadRawChunkMetadata_eq (h : Holds store lid (l ++ (id, content) :: r)) (next : Option ℕ) :
    store.loadRawChunkMetadata ⟨lid, previous, id, next⟩ lid =
      .ok ⟨id, content.numItems, previous, next⟩ := by
  have hperm := rowsOfChunk_perm h
  unfold loadRawChunkMetadata
  cases content with
  | gap gap =>
    rw [contentRows, perm_singleton] at hperm
    simp [hperm, numItems]
  | items items =>
    simp [contentRows] at hperm
    have hitems : ∀ row ∈ store.rowsOfChunk lid id, (collected row).isSome :=
      fun row hrow => isSome_collected (hperm.mem_iff.mp hrow)
    have hcollect := collectItems_eq id hitems
    have hlength := (hperm.filterMap collected).length_eq
    rw [filterMap_collected_rowsFrom, length_map, length_zipIdx] at hlength
    cases hrows : store.rowsOfChunk lid id with
    | nil =>
      rw [hrows] at hlength
      simp [numItems, ← hlength]
    | cons first rest =>
      rw [hrows] at hitems hcollect hlength
      have hfirst := hitems first mem_cons_self
      cases hitem : first.item with
      | gap gap => simp [collected, hitem] at hfirst
      | item k => simp only [hitem, hcollect, Except.map, hlength, numItems]

/-- The metadata of a stored chain are loaded in the order of the chain. -/
theorem loadLinkedChunkMetadata_eq (h : Holds store lid chain) :
    loadLinkedChunkMetadata store lid =
      some (.ok (if chain = [] then none else some (metadataOf none chain none))) := by
  have hrows : (rowsOf lid none chain none).mapM (store.loadRawChunkMetadata · lid) =
      .ok (metadataOf none chain none) :=
    mapM_rowsOf (l := []) (fun _ next h => loadRawChunkMetadata_eq h next) h
  obtain ⟨metas, hload, hperm⟩ := mapM_of_perm (chunkRows_perm h) hrows
  unfold loadLinkedChunkMetadata loadAllChunksMetadata
  rw [hload]
  by_cases hnil : chain = []
  · rw [if_pos hnil]
    rw [hnil] at hperm
    obtain rfl : metas = [] := perm_nil.mp hperm
    rfl
  · rw [if_neg hnil]
    exact orderMetadata_eq hnil hperm h.distinct

end Load

end MatrixSdk.StoredMetadata

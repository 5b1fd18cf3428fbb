import MatrixSdk.LazyOperations

/-!
Loading a linked chunk from a store that may be corrupted. The cycle check compares the
previous chunk of an offered chunk with the loaded ones only, so a chunk that names itself
gets through it; when none does, the accepted identifiers stay distinct and loading ends.
-/
namespace MatrixSdk.LoadCycles

open Chunks Chains Layouts LazyLoader List

variable {Item Gap : Type} {cap : ℕ}

/-- Offer a chunk to `insert_new_first_chunk`; the accepted chunks are kept, newest first. -/
def offer (cap : ℕ) (loaded : LinkedChunk Item Gap × List (RawChunk Item Gap))
    (raw : RawChunk Item Gap) : Option (LinkedChunk Item Gap × List (RawChunk Item Gap)) :=
  (insertNewFirstChunk cap loaded.1 raw).map fun
    | (.ok (), lc) => (lc, raw :: loaded.2)
    | (.error _, lc) => (lc, loaded.2)

/-- Load the previous chunk until there is none or it is rejected; `none` is a panic or a
lack of fuel. -/
def loadAll (cap : ℕ) (loadPreviousChunk : LinkedChunk Item Gap → Option (RawChunk Item Gap)) :
    ℕ → LinkedChunk Item Gap → Option (LinkedChunk Item Gap)
  | 0, _ => none
  | fuel + 1, lc =>
    match loadPreviousChunk lc with
    | none => some lc
    | some raw => do
      match ← insertNewFirstChunk cap lc raw with
      | (.ok (), lc) => loadAll cap loadPreviousChunk fuel lc
      | (.error _, lc) => some lc

/-- The chunk names itself as its previous chunk. -/
def SelfLinked (raw : RawChunk Item Gap) : Prop := raw.previous = some raw.identifier

/-- What loading keeps: memory holds the accepted chunks, up to the bound that the
generator need not respect, and no chunk leads back to itself or to a later one. -/
structure Loaded (cap : ℕ) (lc : LinkedChunk Item Gap) (newest : RawChunk Item Gap)
    (older : List (RawChunk Item Gap)) : Prop where
  memory : ∃ bound, ∀ generator, bound ≤ generator →
    Represents cap (withGenerator generator lc) newest.previous
      ((newest :: older).map fun raw => (raw.identifier, raw.content))
  acyclic : ∀ chunk rest, chunk :: rest <:+ newest :: older → ∀ previous,
    chunk.previous = some previous → previous ∉ (chunk :: rest).map (·.identifier)

variable {lc : LinkedChunk Item Gap} {raw newest : RawChunk Item Gap}
  {older : List (RawChunk Item Gap)}

theorem identifiers_map (chunks : List (RawChunk Item Gap)) :
    identifiers (chunks.map fun raw => (raw.identifier, raw.content)) =
      chunks.map (·.identifier) := by
  simp [identifiers]

theorem loaded_fromLastChunk {generator : ℕ}
    (hlast : fromLastChunk cap (some raw) generator = .ok (some lc)) (hself : ¬SelfLinked raw) :
    Loaded cap lc raw [] := by
  simp only [fromLastChunk] at hlast
  split_ifs at hlast with hsize hnext
  cases hlast
  refine ⟨⟨raw.identifier, fun generator hle => ?_⟩, ?_⟩
  · have hlast : IsLast cap raw := ⟨by omega, by simpa using hnext⟩
    exact ⟨_, layout_singleton (q := 0) hlast hle rfl ⟨rfl, rfl⟩, rfl, rfl⟩
  · intro chunk rest hsuffix previous hprevious hmem
    rcases suffix_cons_iff.mp hsuffix with heq | hsuffix
    · cases heq
      obtain rfl : previous = raw.identifier := by simpa using hmem
      exact hself hprevious
    · cases suffix_nil.mp hsuffix

section

variable (h : Loaded cap lc newest older)
include h

theorem Loaded.distinct : ((newest :: older).map (·.identifier)).Nodup := by
  obtain ⟨bound, hmemory⟩ := h.memory
  obtain ⟨xs, hlayout, hchain, -⟩ := hmemory bound le_rfl
  rw [← identifiers_map, ← hchain]
  exact hlayout.distinct

/-- A chunk that does not name itself is put in front, or rejected with no effect. -/
theorem Loaded.insertNewFirstChunk (hself : ¬SelfLinked raw) :
    (∃ lc', insertNewFirstChunk cap lc raw = some (.ok (), lc') ∧
      Loaded cap lc' raw (newest :: older)) ∨
    ∃ e, insertNewFirstChunk cap lc raw = some (.error e, lc) := by
  obtain ⟨bound, hmemory⟩ := h.memory
  by_cases hconnects : Connects cap newest.previous
      ((newest :: older).map fun raw => (raw.identifier, raw.content)) raw
  · have hfresh := h.acyclic newest older suffix_rfl _ hconnects.lazy
    have hok := fun generator (hle : max bound raw.identifier ≤ generator) =>
      insertNewFirstChunk_connects (hmemory generator (le_of_max_le_left hle)) hconnects
        (identifiers_map _ ▸ hfresh) (le_of_max_le_right hle)
    obtain ⟨lc', hinsert, -⟩ := hok _ le_rfl
    refine .inl ⟨lc', hinsert, ⟨max bound raw.identifier, fun generator hle => ?_⟩, ?_⟩
    · obtain ⟨_, hinsert', hrep, -⟩ := hok generator hle
      cases hinsert.symm.trans hinsert'
      exact hrep
    · intro chunk rest hsuffix previous hprevious
      rcases suffix_cons_iff.mp hsuffix with heq | hsuffix
      · cases heq
        rintro (_ | ⟨_, hmem⟩)
        · exact hself hprevious
        · exact hconnects.acyclic previous hprevious (identifiers_map (newest :: older) ▸ hmem)
      · exact h.acyclic chunk rest hsuffix previous hprevious
  · have hrep := hmemory bound le_rfl
    obtain ⟨e, lc', hinsert, hsame⟩ := insertNewFirstChunk_error hrep hconnects
    obtain ⟨xs, hlayout, hchain, -⟩ := hrep
    obtain ⟨x, xs, rfl⟩ := exists_cons_of_ne_nil (show xs ≠ [] by rintro rfl; cases hchain)
    rw [start_of_some (show lc.first = some x.1 from hlayout.first), or_self] at hsame
    exact .inr ⟨e, hsame ▸ hinsert⟩

theorem foldlM_offer (offered : List (RawChunk Item Gap))
    (hself : ∀ raw ∈ offered, ¬SelfLinked raw) :
    ∃ lc' newest' older', offered.foldlM (offer cap) (lc, newest :: older) =
      some (lc', newest' :: older') ∧ Loaded cap lc' newest' older' := by
  induction offered generalizing lc newest older with
  | nil => exact ⟨lc, newest, older, rfl, h⟩
  | cons raw offered ih =>
    obtain ⟨hraw, hself⟩ := forall_mem_cons.mp hself
    rcases h.insertNewFirstChunk hraw with ⟨lc', hinsert, h'⟩ | ⟨e, hinsert⟩
    · simpa [offer, hinsert] using ih h' hself
    · simpa [offer, hinsert] using ih h hself

end

/-- The accepted chunks of a store have distinct identifiers, so there are at most as many
as the store has chunks. -/
theorem loadAll_ends (new : List (RawChunk Item Gap)) {rows old : List (RawChunk Item Gap)}
    {loadPreviousChunk : LinkedChunk Item Gap → Option (RawChunk Item Gap)}
    (hself : ∀ raw ∈ rows, ¬SelfLinked raw)
    (hload : ∀ lc raw, loadPreviousChunk lc = some raw → raw ∈ rows) (fuel : ℕ)
    (h : Loaded cap lc newest older) (hold : newest :: older = new ++ old) (hnew : new ⊆ rows)
    (hfuel : rows.length < new.length + fuel) :
    ∃ lc', loadAll cap loadPreviousChunk fuel lc = some lc' := by
  induction fuel generalizing lc newest older new with
  | zero =>
    have hdistinct : (new.map (·.identifier)).Nodup := by
      have hall := h.distinct
      rw [hold, map_append] at hall
      exact hall.of_append_left
    have hle := (subperm_of_subset hdistinct (map_subset _ hnew)).length_le
    simp only [length_map] at hle
    omega
  | succ fuel ih =>
    unfold loadAll
    cases hrow : loadPreviousChunk lc with
    | none => exact ⟨lc, rfl⟩
    | some raw =>
      have hraw := hload lc raw hrow
      rcases h.insertNewFirstChunk (hself raw hraw) with ⟨lc', hinsert, h'⟩ | ⟨e, hinsert⟩
      · simp only [hinsert, Option.bind_eq_bind, Option.bind_some]
        refine ih (raw :: new) h' (by rw [hold]; rfl) (cons_subset.mpr ⟨hraw, hnew⟩) ?_
        simp only [length_cons]
        omega
      · exact ⟨lc, by simp [hinsert]⟩

/-- When no chunk names itself, no cycle is accepted: neither the last chunk nor any chunk
offered after it leads back to a loaded one, and loading from a finite store ends. -/
theorem no_cycle_is_accepted {generator : ℕ} (offered : List (RawChunk Item Gap))
    (hlast : fromLastChunk cap (some raw) generator = .ok (some lc))
    (hself : ∀ chunk ∈ raw :: offered, ¬SelfLinked chunk) :
    ∃ lc' accepted, offered.foldlM (offer cap) (lc, [raw]) = some (lc', accepted) ∧
      (accepted.map (·.identifier)).Nodup ∧
      (∀ chunk older, chunk :: older <:+ accepted → ∀ previous, chunk.previous = some previous →
        previous ∉ (chunk :: older).map (·.identifier)) ∧
      (∀ next, ¬SelfLinked next → ∀ e lc'', insertNewFirstChunk cap lc' next =
        some (.error e, lc'') → lc'' = lc') ∧
      ∀ (rows : List (RawChunk Item Gap)) loadPreviousChunk, (∀ chunk ∈ rows, ¬SelfLinked chunk) →
        (∀ lc chunk, loadPreviousChunk lc = some chunk → chunk ∈ rows) →
        ∃ lc'', loadAll cap loadPreviousChunk (rows.length + 1) lc' = some lc'' := by
  obtain ⟨hraw, hself⟩ := forall_mem_cons.mp hself
  obtain ⟨lc', newest, older, hrun, h⟩ :=
    foldlM_offer (loaded_fromLastChunk hlast hraw) offered hself
  refine ⟨lc', _, hrun, h.distinct, h.acyclic, ?_, ?_⟩
  · intro next hnext e lc'' hreject
    rcases h.insertNewFirstChunk hnext with ⟨lc₁, hinsert, -⟩ | ⟨e', hinsert⟩
    · cases hinsert.symm.trans hreject
    · cases hinsert.symm.trans hreject
      rfl
  · intro rows loadPreviousChunk hrows hload
    exact loadAll_ends [] hrows hload _ h rfl (nil_subset _) (by simp)

theorem no_cycle_is_accepted_two :
    ∃ lc : LinkedChunk ℕ ℕ, ∃ lc' accepted,
      fromLastChunk 1 (some ⟨.items [7], some 1, 0, none⟩) 0 = .ok (some lc) ∧
      [⟨.items [8], none, 1, some 0⟩].foldlM (offer 1) (lc, [⟨.items [7], some 1, 0, none⟩]) =
        some (lc', accepted) ∧ (accepted.map (·.identifier)).Nodup := by
  obtain ⟨lc', accepted, hrun, hdistinct, -⟩ := no_cycle_is_accepted
    [(⟨.items [8], none, 1, some 0⟩ : RawChunk ℕ ℕ)]
    (show fromLastChunk 1 (some ⟨.items [7], some 1, 0, none⟩) 0 = .ok (some _) from rfl)
    (by simp [SelfLinked])
  exact ⟨_, lc', accepted, rfl, hrun, hdistinct⟩

/-- A last chunk that names itself is accepted, and then a chunk with the same identifier. -/
theorem a_self_link_is_accepted :
    ∃ lc lc' : LinkedChunk ℕ ℕ, ∃ accepted,
      fromLastChunk 1 (some ⟨.items [7], some 0, 0, none⟩) 0 = .ok (some lc) ∧
      [⟨.items [8], none, 0, some 0⟩].foldlM (offer 1) (lc, [⟨.items [7], some 0, 0, none⟩]) =
        some (lc', accepted) ∧ accepted.map (·.identifier) = [0, 0] := by
  exact ⟨_, _, _, rfl, rfl, rfl⟩

end MatrixSdk.LoadCycles

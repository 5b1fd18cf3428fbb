import MatrixSdk.KeyedMaps
import Mathlib.Data.List.MinMax

/-!
The shared buffer of updates. Several readers read the same list, each one from its
own index; taking first drops the prefix that every reader has read. `pending` is the
queue a reader still has to read, and the operations are specified by what they do to
it: in these terms a garbage collection does nothing at all.
-/
namespace MatrixSdk.Updates

open KeyedMaps KeyedMap Option AList

/-- Wakers are left out: they notify a stream and do not change what is read. -/
structure UpdatesInner (α : Type) where
  updates : List α
  lastIndexPerReader : KeyedMap ℕ ℕ
  lastToken : ℕ

namespace UpdatesInner

variable {α : Type}

def mainReaderToken : ℕ := 0

def new : UpdatesInner α where
  updates := []
  lastIndexPerReader := singleton mainReaderToken 0
  lastToken := mainReaderToken

variable (inner : UpdatesInner α)

def push (update : α) : UpdatesInner α :=
  { inner with updates := inner.updates ++ [update] }

def clearPending : UpdatesInner α :=
  { inner with
    updates := []
    lastIndexPerReader := mapValues (fun _ _ => 0) inner.lastIndexPerReader }

def newReaderToken : ℕ × UpdatesInner α :=
  (inner.lastToken + 1,
    { inner with
      lastToken := inner.lastToken + 1
      lastIndexPerReader := inner.lastIndexPerReader.insert (inner.lastToken + 1) 0 })

/-- `none` is the panic of draining past the end of the buffer. -/
def garbageCollect : Option (UpdatesInner α) :=
  let minIndex := (KeyedMap.values inner.lastIndexPerReader).min?.getD 0
  if 0 < minIndex then
    if minIndex ≤ inner.updates.length then
      some { inner with
        updates := inner.updates.drop minIndex
        lastIndexPerReader :=
          mapValues (fun _ index => index - minIndex) inner.lastIndexPerReader }
    else none
  else some inner

/-- `none` is a panic: an unknown token, or an index past the end of the buffer. -/
def takeWithToken (token : ℕ) : Option (List α × UpdatesInner α) := do
  let inner ← inner.garbageCollect
  let index ← inner.lastIndexPerReader.lookup token
  if index ≤ inner.updates.length then
    some (inner.updates.drop index,
      { inner with
        lastIndexPerReader :=
          inner.lastIndexPerReader.insert token inner.updates.length })
  else none

def take : Option (List α × UpdatesInner α) :=
  inner.takeWithToken mainReaderToken

def isReaderUpToDate (token : ℕ) : Option Bool :=
  (inner.lastIndexPerReader.lookup token).map fun index => index == inner.updates.length

/-- What dropping an `UpdatesSubscriber` does. -/
def dropSubscriber (token : ℕ) : UpdatesInner α :=
  { inner with lastIndexPerReader := inner.lastIndexPerReader.erase token }

/-- What the reader has not read yet; `none` for a token that is not a reader's. -/
def pending (token : ℕ) : Option (List α) :=
  (inner.lastIndexPerReader.lookup token).map inner.updates.drop

structure WellFormed : Prop where
  index_le : ∀ token index, inner.lastIndexPerReader.lookup token = some index →
    index ≤ inner.updates.length
  token_le : ∀ token ∈ inner.lastIndexPerReader, token ≤ inner.lastToken

theorem pending_isSome (token : ℕ) :
    (inner.pending token).isSome ↔ token ∈ inner.lastIndexPerReader := by
  rw [pending, isSome_map, lookup_isSome]

theorem wellFormed_new : (new : UpdatesInner α).WellFormed where
  index_le token index hindex := by
    simp [new] at hindex
    obtain ⟨-, rfl⟩ := hindex
    exact Nat.zero_le _
  token_le token hmem := by
    have htoken : token = mainReaderToken := by simpa [new, mem_keys] using hmem
    exact le_of_eq htoken

theorem pending_new_main : (new : UpdatesInner α).pending mainReaderToken = some [] := by
  simp [pending, new]

section

variable {inner} (hwf : inner.WellFormed)
include hwf

theorem WellFormed.push (update : α) : (inner.push update).WellFormed where
  index_le token index hindex := by
    have hle := hwf.index_le token index hindex
    simp only [UpdatesInner.push, List.length_append, List.length_singleton]
    omega
  token_le := hwf.token_le

theorem pending_push (update : α) (token : ℕ) :
    (inner.push update).pending token = (inner.pending token).map (· ++ [update]) := by
  simp only [pending, UpdatesInner.push, map_map]
  cases hindex : inner.lastIndexPerReader.lookup token with
  | none => rfl
  | some index =>
    simp [List.drop_append_of_le_length (hwf.index_le token index hindex)]

theorem WellFormed.clearPending : inner.clearPending.WellFormed where
  index_le token index hindex := by
    simp [UpdatesInner.clearPending] at hindex
    obtain ⟨-, -, rfl⟩ := hindex
    exact Nat.zero_le _
  token_le token hmem := hwf.token_le token (by simpa [UpdatesInner.clearPending] using hmem)

/-- The token of a new reader is not in use. -/
theorem WellFormed.lastToken_succ_notMem : inner.lastToken + 1 ∉ inner.lastIndexPerReader := by
  intro hmem
  exact absurd (hwf.token_le _ hmem) (by omega)

theorem WellFormed.newReaderToken : inner.newReaderToken.2.WellFormed where
  index_le token index hindex := by
    by_cases ht : token = inner.lastToken + 1
    · subst ht
      simp [UpdatesInner.newReaderToken] at hindex
      omega
    · rw [UpdatesInner.newReaderToken, lookup_insert_ne ht] at hindex
      exact hwf.index_le token index hindex
  token_le token hmem := by
    simp [UpdatesInner.newReaderToken] at hmem ⊢
    rcases hmem with rfl | hmem
    · exact le_rfl
    · exact Nat.le_succ_of_le (hwf.token_le token hmem)

theorem WellFormed.dropSubscriber (token : ℕ) : (inner.dropSubscriber token).WellFormed where
  index_le other index hindex := by
    by_cases ht : other = token
    · subst ht
      simp [UpdatesInner.dropSubscriber] at hindex
    · rw [UpdatesInner.dropSubscriber, lookup_erase_ne ht] at hindex
      exact hwf.index_le other index hindex
  token_le other hmem := hwf.token_le other (mem_erase.mp hmem).2

end

theorem pending_clearPending (token : ℕ) :
    inner.clearPending.pending token = (inner.pending token).map fun _ => [] := by
  simp only [pending, UpdatesInner.clearPending, lookup_mapValues, map_map]
  cases inner.lastIndexPerReader.lookup token <;> rfl

/-- A new reader starts at the beginning of the buffer. -/
theorem pending_newReaderToken (token : ℕ) :
    inner.newReaderToken.2.pending token =
      if token = inner.lastToken + 1 then some inner.updates else inner.pending token := by
  by_cases ht : token = inner.lastToken + 1
  · subst ht
    simp [pending, newReaderToken]
  · simp [pending, newReaderToken, lookup_insert_ne ht, ht]

theorem pending_dropSubscriber (token other : ℕ) :
    (inner.dropSubscriber token).pending other =
      if other = token then none else inner.pending other := by
  by_cases ht : other = token
  · subst ht
    simp [pending, dropSubscriber]
  · simp [pending, dropSubscriber, lookup_erase_ne ht, ht]

private theorem minIndex_le (token index : ℕ)
    (hindex : inner.lastIndexPerReader.lookup token = some index) :
    (KeyedMap.values inner.lastIndexPerReader).min?.getD 0 ≤ index := by
  have hmem : index ∈ KeyedMap.values inner.lastIndexPerReader :=
    (mem_values _ _).mpr ⟨token, hindex⟩
  cases hmin : (KeyedMap.values inner.lastIndexPerReader).min? with
  | none => exact Nat.zero_le _
  | some least => exact (List.min?_eq_some_iff.mp hmin).2 index hmem

variable {inner}

/-- Garbage collection drops what every reader has read and no reader notices. -/
theorem WellFormed.garbageCollect (hwf : inner.WellFormed) :
    ∃ inner', inner.garbageCollect = some inner' ∧ inner'.WellFormed ∧
      inner'.pending = inner.pending ∧ inner'.lastToken = inner.lastToken := by
  set least := (KeyedMap.values inner.lastIndexPerReader).min?.getD 0 with hleast
  by_cases hpos : 0 < least
  · have hbound : least ≤ inner.updates.length := by
      obtain ⟨index, hmin⟩ : ∃ index,
          (KeyedMap.values inner.lastIndexPerReader).min? = some index := by
        cases hmin : (KeyedMap.values inner.lastIndexPerReader).min? with
        | none => simp [hleast, hmin] at hpos
        | some index => exact ⟨index, rfl⟩
      obtain ⟨token, hindex⟩ :=
        (mem_values _ _).mp (List.min?_eq_some_iff.mp hmin).1
      rw [hleast, hmin]
      exact hwf.index_le token index hindex
    refine ⟨⟨inner.updates.drop least, mapValues (fun _ index => index - least)
      inner.lastIndexPerReader, inner.lastToken⟩,
      by simp [UpdatesInner.garbageCollect, ← hleast, hpos, hbound], ⟨?_, ?_⟩, ?_, rfl⟩
    · intro token index hindex
      simp at hindex
      obtain ⟨old, hold, rfl⟩ := hindex
      have hle := hwf.index_le token old hold
      simp only [List.length_drop]
      omega
    · intro token hmem
      exact hwf.token_le token ((mem_mapValues _ _ _).mp hmem)
    · funext token
      simp only [pending, lookup_mapValues, map_map]
      cases hindex : inner.lastIndexPerReader.lookup token with
      | none => rfl
      | some index =>
        have hle : least ≤ index := minIndex_le inner token index hindex
        have hsum : least + (index - least) = index := by omega
        simp [List.drop_drop, hsum]
  · exact ⟨inner, by simp [UpdatesInner.garbageCollect, ← hleast, hpos], hwf, rfl, rfl⟩

/-- Taking delivers the reader's whole queue and touches no other reader's. -/
theorem WellFormed.takeWithToken (hwf : inner.WellFormed) (token : ℕ) (queue : List α)
    (hqueue : inner.pending token = some queue) :
    ∃ inner', inner.takeWithToken token = some (queue, inner') ∧ inner'.WellFormed ∧
      inner'.lastToken = inner.lastToken ∧
      ∀ other, inner'.pending other =
        if other = token then some [] else inner.pending other := by
  obtain ⟨swept, hsweep, hswf, hpending, hlast⟩ := hwf.garbageCollect
  rw [← hpending] at hqueue
  obtain ⟨index, hindex, rfl⟩ := map_eq_some_iff.mp hqueue
  have hle := hswf.index_le token index hindex
  refine ⟨⟨swept.updates, swept.lastIndexPerReader.insert token swept.updates.length,
    swept.lastToken⟩, by simp [UpdatesInner.takeWithToken, hsweep, hindex, hle], ⟨?_, ?_⟩,
    hlast, ?_⟩
  · intro other position hposition
    by_cases ht : other = token
    · subst ht
      simp at hposition
      exact le_of_eq hposition.symm
    · rw [lookup_insert_ne ht] at hposition
      exact hswf.index_le other position hposition
  · intro other hmem
    rcases (mem_insert _).mp hmem with rfl | hmem
    · exact hswf.token_le other (lookup_isSome.mp (by simp [hindex]))
    · exact hswf.token_le other hmem
  · intro other
    by_cases ht : other = token
    · subst ht
      simp [pending]
    · rw [if_neg ht, ← hpending]
      simp [pending, lookup_insert_ne ht]

end UpdatesInner

/-- The operations of the buffer, in any interleaving; taking garbage collects first. -/
inductive LogOp (α : Type) where
  | push (update : α)
  | clearPending
  | newReader
  | take (token : ℕ)
  | dropSubscriber (token : ℕ)

open UpdatesInner

variable {α : Type}

/-- One operation and what it delivers, with the token it is delivered to. -/
def step (inner : UpdatesInner α) : LogOp α → Option (UpdatesInner α × List (ℕ × List α))
  | .push update => some (inner.push update, [])
  | .clearPending => some (inner.clearPending, [])
  | .newReader => some (inner.newReaderToken.2, [])
  | .take token => (inner.takeWithToken token).map fun (slice, inner) => (inner, [(token, slice)])
  | .dropSubscriber token => some (inner.dropSubscriber token, [])

def exec (inner : UpdatesInner α) :
    List (LogOp α) → Option (UpdatesInner α × List (ℕ × List α))
  | [] => some (inner, [])
  | op :: ops => do
    let (inner, delivered) ← step inner op
    let (inner, rest) ← exec inner ops
    some (inner, delivered ++ rest)

/-- Readers only use a token they were given and have not dropped. -/
def registered (readers : List ℕ) (last : ℕ) : List (LogOp α) → Bool
  | [] => true
  | .push _ :: ops | .clearPending :: ops => registered readers last ops
  | .newReader :: ops => registered ((last + 1) :: readers) (last + 1) ops
  | .take token :: ops => readers.contains token && registered readers last ops
  | .dropSubscriber token :: ops =>
    readers.contains token && registered (readers.filter (· ≠ token)) last ops

def received (token : ℕ) (deliveries : List (ℕ × List α)) : List α :=
  deliveries.flatMap fun delivery => if delivery.1 = token then delivery.2 else []

/-- The reader takes before its pending updates are cleared. -/
def reaches (token : ℕ) : List (LogOp α) → Bool
  | [] => false
  | .push _ :: ops | .newReader :: ops => reaches token ops
  | .clearPending :: _ => false
  | .take reader :: ops => reader == token || reaches token ops
  | .dropSubscriber reader :: ops => reader != token && reaches token ops

/-- The pushed updates that the reader takes before they are cleared, in push order. -/
def owed (token : ℕ) : List (LogOp α) → List α
  | [] => []
  | .push update :: ops => if reaches token ops then update :: owed token ops else owed token ops
  | _ :: ops => owed token ops

theorem reaches_eq_false (token : ℕ) (readers : List ℕ) (last : ℕ) (ops : List (LogOp α))
    (hreg : registered readers last ops) (hnot : token ∉ readers) (hle : token ≤ last) :
    reaches token ops = false := by
  induction ops generalizing readers last with
  | nil => rfl
  | cons op ops ih =>
    cases op with
    | push update => exact ih readers last hreg hnot hle
    | clearPending => rfl
    | newReader =>
      refine ih _ _ hreg ?_ (by omega)
      simp only [List.mem_cons, not_or]
      exact ⟨by omega, hnot⟩
    | take reader =>
      simp only [registered, Bool.and_eq_true, List.contains_iff_mem] at hreg
      have hne : reader ≠ token := fun he => hnot (he ▸ hreg.1)
      simpa [reaches, hne] using ih readers last hreg.2 hnot hle
    | dropSubscriber reader =>
      simp [registered] at hreg
      have hrest := ih _ last hreg.2 (fun hmem => hnot (List.mem_filter.mp hmem).1) hle
      simp [reaches, hrest]

theorem registered_of_append (readers : List ℕ) (last : ℕ) (before after : List (LogOp α))
    (hreg : registered readers last (before ++ after)) : registered readers last before := by
  induction before generalizing readers last with
  | nil => rfl
  | cons op before ih =>
    cases op with
    | push update => exact ih readers last hreg
    | clearPending => exact ih readers last hreg
    | newReader => exact ih _ _ hreg
    | take reader =>
      simp [registered] at hreg ⊢
      exact ⟨hreg.1, ih readers last hreg.2⟩
    | dropSubscriber reader =>
      simp [List.cons_append, registered] at hreg ⊢
      exact ⟨hreg.1, ih _ last hreg.2⟩

/-- What a run delivers to a reader: the queue it starts with, if it takes it in time,
and then the updates it is owed. Whatever comes after the run can still rely on the
registered tokens. -/
theorem exec_delivers (inner : UpdatesInner α) (readers : List ℕ) (ops after : List (LogOp α))
    (hwf : inner.WellFormed) (hreaders : ∀ t, t ∈ readers ↔ t ∈ inner.lastIndexPerReader)
    (hreg : registered readers inner.lastToken (ops ++ after)) :
    ∃ inner' deliveries readers', exec inner ops = some (inner', deliveries) ∧
      inner'.WellFormed ∧ (∀ t, t ∈ readers' ↔ t ∈ inner'.lastIndexPerReader) ∧
      registered readers' inner'.lastToken after ∧
      ∀ token ≤ inner.lastToken, received token deliveries =
        (if reaches token ops then (inner.pending token).getD [] else []) ++ owed token ops := by
  induction ops generalizing inner readers with
  | nil => exact ⟨inner, [], readers, rfl, hwf, hreaders, hreg, fun token _ => rfl⟩
  | cons op ops ih =>
    cases op with
    | push update =>
      obtain ⟨inner', ds, readers', hexec, hwf', hr', hreg', hrec⟩ :=
        ih (inner.push update) readers (hwf.push update) hreaders hreg
      refine ⟨inner', ds, readers', by simp [exec, step, hexec], hwf', hr', hreg', ?_⟩
      intro token hle
      rw [hrec token hle, pending_push hwf]
      by_cases hreach : reaches token ops
      · cases hqueue : inner.pending token with
        | none =>
          have hnot : token ∉ readers := by
            rw [hreaders, ← pending_isSome, hqueue]
            simp
          have hops := registered_of_append readers _ ops after hreg
          simp [reaches_eq_false token readers _ ops hops hnot hle] at hreach
        | some queue => simp [reaches, owed, hreach]
      · simp [reaches, owed, hreach]
    | clearPending =>
      obtain ⟨inner', ds, readers', hexec, hwf', hr', hreg', hrec⟩ :=
        ih inner.clearPending readers hwf.clearPending
          (fun t => by simpa [UpdatesInner.clearPending] using hreaders t) hreg
      refine ⟨inner', ds, readers', by simp [exec, step, hexec], hwf', hr', hreg', ?_⟩
      intro token hle
      rw [hrec token hle, pending_clearPending]
      cases inner.pending token <;> simp [reaches, owed]
    | newReader =>
      obtain ⟨inner', ds, readers', hexec, hwf', hr', hreg', hrec⟩ :=
        ih inner.newReaderToken.2 _ hwf.newReaderToken (fun t => by
          simp [UpdatesInner.newReaderToken, mem_insert, hreaders t])
        hreg
      refine ⟨inner', ds, readers', by simp [exec, step, hexec], hwf', hr', hreg', ?_⟩
      intro token hle
      rw [hrec token (Nat.le_succ_of_le hle), pending_newReaderToken,
        if_neg (show token ≠ inner.lastToken + 1 by omega)]
      rfl
    | take reader =>
      simp only [List.cons_append, registered, Bool.and_eq_true, List.contains_iff_mem] at hreg
      obtain ⟨queue, hqueue⟩ := isSome_iff_exists.mp
        ((pending_isSome inner reader).mpr ((hreaders reader).mp hreg.1))
      obtain ⟨taken, htake, htwf, hlast, hpending⟩ := hwf.takeWithToken reader queue hqueue
      have hreaders' : ∀ t, t ∈ readers ↔ t ∈ taken.lastIndexPerReader := by
        intro t
        rw [hreaders t, ← pending_isSome, ← pending_isSome, hpending t]
        by_cases ht : t = reader
        · simp [ht, hqueue]
        · simp [ht]
      obtain ⟨inner', ds, readers', hexec, hwf', hr', hreg', hrec⟩ :=
        ih taken readers htwf hreaders' (hlast ▸ hreg.2)
      refine ⟨inner', (reader, queue) :: ds, readers', by simp [exec, step, htake, hexec], hwf',
        hr', hreg', ?_⟩
      intro token hle
      have hrest := hrec token (hlast ▸ hle)
      rw [hpending token] at hrest
      by_cases ht : token = reader
      · subst ht
        simp [received] at hrest
        simp [received, hrest, reaches, owed, hqueue]
      · simp [received, if_neg ht] at hrest
        simp [received, hrest, reaches, owed, Ne.symm ht]
    | dropSubscriber reader =>
      simp [List.cons_append, registered] at hreg
      obtain ⟨inner', ds, readers', hexec, hwf', hr', hreg', hrec⟩ :=
        ih (inner.dropSubscriber reader) _ (hwf.dropSubscriber reader) (fun t => by
          simp [UpdatesInner.dropSubscriber, mem_erase, hreaders t, and_comm]) hreg.2
      refine ⟨inner', ds, readers', by simp [exec, step, hexec], hwf', hr', hreg', ?_⟩
      intro token hle
      rw [hrec token hle, pending_dropSubscriber]
      by_cases ht : token = reader
      · simp [ht, reaches, owed]
      · simp [ht, reaches, owed, Ne.symm ht]

private theorem mem_main_iff (t : ℕ) :
    t ∈ [mainReaderToken] ↔ t ∈ (new : UpdatesInner α).lastIndexPerReader := by
  simp [new, mem_keys]

/-- Over any interleaving no operation panics and no index passes the end of the buffer.
The main reader receives exactly the updates it is owed, each once and in push order; a
reader registered along the way first receives what was in the buffer at that moment. -/
theorem each_reader_receives_its_updates_once (ops : List (LogOp α))
    (hreg : registered [mainReaderToken] mainReaderToken ops) :
    (∃ inner deliveries, exec new ops = some (inner, deliveries) ∧
      (∀ token index, inner.lastIndexPerReader.lookup token = some index →
        index ≤ inner.updates.length) ∧
      received mainReaderToken deliveries = owed mainReaderToken ops) ∧
    ∀ before after, ops = before ++ .newReader :: after →
      ∃ inner sofar inner' deliveries, exec new before = some (inner, sofar) ∧
        exec inner.newReaderToken.2 after = some (inner', deliveries) ∧
        received inner.newReaderToken.1 deliveries =
          (if reaches inner.newReaderToken.1 after then inner.updates else []) ++
            owed inner.newReaderToken.1 after := by
  refine ⟨?_, ?_⟩
  · obtain ⟨inner, ds, -, hexec, hwf, -, -, hrec⟩ :=
      exec_delivers new [mainReaderToken] ops [] wellFormed_new mem_main_iff
        (by rwa [List.append_nil])
    refine ⟨inner, ds, hexec, hwf.index_le, ?_⟩
    rw [hrec mainReaderToken le_rfl, pending_new_main]
    simp
  · rintro before after rfl
    obtain ⟨inner, sofar, readers, hexec, hwf, hreaders, hreg', -⟩ :=
      exec_delivers new [mainReaderToken] before _ wellFormed_new mem_main_iff hreg
    obtain ⟨inner', ds, -, hexec', -, -, -, hrec⟩ :=
      exec_delivers inner.newReaderToken.2 ((inner.lastToken + 1) :: readers) after []
        hwf.newReaderToken (fun t => by
          simp [UpdatesInner.newReaderToken, mem_insert, hreaders t])
        (by rw [List.append_nil]; exact hreg')
    refine ⟨inner, sofar, inner', ds, hexec, hexec', ?_⟩
    rw [hrec inner.newReaderToken.1 le_rfl, pending_newReaderToken,
      if_pos (show inner.newReaderToken.1 = inner.lastToken + 1 from rfl)]
    rfl

/-- A run with two readers, a garbage collection and a clear. -/
theorem each_reader_receives_its_updates_once_run :
    registered [mainReaderToken] mainReaderToken
      [.push 1, .newReader, .take 0, .push 2, .take 1, .push 3, .clearPending, .push 4,
        .take 1, .take (0 : ℕ)] ∧
    ∃ inner deliveries, exec new
      [.push 1, .newReader, .take 0, .push 2, .take 1, .push 3, .clearPending, .push 4,
        .take 1, .take 0] = some (inner, deliveries) ∧
      received mainReaderToken deliveries = [1, 4] := by
  refine ⟨by decide, ?_⟩
  obtain ⟨⟨inner, ds, hexec, -, hrec⟩, -⟩ := each_reader_receives_its_updates_once
    ([.push 1, .newReader, .take 0, .push 2, .take 1, .push 3, .clearPending, .push 4,
        .take 1, .take 0] : List (LogOp ℕ)) (by decide)
  exact ⟨inner, ds, hexec, by rw [hrec]; decide⟩

/-- A new reader is not limited to what is pushed after its registration: it also
receives the updates that are still in the buffer. -/
theorem new_reader_receives_earlier_update :
    (exec new [.push 7, .newReader, .take 1]).map (fun run => received 1 run.2) = some [7] ∧
      owed 1 ([.take 1] : List (LogOp ℕ)) = [] := by
  decide

end MatrixSdk.Updates

import MatrixSdk.IncomingRequests

/-!
What a section under the owner's lock does to the queue of the incoming requests. It settles the
entries in place, may drop pending ones, and may admit one new entry at the end.
-/
namespace MatrixSdk.RequestAdmissions

open IncomingRequests VerificationStates RequestOwner RequestEntry RequestClaim List

/-- What may happen to an entry that stays: it keeps its place and its key, a cancelled one
stays cancelled, and a publication stays as it is. -/
structure Moves (slot slot' : Slot) : Prop where
  place : slot'.place = slot.place
  key : slot'.entry.key = slot.entry.key
  cancelled : slot.entry.isCancelled = true → slot'.entry.isCancelled = true
  publication : ∀ published, slot.entry = .publication published →
    slot'.entry = .publication published
  unclaimed : ∀ published, slot'.entry = .publication published →
    slot.entry = .publication published ∨ published.state = .unclaimed

theorem Moves.refl (slot : Slot) : Moves slot slot :=
  ⟨rfl, rfl, id, fun _ h => h, fun _ h => .inl h⟩

variable {slot slot' : Slot}

theorem Moves.trans {slot'' : Slot} (h : Moves slot slot') (h' : Moves slot' slot'') :
    Moves slot slot'' where
  place := h'.place.trans h.place
  key := h'.key.trans h.key
  cancelled hcancelled := h'.cancelled (h.cancelled hcancelled)
  publication published hslot := h'.publication published (h.publication published hslot)
  unclaimed published hslot := by
    rcases h'.unclaimed published hslot with hslot' | hunclaimed
    · exact h.unclaimed published hslot'
    · exact .inr hunclaimed

/-- The entries are settled in place, and some of the pending ones are dropped. -/
inductive Settles : List Slot → List Slot → Prop
  | nil : Settles [] []
  | keep {slot slot' : Slot} {slots slots' : List Slot} (head : Moves slot slot')
      (tail : Settles slots slots') : Settles (slot :: slots) (slot' :: slots')
  | drop {pending : PendingRequest} {place : ℕ} {slots slots' : List Slot}
      (tail : Settles slots slots') : Settles (⟨place, .pending pending⟩ :: slots) slots'

variable {published : RequestPublication}

namespace Settles

variable {slots slots' slots'' : List Slot}

theorem refl (slots : List Slot) : Settles slots slots := by
  induction slots with
  | nil => exact .nil
  | cons slot slots ih => exact .keep (.refl slot) ih

theorem trans (h : Settles slots slots') (h' : Settles slots' slots'') :
    Settles slots slots'' := by
  induction h generalizing slots'' with
  | nil => exact h'
  | @keep slot slot' slots slots' head tail ih =>
    cases h' with
    | keep head' tail' => exact .keep (head.trans head') (ih tail')
    | @drop pending place _ _ tail' =>
      -- a publication would have stayed one, so the entry was pending before
      obtain ⟨place, entry⟩ := slot
      cases entry with
      | pending request => exact .drop (ih tail')
      | publication published =>
        have hstays := head.publication published rfl
        cases hstays
  | drop tail ih => exact .drop (ih h')

theorem filter (p : Slot → Bool)
    (hp : ∀ place published, p ⟨place, .publication published⟩ = true) (slots : List Slot) :
    Settles slots (slots.filter p) := by
  induction slots with
  | nil => exact .nil
  | cons slot slots ih =>
    by_cases hslot : p slot = true
    · rw [filter_cons_of_pos hslot]
      exact .keep (.refl slot) ih
    · rw [filter_cons_of_neg hslot]
      obtain ⟨place, entry⟩ := slot
      cases entry with
      | pending request => exact .drop ih
      | publication published => exact absurd (hp place published) hslot

theorem map {f : Slot → Slot} (hf : ∀ slot, Moves slot (f slot)) (slots : List Slot) :
    Settles slots (slots.map f) := by
  induction slots with
  | nil => exact .nil
  | cons slot slots ih => exact .keep (hf slot) ih

theorem modifyFirst {p : Slot → Bool} {f : Slot → Slot} {slots : List Slot}
    (hf : ∀ slot ∈ slots, p slot = true → Moves slot (f slot)) :
    Settles slots ((FirstMatches.modifyFirst p f slots).getD slots) := by
  induction slots with
  | nil => exact .nil
  | cons slot slots ih =>
    unfold FirstMatches.modifyFirst
    split
    · next hslot => exact .keep (hf slot (by simp) hslot) (.refl slots)
    · have htail := ih fun slot hmem => hf slot (by simp [hmem])
      cases hrest : FirstMatches.modifyFirst p f slots with
      | none => exact .refl _
      | some rest =>
        rw [hrest] at htail
        exact .keep (.refl slot) htail

theorem removeFirst {p : Slot → Bool}
    (hp : ∀ place published, p ⟨place, .publication published⟩ = false) (slots : List Slot) :
    Settles slots (((FirstMatches.removeFirst p slots).map Prod.snd).getD slots) := by
  induction slots with
  | nil => exact .nil
  | cons slot slots ih =>
    unfold FirstMatches.removeFirst
    split
    · next hslot =>
      obtain ⟨place, entry⟩ := slot
      cases entry with
      | pending request => exact .drop (.refl slots)
      | publication published =>
        rw [hp] at hslot
        cases hslot
    · cases hrest : FirstMatches.removeFirst p slots with
      | none => exact .refl _
      | some rest =>
        rw [hrest] at ih
        exact .keep (.refl slot) ih

section

variable (h : Settles slots slots')
include h

theorem length_le : slots'.length ≤ slots.length := by
  induction h with
  | nil => exact le_rfl
  | keep head tail ih => exact Nat.succ_le_succ ih
  | drop tail ih => exact Nat.le_succ_of_le ih

theorem keys_sublist : (slots'.map (·.entry.key)).Sublist (slots.map (·.entry.key)) := by
  induction h with
  | nil => exact .slnil
  | keep head tail ih =>
    rw [map_cons, map_cons, head.key]
    exact ih.cons_cons _
  | drop tail ih => exact ih.cons _

theorem places_sublist : (slots'.map (·.place)).Sublist (slots.map (·.place)) := by
  induction h with
  | nil => exact .slnil
  | keep head tail ih =>
    rw [map_cons, map_cons, head.place]
    exact ih.cons_cons _
  | drop tail ih => exact ih.cons _

/-- Every entry that is left comes from one that was there. -/
theorem exists_moves (hmem : slot' ∈ slots') : ∃ slot ∈ slots, Moves slot slot' := by
  induction h with
  | nil => simp at hmem
  | @keep slot _ _ _ head tail ih =>
    rcases mem_cons.mp hmem with rfl | hmem
    · exact ⟨slot, by simp, head⟩
    · obtain ⟨slot, hslot, hmoves⟩ := ih hmem
      exact ⟨slot, by simp [hslot], hmoves⟩
  | drop tail ih =>
    obtain ⟨slot, hslot, hmoves⟩ := ih hmem
    exact ⟨slot, by simp [hslot], hmoves⟩

end

variable {place : ℕ}

/-- A publication is still there. -/
theorem mem_publication (h : Settles slots slots')
    (hmem : ⟨place, .publication published⟩ ∈ slots) :
    ⟨place, .publication published⟩ ∈ slots' := by
  induction h with
  | nil => simp at hmem
  | @keep slot slot' _ _ head tail ih =>
    rcases mem_cons.mp hmem with rfl | hmem
    · have hentry := head.publication published rfl
      have hplace := head.place
      obtain ⟨place', entry'⟩ := slot'
      subst hentry hplace
      simp
    · exact mem_cons_of_mem _ (ih hmem)
  | drop tail ih =>
    rcases mem_cons.mp hmem with heq | hmem
    · cases heq
    · exact ih hmem

/-- A publication divides the entries as before. -/
theorem split {cancelled later : List Slot}
    (h : Settles (cancelled ++ ⟨place, .publication published⟩ :: later) slots') :
    ∃ cancelled' later', slots' = cancelled' ++ ⟨place, .publication published⟩ :: later' ∧
      Settles cancelled cancelled' ∧ Settles later later' := by
  induction cancelled generalizing slots' with
  | nil =>
    cases h with
    | @keep _ slot' _ _ head tail =>
      have hentry := head.publication published rfl
      have hplace := head.place
      obtain ⟨place', entry'⟩ := slot'
      subst hentry hplace
      exact ⟨[], _, rfl, .nil, tail⟩
  | cons slot cancelled ih =>
    cases h with
    | keep head tail =>
      obtain ⟨cancelled', later', rfl, hcancelled, hlater⟩ := ih tail
      exact ⟨_ :: cancelled', later', rfl, .keep head hcancelled, hlater⟩
    | drop tail =>
      obtain ⟨cancelled', later', rfl, hcancelled, hlater⟩ := ih tail
      exact ⟨cancelled', later', rfl, .drop hcancelled, hlater⟩

end Settles

/-- What a section other than one of a lease does to the queue: it settles the entries, and
admits at most one more, with a key of its own and while there is room. -/
inductive Admits (owner : RequestOwner) : RequestOwner → Prop
  | settle {owner' : RequestOwner} (h : Settles owner.entries owner'.entries)
      (hadmissions : owner'.admissions = owner.admissions) : Admits owner owner'
  | push {owner' : RequestOwner} {entry : RequestEntry}
      (h : Settles owner.entries owner'.entries)
      (hadmissions : owner'.admissions = owner.admissions) (hroom : owner'.isFull = false)
      (hkey : ∀ slot ∈ owner'.entries, slot.entry.key ≠ entry.key)
      (hunclaimed : ∀ published, entry = .publication published → published.state = .unclaimed) :
      Admits owner (owner'.pushBack entry)

section Sections

variable (owner : RequestOwner)

theorem Admits.refl : Admits owner owner := .settle (.refl _) rfl

theorem Admits.retainPending (retain : PendingRequest → Bool) :
    Admits owner (owner.retainPending retain) :=
  .settle (.filter _ (fun _ _ => rfl) _) rfl

/-- A change of a pending request that keeps its event, and keeps it cancelled. -/
def Gentle (f : PendingRequest → PendingRequest) : Prop :=
  ∀ pending, (f pending).event = pending.event ∧
    (pending.cancelled = true → (f pending).cancelled = true)

theorem Gentle.moves {f : PendingRequest → PendingRequest} (hf : Gentle f) (slot : Slot) :
    Moves slot { slot with entry := slot.entry.changePending f } := by
  obtain ⟨place, entry⟩ := slot
  cases entry with
  | pending request =>
    refine ⟨rfl, ?_, (hf request).2, ?_, ?_⟩
    · show (f request).event.key = request.event.key
      rw [(hf request).1]
    · intro published h
      cases h
    · intro published h
      cases h
  | publication published => exact .refl _

theorem gentle_setState (state : PendingState) : Gentle (.setState state) :=
  fun _ => ⟨rfl, id⟩

theorem Gentle.ite {f : PendingRequest → PendingRequest} (hf : Gentle f)
    (p : PendingRequest → Bool) :
    Gentle fun pending => if p pending then f pending else pending := by
  intro pending
  simp only
  split
  · exact hf pending
  · exact ⟨rfl, id⟩

theorem Admits.mapPending {f : PendingRequest → PendingRequest} (hf : Gentle f) :
    Admits owner (owner.mapPending f) :=
  .settle (.map hf.moves _) rfl

theorem Admits.modifyPending {f : PendingRequest → PendingRequest} (hf : Gentle f)
    (p : PendingRequest → Bool) : Admits owner (owner.modifyPending p f) :=
  .settle (.modifyFirst fun slot _ _ => hf.moves slot) rfl

theorem Admits.removePending (p : PendingRequest → Bool) :
    Admits owner (owner.removeEntry (isPending p)) :=
  .settle (.removeFirst (fun _ _ => rfl) _) rfl

theorem Admits.trans_settle {owner owner' owner'' : RequestOwner}
    (h : Settles owner.entries owner'.entries) (hadmissions : owner'.admissions = owner.admissions)
    (h' : Admits owner' owner'') : Admits owner owner'' := by
  cases h' with
  | settle hsettle hsame => exact .settle (h.trans hsettle) (hsame.trans hadmissions)
  | push hsettle hsame hroom hkey hunclaimed =>
    exact .push (h.trans hsettle) (hsame.trans hadmissions) hroom hkey hunclaimed

theorem Admits.mapRetain {f : PendingRequest → PendingRequest} (hf : Gentle f)
    (retain : PendingRequest → Bool) :
    Admits owner ((owner.mapPending f).retainPending retain) :=
  .settle ((Settles.map hf.moves _).trans (.filter _ (fun _ _ => rfl) _)) rfl

theorem settles_expire (now : ℕ) : Settles owner.entries (owner.expire now).entries :=
  .filter _ (fun _ _ => rfl) _

variable {owner}

theorem mem_pendings {pending : PendingRequest} :
    pending ∈ owner.pendings ↔ ∃ slot ∈ owner.entries, slot.entry = .pending pending := by
  unfold pendings
  rw [mem_filterMap]
  constructor
  · rintro ⟨slot, hmem, h⟩
    refine ⟨slot, hmem, ?_⟩
    split at h
    · next request hentry =>
      cases h
      exact hentry
    · cases h
  · rintro ⟨slot, hmem, h⟩
    refine ⟨slot, hmem, ?_⟩
    rw [h]

/-- No entry has a key that is neither pending nor published. -/
theorem key_ne {key : RequestKey} (hpublication : owner.hasPublication key = false)
    (hpending : ∀ pending ∈ owner.pendings, pending.event.key ≠ key) :
    ∀ slot ∈ owner.entries, slot.entry.key ≠ key := by
  intro slot hmem
  cases hentry : slot.entry with
  | pending pending => exact hpending pending (mem_pendings.mpr ⟨slot, hmem, hentry⟩)
  | publication published =>
    have hfalse := any_eq_false.mp hpublication slot hmem
    rw [hentry] at hfalse
    exact fun hkey => hfalse (decide_eq_true hkey)

theorem find?_key_eq_none {key : RequestKey}
    (h : (owner.pendings.find? fun pending => pending.event.key = key) = none) :
    ∀ pending ∈ owner.pendings, pending.event.key ≠ key := by
  intro pending hmem
  have hnone := find?_eq_none.mp h pending hmem
  simpa using hnone

theorem hasPending_eq_false {p : PendingRequest → Bool} (h : owner.hasPending p = false) :
    ∀ pending ∈ owner.pendings, p pending = false := by
  intro pending hmem
  obtain ⟨slot, hslot, hentry⟩ := mem_pendings.mp hmem
  have hfalse := any_eq_false.mp h slot hslot
  rw [hentry] at hfalse
  simpa [isPending] using hfalse

/-- A pending request that is not cancelled becomes a publication in its slot. -/
theorem Admits.publishEntry {p : PendingRequest → Bool} {key : RequestKey} {request : ℕ}
    (hp : ∀ pending ∈ owner.pendings, p pending = true →
      pending.event.key = key ∧ pending.cancelled = false) :
    Admits owner (owner.modifyEntry (isPending p)
      fun _ => .publication ⟨key, request, .unclaimed⟩) := by
  refine .settle (.modifyFirst fun slot hmem hslot => ?_) rfl
  obtain ⟨place, entry⟩ := slot
  cases entry with
  | pending pending =>
    obtain ⟨hkey, hcancelled⟩ := hp pending (mem_pendings.mpr ⟨_, hmem, rfl⟩) hslot
    refine ⟨rfl, hkey.symm, fun h => ?_, fun published h => ?_, fun published h => ?_⟩
    · exact absurd h (by simp [isCancelled, hcancelled])
    · cases h
    · cases h
      exact .inr rfl
  | publication published => cases hslot

theorem admits_retainPendingIncomingRequest (now : ℕ) (event : RequestEvent) :
    Admits owner (owner.retainPendingIncomingRequest now event).2 := by
  apply Admits.trans_settle (settles_expire owner now) rfl
  unfold retainPendingIncomingRequest
  simp only
  generalize owner.expire now = owner
  split
  · exact .refl owner
  · next hpublication =>
    split
    · split
      · exact .refl owner
      · split
        · exact .modifyPending owner (gentle_setState _) _
        · exact .refl owner
    · next hfind =>
      split
      · exact .refl owner
      · next hroom =>
        have hpublished : owner.hasPublication event.key = false := by simpa using hpublication
        refine .push (.refl _) rfl (by simpa using hroom) ?_ ?_
        · exact key_ne hpublished (find?_key_eq_none hfind)
        · intro published h
          cases h

theorem admits_publishIncomingVerificationRequest (now : ℕ) (key : RequestKey) (request : ℕ) :
    Admits owner (owner.publishIncomingVerificationRequest now key request).2.2 := by
  apply Admits.trans_settle (settles_expire owner now) rfl
  unfold publishIncomingVerificationRequest
  simp only
  generalize owner.expire now = owner
  split
  · exact .refl owner
  · next hpublication =>
    split
    · exact .refl owner
    · next hcancelled =>
      have hnone := hasPending_eq_false (by simpa using hcancelled)
      split
      · refine .publishEntry fun pending hmem hkey => ?_
        have hfalse := hnone pending hmem
        simp only [decide_eq_true_eq] at hkey
        exact ⟨hkey, by simpa [hkey] using hfalse⟩
      · next hpending =>
        split
        · exact .refl owner
        · next hroom =>
          have hpublished : owner.hasPublication key = false := by simpa using hpublication
          refine .push (.refl _) rfl (by simpa using hroom) ?_ ?_
          · refine key_ne hpublished fun pending hmem hkey => ?_
            have hfalse := hasPending_eq_false (by simpa using hpending) pending hmem
            exact of_decide_eq_false hfalse hkey
          · intro published h
            cases h
            rfl

theorem admits_reserveInRoomInitialLookup (now token : ℕ) (event : RequestEvent) :
    Admits owner (owner.reserveInRoomInitialLookup now token event).2 := by
  unfold reserveInRoomInitialLookup
  split
  · exact .refl owner
  · next hfind =>
    split
    · exact .refl owner
    · next hpublication =>
      have hkey := key_ne (by simpa using hpublication) (find?_key_eq_none hfind)
      simp only
      split
      · exact .settle (settles_expire owner now) rfl
      · next hroom =>
        refine .push (settles_expire owner now) rfl (by simpa using hroom) ?_ ?_
        · intro slot hmem
          obtain ⟨before, hbefore, hmoves⟩ := (settles_expire owner now).exists_moves hmem
          rw [hmoves.key]
          exact hkey before hbefore
        · intro published h
          cases h

theorem admits_finishInRoomInitialLookup (sender : String) (flow : FlowId) :
    Admits owner (owner.finishInRoomInitialLookup sender flow) := by
  unfold finishInRoomInitialLookup
  split
  · exact .refl owner
  · next key _ =>
    exact .mapRetain owner (Gentle.ite (gentle_setState .waitingForExternalUpdate)
      fun pending => pending.event.key = key && pending.cancelled &&
        pending.state.isInitialLookup) _

theorem admits_cancelPendingInRoomRequest (sender : String) (flow : FlowId) :
    Admits owner (owner.cancelPendingInRoomRequest sender flow) := by
  unfold cancelPendingInRoomRequest
  split
  · exact .refl owner
  · have hgentle : Gentle fun pending => { pending with cancelled := true } :=
      fun _ => ⟨rfl, fun _ => rfl⟩
    exact .modifyPending owner hgentle _

theorem gentle_finishPending (claim : KeyQueryResponseClaim) : Gentle claim.finishPending := by
  intro pending
  unfold KeyQueryResponseClaim.finishPending
  split
  · split
    · exact ⟨rfl, id⟩
    · split
      · exact ⟨rfl, id⟩
      · exact ⟨rfl, id⟩
  · exact ⟨rfl, id⟩

section

variable (claim : RequestClaim)
include claim

theorem admits_settleCancelled : Admits owner (claim.settleCancelled owner) :=
  .modifyPending owner (gentle_setState _) _

theorem admits_finish : Admits owner (claim.finish owner) := by
  unfold finish
  split
  · exact admits_settleCancelled claim
  · exact .retainPending owner _

theorem admits_retryOrPromoteInitialLookup (observed : ℕ) (unknown : Bool) :
    Admits owner (claim.retryOrPromoteInitialLookup owner observed unknown).2 := by
  unfold retryOrPromoteInitialLookup
  split
  · exact .refl owner
  · split
    · exact .refl owner
    · split
      · exact .modifyPending owner (gentle_setState _) _
      · exact .refl owner

theorem admits_publish (request : ℕ) (publishable : Bool) :
    Admits owner (claim.publish owner request publishable) := by
  unfold publish
  split
  · exact admits_settleCancelled claim
  · next hcancelled =>
    split
    · refine .publishEntry fun pending hmem hheld => ?_
      have hcancelled : claim.cancelled owner = false := by simpa using hcancelled
      have hnone := hasPending_eq_false hcancelled pending hmem
      simp only [Bool.and_eq_true, decide_eq_true_eq] at hheld
      exact ⟨hheld.1, by simpa [hheld.1] using hnone⟩
    · exact .removePending owner _

theorem admits_drop : Admits owner (claim.drop owner) := by
  unfold RequestClaim.drop
  split
  · exact .mapRetain owner (Gentle.ite (gentle_setState _) fun pending =>
      pending.event.key = claim.key && claim.stateMatches pending.state && pending.cancelled) _
  · exact .modifyPending owner (Gentle.ite (gentle_setState _) fun pending =>
      claim.stateMatches pending.state) _

end

end Sections

end MatrixSdk.RequestAdmissions

import MatrixSdk.KeyQueryResponses

/-!
The pending requests before and after a section. A section that a task may run at any time
leaves a request that is not cancelled as it is, or lets it wait for a query.
-/
namespace MatrixSdk.PendingChanges

open FirstMatches IncomingRequests KeyQueryResponses RequestAdmissions RequestLeases RequestMachine
open Bool
open RequestOwner RequestEntry RequestClaim List

/-- The request waits for a query, or it is looked up for the first time. -/
def isCalm : PendingState → Bool
  | .needsQuery | .initialLookup _ => true
  | _ => false

variable {p : PendingRequest → Bool} {retain : PendingRequest → Bool} {token : ℕ}

section Sections

variable {owner : RequestOwner} {pending : PendingRequest}

theorem hasPending_iff :
    owner.hasPending p = true ↔ ∃ pending ∈ owner.pendings, p pending = true := by
  unfold hasPending
  rw [any_eq_true]
  constructor
  · rintro ⟨⟨place, entry⟩, hmem, hp⟩
    cases entry with
    | pending pending => exact ⟨pending, mem_pendings.mpr ⟨_, hmem, rfl⟩, hp⟩
    | publication published => cases hp
  · rintro ⟨pending, hmem, hp⟩
    obtain ⟨slot, hslot, hentry⟩ := mem_pendings.mp hmem
    refine ⟨slot, hslot, ?_⟩
    rw [hentry]
    exact hp

variable {f : PendingRequest → PendingRequest}

theorem mem_pendings_mapPending :
    pending ∈ (owner.mapPending f).pendings ↔ ∃ before ∈ owner.pendings, f before = pending := by
  rw [mem_pendings]
  constructor
  · rintro ⟨slot, hmem, hentry⟩
    obtain ⟨⟨place, entry⟩, hslot, rfl⟩ := mem_map.mp hmem
    cases entry with
    | pending before =>
      cases hentry
      exact ⟨before, mem_pendings.mpr ⟨_, hslot, rfl⟩, rfl⟩
    | publication published => cases hentry
  · rintro ⟨before, hmem, rfl⟩
    obtain ⟨slot, hslot, hentry⟩ := mem_pendings.mp hmem
    refine ⟨_, mem_map_of_mem hslot, ?_⟩
    rw [hentry]
    rfl

theorem mem_pendings_retainPending :
    pending ∈ (owner.retainPending retain).pendings ↔
      pending ∈ owner.pendings ∧ retain pending = true := by
  rw [mem_pendings, mem_pendings]
  constructor
  · rintro ⟨slot, hmem, hentry⟩
    obtain ⟨hslot, hretain⟩ := mem_filter.mp hmem
    rw [hentry] at hretain
    exact ⟨⟨slot, hslot, hentry⟩, by simpa [isPending] using hretain⟩
  · rintro ⟨⟨slot, hslot, hentry⟩, hretain⟩
    refine ⟨slot, mem_filter.mpr ⟨hslot, ?_⟩, hentry⟩
    rw [hentry]
    simpa [isPending] using hretain

theorem mem_pendings_of_expire {now : ℕ} (h : pending ∈ (owner.expire now).pendings) :
    pending ∈ owner.pendings :=
  (mem_pendings_retainPending.mp h).1

theorem mem_pendings_modifyPending (h : pending ∈ (owner.modifyPending p f).pendings) :
    pending ∈ owner.pendings ∨ ∃ before ∈ owner.pendings, p before = true ∧ f before = pending := by
  obtain ⟨slot, hmem, hentry⟩ := mem_pendings.mp h
  rcases mem_modifyFirst hmem with hslot | ⟨⟨place, entry⟩, hslot, hp, rfl⟩
  · exact .inl (mem_pendings.mpr ⟨slot, hslot, hentry⟩)
  · cases entry with
    | pending before =>
      cases hentry
      exact .inr ⟨before, mem_pendings.mpr ⟨_, hslot, rfl⟩, hp, rfl⟩
    | publication published => cases hp

variable {published : RequestPublication} {responseToken : ℕ}

theorem mem_pendings_publishEntry
    (h : pending ∈ (owner.modifyEntry (isPending p) fun _ => .publication published).pendings) :
    pending ∈ owner.pendings := by
  obtain ⟨slot, hmem, hentry⟩ := mem_pendings.mp h
  rcases mem_modifyFirst hmem with hslot | ⟨before, hslot, -, rfl⟩
  · exact mem_pendings.mpr ⟨slot, hslot, hentry⟩
  · cases hentry

theorem mem_pendings_pushBack {entry : RequestEntry}
    (h : pending ∈ (owner.pushBack entry).pendings) :
    pending ∈ owner.pendings ∨ entry = .pending pending := by
  obtain ⟨slot, hmem, hentry⟩ := mem_pendings.mp h
  rcases mem_append.mp hmem with hslot | hslot
  · exact .inl (mem_pendings.mpr ⟨slot, hslot, hentry⟩)
  · cases mem_singleton.mp hslot
    exact .inr hentry

/-- The entries have different keys. -/
def KeysDiffer (owner : RequestOwner) : Prop := (owner.entries.map (·.entry.key)).Nodup

section

variable (h : KeysDiffer owner)
include h

section

variable {key : RequestKey} (hp : ∀ pending, p pending = true → pending.event.key = key)
include hp

theorem KeysDiffer.pairwise :
    owner.entries.Pairwise fun slot other =>
      ¬(slot.entry.isPending p = true ∧ other.entry.isPending p = true) := by
  have hkey : ∀ slot : Slot, slot.entry.isPending p = true → slot.entry.key = key := by
    rintro ⟨place, entry⟩ hslot
    cases entry with
    | pending pending => exact hp pending hslot
    | publication published => cases hslot
  refine (pairwise_map.mp h).imp fun {slot other} hne hboth => ?_
  exact hne ((hkey slot hboth.1).trans (hkey other hboth.2).symm)

/-- A change of the first request with a key is one of all of them. -/
theorem KeysDiffer.modifyPending_eq :
    owner.modifyPending p f = owner.mapPending fun pending =>
      if p pending then f pending else pending := by
  unfold modifyPending modifyEntry mapPending
  rw [modifyFirst_eq_map (h.pairwise hp)]
  congr 1
  refine map_congr_left fun slot _ => ?_
  obtain ⟨place, entry⟩ := slot
  cases entry with
  | pending pending =>
    by_cases hpending : p pending = true
    · simp [isPending, changePending, hpending]
    · simp [isPending, changePending, hpending]
  | publication published => rfl

/-- A request that becomes a publication is not pending any more. -/
theorem KeysDiffer.not_of_publishEntry
    (hmem : pending ∈ (owner.modifyEntry (isPending p) fun _ => .publication published).pendings) :
    pending ∈ owner.pendings ∧ p pending = false := by
  refine ⟨mem_pendings_publishEntry hmem, ?_⟩
  obtain ⟨slot, hslot, hentry⟩ := mem_pendings.mp hmem
  unfold modifyEntry at hslot
  rw [modifyFirst_eq_map (h.pairwise hp)] at hslot
  obtain ⟨before, -, rfl⟩ := mem_map.mp hslot
  split at hentry
  · cases hentry
  · next hnot =>
    rw [hentry] at hnot
    simpa [isPending] using hnot

end

section

variable (hmem : pending ∈ owner.pendings)
include hmem

/-- Two pending requests with one key are the same. -/
theorem KeysDiffer.eq_of_key {other : PendingRequest} (hother : other ∈ owner.pendings)
    (hkey : other.event.key = pending.event.key) : other = pending := by
  obtain ⟨slot, hslot, hentry⟩ := mem_pendings.mp hmem
  obtain ⟨slot', hslot', hentry'⟩ := mem_pendings.mp hother
  have hsame : slot' = slot := by
    refine inj_on_of_nodup_map h hslot' hslot ?_
    rw [hentry, hentry']
    exact hkey
  subst hsame
  rw [hentry] at hentry'
  cases hentry'
  rfl

theorem KeysDiffer.find?_eq :
    (owner.pendings.find? fun other => other.event.key = pending.event.key) = some pending := by
  cases hfind : owner.pendings.find? fun other => other.event.key = pending.event.key with
  | none => exact absurd rfl (find?_key_eq_none hfind pending hmem)
  | some other =>
    have hkey : other.event.key = pending.event.key := by simpa using find?_some hfind
    rw [h.eq_of_key hmem (mem_of_find?_eq_some hfind) hkey]

/-- A request that the response has is held for a lookup. -/
theorem KeysDiffer.claimForReplay_eq {observed : ℕ}
    (hstate : pending.state = .responseClaimed responseToken observed) (token : ℕ) :
    owner.claimPendingToDeviceRequestForReplay pending.event.key responseToken token =
      some (pending.event, owner.mapPending fun other =>
        if other.event.key = pending.event.key then
          other.setState (.replayClaimed responseToken token observed)
        else other) := by
  have hp : ∀ other : PendingRequest, decide (other.event.key = pending.event.key) = true →
      other.event.key = pending.event.key := fun other => of_decide_eq_true
  simp only [claimPendingToDeviceRequestForReplay, h.find?_eq hmem,
    Option.bind_eq_bind, Option.bind_some, hstate, ne_eq, not_true_eq_false, if_false,
    h.modifyPending_eq hp, decide_eq_true_eq]

end

end

section Claims

variable {claim : RequestClaim}

/-- The claim holds the request. -/
def HeldBy (claim : RequestClaim) (pending : PendingRequest) : Prop :=
  pending.event.key = claim.key ∧ claim.stateMatches pending.state = true

section

variable (h : KeysDiffer owner)
include h

/-- What is left by a claim that ends because its request was cancelled. -/
theorem KeysDiffer.of_settleCancelled (hclaim : claim.cancelled owner = true)
    (hmem : pending ∈ (claim.settleCancelled owner).pendings)
    (hcancelled : pending.cancelled = false) :
    pending ∈ owner.pendings ∧ ¬HeldBy claim pending := by
  rcases mem_pendings_modifyPending hmem with hmem | ⟨before, -, hbefore, rfl⟩
  · refine ⟨hmem, fun hheld => ?_⟩
    obtain ⟨other, hother, hcond⟩ := hasPending_iff.mp hclaim
    obtain ⟨hkey, htrue⟩ := and_eq_true_iff.mp hcond
    have hsame := h.eq_of_key hmem hother ((of_decide_eq_true hkey).trans hheld.1.symm)
    rw [hsame, hcancelled] at htrue
    cases htrue
  · have htrue := (and_eq_true_iff.mp hbefore).2
    have hfalse : before.cancelled = false := hcancelled
    rw [hfalse] at htrue
    cases htrue

theorem KeysDiffer.of_publish {request : ℕ} {publishable : Bool}
    (hmem : pending ∈ (claim.publish owner request publishable).pendings)
    (hcancelled : pending.cancelled = false) :
    pending ∈ owner.pendings ∧ ¬HeldBy claim pending := by
  have hp : ∀ other : PendingRequest, (decide (other.event.key = claim.key) &&
      claim.stateMatches other.state) = true → other.event.key = claim.key :=
    fun other hother => of_decide_eq_true (and_eq_true_iff.mp hother).1
  have hnot : ∀ other : PendingRequest, (decide (other.event.key = claim.key) &&
      claim.stateMatches other.state) = false → ¬HeldBy claim other := by
    rintro other hother ⟨hkey, hmatches⟩
    rw [decide_eq_true hkey, hmatches] at hother
    cases hother
  unfold publish at hmem
  split at hmem
  · next hclaim => exact h.of_settleCancelled hclaim hmem hcancelled
  · split at hmem
    · obtain ⟨hmem, hother⟩ := h.not_of_publishEntry hp hmem
      exact ⟨hmem, hnot pending hother⟩
    · obtain ⟨slot, hslot, hentry⟩ := mem_pendings.mp hmem
      simp only [removeEntry] at hslot
      rw [removeFirst_eq_filter (h.pairwise hp)] at hslot
      obtain ⟨hslot, hother⟩ := mem_filter.mp hslot
      rw [hentry] at hother
      exact ⟨mem_pendings.mpr ⟨slot, hslot, hentry⟩,
        hnot pending ((Bool.not_eq_true' _).mp hother)⟩

theorem KeysDiffer.of_drop (hkind : claim.kind = .replay)
    (hmem : pending ∈ (claim.drop owner).pendings) :
    isCalm pending.state = true ∨ pending ∈ owner.pendings ∧ ¬HeldBy claim pending := by
  have hp : ∀ other : PendingRequest, decide (other.event.key = claim.key) = true →
      other.event.key = claim.key := fun other => of_decide_eq_true
  simp [RequestClaim.drop, hkind] at hmem
  rw [h.modifyPending_eq hp] at hmem
  obtain ⟨before, hbefore, rfl⟩ := mem_pendings_mapPending.mp hmem
  split
  · split
    · exact .inl rfl
    · next hmatches => exact .inr ⟨hbefore, fun hheld => hmatches hheld.2⟩
  · next hkey => exact .inr ⟨hbefore, fun hheld => hkey (decide_eq_true hheld.1)⟩

/-- A request that is handed back goes to the response of the claim. -/
theorem KeysDiffer.of_release (hkind : claim.kind = .replay)
    (hmem : pending ∈ (claim.releaseToResponseClaim owner).pendings) :
    (∃ before ∈ owner.pendings, ∃ observed,
      before.state = .replayClaimed claim.responseToken claim.token observed ∧
      before.event.key = claim.key ∧
      pending = before.setState (.responseClaimed claim.responseToken observed)) ∨
    pending ∈ owner.pendings ∧ ¬HeldBy claim pending := by
  have hp : ∀ other : PendingRequest, decide (other.event.key = claim.key) = true →
      other.event.key = claim.key := fun other => of_decide_eq_true
  unfold releaseToResponseClaim at hmem
  rw [h.modifyPending_eq hp] at hmem
  obtain ⟨before, hbefore, rfl⟩ := mem_pendings_mapPending.mp hmem
  split
  · next hkey =>
    by_cases hmatches : claim.stateMatches before.state = true
    · left
      cases hstate : before.state with
      | replayClaimed responseToken replayToken observed =>
        rw [hstate] at hmatches
        obtain ⟨hresponse, hreplay⟩ := and_eq_true_iff.mp hmatches
        have hresponse := of_decide_eq_true (and_eq_true_iff.mp hresponse).2
        have hreplay := of_decide_eq_true hreplay
        subst hresponse hreplay
        refine ⟨before, hbefore, observed, hstate, of_decide_eq_true hkey, ?_⟩
        simp [handBack]
      | initialLookup token =>
        rw [hstate] at hmatches
        simp [stateMatches, hkind] at hmatches
      | _ =>
        rw [hstate] at hmatches
        cases hmatches
    · right
      have hsame : before.setState (claim.handBack before.state) = before := by
        have hback : claim.handBack before.state = before.state := by
          cases hstate : before.state with
          | replayClaimed responseToken replayToken observed =>
            rw [hstate] at hmatches
            refine if_neg fun hboth => hmatches ?_
            simp [stateMatches, hkind, hboth.1, hboth.2]
          | _ => rfl
        rw [hback]
        rfl
      rw [hsame]
      exact ⟨hbefore, fun hheld => hmatches hheld.2⟩
  · next hkey => exact .inr ⟨hbefore, fun hheld => hkey (decide_eq_true hheld.1)⟩

end

end Claims

theorem pendings_eq_of_restates {owner' : RequestOwner}
    (h : Restates owner.entries owner'.entries) : owner'.pendings = owner.pendings := by
  unfold pendings
  generalize owner.entries = slots at h
  generalize owner'.entries = slots' at h
  cases h with
  | same => rfl
  | change cancelled later place published state =>
    simp only [filterMap_append, filterMap_cons]

end Sections

section Free

variable {machine : RequestMachine} {pending : PendingRequest} {event : RequestEvent}

theorem calm_of_retain {now : ℕ}
    (h : pending ∈ (machine.owner.retainPendingIncomingRequest now event).2.pendings) :
    pending ∈ machine.owner.pendings ∨ isCalm pending.state = true := by
  unfold retainPendingIncomingRequest at h
  simp only at h
  split at h
  · exact .inl (mem_pendings_of_expire h)
  · split at h
    · split at h
      · exact .inl (mem_pendings_of_expire h)
      · split at h
        · rcases mem_pendings_modifyPending h with h | ⟨before, -, -, rfl⟩
          · exact .inl (mem_pendings_of_expire h)
          · exact .inr rfl
        · exact .inl (mem_pendings_of_expire h)
    · split at h
      · exact .inl (mem_pendings_of_expire h)
      · rcases mem_pendings_pushBack h with h | h
        · exact .inl (mem_pendings_of_expire h)
        · cases h
          exact .inr rfl

theorem mem_of_publishIncoming {now request : ℕ} {key : RequestKey} (h : pending ∈
      (machine.owner.publishIncomingVerificationRequest now key request).2.2.pendings) :
    pending ∈ machine.owner.pendings := by
  unfold publishIncomingVerificationRequest at h
  simp only at h
  split at h
  · exact mem_pendings_of_expire h
  · split at h
    · exact mem_pendings_of_expire h
    · split at h
      · exact mem_pendings_of_expire (mem_pendings_publishEntry h)
      · split at h
        · exact mem_pendings_of_expire h
        · rcases mem_pendings_pushBack h with h | h
          · exact mem_pendings_of_expire h
          · cases h

theorem calm_of_reserve {now : ℕ}
    (h : pending ∈ (machine.owner.reserveInRoomInitialLookup now token event).2.pendings) :
    pending ∈ machine.owner.pendings ∨ isCalm pending.state = true := by
  unfold reserveInRoomInitialLookup at h
  split at h
  · exact .inl h
  · split at h
    · exact .inl h
    · simp only at h
      split at h
      · exact .inl (mem_pendings_of_expire h)
      · rcases mem_pendings_pushBack h with h | h
        · exact .inl (mem_pendings_of_expire h)
        · cases h
          exact .inr rfl

/-- A change that only touches cancelled requests, and a drop of some of them. -/
theorem mem_of_mapRetain {state : PendingState}
    (hp : ∀ pending, p pending = true → pending.cancelled = true)
    (h : pending ∈ ((machine.owner.mapPending fun pending =>
      if p pending then pending.setState state else pending).retainPending retain).pendings)
    (hcancelled : pending.cancelled = false) : pending ∈ machine.owner.pendings := by
  obtain ⟨hmem, -⟩ := mem_pendings_retainPending.mp h
  obtain ⟨before, hbefore, rfl⟩ := mem_pendings_mapPending.mp hmem
  split at hcancelled
  · next hpending =>
    have htrue := hp before hpending
    rw [PendingRequest.setState, htrue] at hcancelled
    cases hcancelled
  · next hpending =>
    rw [if_neg hpending]
    exact hbefore

/-- A section that may run at any time leaves a request alone, or leaves it calm. -/
theorem calm_of_isFree {action : OwnerAction} (hfree : isFree action = true)
    (h : pending ∈ (machine.act action).owner.pendings) (hcancelled : pending.cancelled = false) :
    pending ∈ machine.owner.pendings ∨ isCalm pending.state = true := by
  cases action with
  | retain now event => exact calm_of_retain h
  | removePending key => exact .inl (mem_pendings_retainPending.mp h).1
  | publishIncoming now key request => exact .inl (mem_of_publishIncoming h)
  | reserve now event => exact calm_of_reserve h
  | finishInRoom sender flow =>
    left
    simp only [RequestMachine.act, setOwner, finishInRoomInitialLookup] at h
    split at h
    · exact h
    · exact mem_of_mapRetain (fun pending hp => by simp_all) h hcancelled
  | cancel sender flow =>
    left
    simp only [RequestMachine.act, setOwner, cancelPendingInRoomRequest] at h
    split at h
    · exact h
    · rcases mem_pendings_modifyPending h with h | ⟨before, -, -, rfl⟩
      · exact h
      · cases hcancelled
  | collect now => exact .inl (mem_pendings_of_expire h)
  | subscribe => exact .inl h
  | poll generation =>
    left
    rw [← pendings_eq_of_restates (restates_poll machine generation)]
    exact h
  | commit delivery =>
    left
    simp [RequestMachine.act] at h
    split at h
    · rcases commit_cases machine.owner with
        hsame | ⟨cancelled, slot, later, hbefore, hafter, -⟩
      · rwa [hsame] at h
      · obtain ⟨other, hmem, hentry⟩ := mem_pendings.mp h
        refine mem_pendings.mpr ⟨other, ?_, hentry⟩
        rw [hafter] at hmem
        rw [hbefore]
        exact (Sublist.append_left (sublist_cons_self slot later) cancelled).subset hmem
    · exact h
  | dropDelivery delivery =>
    left
    simp [RequestMachine.act] at h
    split at h
    · rw [← pendings_eq_of_restates restates_drop]
      exact h
    · exact h
  | promote claim observed unknown =>
    simp only [RequestMachine.act, setOwner, retryOrPromoteInitialLookup] at h
    split at h
    · exact .inl h
    · split at h
      · exact .inl h
      · split at h
        · rcases mem_pendings_modifyPending h with h | ⟨before, -, -, rfl⟩
          · exact .inl h
          · exact .inr rfl
        · exact .inl h
  | dropClaim claim =>
    left
    have hkind : claim.kind = .initialLookup := by simpa [isFree] using hfree
    simp only [RequestMachine.act, setOwner, RequestClaim.drop, hkind] at h
    exact mem_of_mapRetain (fun pending hp => by simp_all) h hcancelled
  | _ => cases hfree

end Free

end MatrixSdk.PendingChanges

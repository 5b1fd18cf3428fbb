import MatrixSdk.RequestAdmissions
import MatrixSdk.Traces
import Mathlib.Data.List.TakeDrop
import Mathlib.Data.List.TakeWhile

/-!
The queue of the incoming requests over whole runs. The sections settle the entries and admit
new ones at the end, and only the lease of a publication takes it out. So the queue keeps its
bound, its keys and its order.
-/
namespace MatrixSdk.RequestLeases

open IncomingRequests RequestAdmissions Traces VerificationStates RequestOwner List RequestDelivery
open Nat

/-- The sections that the tasks run, in any order. The claims on the requests are not
restricted to those that were handed out. -/
inductive OwnerAction where
  | retain (now : ℕ) (event : RequestEvent)
  | removePending (key : RequestKey)
  | publishIncoming (now : ℕ) (key : RequestKey) (request : ℕ)
  | reserve (now : ℕ) (event : RequestEvent)
  | finishInRoom (sender : String) (flow : FlowId)
  | cancel (sender : String) (flow : FlowId)
  | collect (now : ℕ)
  | markScheduled (user : String)
  | claimResponse (users : List String)
  | recordCommit (users : List String) (token : ℕ)
  | retry (now : ℕ) (users : List String) (token : ℕ)
  | claimForReplay (key : RequestKey) (responseToken : ℕ)
  | finishResponse (claim : KeyQueryResponseClaim)
  | releaseResponse (claim : KeyQueryResponseClaim)
  | finish (claim : RequestClaim)
  | release (claim : RequestClaim)
  | promote (claim : RequestClaim) (observed : ℕ) (unknown : Bool)
  | publish (claim : RequestClaim) (request : ℕ) (publishable : Bool)
  | dropClaim (claim : RequestClaim)
  | subscribe
  | poll (generation : ℕ)
  | commit (delivery : RequestDelivery)
  | dropDelivery (delivery : RequestDelivery)
deriving DecidableEq

/-- The owner with the counters and the leases that are alive. `leased` lists the places of the
publications in the order in which they were leased. -/
structure RequestMachine where
  owner : RequestOwner
  nextRequestClaimToken : ℕ
  nextResponseClaimToken : ℕ
  nextSubscriberGeneration : ℕ
  nextDeliveryToken : ℕ
  deliveries : List RequestDelivery
  leased : List ℕ
deriving DecidableEq

namespace RequestMachine

variable (machine : RequestMachine)

def new : RequestMachine := ⟨.empty, 0, 0, 0, 0, [], []⟩

def setOwner (owner : RequestOwner) : RequestMachine := { machine with owner := owner }

/-- The place of the entry that a lease is given for. -/
def frontPlace : List ℕ := (machine.owner.activeFront.2.head?.map (·.place)).toList

def poll (generation : ℕ) : RequestMachine :=
  match machine.owner.poll generation machine.nextDeliveryToken with
  | (none, _) => machine
  | (some delivery, owner) =>
    { machine with
      owner := owner
      nextDeliveryToken := machine.nextDeliveryToken + 1
      deliveries := delivery :: machine.deliveries
      leased := machine.leased ++ machine.frontPlace }

def act : OwnerAction → RequestMachine
  | .retain now event => machine.setOwner (machine.owner.retainPendingIncomingRequest now event).2
  | .removePending key => machine.setOwner (machine.owner.removePendingToDeviceRequest key)
  | .publishIncoming now key request =>
    machine.setOwner (machine.owner.publishIncomingVerificationRequest now key request).2.2
  | .reserve now event =>
    { machine with
      owner := (machine.owner.reserveInRoomInitialLookup now
        machine.nextRequestClaimToken event).2
      nextRequestClaimToken := machine.nextRequestClaimToken + 1 }
  | .finishInRoom sender flow =>
    machine.setOwner (machine.owner.finishInRoomInitialLookup sender flow)
  | .cancel sender flow =>
    machine.setOwner (machine.owner.cancelPendingInRoomRequest sender flow)
  | .collect now => machine.setOwner (machine.owner.expire now)
  | .markScheduled user =>
    machine.setOwner (machine.owner.markPendingToDeviceKeyQueryScheduled user)
  | .claimResponse users =>
    { machine with
      owner := machine.owner.claimPendingToDeviceKeyQueryResponse users
        machine.nextResponseClaimToken
      nextResponseClaimToken := machine.nextResponseClaimToken + 1 }
  | .recordCommit users token =>
    machine.setOwner (machine.owner.recordPendingToDeviceKeyQueryCommit users token)
  | .retry now users token => machine.setOwner (machine.owner.retryKeys now users token).2
  | .claimForReplay key responseToken =>
    { machine with
      owner := ((machine.owner.claimPendingToDeviceRequestForReplay key responseToken
        machine.nextRequestClaimToken).map Prod.snd).getD machine.owner
      nextRequestClaimToken := machine.nextRequestClaimToken + 1 }
  | .finishResponse claim =>
    machine.setOwner (claim.finishWaitingForExternalUpdate machine.owner).2
  | .releaseResponse claim => machine.setOwner (claim.releaseToNeedsQuery machine.owner)
  | .finish claim => machine.setOwner (claim.finish machine.owner)
  | .release claim => machine.setOwner (claim.releaseToResponseClaim machine.owner)
  | .promote claim observed unknown =>
    machine.setOwner (claim.retryOrPromoteInitialLookup machine.owner observed unknown).2
  | .publish claim request publishable =>
    machine.setOwner (claim.publish machine.owner request publishable)
  | .dropClaim claim => machine.setOwner (claim.drop machine.owner)
  | .subscribe =>
    { machine with
      owner := machine.owner.subscribe machine.nextSubscriberGeneration
      nextSubscriberGeneration := machine.nextSubscriberGeneration + 1 }
  | .poll generation => machine.poll generation
  -- a lease is used up by its commit and by its drop
  | .commit delivery =>
    if delivery ∈ machine.deliveries then
      { machine with
        owner := delivery.commit machine.owner
        deliveries := machine.deliveries.erase delivery }
    else machine
  | .dropDelivery delivery =>
    if delivery ∈ machine.deliveries then
      { machine with
        owner := delivery.drop machine.owner
        deliveries := machine.deliveries.erase delivery }
    else machine

end RequestMachine

def Step (machine : RequestMachine) (action : OwnerAction) (machine' : RequestMachine) : Prop :=
  machine.act action = machine'

/-- The sections that are not those of a lease. -/
def OwnerAction.isSettling : OwnerAction → Bool
  | poll _ | commit _ | dropDelivery _ => false
  | _ => true

/-- They leave the leases alone. -/
structure Settled (machine machine' : RequestMachine) : Prop where
  owner : Admits machine.owner machine'.owner
  deliveries : machine'.deliveries = machine.deliveries
  leased : machine'.leased = machine.leased

theorem settled_act (machine : RequestMachine) {action : OwnerAction}
    (h : action.isSettling = true) : Settled machine (machine.act action) := by
  cases action with
  | retain now event => exact ⟨admits_retainPendingIncomingRequest now event, rfl, rfl⟩
  | removePending key => exact ⟨.retainPending _ _, rfl, rfl⟩
  | publishIncoming now key request =>
    exact ⟨admits_publishIncomingVerificationRequest now key request, rfl, rfl⟩
  | reserve now event => exact ⟨admits_reserveInRoomInitialLookup now _ event, rfl, rfl⟩
  | finishInRoom sender flow => exact ⟨admits_finishInRoomInitialLookup sender flow, rfl, rfl⟩
  | cancel sender flow => exact ⟨admits_cancelPendingInRoomRequest sender flow, rfl, rfl⟩
  | collect now | retry now users token => exact ⟨.settle (settles_expire _ now) rfl, rfl, rfl⟩
  | markScheduled user => exact ⟨.mapPending _ (.ite (gentle_setState _) _), rfl, rfl⟩
  | claimResponse users =>
    refine ⟨.mapPending _ fun pending => ?_, rfl, rfl⟩
    split
    · exact ⟨rfl, id⟩
    · exact ⟨rfl, id⟩
  | recordCommit users token =>
    refine ⟨.mapPending _ fun pending => ?_, rfl, rfl⟩
    split
    · exact ⟨rfl, id⟩
    · exact ⟨rfl, id⟩
  | claimForReplay key responseToken =>
    refine ⟨?_, rfl, rfl⟩
    show Admits machine.owner ((Option.map Prod.snd _).getD machine.owner)
    cases hclaim : machine.owner.claimPendingToDeviceRequestForReplay key responseToken
      machine.nextRequestClaimToken with
    | none => exact .refl _
    | some claimed =>
      obtain ⟨pending, -, hclaim⟩ := Option.bind_eq_some_iff.mp hclaim
      split at hclaim
      · split at hclaim
        · cases hclaim
        · cases hclaim
          exact .modifyPending machine.owner (gentle_setState _) _
      · cases hclaim
  | finishResponse claim => exact ⟨.mapPending _ (gentle_finishPending claim), rfl, rfl⟩
  | releaseResponse claim => exact ⟨.mapPending _ (.ite (gentle_setState _) _), rfl, rfl⟩
  | finish claim => exact ⟨admits_finish claim, rfl, rfl⟩
  | release claim =>
    have hgentle : Gentle fun pending => pending.setState (claim.handBack pending.state) :=
      fun _ => ⟨rfl, id⟩
    exact ⟨.modifyPending _ hgentle _, rfl, rfl⟩
  | promote claim observed unknown =>
    exact ⟨admits_retryOrPromoteInitialLookup claim observed unknown, rfl, rfl⟩
  | publish claim request publishable =>
    exact ⟨admits_publish claim request publishable, rfl, rfl⟩
  | dropClaim claim => exact ⟨admits_drop claim, rfl, rfl⟩
  | subscribe => exact ⟨.settle (.refl _) rfl, rfl, rfl⟩
  | poll | commit | dropDelivery => cases h

def Unclaimed (slots : List Slot) : Prop :=
  ∀ slot ∈ slots, ∀ published, slot.entry = .publication published →
    published.state = .unclaimed

def AllCancelled (slots : List Slot) : Prop := ∀ slot ∈ slots, slot.entry.isCancelled = true

/-- There is no lease and no claimed publication, or one lease, for the first publication,
with only cancelled entries before it. -/
inductive Leases : List Slot → List RequestDelivery → Prop
  | free {slots : List Slot} (h : Unclaimed slots) : Leases slots []
  | held {cancelled later : List Slot} {place : ℕ} {published : RequestPublication}
      {delivery : RequestDelivery} (hcancelled : AllCancelled cancelled)
      (hholds : delivery.holds (.publication published) = true) (hlater : Unclaimed later) :
      Leases (cancelled ++ ⟨place, .publication published⟩ :: later) [delivery]

/-- The entries before a place that was leased are cancelled. -/
def Served (owner : RequestOwner) (leased : List ℕ) : Prop :=
  leased.Pairwise (· ≤ ·) ∧ ∀ place ∈ leased, place < owner.admissions ∧
    ∀ slot ∈ owner.entries, slot.place < place → slot.entry.isCancelled = true

structure Orderly (machine : RequestMachine) : Prop where
  capacity : machine.owner.entries.length ≤ maxPendingToDeviceVerificationRequests
  keys : (machine.owner.entries.map (·.entry.key)).Nodup
  places : (machine.owner.entries.map (·.place)).Pairwise (· < ·)
  fresh : ∀ slot ∈ machine.owner.entries, slot.place < machine.owner.admissions
  leases : Leases machine.owner.entries machine.deliveries
  served : Served machine.owner machine.leased

theorem orderly_new : Orderly .new where
  capacity := zero_le _
  keys := nodup_nil
  places := .nil
  fresh slot hmem := by cases hmem
  leases := .free fun slot hmem => by cases hmem
  served := ⟨.nil, fun place hmem => by cases hmem⟩

variable {machine : RequestMachine}

section Preservation

variable {slots slots' : List Slot} {deliveries : List RequestDelivery}

theorem Unclaimed.settles (h : Unclaimed slots) (hsettles : Settles slots slots') :
    Unclaimed slots' := by
  intro slot' hmem published hentry
  obtain ⟨slot, hslot, hmoves⟩ := hsettles.exists_moves hmem
  rcases hmoves.unclaimed published hentry with hbefore | hunclaimed
  · exact h slot hslot published hbefore
  · exact hunclaimed

theorem AllCancelled.settles (h : AllCancelled slots) (hsettles : Settles slots slots') :
    AllCancelled slots' := by
  intro slot' hmem
  obtain ⟨slot, hslot, hmoves⟩ := hsettles.exists_moves hmem
  exact hmoves.cancelled (h slot hslot)

theorem Leases.settles (h : Leases slots deliveries) (hsettles : Settles slots slots') :
    Leases slots' deliveries := by
  cases h with
  | free h => exact .free (h.settles hsettles)
  | held hcancelled hholds hlater =>
    obtain ⟨cancelled', later', rfl, hbefore, hafter⟩ := hsettles.split
    exact .held (hcancelled.settles hbefore) hholds (hlater.settles hafter)

variable {slot : Slot} {owner : RequestOwner} {machine' : RequestMachine}
  {cancelled later : List Slot} {delivery : RequestDelivery} {place : ℕ}
  {published : RequestPublication}

theorem AllCancelled.unclaimed (h : AllCancelled slots) : Unclaimed slots := by
  intro slot hslot published hentry
  have hpassed := h slot hslot
  rw [hentry] at hpassed
  cases hpassed

section

variable
  (hslot : ∀ published, slot.entry = .publication published → published.state = .unclaimed)
include hslot

theorem Unclaimed.snoc (h : Unclaimed slots) :
    Unclaimed (slots ++ [slot]) :=
  forall_mem_append.mpr ⟨h, forall_mem_singleton.mpr hslot⟩

theorem Leases.snoc (h : Leases slots deliveries) :
    Leases (slots ++ [slot]) deliveries := by
  cases h with
  | free h => exact .free (h.snoc hslot)
  | held hcancelled hholds hlater =>
    rw [append_assoc, cons_append]
    exact .held hcancelled hholds (hlater.snoc hslot)

end

variable {owner' : RequestOwner} {slot' : Slot}

theorem Served.settles {leased : List ℕ} (h : Served owner leased)
    (hsettles : Settles owner.entries owner'.entries)
    (hadmissions : owner'.admissions = owner.admissions) : Served owner' leased := by
  refine ⟨h.1, fun place hmem => ?_⟩
  obtain ⟨hlt, hbefore⟩ := h.2 place hmem
  refine ⟨by omega, fun slot' hslot' hplace => ?_⟩
  obtain ⟨slot, hslot, hmoves⟩ := hsettles.exists_moves hslot'
  exact hmoves.cancelled (hbefore slot hslot (by rw [← hmoves.place]; exact hplace))

/-- Settling the entries keeps the queue in order. -/
theorem Orderly.settles (h : Orderly machine)
    (hsettles : Settles machine.owner.entries machine'.owner.entries)
    (hadmissions : machine'.owner.admissions = machine.owner.admissions)
    (hdeliveries : machine'.deliveries = machine.deliveries)
    (hleased : machine'.leased = machine.leased) : Orderly machine' where
  capacity := le_trans hsettles.length_le h.capacity
  keys := h.keys.sublist hsettles.keys_sublist
  places := h.places.sublist hsettles.places_sublist
  fresh slot' hmem := by
    obtain ⟨slot, hslot, hmoves⟩ := hsettles.exists_moves hmem
    have hlt := h.fresh slot hslot
    have hplace := hmoves.place
    omega
  leases := by
    rw [hdeliveries]
    exact h.leases.settles hsettles
  served := by
    rw [hleased]
    exact h.served.settles hsettles hadmissions

/-- So does a new entry at the end. -/
theorem Orderly.push {entry : RequestEntry} (h : Orderly machine)
    (hroom : machine.owner.isFull = false)
    (hkey : ∀ slot ∈ machine.owner.entries, slot.entry.key ≠ entry.key)
    (hunclaimed : ∀ published, entry = .publication published → published.state = .unclaimed) :
    Orderly (machine.setOwner (machine.owner.pushBack entry)) where
  capacity := by
    have hlt : machine.owner.entries.length < maxPendingToDeviceVerificationRequests := by
      simpa [isFull] using hroom
    show (machine.owner.entries ++ _).length ≤ _
    rw [length_append]
    exact hlt
  keys := by
    show ((machine.owner.entries ++ _).map _).Nodup
    rw [map_append]
    refine nodup_append.mpr ⟨h.keys, by simp, ?_⟩
    intro key hmem other hother
    obtain ⟨slot, hslot, rfl⟩ := mem_map.mp hmem
    rw [map_singleton, mem_singleton] at hother
    rw [hother]
    exact hkey slot hslot
  places := by
    show ((machine.owner.entries ++ _).map _).Pairwise _
    rw [map_append]
    refine pairwise_append.mpr ⟨h.places, by simp, ?_⟩
    intro place hmem other hother
    obtain ⟨slot, hslot, rfl⟩ := mem_map.mp hmem
    rw [map_singleton, mem_singleton] at hother
    rw [hother]
    exact h.fresh slot hslot
  fresh := forall_mem_append.mpr ⟨fun slot hmem => lt_succ_of_lt (h.fresh slot hmem),
    forall_mem_singleton.mpr (lt_succ_self _)⟩
  leases := h.leases.snoc hunclaimed
  served := by
    refine ⟨h.served.1, fun place hmem => ?_⟩
    obtain ⟨hlt, hbefore⟩ := h.served.2 place hmem
    refine ⟨lt_succ_of_lt hlt, fun slot hslot hplace => ?_⟩
    rcases mem_append.mp hslot with hslot | hslot
    · exact hbefore slot hslot hplace
    · -- a new entry stands behind every place that was leased
      cases mem_singleton.mp hslot
      exact absurd hplace (by show ¬machine.owner.admissions < place; omega)

theorem Orderly.settled (h : Orderly machine) (hsettled : Settled machine machine') :
    Orderly machine' := by
  obtain ⟨howner, hdeliveries, hleased⟩ := hsettled
  obtain ⟨owner', a, b, c, d, deliveries', leased'⟩ := machine'
  cases howner with
  | settle hsettles hadmissions => exact h.settles hsettles hadmissions hdeliveries hleased
  | @push middle entry hsettles hadmissions hroom hkey hunclaimed =>
    have hmiddle : Orderly ⟨middle, a, b, c, d, deliveries', leased'⟩ :=
      h.settles hsettles hadmissions hdeliveries hleased
    exact hmiddle.push hroom hkey hunclaimed

theorem activeFront_cases {active : List Slot} (h : owner.activeFront = (cancelled, active)) :
    owner.entries = cancelled ++ active ∧ AllCancelled cancelled := by
  unfold activeFront at h
  rw [span_eq_takeWhile_dropWhile] at h
  cases h
  refine ⟨takeWhile_append_dropWhile.symm, fun slot hmem => ?_⟩
  have hcancelled := mem_takeWhile_imp hmem
  exact hcancelled

/-- A lease that is alive is the only one, and it is for the active front. -/
theorem Leases.of_mem (h : Leases owner.entries deliveries) (hmem : delivery ∈ deliveries) :
    ∃ cancelled place published later,
      owner.entries = cancelled ++ ⟨place, .publication published⟩ :: later ∧
      owner.activeFront = (cancelled, ⟨place, .publication published⟩ :: later) ∧
      deliveries = [delivery] ∧ AllCancelled cancelled ∧
      delivery.holds (.publication published) = true ∧ Unclaimed later := by
  generalize hentries : owner.entries = entries at h
  cases h with
  | free h => cases hmem
  | @held cancelled later place published other hcancelled hholds hlater =>
    cases mem_singleton.mp hmem
    refine ⟨cancelled, place, published, later, rfl, ?_, rfl, hcancelled, hholds, hlater⟩
    -- the active front is the first entry that is not cancelled
    unfold activeFront
    rw [hentries, span_eq_takeWhile_dropWhile, takeWhile_append_of_pos hcancelled,
      dropWhile_append_of_pos hcancelled, takeWhile_cons_of_neg Bool.false_ne_true,
      dropWhile_cons_of_neg Bool.false_ne_true, append_nil]

/-- A lease is given for the active front when it is an unclaimed publication. -/
theorem poll_eq_some {generation token : ℕ}
    (h : owner.poll generation token = (some delivery, owner')) :
    ∃ cancelled place published later,
      owner.activeFront = (cancelled, ⟨place, .publication published⟩ :: later) ∧
      published.state = .unclaimed ∧
      delivery = ⟨published.request, published.key, generation, token⟩ ∧
      owner' = { owner with entries := cancelled ++
        ⟨place, .publication { published with state := .claimed generation token }⟩ :: later } := by
  unfold RequestOwner.poll at h
  split at h
  · cases h
  · split at h
    · next cancelled place published later hfront =>
      split at h
      · next hunclaimed =>
        cases h
        exact ⟨cancelled, place, published, later, hfront, hunclaimed, rfl, rfl⟩
      · cases h
    · cases h

/-- At most the state of one publication has changed. -/
inductive Restates : List Slot → List Slot → Prop
  | same (slots : List Slot) : Restates slots slots
  | change (cancelled later : List Slot) (place : ℕ) (published : RequestPublication)
      (state : PublicationState) :
      Restates (cancelled ++ ⟨place, .publication published⟩ :: later)
        (cancelled ++ ⟨place, .publication { published with state := state }⟩ :: later)

theorem Restates.mem (h : Restates slots slots') (hmem : slot' ∈ slots') :
    ∃ slot ∈ slots, slot.place = slot'.place ∧ slot.entry.key = slot'.entry.key ∧
      slot.entry.isCancelled = slot'.entry.isCancelled := by
  cases h with
  | same => exact ⟨slot', hmem, rfl, rfl, rfl⟩
  | change cancelled later place published state =>
    rcases mem_append.mp hmem with hmem | hmem
    · exact ⟨slot', by simp [hmem], rfl, rfl, rfl⟩
    · rcases mem_cons.mp hmem with rfl | hmem
      · exact ⟨⟨place, .publication published⟩, by simp, rfl, rfl, rfl⟩
      · exact ⟨slot', by simp [hmem], rfl, rfl, rfl⟩

theorem Restates.map_eq (h : Restates slots slots') : slots'.length = slots.length ∧
    slots'.map (·.entry.key) = slots.map (·.entry.key) ∧
    slots'.map (·.place) = slots.map (·.place) := by
  cases h <;> simp [RequestEntry.key]

/-- The state of a publication may change without disturbing the order. -/
theorem Orderly.restate {machine machine' : RequestMachine} (h : Orderly machine)
    (hrestates : Restates machine.owner.entries machine'.owner.entries)
    (hadmissions : machine'.owner.admissions = machine.owner.admissions)
    (hleases : Leases machine'.owner.entries machine'.deliveries)
    (hserved : Served machine.owner machine'.leased) : Orderly machine' := by
  obtain ⟨hlength, hkeys, hplaces⟩ := hrestates.map_eq
  refine ⟨hlength ▸ h.capacity, hkeys ▸ h.keys, hplaces ▸ h.places, ?_, hleases, hserved.1,
    fun other hmem => ?_⟩
  · intro slot' hmem
    obtain ⟨slot, hslot, hplace, -⟩ := hrestates.mem hmem
    have hlt := h.fresh slot hslot
    omega
  · obtain ⟨hlt, hbefore⟩ := hserved.2 other hmem
    refine ⟨by omega, fun slot' hslot' hplace' => ?_⟩
    obtain ⟨slot, hslot, hplace, -, hcancelled⟩ := hrestates.mem hslot'
    rw [← hcancelled]
    exact hbefore slot hslot (by omega)

section

variable (h : Orderly machine)
include h

section

variable (hentries : machine.owner.entries = cancelled ++ slot :: later)
include hentries

/-- A lease for the active front is given in the order of admission. -/
theorem Orderly.served_front (hcancelled : AllCancelled cancelled)
    (hactive : slot.entry.isCancelled = false) :
    Served machine.owner (machine.leased ++ [slot.place]) := by
  have hmem : slot ∈ machine.owner.entries := by simp [hentries]
  refine ⟨?_, fun place hplace => ?_⟩
  · refine pairwise_append.mpr ⟨h.served.1, by simp, fun earlier hearlier place hplace => ?_⟩
    rw [mem_singleton.mp hplace]
    by_contra hlt
    have hpassed := (h.served.2 earlier hearlier).2 slot hmem (by omega)
    rw [hactive] at hpassed
    cases hpassed
  · rcases mem_append.mp hplace with hplace | hplace
    · exact h.served.2 place hplace
    · rw [mem_singleton.mp hplace]
      refine ⟨h.fresh slot hmem, fun other hother hlt => ?_⟩
      rw [hentries] at hother
      rcases mem_append.mp hother with hother | hother
      · exact hcancelled other hother
      · rcases mem_cons.mp hother with rfl | hother
        · omega
        · have hplaces := h.places
          rw [hentries, map_append, map_cons] at hplaces
          have hlater := rel_of_pairwise_cons (pairwise_append.mp hplaces).2.1
            (mem_map_of_mem hother)
          omega

end

theorem Orderly.poll (generation : ℕ) : Orderly (machine.poll generation) := by
  unfold RequestMachine.poll
  split
  · exact h
  · next delivery owner' hpoll =>
    obtain ⟨cancelled, place, published, later, hfront, hunclaimed, rfl, rfl⟩ :=
      poll_eq_some hpoll
    obtain ⟨hentries, hcancelled⟩ := activeFront_cases hfront
    -- nobody holds a lease, for the front would be claimed
    have hnone : machine.deliveries = [] := by
      apply eq_nil_iff_forall_not_mem.mpr
      intro delivery hmem
      obtain ⟨_, _, other, _, -, hother, -, -, hholds, -⟩ := h.leases.of_mem hmem
      rw [hfront] at hother
      cases hother
      simp [holds, hunclaimed] at hholds
    have hfree : Unclaimed machine.owner.entries := by
      have hleases := h.leases
      rw [hnone] at hleases
      generalize machine.owner.entries = slots at hleases
      cases hleases with
      | free hfree => exact hfree
    refine h.restate (hentries ▸ .change cancelled later place published _) rfl ?_ ?_
    · show Leases (cancelled ++ _ :: later) (_ :: machine.deliveries)
      rw [hnone]
      refine .held hcancelled (by simp [holds]) fun slot hslot => ?_
      exact hfree slot (by simp [hentries, hslot])
    · show Served machine.owner (machine.leased ++ machine.frontPlace)
      unfold RequestMachine.frontPlace
      rw [hfront]
      exact h.served_front hentries hcancelled rfl

theorem Orderly.commit (hmem : delivery ∈ machine.deliveries) :
    Orderly { machine with
      owner := delivery.commit machine.owner
      deliveries := machine.deliveries.erase delivery } := by
  obtain ⟨cancelled, place, published, later, hentries, hfront, hdeliveries, hcancelled, hholds,
    hlater⟩ := h.leases.of_mem hmem
  have hcommit : delivery.commit machine.owner =
      { machine.owner with entries := cancelled ++ later } := by
    unfold RequestDelivery.commit
    rw [hfront]
    simp only [hholds, if_true]
  have hsub : (cancelled ++ later).Sublist machine.owner.entries := by
    rw [hentries]
    exact (Sublist.refl cancelled).append (sublist_cons_self _ _)
  rw [hcommit, hdeliveries, erase_cons_head]
  refine ⟨le_trans hsub.length_le h.capacity, h.keys.sublist (hsub.map _),
    h.places.sublist (hsub.map _), fun slot hslot => h.fresh slot (hsub.subset hslot), ?_,
    h.served.1, fun other hother => ?_⟩
  · exact .free (forall_mem_append.mpr ⟨hcancelled.unclaimed, hlater⟩)
  · obtain ⟨hlt, hbefore⟩ := h.served.2 other hother
    exact ⟨hlt, fun slot hslot hplace => hbefore slot (hsub.subset hslot) hplace⟩

theorem Orderly.dropDelivery (hmem : delivery ∈ machine.deliveries) :
    Orderly { machine with
      owner := delivery.drop machine.owner
      deliveries := machine.deliveries.erase delivery } := by
  obtain ⟨cancelled, place, published, later, hentries, hfront, hdeliveries, hcancelled, hholds,
    hlater⟩ := h.leases.of_mem hmem
  have hdrop : delivery.drop machine.owner = { machine.owner with entries :=
      cancelled ++ ⟨place, .publication { published with state := .unclaimed }⟩ :: later } := by
    unfold RequestDelivery.drop
    rw [hfront]
    simp only [hholds, if_true]
  rw [hdrop, hdeliveries, erase_cons_head]
  refine h.restate (hentries ▸ .change cancelled later place published _) rfl (.free ?_) h.served
  refine forall_mem_append.mpr ⟨hcancelled.unclaimed, forall_mem_cons.mpr ⟨?_, hlater⟩⟩
  rintro _ ⟨⟩
  rfl

end

variable (machine : RequestMachine) (action : OwnerAction)

theorem orderly_act (machine' : RequestMachine) (h : Orderly machine)
    (hstep : Step machine action machine') : Orderly machine' := by
  subst hstep
  cases hsettling : action.isSettling with
  | true => exact h.settled (settled_act machine hsettling)
  | false =>
    cases action with
    | poll generation => exact h.poll generation
    | commit delivery =>
      simp only [RequestMachine.act]
      split
      · next hmem => exact h.commit hmem
      · exact h
    | dropDelivery delivery =>
      simp only [RequestMachine.act]
      split
      · next hmem => exact h.dropDelivery hmem
      · exact h
    | _ => cases hsettling

theorem restates_poll (generation : ℕ) :
    Restates machine.owner.entries (machine.poll generation).owner.entries := by
  unfold RequestMachine.poll
  split
  · exact .same _
  · next delivery owner' hpoll =>
    obtain ⟨cancelled, place, published, later, hfront, -, -, rfl⟩ := poll_eq_some hpoll
    rw [(activeFront_cases hfront).1]
    exact .change cancelled later place published _

theorem restates_drop : Restates owner.entries (delivery.drop owner).entries := by
  unfold RequestDelivery.drop
  split
  · next cancelled place published later hfront =>
    split
    · rw [(activeFront_cases hfront).1]
      exact .change cancelled later place published _
    · exact .same _
  · exact .same _

/-- A commit takes out the active front, if the lease is for it. -/
theorem commit_cases (owner : RequestOwner) :
    delivery.commit owner = owner ∨ ∃ cancelled slot later,
      owner.entries = cancelled ++ slot :: later ∧
      (delivery.commit owner).entries = cancelled ++ later ∧
      delivery.holds slot.entry = true := by
  unfold commit
  split
  · next cancelled slot later hfront =>
    split
    · next hholds =>
      exact .inr ⟨cancelled, slot, later, (activeFront_cases hfront).1, rfl, hholds⟩
    · exact .inl rfl
  · exact .inl rfl

theorem Restates.mem_publication (h : Restates slots slots')
    (hmem : ⟨place, .publication published⟩ ∈ slots) :
    ∃ state, ⟨place, .publication { published with state := state }⟩ ∈ slots' := by
  cases h with
  | same => exact ⟨published.state, hmem⟩
  | change cancelled later place' published' state =>
    rcases mem_append.mp hmem with hmem | hmem
    · exact ⟨published.state, by simp [hmem]⟩
    · rcases mem_cons.mp hmem with heq | hmem
      · cases heq
        exact ⟨state, by simp⟩
      · exact ⟨published.state, by simp [hmem]⟩

/-- Every entry after a section was there before with its key and in its place, or is new and
stands behind all others. -/
theorem kept_place (hmem : slot' ∈ (machine.act action).owner.entries) :
    (∃ slot ∈ machine.owner.entries, slot.place = slot'.place ∧
      slot.entry.key = slot'.entry.key) ∨ slot'.place = machine.owner.admissions := by
  cases hsettling : action.isSettling with
  | true =>
    have hsettles : ∀ {owner' : RequestOwner}, Settles machine.owner.entries owner'.entries →
        ∀ slot' ∈ owner'.entries, ∃ slot ∈ machine.owner.entries,
          slot.place = slot'.place ∧ slot.entry.key = slot'.entry.key := by
      intro owner' h slot' hmem
      obtain ⟨slot, hslot, hmoves⟩ := h.exists_moves hmem
      exact ⟨slot, hslot, hmoves.place.symm, hmoves.key.symm⟩
    have howner := (settled_act machine hsettling).owner
    generalize (machine.act action).owner = owner' at howner hmem
    cases howner with
    | settle h => exact .inl (hsettles h slot' hmem)
    | push h hadmissions =>
      rcases mem_append.mp hmem with hmem | hmem
      · exact .inl (hsettles h slot' hmem)
      · cases mem_singleton.mp hmem
        exact .inr hadmissions
  | false =>
    left
    have hrestates : ∀ {slots'}, Restates machine.owner.entries slots' → slot' ∈ slots' →
        ∃ slot ∈ machine.owner.entries, slot.place = slot'.place ∧
          slot.entry.key = slot'.entry.key := by
      intro slots' h hmem
      obtain ⟨slot, hslot, hplace, hkey, -⟩ := h.mem hmem
      exact ⟨slot, hslot, hplace, hkey⟩
    cases action with
    | poll generation => exact hrestates (restates_poll machine generation) hmem
    | commit delivery =>
      simp [RequestMachine.act] at hmem
      split at hmem
      · rcases commit_cases machine.owner with hsame | ⟨cancelled, slot, later, h, h', -⟩
        · exact ⟨slot', by rw [← hsame]; exact hmem, rfl, rfl⟩
        · rw [h'] at hmem
          refine ⟨slot', ?_, rfl, rfl⟩
          rw [h]
          exact (Sublist.append_left (sublist_cons_self slot later) cancelled).subset hmem
      · exact ⟨slot', hmem, rfl, rfl⟩
    | dropDelivery delivery =>
      simp [RequestMachine.act] at hmem
      split at hmem
      · exact hrestates restates_drop hmem
      · exact ⟨slot', hmem, rfl, rfl⟩
    | _ => cases hsettling

/-- A publication stays until the lease that it is claimed by is committed. -/
theorem kept_publication (hmem : ⟨place, .publication published⟩ ∈ machine.owner.entries) :
    (∃ state, ⟨place, .publication { published with state := state }⟩ ∈
      (machine.act action).owner.entries) ∨
    ∃ delivery ∈ machine.deliveries, action = .commit delivery ∧
      delivery.holds (.publication published) = true := by
  cases hsettling : action.isSettling with
  | true =>
    left
    refine ⟨published.state, ?_⟩
    have howner := (settled_act machine hsettling).owner
    generalize (machine.act action).owner = owner' at howner
    cases howner with
    | settle h => exact h.mem_publication hmem
    | push h => exact mem_append_left _ (h.mem_publication hmem)
  | false =>
    cases action with
    | poll generation => exact .inl ((restates_poll machine generation).mem_publication hmem)
    | commit delivery =>
      simp only [RequestMachine.act]
      split
      · next hlive =>
        rcases commit_cases machine.owner with
          hsame | ⟨cancelled, slot, later, h, h', hholds⟩
        · left
          rw [hsame]
          exact ⟨published.state, hmem⟩
        · rw [h] at hmem
          rcases mem_append.mp hmem with hmem | hmem
          · exact .inl ⟨published.state, by rw [h']; simp [hmem]⟩
          · rcases mem_cons.mp hmem with rfl | hmem
            · exact .inr ⟨delivery, hlive, rfl, hholds⟩
            · exact .inl ⟨published.state, by rw [h']; simp [hmem]⟩
      · exact .inl ⟨published.state, hmem⟩
    | dropDelivery delivery =>
      simp only [RequestMachine.act]
      split
      · exact .inl ((restates_drop).mem_publication hmem)
      · exact .inl ⟨published.state, hmem⟩
    | _ => cases hsettling

theorem Leases.length_le (h : Leases slots deliveries) : deliveries.length ≤ 1 := by
  cases h with
  | free => exact zero_le 1
  | held => exact le_rfl

end Preservation

theorem trace_foldl (actions : List OwnerAction) (machine : RequestMachine) :
    Trace Step machine actions (actions.foldl RequestMachine.act machine) := by
  induction actions generalizing machine with
  | nil => exact .nil machine
  | cons action actions ih => exact .cons rfl (ih _)

/-- In every run the queue keeps to its capacity, has one entry for a key, stays in the order of
admission, has at most one lease alive, gives the leases out in that order, to the first entry
that is not cancelled, and loses a publication only by the commit of its lease. -/
theorem owner_keeps_requests_in_order {actions : List OwnerAction} {machine : RequestMachine}
    (h : Trace Step .new actions machine) :
    machine.owner.entries.length ≤ maxPendingToDeviceVerificationRequests ∧
    (machine.owner.entries.map (·.entry.key)).Nodup ∧
    (machine.owner.entries.map (·.place)).Pairwise (· < ·) ∧
    machine.deliveries.length ≤ 1 ∧
    machine.leased.Pairwise (· ≤ ·) ∧
    (∀ generation delivery owner,
      machine.owner.poll generation machine.nextDeliveryToken = (some delivery, owner) →
      ∃ cancelled place published later, machine.owner.entries =
          cancelled ++ ⟨place, .publication published⟩ :: later ∧
        AllCancelled cancelled ∧ delivery.key = published.key ∧
        delivery.request = published.request ∧
        (machine.act (.poll generation)).leased = machine.leased ++ [place]) ∧
    ∀ action,
      (∀ slot' ∈ (machine.act action).owner.entries,
        (∃ slot ∈ machine.owner.entries, slot.place = slot'.place ∧
          slot.entry.key = slot'.entry.key) ∨ slot'.place = machine.owner.admissions) ∧
      ∀ place published, ⟨place, .publication published⟩ ∈ machine.owner.entries →
        (∃ state, ⟨place, .publication { published with state := state }⟩ ∈
          (machine.act action).owner.entries) ∨
        ∃ delivery ∈ machine.deliveries, action = .commit delivery ∧
          delivery.holds (.publication published) = true := by
  have horderly : Orderly machine := h.preserves orderly_act orderly_new
  refine ⟨horderly.capacity, horderly.keys, horderly.places, horderly.leases.length_le,
    horderly.served.1, ?_, fun action => ⟨fun slot' hmem => kept_place machine action hmem,
      fun place published hmem => kept_publication machine action hmem⟩⟩
  intro generation delivery owner hpoll
  obtain ⟨cancelled, place, published, later, hfront, -, rfl, -⟩ := poll_eq_some hpoll
  obtain ⟨hentries, hcancelled⟩ := activeFront_cases hfront
  refine ⟨cancelled, place, published, later, hentries, hcancelled, rfl, rfl, ?_⟩
  simp only [RequestMachine.act, RequestMachine.poll, hpoll, RequestMachine.frontPlace, hfront]
  rfl

def roomRequest (eventId : String) : RequestEvent :=
  ⟨"@alice:example.org", eventId, some "!room:example.org", "PHONE", 1000⟩

/-- Three requests arrive in a room. The first one is cancelled, the second one turns out to be
known, and the third one has to wait for the lease of the second one. -/
def threeRequests : List OwnerAction :=
  [.reserve 1000 (roomRequest "$1"), .reserve 1001 (roomRequest "$2"),
    .reserve 1002 (roomRequest "$3"), .publishIncoming 1003 (roomRequest "$3").key 3,
    .cancel "@alice:example.org" (.inRoom "!room:example.org" "$1"), .subscribe, .poll 0,
    .publishIncoming 1004 (roomRequest "$2").key 2, .poll 0, .poll 0,
    .commit ⟨2, (roomRequest "$2").key, 0, 0⟩, .poll 0]

theorem third_request_waits_for_second :
    (threeRequests.foldl RequestMachine.act .new).leased = [1, 2] ∧
    (threeRequests.foldl RequestMachine.act .new).leased.Pairwise (· ≤ ·) ∧
    (threeRequests.foldl RequestMachine.act .new).deliveries.length ≤ 1 := by
  obtain ⟨-, -, -, hone, hordered, -⟩ :=
    owner_keeps_requests_in_order (trace_foldl threeRequests .new)
  exact ⟨by decide, hordered, hone⟩

end MatrixSdk.RequestLeases

import Mathlib.Algebra.Group.Nat.Defs
import MatrixSdk.FirstMatches
import MatrixSdk.VerificationStates

/-!
The owner of the incoming verification requests. A request whose device is not known yet is
pending; once its device is known it becomes a publication in the same slot, and waits to be
handed to the application under a lease. All of it is kept in one bounded queue.

Each definition is one section that runs under the owner's lock. The notices to the subscribers
are left out. `now` is the time in seconds at which a section runs.
-/
namespace MatrixSdk.IncomingRequests

open FirstMatches VerificationStates

def maxPendingToDeviceVerificationRequests : ℕ := 32

structure RequestKey where
  sender : String
  transactionId : String
  roomId : Option String
deriving DecidableEq

/-- A request event. One that was sent in a room has its event id for a transaction id. -/
structure RequestEvent where
  sender : String
  transactionId : String
  roomId : Option String
  fromDevice : String
  timestamp : ℕ
deriving DecidableEq

def RequestEvent.key (event : RequestEvent) : RequestKey :=
  ⟨event.sender, event.transactionId, event.roomId⟩

/-- The key of a request that was sent in a room. -/
def roomKey (sender : String) : FlowId → Option RequestKey
  | .toDevice _ => none
  | .inRoom roomId eventId => some ⟨sender, eventId, some roomId⟩

inductive PendingState where
  | initialLookup (token : ℕ)
  | needsQuery
  | queryInFlight
  | waitingForExternalUpdate
  | responseClaimed (token observedGeneration : ℕ)
  | replayClaimed (responseToken replayToken observedGeneration : ℕ)
deriving DecidableEq

def PendingState.isClaimed : PendingState → Bool
  | initialLookup _ | responseClaimed .. | replayClaimed .. => true
  | needsQuery | queryInFlight | waitingForExternalUpdate => false

def PendingState.isInitialLookup : PendingState → Bool
  | initialLookup _ => true
  | _ => false

/-- A request that was cancelled in its room keeps its slot until it expires. -/
structure PendingRequest where
  event : RequestEvent
  state : PendingState
  committedUpdateGeneration : ℕ
  cancelled : Bool
deriving DecidableEq

def PendingRequest.setState (state : PendingState) (pending : PendingRequest) : PendingRequest :=
  { pending with state := state }

inductive PublicationState where
  | unclaimed
  | claimed (generation token : ℕ)
deriving DecidableEq

structure RequestPublication where
  key : RequestKey
  request : ℕ
  state : PublicationState
deriving DecidableEq

inductive RequestEntry where
  | pending (pending : PendingRequest)
  | publication (publication : RequestPublication)
deriving DecidableEq

namespace RequestEntry

def key : RequestEntry → RequestKey
  | .pending request => request.event.key
  | .publication published => published.key

def isCancelled : RequestEntry → Bool
  | .pending request => request.cancelled
  | .publication _ => false

/-- A pending entry that satisfies `p`. -/
def isPending (p : PendingRequest → Bool) : RequestEntry → Bool
  | .pending request => p request
  | .publication _ => false

def isPublicationOf (key : RequestKey) : RequestEntry → Bool
  | .pending _ => false
  | .publication published => published.key = key

def changePending (f : PendingRequest → PendingRequest) : RequestEntry → RequestEntry
  | .pending request => .pending (f request)
  | .publication published => .publication published

end RequestEntry

/-- An entry with its number in the order of admission. The source does not number the entries;
the number is there to tell the order apart. -/
structure Slot where
  place : ℕ
  entry : RequestEntry
deriving DecidableEq

structure RequestOwner where
  entries : List Slot
  subscriberGeneration : Option ℕ
  admissions : ℕ
deriving DecidableEq

def isTimestampValid (now timestamp : ℕ) : Bool :=
  !(decide (600 < now - timestamp) || decide (300 < timestamp - now))

namespace RequestOwner

variable (owner : RequestOwner)

def empty : RequestOwner := ⟨[], none, 0⟩

/-- The entries from the first one on that was not cancelled, and those before it. -/
def activeFront : List Slot × List Slot :=
  owner.entries.span fun slot => slot.entry.isCancelled

def pendings : List PendingRequest :=
  owner.entries.filterMap fun slot =>
    match slot.entry with
    | .pending pending => some pending
    | .publication _ => none

def retainPending (retain : PendingRequest → Bool) : RequestOwner :=
  { owner with entries := owner.entries.filter fun slot => !slot.entry.isPending (!retain ·) }

def mapPending (f : PendingRequest → PendingRequest) : RequestOwner :=
  { owner with
    entries := owner.entries.map fun slot => { slot with entry := slot.entry.changePending f } }

/-- Change the first entry that satisfies `p`. -/
def modifyEntry (p : RequestEntry → Bool) (f : RequestEntry → RequestEntry) : RequestOwner :=
  { owner with
    entries := (modifyFirst (fun slot => p slot.entry)
      (fun slot => { slot with entry := f slot.entry }) owner.entries).getD owner.entries }

def modifyPending (p : PendingRequest → Bool) (f : PendingRequest → PendingRequest) :
    RequestOwner :=
  owner.modifyEntry (RequestEntry.isPending p) (.changePending f)

/-- Take out the first entry that satisfies `p`. -/
def removeEntry (p : RequestEntry → Bool) : RequestOwner :=
  { owner with
    entries := ((removeFirst (fun slot => p slot.entry) owner.entries).map Prod.snd).getD
      owner.entries }

def pushBack (entry : RequestEntry) : RequestOwner :=
  { owner with
    entries := owner.entries ++ [⟨owner.admissions, entry⟩]
    admissions := owner.admissions + 1 }

def hasPending (p : PendingRequest → Bool) : Bool :=
  owner.entries.any fun slot => slot.entry.isPending p

variable (key : RequestKey)

def hasPublication : Bool :=
  owner.entries.any fun slot => slot.entry.isPublicationOf key

def isFull : Bool := maxPendingToDeviceVerificationRequests ≤ owner.entries.length

variable (now : ℕ)

/-- Drop the pending requests that are too old and that nobody holds. -/
def expire : RequestOwner :=
  owner.retainPending fun pending =>
    pending.state.isClaimed || isTimestampValid now pending.event.timestamp

/-- Keep a request of an unknown device. The answer tells whether the device has to be asked
for. -/
def retainPendingIncomingRequest (event : RequestEvent) : Bool × RequestOwner :=
  let owner := owner.expire now
  if owner.hasPublication event.key then (false, owner)
  else match owner.pendings.find? fun pending => pending.event.key = event.key with
  | some pending =>
    if pending.cancelled then (false, owner)
    else if pending.state.isInitialLookup then
      (true, owner.modifyPending (fun pending => pending.event.key = event.key)
        (.setState .needsQuery))
    else (pending.state = .needsQuery, owner)
  | none =>
    if owner.isFull then (false, owner)
    else (true, owner.pushBack (.pending ⟨event, .needsQuery, 0, false⟩))

def removePendingToDeviceRequest : RequestOwner :=
  owner.retainPending fun pending => pending.event.key ≠ key

/-- Publish a request whose device is known: whether it was taken in, and whether it turned out
to be cancelled. -/
def publishIncomingVerificationRequest (key : RequestKey) (request : ℕ) :
    Bool × Bool × RequestOwner :=
  let owner := owner.expire now
  if owner.hasPublication key then (true, false, owner)
  else if owner.hasPending fun pending => pending.event.key = key && pending.cancelled then
    (true, true, owner)
  else if owner.hasPending fun pending => pending.event.key = key then
    (true, false, owner.modifyEntry (RequestEntry.isPending fun pending => pending.event.key = key)
      fun _ => .publication ⟨key, request, .unclaimed⟩)
  else if owner.isFull then (false, false, owner)
  else (true, false, owner.pushBack (.publication ⟨key, request, .unclaimed⟩))

inductive InitialLookupReservation where
  | owned
  | existing
  | busy
  | full
deriving DecidableEq

/-- Take a slot for a request in a room before its device is looked up. -/
def reserveInRoomInitialLookup (now token : ℕ) (event : RequestEvent) :
    InitialLookupReservation × RequestOwner :=
  match owner.pendings.find? fun pending => pending.event.key = event.key with
  | some pending =>
    (if pending.cancelled || pending.state.isInitialLookup then .busy else .existing, owner)
  | none =>
    if owner.hasPublication event.key then (.existing, owner)
    else
      let owner := owner.expire now
      if owner.isFull then (.full, owner)
      else (.owned, owner.pushBack (.pending ⟨event, .initialLookup token, 0, false⟩))

variable (sender : String) (flow : FlowId)

def finishInRoomInitialLookup : RequestOwner :=
  match roomKey sender flow with
  | none => owner
  | some key =>
    (owner.mapPending fun pending =>
      if pending.event.key = key && pending.cancelled && pending.state.isInitialLookup then
        pending.setState .waitingForExternalUpdate
      else pending).retainPending fun pending =>
        pending.event.key ≠ key || pending.cancelled || !pending.state.isInitialLookup

def cancelPendingInRoomRequest : RequestOwner :=
  match roomKey sender flow with
  | none => owner
  | some key => owner.modifyPending (fun pending => pending.event.key = key)
      fun pending => { pending with cancelled := true }

def markPendingToDeviceKeyQueryScheduled (user : String) : RequestOwner :=
  owner.mapPending fun pending =>
    if !pending.cancelled && pending.event.sender = user && pending.state = .needsQuery then
      pending.setState .queryInFlight
    else pending

variable (users : List String)

def claimPendingToDeviceKeyQueryResponse (token : ℕ) : RequestOwner :=
  owner.mapPending fun pending =>
    if !pending.cancelled && pending.event.sender ∈ users && !pending.state.isClaimed then
      pending.setState (.responseClaimed token pending.committedUpdateGeneration)
    else pending

/-- The state of a pending request when a response is committed. -/
def committedState (responseToken generation : ℕ) : PendingState → PendingState
  | .responseClaimed token observed =>
    .responseClaimed token (if token = responseToken then generation else observed)
  | .replayClaimed token replayToken observed =>
    .replayClaimed token replayToken (if token = responseToken then generation else observed)
  | .initialLookup token => .initialLookup token
  | .needsQuery | .queryInFlight | .waitingForExternalUpdate =>
    .responseClaimed responseToken generation

def recordPendingToDeviceKeyQueryCommit (responseToken : ℕ) : RequestOwner :=
  owner.mapPending fun pending =>
    if !pending.cancelled && pending.event.sender ∈ users then
      let generation := (pending.committedUpdateGeneration + 1) % 2 ^ 64
      { pending with
        committedUpdateGeneration := generation
        state := committedState responseToken generation pending.state }
    else pending

/-- The requests that a response looks up again, and the owner without the expired ones. -/
def retryKeys (responseToken : ℕ) : List RequestKey × RequestOwner :=
  let owner := owner.expire now
  ((owner.pendings.filter fun pending =>
    !pending.cancelled && pending.event.sender ∈ users &&
      match pending.state with
      | .responseClaimed token _ => token = responseToken
      | _ => false).map (·.event.key), owner)

/-- Hold a request of a response for the time of its lookup. -/
def claimPendingToDeviceRequestForReplay (responseToken token : ℕ) :
    Option (RequestEvent × RequestOwner) := do
  let pending ← owner.pendings.find? fun pending => pending.event.key = key
  match pending.state with
  | .responseClaimed ownerToken observed =>
    if ownerToken ≠ responseToken then none
    else some (pending.event, owner.modifyPending (fun pending => pending.event.key = key)
      (.setState (.replayClaimed responseToken token observed)))
  | _ => none

end RequestOwner

/-- The claim of a response on the requests of its users. -/
structure KeyQueryResponseClaim where
  token : ℕ
deriving DecidableEq

namespace KeyQueryResponseClaim

variable (claim : KeyQueryResponseClaim) (owner : RequestOwner)

/-- A request of the response with a commit that it has not seen. -/
def needsReplay (pending : PendingRequest) : Bool :=
  match pending.state with
  | .responseClaimed token observed =>
    token = claim.token && decide (observed < pending.committedUpdateGeneration)
  | _ => false

def finishPending (pending : PendingRequest) : PendingRequest :=
  match pending.state with
  | .responseClaimed token observed =>
    if token ≠ claim.token then pending
    else if observed < pending.committedUpdateGeneration then
      pending.setState (.responseClaimed token pending.committedUpdateGeneration)
    else pending.setState .waitingForExternalUpdate
  | _ => pending

/-- Let the requests of the response wait, unless another response was committed since they
were looked up. The answer tells whether there is such a request. -/
def finishWaitingForExternalUpdate : Bool × RequestOwner :=
  (owner.hasPending claim.needsReplay, owner.mapPending claim.finishPending)

def ownsState : PendingState → Bool
  | .responseClaimed token _ => token = claim.token
  | .replayClaimed responseToken .. => responseToken = claim.token
  | _ => false

def releaseToNeedsQuery : RequestOwner :=
  owner.mapPending fun pending =>
    if claim.ownsState pending.state then pending.setState .needsQuery else pending

end KeyQueryResponseClaim

inductive ClaimKind where
  | initialLookup
  | replay
deriving DecidableEq

/-- The claim on a request for the time of a lookup. -/
structure RequestClaim where
  key : RequestKey
  token : ℕ
  responseToken : ℕ
  kind : ClaimKind
deriving DecidableEq

namespace RequestClaim

variable (claim : RequestClaim) (owner : RequestOwner)

def stateMatches : PendingState → Bool
  | .replayClaimed responseToken replayToken _ =>
    claim.kind = .replay && responseToken = claim.responseToken && replayToken = claim.token
  | .initialLookup token => claim.kind = .initialLookup && token = claim.token
  | _ => false

def cancelled : Bool :=
  owner.hasPending fun pending => pending.event.key = claim.key && pending.cancelled

/-- What remains of a request that was cancelled during its lookup. -/
def settleCancelled : RequestOwner :=
  owner.modifyPending (fun pending => pending.event.key = claim.key && pending.cancelled)
    (.setState .waitingForExternalUpdate)

def finish : RequestOwner :=
  if claim.cancelled owner then claim.settleCancelled owner
  else owner.retainPending fun pending =>
    pending.event.key ≠ claim.key || !claim.stateMatches pending.state

/-- The state of a request that is handed back to its response. -/
def handBack (state : PendingState) : PendingState :=
  match state with
  | .replayClaimed responseToken replayToken observed =>
    if responseToken = claim.responseToken ∧ replayToken = claim.token then
      .responseClaimed responseToken observed
    else state
  | _ => state

def releaseToResponseClaim : RequestOwner :=
  owner.modifyPending (fun pending => pending.event.key = claim.key)
    fun pending => pending.setState (claim.handBack pending.state)

/-- Whether the first lookup has to be made again; if it need not and the device is unknown,
the request waits for a query. -/
def retryOrPromoteInitialLookup (observedGeneration : ℕ) (unknown : Bool) :
    Bool × RequestOwner :=
  match owner.pendings.find? fun pending =>
    pending.event.key = claim.key && claim.stateMatches pending.state with
  | none => (false, owner)
  | some pending =>
    if pending.committedUpdateGeneration ≠ observedGeneration then (true, owner)
    else if unknown then
      (false, owner.modifyPending (fun pending => pending.event.key = claim.key &&
        claim.stateMatches pending.state) (.setState .needsQuery))
    else (false, owner)

def publish (request : ℕ) (publishable : Bool) : RequestOwner :=
  let held : RequestEntry → Bool :=
    RequestEntry.isPending fun pending =>
      pending.event.key = claim.key && claim.stateMatches pending.state
  if claim.cancelled owner then claim.settleCancelled owner
  else if publishable && !owner.hasPublication claim.key then
    owner.modifyEntry held fun _ => .publication ⟨claim.key, request, .unclaimed⟩
  else owner.removeEntry held

def drop : RequestOwner :=
  match claim.kind with
  | .initialLookup =>
    (owner.mapPending fun pending =>
      if pending.event.key = claim.key && claim.stateMatches pending.state &&
          pending.cancelled then
        pending.setState .waitingForExternalUpdate
      else pending).retainPending fun pending =>
        pending.event.key ≠ claim.key || !claim.stateMatches pending.state || pending.cancelled
  | .replay =>
    owner.modifyPending (fun pending => pending.event.key = claim.key) fun pending =>
      if claim.stateMatches pending.state then pending.setState .needsQuery else pending

end RequestClaim

/-- The lease of a published request. -/
structure RequestDelivery where
  request : ℕ
  key : RequestKey
  generation : ℕ
  token : ℕ
deriving DecidableEq

namespace RequestDelivery

variable (delivery : RequestDelivery) (owner : RequestOwner)

/-- The publication that the lease is for. -/
def holds : RequestEntry → Bool
  | .pending _ => false
  | .publication publication => publication.key = delivery.key &&
      publication.state = .claimed delivery.generation delivery.token

def commit : RequestOwner :=
  match owner.activeFront with
  | (cancelled, slot :: later) =>
    if delivery.holds slot.entry then { owner with entries := cancelled ++ later } else owner
  | (_, []) => owner

def drop : RequestOwner :=
  match owner.activeFront with
  | (cancelled, ⟨place, .publication publication⟩ :: later) =>
    if delivery.holds (.publication publication) then
      { owner with entries :=
          cancelled ++ ⟨place, .publication { publication with state := .unclaimed }⟩ :: later }
    else owner
  | _ => owner

end RequestDelivery

namespace RequestOwner

variable (owner : RequestOwner)

def subscribe (generation : ℕ) : RequestOwner :=
  { owner with subscriberGeneration := some generation }

/-- Poll the stream of a subscriber: the front publication is leased, if nobody holds it. -/
def poll (generation token : ℕ) : Option RequestDelivery × RequestOwner :=
  if owner.subscriberGeneration ≠ some generation then (none, owner)
  else match owner.activeFront with
  | (cancelled, ⟨place, .publication publication⟩ :: later) =>
    if publication.state = .unclaimed then
      (some ⟨publication.request, publication.key, generation, token⟩,
        { owner with entries := cancelled ++
            ⟨place, .publication { publication with state := .claimed generation token }⟩ ::
              later })
    else (none, owner)
  | _ => (none, owner)

end RequestOwner

end MatrixSdk.IncomingRequests

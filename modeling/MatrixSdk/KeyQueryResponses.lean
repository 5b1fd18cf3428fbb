import MatrixSdk.DeviceTrust
import MatrixSdk.KeyedMaps
import MatrixSdk.RequestLeases

/-!
The key queries behind the pending verification requests. A response claims the requests of its
users, commits the devices to the store, tells the owner about the commit, and looks the
requests up again until no other response was committed meanwhile. Its task can fail or be
dropped wherever it waits.

The gate that orders the responses to one request, and the servers that fail, are left out: the
model allows more runs.
-/
namespace MatrixSdk.KeyQueryResponses

open DeviceTrust IncomingRequests KeyedMaps RequestLeases

/-- The users that wait for a key query, with the number of their last invalidation. -/
structure UsersForKeyQuery where
  nextSequenceNumber : SequenceNumber
  userMap : KeyedMap String SequenceNumber

namespace UsersForKeyQuery

variable (queries : UsersForKeyQuery)

def isWaiting (user : String) : Bool := (queries.userMap.lookup user).isSome

def insertUser (user : String) : UsersForKeyQuery where
  nextSequenceNumber := queries.nextSequenceNumber.increment
  userMap := queries.userMap.insert user queries.nextSequenceNumber

def maybeRemoveUser (querySequence : SequenceNumber) (user : String) : UsersForKeyQuery :=
  match queries.userMap.lookup user with
  | none => queries
  | some lastInvalidation =>
    if lastInvalidation.gt querySequence then queries
    else { queries with userMap := queries.userMap.erase user }

end UsersForKeyQuery

/-- A request that is registered until its response is consumed. -/
structure KeysQueryRequestDetails where
  sequenceNumber : SequenceNumber
  users : List String
deriving DecidableEq

/-- A pending request that a response holds for a lookup, and what the lookup found. -/
structure Replay where
  event : RequestEvent
  token : ℕ
  known : Option Bool
deriving DecidableEq

inductive Phase where
  | claimed
  | saved
  | recorded
  | replaying (keys : List RequestKey) (current : Option Replay)
deriving DecidableEq

/-- The response has not told the owner about its commit. -/
def Phase.isUnrecorded : Phase → Bool
  | claimed | saved => true
  | recorded | replaying .. => false

/-- A response that is being processed: the users that it covers, and those that it brings
devices for. -/
structure Response where
  requestId : String
  users : List String
  deviceUsers : List String
  phase : Phase
deriving DecidableEq

inductive ReplayOutcome where
  | publish (request : ℕ) (publishable : Bool)
  | finish
  | release
  | drop
deriving DecidableEq

/-- The machine, the devices in the store, the key queries, and the responses that are being
processed, by the token of their claim. `unseen` has the requests that were pending when a
response for their sender was committed, and that were not looked up since. -/
structure World where
  machine : RequestMachine
  devices : List (String × String)
  queries : UsersForKeyQuery
  requestDetails : KeyedMap String KeysQueryRequestDetails
  responses : KeyedMap ℕ Response
  unseen : List RequestKey

/-- The sections that a task may run at any time: those of an arrival, of its first lookup, of a
cancellation, of the collection of expired requests, and of a lease. -/
def isFree : OwnerAction → Bool
  | .retain .. | .removePending _ | .publishIncoming .. | .reserve .. | .finishInRoom ..
  | .cancel .. | .collect _ | .subscribe | .poll _ | .commit _ | .dropDelivery _ => true
  | .promote claim .. | .dropClaim claim => claim.kind = .initialLookup
  | _ => false

inductive Action where
  | owner (action : OwnerAction)
  | markChanged (user : String)
  | markScheduled (user : String)
  | register (requestId : String) (users : List String)
  | receive (requestId : String) (deviceUsers : List String)
  | save (token : ℕ) (devices : List (String × String))
  | upToDate (token : ℕ)
  | record (token : ℕ)
  | select (token : ℕ) (now : ℕ)
  | hold (token : ℕ)
  | look (token : ℕ) (failed : Bool)
  | settle (token : ℕ) (outcome : ReplayOutcome)
  | finish (token : ℕ)
  | fail (token : ℕ)
deriving DecidableEq

def Replay.claim (replay : Replay) (responseToken : ℕ) : RequestClaim :=
  ⟨replay.event.key, replay.token, responseToken, .replay⟩

namespace World

variable (world : World)

def new : World where
  machine := .new
  devices := []
  queries := ⟨⟨0⟩, ∅⟩
  requestDetails := ∅
  responses := ∅
  unseen := []

def run (action : OwnerAction) : World := { world with machine := world.machine.act action }

variable (token : ℕ) (response : Response)

def setPhase (phase : Phase) : World :=
  { world with responses := world.responses.insert token { response with phase := phase } }

variable (requestId : String)

def coveredUsers : List String :=
  ((world.requestDetails.lookup requestId).map (·.users)).getD []

/-- Register a request for users that wait and that no other request covers. -/
def register (users : List String) : World :=
  if world.requestDetails.lookup requestId = none ∧ ∀ user ∈ users,
      world.queries.isWaiting user ∧
        ∀ details ∈ KeyedMap.values world.requestDetails, user ∉ details.users then
    { world with
      requestDetails := world.requestDetails.insert requestId
        ⟨world.queries.nextSequenceNumber.previous, users⟩ }
  else world

/-- A response comes in and claims the pending requests of its users. -/
def receive (deviceUsers : List String) : World :=
  let users := deviceUsers ++ world.coveredUsers requestId
  { world with
    machine := world.machine.act (.claimResponse users)
    responses := world.responses.insert world.machine.nextResponseClaimToken
      ⟨requestId, users, deviceUsers, .claimed⟩ }

/-- The requests of the users of a response. -/
def pendingKeys (users : List String) : List RequestKey :=
  (world.machine.owner.pendings.filter fun pending => pending.event.sender ∈ users).map
    (·.event.key)

/-- The devices of the users in a response are replaced in the store. -/
def save (devices : List (String × String)) : World :=
  { world.setPhase token response .saved with
    devices := world.devices.filter (fun device => device.1 ∉ response.deviceUsers) ++
      devices.filter fun device => device.1 ∈ response.deviceUsers
    unseen := world.pendingKeys response.users ++ world.unseen }

def upToDate : World :=
  match world.requestDetails.lookup response.requestId with
  | none => world
  | some details =>
    { world with
      queries := response.deviceUsers.foldl
        (fun queries user => queries.maybeRemoveUser details.sequenceNumber user) world.queries }

def hold (key : RequestKey) (keys : List RequestKey) : World :=
  let current := (world.machine.owner.claimPendingToDeviceRequestForReplay key token
    world.machine.nextRequestClaimToken).map fun held =>
      ⟨held.1, world.machine.nextRequestClaimToken, none⟩
  (world.run (.claimForReplay key token)).setPhase token response (.replaying keys current)

/-- Look the device of a held request up in the store. A lookup that fails is taken for one that
finds nothing. -/
def look (keys : List RequestKey) (replay : Replay) (failed : Bool) : World :=
  let known := !failed && decide ((replay.event.sender, replay.event.fromDevice) ∈ world.devices)
  let held := world.machine.owner.hasPending fun pending =>
    pending.event.key = replay.event.key && (replay.claim token).stateMatches pending.state
  { world.setPhase token response (.replaying keys (some { replay with known := some known })) with
    unseen := if !failed && held then world.unseen.filter (· ≠ replay.event.key)
      else world.unseen }

/-- What is done with a held request after its lookup. One whose device is unknown goes back to
its response. -/
def settle (keys : List RequestKey) (replay : Replay) (outcome : ReplayOutcome) : World :=
  let claim := replay.claim token
  let settled (action : OwnerAction) :=
    (world.run action).setPhase token response (.replaying keys none)
  match outcome, replay.known with
  | .publish request publishable, some true => settled (.publish claim request publishable)
  | .release, some false => settled (.release claim)
  | .finish, _ => settled (.finish claim)
  | .drop, _ => settled (.dropClaim claim)
  | _, _ => world

/-- The response lets its requests wait, and is consumed; or it goes round again. -/
def finish : World :=
  let claim : KeyQueryResponseClaim := ⟨token⟩
  let next := world.run (.finishResponse claim)
  if (claim.finishWaitingForExternalUpdate world.machine.owner).1 then
    next.setPhase token response .recorded
  else
    { next with
      responses := world.responses.erase token
      requestDetails := world.requestDetails.erase response.requestId }

/-- An error, or a drop of the task: its claims are released. -/
def fail : World :=
  let dropped := match response.phase with
    | .replaying _ (some replay) => world.run (.dropClaim (replay.claim token))
    | _ => world
  { dropped.run (.releaseResponse ⟨token⟩) with responses := world.responses.erase token }

def act (action : Action) : World :=
  match action with
  | .owner action => if isFree action then world.run action else world
  | .markChanged user => { world with queries := world.queries.insertUser user }
  | .markScheduled user => world.run (.markScheduled user)
  | .register requestId users => world.register requestId users
  | .receive requestId deviceUsers => world.receive requestId deviceUsers
  | .save token devices =>
    match world.responses.lookup token with
    | some response =>
      if response.phase = .claimed then world.save token response devices else world
    | none => world
  | .upToDate token =>
    match world.responses.lookup token with
    | some response => if response.phase = .saved then world.upToDate response else world
    | none => world
  | .record token =>
    match world.responses.lookup token with
    | some response =>
      if response.phase = .saved then
        (world.run (.recordCommit response.users token)).setPhase token response .recorded
      else world
    | none => world
  | .select token now =>
    match world.responses.lookup token with
    | some response =>
      if response.phase = .recorded then
        (world.run (.retry now response.users token)).setPhase token response
          (.replaying (world.machine.owner.retryKeys now response.users token).1 none)
      else world
    | none => world
  | .hold token =>
    match world.responses.lookup token with
    | some response =>
      match response.phase with
      | .replaying (key :: keys) none => world.hold token response key keys
      | _ => world
    | none => world
  | .look token failed =>
    match world.responses.lookup token with
    | some response =>
      match response.phase with
      | .replaying keys (some replay) =>
        if replay.known = none then world.look token response keys replay failed else world
      | _ => world
    | none => world
  | .settle token outcome =>
    match world.responses.lookup token with
    | some response =>
      match response.phase with
      | .replaying keys (some replay) => world.settle token response keys replay outcome
      | _ => world
    | none => world
  | .finish token =>
    match world.responses.lookup token with
    | some response =>
      if response.phase = .replaying [] none then world.finish token response else world
    | none => world
  | .fail token =>
    match world.responses.lookup token with
    | some response => world.fail token response
    | none => world

end World

end MatrixSdk.KeyQueryResponses

import MatrixSdk.KeyQueryResponses

/-!
The users whose device lists are tracked. A user that is invalidated is dirty until a response
to a key query has brought the devices; the requests are registered, and are handed out again
until their response is consumed. Whether a user is dirty is kept in memory and in the store.

The sections that run under the lock of `users_for_key_query` are single actions; an operation
that keeps the lock while it saves leaves its updates in `saving`. `mark_user_as_changed` saves
without the lock. The data that a response brings is left out here.
-/
namespace MatrixSdk.DeviceTracking

open DeviceTrust KeyQueryResponses KeyedMaps

def maxKeyQueryUsers : ℕ := 250

section Chunks

variable {α : Type}

def chunksFrom (size : ℕ) : ℕ → List α → List (List α)
  | 0, _ => []
  | fuel + 1, users =>
    if users.isEmpty then [] else users.take size :: chunksFrom size fuel (users.drop size)

/-- Cut a list into pieces of a size. Each piece takes at least one of its members. -/
def chunks (size : ℕ) (users : List α) : List (List α) := chunksFrom size users.length users

end Chunks

/-- A task that waits for a query. `invalidation` is the last invalidation of the user when the
task began to wait; the source does not have it. -/
structure KeysQueryWaiter where
  user : String
  sequenceNumber : SequenceNumber
  completed : Bool
  invalidation : ℕ
deriving DecidableEq

/-- A registered request, with the number of invalidations that there had been before it was
registered, which the source does not have. -/
structure Registration extends KeysQueryRequestDetails where
  registeredAt : ℕ
deriving DecidableEq

/-- A response for some users whose request was found. -/
structure Processing where
  users : List String
  registration : Registration
deriving DecidableEq

/-- What is saved under the lock, after a response or after invalidations. -/
structure Saving where
  updates : List (String × Bool)
  ofResponse : Bool
deriving DecidableEq

/-- The key query manager with its cache and its store. In `marked` and `unsaved` are users that
`mark_user_as_changed` has still to track and to save. The last three fields are not in the
source: how many invalidations there were, the last one of each user, and how many there were
when this manager was created. -/
structure Tracker where
  queries : UsersForKeyQuery
  waiters : List KeysQueryWaiter
  trackedUsers : List String
  loaded : Bool
  store : KeyedMap String Bool
  requestDetails : KeyedMap ℕ Registration
  nextRequestId : ℕ
  saving : Option Saving
  marked : List String
  unsaved : List String
  processing : List Processing
  invalidations : ℕ
  lastInvalidation : String → Option ℕ
  base : ℕ

inductive Action where
  | load
  | updateTracked (users : List String)
  | markTrackedChanged (users : List String)
  | mark (user : String)
  | trackMarked (user : String)
  | saveMarked (user : String)
  | failMarked (user : String)
  | collect (backoff : List String)
  | respond (requestId : ℕ) (users : List String)
  | upToDate (index : ℕ)
  | failResponse (index : ℕ)
  | saved
  | saveFails
  | consume (requestId : ℕ)
  | wait (user : String)
  | restart

namespace Tracker

variable (tracker : Tracker)

/-- A new manager over a store. -/
def start (store : KeyedMap String Bool) (invalidations nextRequestId : ℕ)
    (lastInvalidation : String → Option ℕ) : Tracker where
  queries := ⟨⟨0⟩, ∅⟩
  waiters := []
  trackedUsers := []
  loaded := false
  store := store
  requestDetails := ∅
  nextRequestId := nextRequestId
  saving := none
  marked := []
  unsaved := []
  processing := []
  invalidations := invalidations
  lastInvalidation := lastInvalidation
  base := invalidations

variable (user : String)

/-- `insert_user`: the user is invalidated. -/
def invalidate : Tracker :=
  { tracker with
    queries := tracker.queries.insertUser user
    invalidations := tracker.invalidations + 1
    lastInvalidation :=
      Function.update tracker.lastInvalidation user (some tracker.invalidations) }

/-- The lock of `users_for_key_query` is free, and the tracked users are loaded. -/
def isReady : Bool := tracker.loaded && tracker.saving.isNone

def load : Tracker :=
  if tracker.loaded then tracker
  else
    let dirty := (tracker.store.entries.filter fun entry => entry.2).map Sigma.fst
    { dirty.foldl invalidate tracker with
      trackedUsers := tracker.trackedUsers ++ tracker.store.keys, loaded := true }

variable (users : List String)

/-- Track the users that are new, and invalidate them. -/
def updateTracked : Tracker :=
  let added := users.eraseDups.filter (· ∉ tracker.trackedUsers)
  { added.foldl invalidate tracker with
    trackedUsers := tracker.trackedUsers ++ added
    saving := some ⟨added.map (·, true), false⟩ }

def markTrackedChanged : Tracker :=
  let changed := users.filter (· ∈ tracker.trackedUsers)
  { changed.foldl invalidate tracker with saving := some ⟨changed.map (·, true), false⟩ }

def mark : Tracker :=
  { tracker.invalidate user with marked := user :: tracker.marked }

def trackMarked : Tracker :=
  { tracker with
    trackedUsers := user :: tracker.trackedUsers
    marked := tracker.marked.erase user
    unsaved := user :: tracker.unsaved }

def saveMarked : Tracker :=
  { tracker with
    store := tracker.store.insert user true, unsaved := tracker.unsaved.erase user }

/-- `maybe_remove_user`: whether the user is up to date now. -/
def maybeRemoveUser (querySequence : SequenceNumber) (user : String) : Bool × Tracker :=
  (match tracker.queries.userMap.lookup user with
    | some lastInvalidation => !lastInvalidation.gt querySequence
    | none => true,
    { tracker with
      queries := tracker.queries.maybeRemoveUser querySequence user
      waiters := tracker.waiters.map fun waiter =>
        if waiter.user = user ∧ waiter.sequenceNumber.gt querySequence = false then
          { waiter with completed := true }
        else waiter })

/-- Go through the users of a response. -/
def removeUsers (querySequence : SequenceNumber) :
    List String → Tracker → List (String × Bool) × Tracker
  | [], tracker => ([], tracker)
  | user :: users, tracker =>
    if user ∈ tracker.trackedUsers then
      let removed := tracker.maybeRemoveUser querySequence user
      let rest := removeUsers querySequence users removed.2
      ((user, !removed.1) :: rest.1, rest.2)
    else removeUsers querySequence users tracker

def upToDate (index : ℕ) (response : Processing) : Tracker :=
  let removed := removeUsers response.registration.sequenceNumber response.users tracker
  { removed.2 with
    processing := tracker.processing.eraseIdx index, saving := some ⟨removed.1, true⟩ }

/-- Register a request for some users. -/
def register : Tracker :=
  { tracker with
    requestDetails := tracker.requestDetails.insert tracker.nextRequestId
      ⟨⟨tracker.queries.nextSequenceNumber.previous, users⟩, tracker.invalidations⟩
    nextRequestId := tracker.nextRequestId + 1 }

/-- The requests to send for the dirty users whose server is not in backoff: those that are
registered already, and new ones for the users that none of them covers. -/
def collect (serverName : String → String) (backoff : List String) :
    List (ℕ × List String) × Tracker :=
  let users := tracker.queries.userMap.keys.filter fun user => serverName user ∉ backoff
  let registered := tracker.requestDetails.entries.map fun entry => (entry.1, entry.2.users)
  let reused := registered.filter fun request => request.2.any (· ∈ users)
  let uncovered := users.filter fun user => registered.all (user ∉ ·.2)
  let created := chunks maxKeyQueryUsers uncovered
  (reused ++ created.zipIdx.map fun (chunk, index) => (tracker.nextRequestId + index, chunk),
    created.foldl register tracker)

def saveUpdates (updates : List (String × Bool)) (store : KeyedMap String Bool) :
    KeyedMap String Bool :=
  updates.foldl (fun store update => store.insert update.1 update.2) store

/-- Wait for a query for the user, if there is to be one. -/
def wait : Tracker :=
  match tracker.queries.userMap.lookup user with
  | none => tracker
  | some sequenceNumber =>
    { tracker with
      waiters := tracker.waiters ++
        [⟨user, sequenceNumber, false, (tracker.lastInvalidation user).getD 0⟩] }

/-- No invalidation is on its way to the store. -/
def isSettled : Bool :=
  tracker.saving.all Saving.ofResponse && tracker.marked.isEmpty && tracker.unsaved.isEmpty

def act (serverName : String → String) : Action → Tracker
  | .load => tracker.load
  | .updateTracked users => if tracker.isReady then tracker.updateTracked users else tracker
  | .markTrackedChanged users =>
    if tracker.isReady then tracker.markTrackedChanged users else tracker
  | .mark user => if tracker.isReady then tracker.mark user else tracker
  | .trackMarked user => if user ∈ tracker.marked then tracker.trackMarked user else tracker
  | .saveMarked user => if user ∈ tracker.unsaved then tracker.saveMarked user else tracker
  | .failMarked user => { tracker with unsaved := tracker.unsaved.erase user }
  | .collect backoff =>
    if tracker.isReady then (tracker.collect serverName backoff).2 else tracker
  | .respond requestId users =>
    match tracker.requestDetails.lookup requestId with
    | some registration =>
      { tracker with processing := tracker.processing ++ [⟨users, registration⟩] }
    | none => tracker
  | .upToDate index =>
    if tracker.isReady then
      match tracker.processing[index]? with
      | some response => tracker.upToDate index response
      | none => tracker
    else tracker
  | .failResponse index => { tracker with processing := tracker.processing.eraseIdx index }
  | .saved =>
    match tracker.saving with
    | some saving =>
      { tracker with store := saveUpdates saving.updates tracker.store, saving := none }
    | none => tracker
  | .saveFails => { tracker with saving := none }
  | .consume requestId =>
    { tracker with requestDetails := tracker.requestDetails.erase requestId }
  | .wait user => if tracker.isReady then tracker.wait user else tracker
  | .restart =>
    start tracker.store tracker.invalidations tracker.nextRequestId tracker.lastInvalidation

/-- No invalidation is lost on its way to the store. -/
def isLossless : Action → Bool
  | .saveFails => tracker.saving.all Saving.ofResponse
  | .failMarked _ => false
  | .restart => tracker.isSettled
  | _ => true

end Tracker

def run (serverName : String → String) (store : KeyedMap String Bool) (actions : List Action) :
    Tracker :=
  actions.foldl (fun tracker action => tracker.act serverName action)
    (.start store 0 0 fun _ => none)

def losslessFrom (serverName : String → String) (tracker : Tracker) : List Action → Bool
  | [] => true
  | action :: actions =>
    tracker.isLossless action && losslessFrom serverName (tracker.act serverName action) actions

/-- In the run no invalidation is lost on its way to the store. -/
def isLosslessRun (serverName : String → String) (store : KeyedMap String Bool) :
    List Action → Bool :=
  losslessFrom serverName (.start store 0 0 fun _ => none)

end MatrixSdk.DeviceTracking

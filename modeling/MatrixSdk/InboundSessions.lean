import MatrixSdk.Traces
import Mathlib.Data.List.Basic

/-!
Inbound group sessions, the room keys that a device has received, and the store they are
kept in. A received copy of a session is merged with the copy in the store. A sync response
or an import is a batch of sessions: each one is merged with the store as it was before the
batch, and the results are saved at the end of the batch.
-/
namespace MatrixSdk.InboundSessions

inductive SessionOrdering where
  | equal
  | better
  | worse
  | unconnected
deriving DecidableEq

namespace SessionOrdering

/-- The ordering of two connected ratchets by their first known indexes. -/
def ofIndexes (index other : ℕ) : SessionOrdering :=
  if index = other then equal else if index < other then better else worse

end SessionOrdering

/-- The ratchets of the Megolm library. Two ratchets that connect are ordered by the first
message index they can decrypt. -/
structure RatchetLibrary (Ratchet : Type) where
  firstKnownIndex : Ratchet → ℕ
  compare : Ratchet → Ratchet → SessionOrdering
  compare_eq : ∀ ratchet other, compare ratchet other ≠ .unconnected →
    compare ratchet other = .ofIndexes (firstKnownIndex ratchet) (firstKnownIndex other)

/-- Ratchets given by the session they belong to and their first known index. -/
def indexedRatchets : RatchetLibrary (String × ℕ) where
  firstKnownIndex := Prod.snd
  compare ratchet other :=
    if ratchet.1 = other.1 then .ofIndexes ratchet.2 other.2 else .unconnected
  compare_eq ratchet other h := by
    split at h
    · next hsame => rw [if_pos hsame]
    · exact absurd rfl h

structure KnownSenderData where
  userId : String
  deviceId : Option String
  masterKey : String
deriving DecidableEq

inductive SenderData where
  | unknownDevice (legacySession ownerCheckFailed : Bool)
  | deviceInfo (deviceKeys : String) (legacySession : Bool)
  | verificationViolation (data : KnownSenderData)
  | senderUnverified (data : KnownSenderData)
  | senderVerified (data : KnownSenderData)
deriving DecidableEq

namespace SenderData

def unknown : SenderData := unknownDevice false false

def trustNumber : SenderData → ℕ
  | unknownDevice .. => 0
  | deviceInfo .. => 1
  | verificationViolation _ => 2
  | senderUnverified _ => 3
  | senderVerified _ => 4

def compareTrustLevel (data other : SenderData) : Ordering :=
  Ord.compare data.trustNumber other.trustNumber

end SenderData

structure SessionCreatorInfo where
  curve25519Key : String
  signingKeys : List (String × String)
deriving DecidableEq

variable {Ratchet : Type} {library : RatchetLibrary Ratchet}

/-- The first known index is a copy of the one of the ratchet. -/
structure InboundGroupSession (library : RatchetLibrary Ratchet) where
  inner : Ratchet
  sessionId : String
  firstKnownIndex : ℕ
  creatorInfo : SessionCreatorInfo
  senderData : SenderData
  roomId : String
  algorithm : String
  backedUp : Bool
  firstKnownIndex_eq : firstKnownIndex = library.firstKnownIndex inner

namespace InboundGroupSession

variable (session : InboundGroupSession library)

def key : String × String :=
  (session.roomId, session.sessionId)

def resetBackupState : InboundGroupSession library :=
  { session with backedUp := false }

def markAsBackedUp : InboundGroupSession library :=
  { session with backedUp := true }

variable (session other : InboundGroupSession library)

/-- The stored copy is read back from its pickle, so the two ratchets are never one object. -/
def compareRatchet : SessionOrdering :=
  if session.creatorInfo.curve25519Key ≠ other.creatorInfo.curve25519Key ∨
      session.creatorInfo.signingKeys ≠ other.creatorInfo.signingKeys ∨
      session.algorithm ≠ other.algorithm ∨ session.roomId ≠ other.roomId then
    .unconnected
  else
    library.compare session.inner other.inner

/-- `none` is the panic on two sessions with different ids or rooms. -/
def withRatchet : Option (InboundGroupSession library) :=
  if session.sessionId ≠ other.sessionId then none
  else if session.roomId ≠ other.roomId then none
  else some { session with
    inner := other.inner
    firstKnownIndex := other.firstKnownIndex
    firstKnownIndex_eq := other.firstKnownIndex_eq }

def trustLevel : ℕ := session.senderData.trustNumber

end InboundGroupSession

/-- The inbound sessions in the store, each under its own room and session id. -/
structure SessionStore (library : RatchetLibrary Ratchet) where
  get : String × String → Option (InboundGroupSession library)
  key_of_get : ∀ key session, get key = some session → session.key = key

namespace SessionStore

def empty : SessionStore library := ⟨fun _ => none, by simp⟩

def save (store : SessionStore library) (session : InboundGroupSession library) :
    SessionStore library where
  get key := if key = session.key then some session else store.get key
  key_of_get key stored h := by
    by_cases hkey : key = session.key
    · rw [if_pos hkey, Option.some.injEq] at h
      rw [← h, hkey]
    · rw [if_neg hkey] at h
      exact store.key_of_get key stored h

def saveInboundGroupSessions (store : SessionStore library)
    (sessions : List (InboundGroupSession library)) : SessionStore library :=
  sessions.foldl save store

end SessionStore

inductive RoomKeyMergeDecision where
  | acceptedNew
  | acceptedImproved
  | duplicateIgnored
  | worseIgnored
  | unconnectedRejected
deriving DecidableEq

/-- The decision that is reported and the session to store, if any. -/
def mergeReceivedGroupSession (store : SessionStore library)
    (session : InboundGroupSession library) :
    Option (RoomKeyMergeDecision × Option (InboundGroupSession library)) :=
  match store.get session.key with
  | none => some (.acceptedNew, some session)
  | some oldSession =>
    match session.compareRatchet oldSession,
        session.senderData.compareTrustLevel oldSession.senderData with
    | .unconnected, _ => some (.unconnectedRejected, none)
    | .better, .gt | .better, .eq | .equal, .gt => some (.acceptedImproved, some session)
    | .worse, .lt | .worse, .eq | .equal, .lt => some (.worseIgnored, none)
    | .equal, .eq => some (.duplicateIgnored, none)
    | .better, .lt =>
      (oldSession.withRatchet session).map fun merged =>
        (.acceptedImproved, some merged.resetBackupState)
    | .worse, .gt =>
      (session.withRatchet oldSession).map fun merged => (.acceptedImproved, some merged)

/-- The sessions that a batch leaves to be saved, marked as backed up when the batch was
downloaded from a backup. -/
def mergeAll (store : SessionStore library) (fromBackupVersion : Option String) :
    List (InboundGroupSession library) → Option (List (InboundGroupSession library))
  | [] => some []
  | session :: sessions => do
    let (_, merged) ← mergeReceivedGroupSession store session
    let rest ← mergeAll store fromBackupVersion sessions
    match merged with
    | none => return rest
    | some merged =>
      return (if fromBackupVersion.isSome then merged.markAsBackedUp else merged) :: rest

/-- A sync response is a batch without a backup version. -/
def importSessions (store : SessionStore library) (sessions : List (InboundGroupSession library))
    (fromBackupVersion : Option String) : Option (SessionStore library) :=
  (mergeAll store fromBackupVersion sessions).map store.saveInboundGroupSessions

end MatrixSdk.InboundSessions

import MatrixSdk.DeviceTrust
import MatrixSdk.KeyedMaps

/-!
Outbound group sessions: the key that a device encrypts the messages of a room with, and the
record of who has been sent this key. A to-device request that carries the key, or a notice
that the key is withheld, stays with the session until it is marked as sent.
-/
namespace MatrixSdk.OutboundSessions

open KeyedMaps DeviceTrust

inductive WithheldCode where
  | blacklisted
  | unverified
  | unauthorised
  | unavailable
  | noOlm
  | historyNotShared
  | custom (code : String)
deriving DecidableEq

inductive CollectStrategy where
  | allDevices
  | errorOnVerifiedUserProblem
  | identityBasedStrategy
  | onlyTrustedDevices
deriving DecidableEq

inductive HistoryVisibility where
  | invited
  | joined
  | shared
  | worldReadable
  | custom (visibility : String)
deriving DecidableEq

/-- The rotation period is in milliseconds. -/
structure EncryptionSettings where
  algorithm : String
  rotationPeriod : ℕ
  rotationPeriodMsgs : ℕ
  historyVisibility : HistoryVisibility
  sharingStrategy : CollectStrategy
deriving DecidableEq

structure SharedWith where
  senderKey : String
  messageIndex : ℕ
  olmWedgingIndex : SequenceNumber
deriving DecidableEq

inductive ShareInfo where
  | shared (info : SharedWith)
  | withheld (code : WithheldCode)
deriving DecidableEq

def ShareInfo.isShared : ShareInfo → Bool
  | shared _ => true
  | withheld _ => false

/-- The share info of each user and device. -/
abbrev ShareInfoSet := KeyedMap (String × String) ShareInfo

/-- What a to-device request brings to a device: the key of a session from a message index
on, or the notice that this key is withheld. -/
inductive ToDeviceContent where
  | roomKey (sessionId : ℕ) (messageIndex : ℕ)
  | withheld (sessionId : ℕ) (code : WithheldCode)
deriving DecidableEq

inductive ToDeviceEventType where
  | roomEncrypted
  | roomKeyWithheld
deriving DecidableEq

structure ToDeviceRequest where
  eventType : ToDeviceEventType
  txnId : ℕ
  messages : KeyedMap (String × String) ToDeviceContent

inductive ShareState where
  | notShared
  | sharedButChangedSenderKey
  | shared (messageIndex : ℕ) (olmWedgingIndex : SequenceNumber)
deriving DecidableEq

namespace ShareState

def rank : ShareState → ℕ
  | notShared => 0
  | sharedButChangedSenderKey => 1
  | shared .. => 2

/-- Whether `state` is greater than `other` in the derived order. -/
def gt : ShareState → ShareState → Bool
  | shared index wedging, shared index' wedging' =>
    index' < index || (index = index' && wedging'.lt wedging)
  | state, other => other.rank < state.rank

end ShareState

structure OutboundGroupSession where
  sessionId : ℕ
  roomId : String
  creationTime : ℕ
  messageCount : ℕ
  messageIndex : ℕ
  shared : Bool
  invalidated : Bool
  settings : EncryptionSettings
  sharedWithSet : ShareInfoSet
  toShareWithSet : KeyedMap ℕ (ToDeviceRequest × ShareInfoSet)

def oneHour : ℕ := 60 * 60 * 1000

def megolmV1 : String := "m.megolm.v1.aes-sha2"

namespace OutboundGroupSession

/-- `none` where the algorithm is not supported. -/
def new (sessionId : ℕ) (roomId : String) (settings : EncryptionSettings) (now : ℕ) :
    Option OutboundGroupSession :=
  if settings.algorithm = megolmV1 then
    some {
      sessionId, roomId, settings
      creationTime := now
      messageCount := 0
      messageIndex := 0
      shared := false
      invalidated := false
      sharedWithSet := ∅
      toShareWithSet := ∅ }
  else none

variable (session : OutboundGroupSession)

def addRequest (requestId : ℕ) (request : ToDeviceRequest) (shareInfos : ShareInfoSet) :
    OutboundGroupSession :=
  { session with toShareWithSet := session.toShareWithSet.insert requestId (request, shareInfos) }

def invalidateSession : OutboundGroupSession :=
  { session with invalidated := true }

def markAsShared : OutboundGroupSession :=
  { session with shared := true }

/-- The devices a sent request told that there is no Olm session with them, and the session
afterwards. The infos of the request replace what was recorded for their devices before. -/
def markRequestAsSent (requestId : ℕ) : List (String × String) × OutboundGroupSession :=
  match session.toShareWithSet.lookup requestId with
  | none => ([], session)
  | some (_, infos) =>
    let noOlmDevices := infos.entries.filterMap fun entry =>
      if entry.2 = .withheld .noOlm then some entry.1 else none
    let pending := session.toShareWithSet.erase requestId
    let sent := { session with
      sharedWithSet := infos ∪ session.sharedWithSet
      toShareWithSet := pending }
    (noOlmDevices, if pending.entries.isEmpty then sent.markAsShared else sent)

/-- The session after one more message, and the message index it was encrypted with. -/
def encryptHelper : ℕ × OutboundGroupSession :=
  (session.messageIndex,
    { session with
      messageCount := session.messageCount + 1
      messageIndex := session.messageIndex + 1 })

def safeRotationPeriod : ℕ :=
  max session.settings.rotationPeriod oneHour

/-- The times are in seconds. -/
def elapsed (now : ℕ) : Bool :=
  if now < session.creationTime then true
  else session.safeRotationPeriod ≤ (now - session.creationTime) * 1000

/-- The number of messages a session may be used for, between 1 and 10000. -/
def messageLimit : ℕ :=
  min (max session.settings.rotationPeriodMsgs 1) 10000

def expired (now : ℕ) : Bool :=
  session.messageLimit ≤ session.messageCount || session.elapsed now

def pendingRequests : List ToDeviceRequest :=
  (KeyedMap.values session.toShareWithSet).map Prod.fst

def pendingRequestIds : List ℕ := session.toShareWithSet.keys

/-- All shares of the session, sent or pending; a device may occur several times. -/
def iterShares : List ((String × String) × ShareInfo) :=
  (session.sharedWithSet.entries.map fun entry => (entry.1, entry.2)) ++
    (KeyedMap.values session.toShareWithSet).flatMap fun pending =>
      pending.2.entries.map fun entry => (entry.1, entry.2)

def iterSharesOf (user device : String) : List ShareInfo :=
  (session.iterShares.filter fun share => share.1 = (user, device)).map Prod.snd

def sharedWithUsers : List String :=
  (session.iterShares.filter fun share => share.2.isShared).map fun share => share.1.1

/-- The last of the greatest share states recorded for the device. -/
def getShareState (device : DeviceData) : ShareState :=
  let states := (session.iterSharesOf device.userId device.deviceId).map fun
    | .shared info =>
      if device.curve25519Key = some info.senderKey then
        ShareState.shared info.messageIndex info.olmWedgingIndex
      else .sharedButChangedSenderKey
    | .withheld _ => .notShared
  states.foldl (fun best state => if best.gt state then best else state) .notShared

def isWithheldTo (device : DeviceData) (code : WithheldCode) : Bool :=
  (session.iterSharesOf device.userId device.deviceId).any fun info => info = .withheld code

end OutboundGroupSession

end MatrixSdk.OutboundSessions

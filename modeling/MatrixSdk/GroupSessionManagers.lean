import MatrixSdk.ShareStrategies
import MatrixSdk.InboundSessions

/-!
The manager of the outbound group sessions. A session lives in memory as one object that the
cache, the requests being sent and the running calls refer to; the store holds a copy of its
state when it was last saved. Sharing a room key gets the session of the room or makes a new
one, and queues the requests that bring its key to the devices that do not have it yet.
-/
namespace MatrixSdk.GroupSessionManagers

open KeyedMaps DeviceTrust OutboundSessions ShareStrategies InboundSessions

/-- The library that makes the outbound sessions: the id of the session with a number, and its
ratchet at a message index. Different sessions have different ids. -/
structure SessionLibrary (Ratchet : Type) extends RatchetLibrary Ratchet where
  sessionId : ℕ → String
  ratchetAt : ℕ → ℕ → Ratchet
  sessionId_injective : Function.Injective sessionId
  firstKnownIndex_ratchetAt : ∀ number index, firstKnownIndex (ratchetAt number index) = index

variable {Ratchet : Type} {library : SessionLibrary Ratchet}

structure CryptoStore (library : SessionLibrary Ratchet) where
  outboundGroupSessions : KeyedMap String OutboundGroupSession
  inboundGroupSessions : SessionStore library.toRatchetLibrary

/-- The cache maps a room to the object of its session, and a request that is being sent to
the object of the session it belongs to. -/
structure GroupSessionManager (library : SessionLibrary Ratchet) where
  identityKeys : SessionCreatorInfo
  store : CryptoStore library
  objects : ℕ → OutboundGroupSession
  nextObject : ℕ
  sessions : KeyedMap String ℕ
  sessionsBeingShared : KeyedMap ℕ ℕ
  nextSessionId : ℕ
  nextTxnId : ℕ

/-- A manager over an empty store. What the objects are before they are made does not
matter. -/
def GroupSessionManager.new (identityKeys : SessionCreatorInfo) (unmade : OutboundGroupSession) :
    GroupSessionManager library where
  identityKeys := identityKeys
  store := ⟨∅, .empty⟩
  objects _ := unmade
  nextObject := 0
  sessions := ∅
  sessionsBeingShared := ∅
  nextSessionId := 0
  nextTxnId := 0

/-- What came of encrypting the room key for a device: the identity key of the Olm session
that was used, or that there is no Olm session. -/
inductive RoomKeyEncryption where
  | encrypted (senderKey : String)
  | missingSession
  | failed
deriving DecidableEq

/-- The arguments of a call, with what it finds in the store and what time it is. The sender
data of our own device is missing when its lookup fails. -/
structure ShareCall where
  roomId : String
  users : List String
  settings : EncryptionSettings
  identities : IdentityStore
  checks : SignatureChecks
  ownSenderData : Option SenderData
  olm : DeviceData → RoomKeyEncryption
  now : ℕ

inductive ShareError where
  | unsupportedAlgorithm
  | senderDataLookup
  | recipients (error : SessionRecipientCollectionError)
  | olmEncryption
deriving DecidableEq

/-- The objects and the inbound sessions that are left to be saved at the end of a call. -/
structure Changes (library : SessionLibrary Ratchet) where
  outboundGroupSessions : List ℕ
  inboundGroupSessions : List (InboundGroupSession library.toRatchetLibrary)

def maxToDeviceMessages : ℕ := 250

/-- Cut a list into pieces of at most `size` elements. -/
def chunks {α : Type} (size : ℕ) (list : List α) : List (List α) := go list.length list
where
  go : ℕ → List α → List (List α)
    | 0, _ => []
    | _ + 1, [] => []
    | fuel + 1, x :: xs => (x :: xs).take size :: go fuel ((x :: xs).drop size)

/-- The inbound session that decrypts what the outbound session will encrypt. -/
def inboundTwin (identityKeys : SessionCreatorInfo) (session : OutboundGroupSession)
    (senderData : SenderData) : InboundGroupSession library.toRatchetLibrary where
  inner := library.ratchetAt session.sessionId session.messageIndex
  sessionId := library.sessionId session.sessionId
  firstKnownIndex := session.messageIndex
  creatorInfo := identityKeys
  senderData := senderData
  roomId := session.roomId
  algorithm := session.settings.algorithm
  backedUp := false
  firstKnownIndex_eq := (library.firstKnownIndex_ratchetAt _ _).symm

namespace GroupSessionManager

variable (manager : GroupSessionManager library)

def modifyObject (object : ℕ) (f : OutboundGroupSession → OutboundGroupSession) :
    GroupSessionManager library :=
  { manager with objects := Function.update manager.objects object (f (manager.objects object)) }

/-- Put a session in the cache. -/
def insertSession (session : OutboundGroupSession) : ℕ × GroupSessionManager library :=
  (manager.nextObject,
    { manager with
      objects := Function.update manager.objects manager.nextObject session
      nextObject := manager.nextObject + 1
      sessions := manager.sessions.insert session.roomId manager.nextObject })

/-- Add a request to a session, and remember which session it belongs to. -/
def addRequest (object : ℕ) (request : ToDeviceRequest) (shareInfos : ShareInfoSet) :
    GroupSessionManager library :=
  { manager.modifyObject object fun session =>
      session.addRequest request.txnId request shareInfos with
    sessionsBeingShared := manager.sessionsBeingShared.insert request.txnId object
    nextTxnId := manager.nextTxnId + 1 }

def saveOutbound (object : ℕ) : GroupSessionManager library :=
  let session := manager.objects object
  { manager with
    store.outboundGroupSessions :=
      manager.store.outboundGroupSessions.insert session.roomId session }

def saveInbound (session : InboundGroupSession library.toRatchetLibrary) :
    GroupSessionManager library :=
  { manager with
    store.inboundGroupSessions := manager.store.inboundGroupSessions.save session }

def saveChanges (changes : Changes library) : GroupSessionManager library :=
  changes.inboundGroupSessions.foldl saveInbound
    (changes.outboundGroupSessions.foldl saveOutbound manager)

/-- The object of the session of a room, which is read from the store if the cache has none. -/
def getOrLoad (roomId : String) : Option ℕ × GroupSessionManager library :=
  match manager.sessions.lookup roomId with
  | some object => (some object, manager)
  | none =>
    match manager.store.outboundGroupSessions.lookup roomId with
    | none => (none, manager)
    | some session =>
      (some manager.nextObject,
        { manager with
          objects := Function.update manager.objects manager.nextObject session
          nextObject := manager.nextObject + 1
          sessions := manager.sessions.insert roomId manager.nextObject
          sessionsBeingShared := session.pendingRequestIds.foldl
            (fun shared requestId => shared.insert requestId manager.nextObject)
            manager.sessionsBeingShared })

/-- `none` where the algorithm of the settings is not supported. -/
def createOutboundGroupSession (roomId : String) (settings : EncryptionSettings) (now : ℕ) :
    Option ℕ × GroupSessionManager library :=
  match OutboundGroupSession.new manager.nextSessionId roomId settings now with
  | none => (none, manager)
  | some session =>
    let (object, manager) := manager.insertSession session
    (some object, { manager with nextSessionId := manager.nextSessionId + 1 })

/-- The flag tells whether the session is new, so that its inbound twin is still to be
stored. -/
def getOrCreateOutboundSession (roomId : String) (settings : EncryptionSettings) (now : ℕ) :
    Option (ℕ × Bool) × GroupSessionManager library :=
  match manager.getOrLoad roomId with
  | (some object, manager) =>
    if (manager.objects object).expired now || (manager.objects object).invalidated then
      let (created, manager) := manager.createOutboundGroupSession roomId settings now
      (created.map (·, true), manager)
    else (some (object, false), manager)
  | (none, manager) =>
    let (created, manager) := manager.createOutboundGroupSession roomId settings now
    (created.map (·, true), manager)

end GroupSessionManager

/-- The messages, share infos and devices without an Olm session of one request. -/
structure EncryptedKeys where
  messages : KeyedMap (String × String) ToDeviceContent
  shareInfos : ShareInfoSet
  noOlmDevices : List (DeviceData × WithheldCode)

def EncryptedKeys.empty : EncryptedKeys := ⟨∅, ∅, []⟩

/-- Encrypt the key of a session for one more device. -/
def encryptRoomKey (session : OutboundGroupSession) (olm : DeviceData → RoomKeyEncryption)
    (keys : EncryptedKeys) (device : DeviceData) : Option EncryptedKeys :=
  match olm device with
  | .encrypted senderKey => some {
      messages := keys.messages.insert (device.userId, device.deviceId)
        (.roomKey session.sessionId session.messageIndex)
      shareInfos := keys.shareInfos.insert (device.userId, device.deviceId)
        (.shared ⟨senderKey, session.messageIndex, device.olmWedgingIndex⟩)
      noOlmDevices := keys.noOlmDevices }
  | .missingSession => some { keys with
      noOlmDevices := keys.noOlmDevices ++ [(device, .noOlm)] }
  | .failed => none

def encryptSessionFor (session : OutboundGroupSession) (olm : DeviceData → RoomKeyEncryption)
    (devices : List DeviceData) : Option EncryptedKeys :=
  devices.foldlM (encryptRoomKey session olm) .empty

/-- The messages and share infos of a request that withholds the key of a session. -/
def withheldRequest (session : OutboundGroupSession) (txnId : ℕ)
    (devices : List (DeviceData × WithheldCode)) : ToDeviceRequest × ShareInfoSet :=
  ({ eventType := .roomKeyWithheld
     txnId := txnId
     messages := devices.foldl (fun messages entry => messages.insert
       (entry.1.userId, entry.1.deviceId) (.withheld session.sessionId entry.2)) ∅ },
    devices.foldl (fun infos entry => infos.insert
      (entry.1.userId, entry.1.deviceId) (.withheld entry.2)) ∅)

namespace GroupSessionManager

variable (manager : GroupSessionManager library) (object : ℕ) (olm : DeviceData → RoomKeyEncryption)

/-- Queue the request that brings the key to some devices; `none` where an encryption
failed. -/
def encryptRequest (devices : List DeviceData) :
    Option (List (DeviceData × WithheldCode)) × GroupSessionManager library :=
  match encryptSessionFor (manager.objects object) olm devices with
  | none => (none, manager)
  | some keys =>
    if keys.messages.entries.isEmpty then (some keys.noOlmDevices, manager)
    else
      (some keys.noOlmDevices, manager.addRequest object
        { eventType := .roomEncrypted, txnId := manager.nextTxnId, messages := keys.messages }
        keys.shareInfos)

/-- The requests of the other pieces are queued even where the encryption of one fails. -/
def encryptForDevices :
    GroupSessionManager library → List (List DeviceData) →
      Option (List (DeviceData × WithheldCode)) × GroupSessionManager library
  | manager, [] => (some [], manager)
  | manager, devices :: rest =>
    let (noOlm, manager) := encryptRequest manager object olm devices
    let (restNoOlm, manager) := encryptForDevices manager rest
    (noOlm.bind fun noOlm => restNoOlm.map (noOlm ++ ·), manager)

/-- The notice that there is no Olm session goes to a device once, whatever the session. -/
def isWithheldTo (device : DeviceData) (code : WithheldCode) : Bool :=
  if code = .noOlm then
    device.withheldCodeSent || (KeyedMap.values manager.sessions).any fun other =>
      (manager.objects other).isWithheldTo device code
  else (manager.objects object).isWithheldTo device code

def queueWithheld (devices : List (DeviceData × WithheldCode)) : GroupSessionManager library :=
  let (request, shareInfos) :=
    withheldRequest (manager.objects object) manager.nextTxnId devices
  if request.messages.entries.isEmpty then manager
  else manager.addRequest object request shareInfos

def handleWithheldDevices (withheldDevices : List (DeviceData × WithheldCode)) :
    GroupSessionManager library :=
  (chunks maxToDeviceMessages (withheldDevices.filter fun entry =>
    !manager.isWithheldTo object entry.1 entry.2)).foldl
      (fun manager devices => manager.queueWithheld object devices) manager

/-- The devices that do not have the key, or that may have lost it with their Olm session. -/
def devicesToShareWith (session : OutboundGroupSession) (devices : List DeviceData) :
    List DeviceData :=
  devices.filter fun device =>
    match session.getShareState device with
    | .notShared => true
    | .shared _ olmWedgingIndex => olmWedgingIndex.lt device.olmWedgingIndex
    | .sharedButChangedSenderKey => false

/-- Add a new session and its inbound twin to the changes. -/
def recordNewSession (changes : Changes library) (senderData : SenderData) : Changes library where
  outboundGroupSessions := changes.outboundGroupSessions ++ [object]
  inboundGroupSessions := changes.inboundGroupSessions ++
    [inboundTwin manager.identityKeys (manager.objects object) senderData]

variable (call : ShareCall)

/-- The last part of a call: queue the requests, and save. -/
def distribute (changes : Changes library) (recipients : CollectRecipientsResult) :
    Except ShareError (List ToDeviceRequest) × GroupSessionManager library :=
  let devices := devicesToShareWith (manager.objects object) (recipients.devices.flatMap Prod.snd)
  let changes := if devices.isEmpty then changes
    else { changes with outboundGroupSessions := [object] }
  match encryptForDevices object call.olm manager (chunks maxToDeviceMessages devices) with
  | (none, manager) => (.error .olmEncryption, manager)
  | (some noOlmDevices, manager) =>
    let manager := manager.handleWithheldDevices object (recipients.withheldDevices ++ noOlmDevices)
    let requests := (manager.objects object).pendingRequests
    if requests.isEmpty && !(manager.objects object).shared then
      let manager := manager.modifyObject object OutboundGroupSession.markAsShared
      let changes := { changes with
        outboundGroupSessions := changes.outboundGroupSessions ++ [object] }
      (.ok requests, manager.saveChanges changes)
    else (.ok requests, manager.saveChanges changes)

/-- Replace the session by a new one where it must not be used any longer. -/
def maybeRotateGroupSession (changes : Changes library) (shouldRotate : Bool) :
    Except ShareError (ℕ × Changes library) × GroupSessionManager library :=
  if shouldRotate then
    match manager.createOutboundGroupSession call.roomId call.settings call.now with
    | (none, manager) => (.error .unsupportedAlgorithm, manager)
    | (some object, manager) =>
      match call.ownSenderData with
      | none => (.error .senderDataLookup, manager)
      | some senderData =>
        (.ok (object, manager.recordNewSession object changes senderData), manager)
  else (.ok (object, changes), manager)

/-- The first part of a call: the session of the room, and what is to be saved if it is
new. -/
def prepareSession : Except ShareError (ℕ × Changes library) × GroupSessionManager library :=
  match manager.getOrCreateOutboundSession call.roomId call.settings call.now with
  | (none, manager) => (.error .unsupportedAlgorithm, manager)
  | (some (object, false), manager) => (.ok (object, ⟨[], []⟩), manager)
  | (some (object, true), manager) =>
    match call.ownSenderData with
    | none => (.error .senderDataLookup, manager)
    | some senderData =>
      (.ok (object, manager.recordNewSession object ⟨[], []⟩ senderData), manager)

def shareRoomKey : Except ShareError (List ToDeviceRequest) × GroupSessionManager library :=
  match manager.prepareSession call with
  | (.error error, manager) => (.error error, manager)
  | (.ok (object, changes), manager) =>
    match collectSessionRecipients call.checks call.identities call.users call.settings
        (manager.objects object) with
    | .error error => (.error (.recipients error), manager)
    | .ok recipients =>
      match manager.maybeRotateGroupSession object call changes recipients.shouldRotate with
      | (.error error, manager) => (.error error, manager)
      | (.ok (object, changes), manager) => manager.distribute object call changes recipients

/-- The devices that were told that there is no Olm session with them. -/
def markRequestAsSent (requestId : ℕ) : List (String × String) × GroupSessionManager library :=
  match manager.sessionsBeingShared.lookup requestId with
  | none => ([], manager)
  | some object =>
    let (noOlmDevices, session) := (manager.objects object).markRequestAsSent requestId
    let manager := { manager.modifyObject object fun _ => session with
      sessionsBeingShared := manager.sessionsBeingShared.erase requestId }
    (noOlmDevices, manager.saveOutbound object)

def invalidateGroupSession (roomId : String) : Bool × GroupSessionManager library :=
  match manager.getOrLoad roomId with
  | (none, manager) => (false, manager)
  | (some object, manager) =>
    (true, (manager.modifyObject object OutboundGroupSession.invalidateSession).saveOutbound object)

/-- What an encrypted event says of the key it was encrypted with. -/
structure EncryptedEvent where
  sessionId : ℕ
  messageIndex : ℕ
deriving DecidableEq

inductive EncryptPanic where
  | sessionNotShared
  | sessionExpired
deriving DecidableEq

def encrypt (roomId : String) (now : ℕ) :
    Except EncryptPanic EncryptedEvent × GroupSessionManager library :=
  match manager.getOrLoad roomId with
  | (none, manager) => (.error .sessionNotShared, manager)
  | (some object, manager) =>
    if (manager.objects object).expired now then (.error .sessionExpired, manager)
    else
      let (messageIndex, session) := (manager.objects object).encryptHelper
      (.ok ⟨session.sessionId, messageIndex⟩,
        (manager.modifyObject object fun _ => session).saveOutbound object)

/-- A restart keeps the store only; nothing refers to the objects in memory any more. -/
def restart : GroupSessionManager library :=
  { manager with sessions := ∅, sessionsBeingShared := ∅ }

end GroupSessionManager

/-- A manager that has not been used yet. -/
structure Unused (manager : GroupSessionManager library) : Prop where
  objects : manager.nextObject = 0
  sessions : manager.sessions = ∅
  sessionsBeingShared : manager.sessionsBeingShared = ∅
  store : manager.store.outboundGroupSessions = ∅

def weeklySettings : EncryptionSettings where
  algorithm := megolmV1
  rotationPeriod := 604800000
  rotationPeriodMsgs := 100
  historyVisibility := .shared
  sharingStrategy := .allDevices

/-- An id has one more digit for each session before. -/
def numberedSessions : SessionLibrary (String × ℕ) where
  toRatchetLibrary := indexedRatchets
  sessionId number := .ofList (.replicate (number + 1) '0')
  ratchetAt number index := (.ofList (.replicate (number + 1) '0'), index)
  sessionId_injective first second h := by
    simpa using congrArg List.length (String.ofList_injective h)
  firstKnownIndex_ratchetAt _ _ := rfl

def newManager : GroupSessionManager numberedSessions :=
  .new ⟨"laptop", []⟩ ⟨0, "", 0, 0, 0, false, false, weeklySettings, ∅, ∅⟩

theorem unused_newManager : Unused newManager := ⟨rfl, rfl, rfl, rfl⟩

/-- What a new session is made of. -/
structure IsNew (session : OutboundGroupSession) (sessionId : ℕ) (roomId : String)
    (settings : EncryptionSettings) (now : ℕ) : Prop where
  sessionId_eq : session.sessionId = sessionId
  roomId_eq : session.roomId = roomId
  settings_eq : session.settings = settings
  creationTime_eq : session.creationTime = now
  messageCount_eq : session.messageCount = 0
  messageIndex_eq : session.messageIndex = 0
  invalidated_eq : session.invalidated = false
  sharedWithSet_eq : session.sharedWithSet = ∅
  toShareWithSet_eq : session.toShareWithSet = ∅

/-- Names for the parts of a result. -/
theorem exists_pair {α β : Type} (p : α × β) : ∃ a b, p = (a, b) := ⟨_, _, rfl⟩

variable {now : ℕ} {roomId : String} {settings : EncryptionSettings}

theorem isNew_of_new {session : OutboundGroupSession} {sessionId : ℕ}
    (h : OutboundGroupSession.new sessionId roomId settings now = some session) :
    IsNew session sessionId roomId settings now := by
  unfold OutboundGroupSession.new at h
  split_ifs at h
  cases h
  exact ⟨rfl, rfl, rfl, rfl, rfl, rfl, rfl, rfl, rfl⟩

/-- The session of a room after a new one was made. -/
structure Created (manager : GroupSessionManager library) (roomId : String)
    (settings : EncryptionSettings) (now object : ℕ) (manager' : GroupSessionManager library) :
    Prop where
  object_eq : object = manager.nextObject
  isNew : IsNew (manager'.objects object) manager.nextSessionId roomId settings now
  objects_eq : ∀ other ≠ object, manager'.objects other = manager.objects other
  nextObject_eq : manager'.nextObject = manager.nextObject + 1
  nextSessionId_eq : manager'.nextSessionId = manager.nextSessionId + 1
  sessions_eq : manager'.sessions = manager.sessions.insert roomId object
  sessionsBeingShared_eq : manager'.sessionsBeingShared = manager.sessionsBeingShared
  store_eq : manager'.store = manager.store
  identityKeys_eq : manager'.identityKeys = manager.identityKeys
  supported : settings.algorithm = megolmV1

variable {manager manager' : GroupSessionManager library}

theorem createOutboundGroupSession_cases {created : Option ℕ}
    (h : manager.createOutboundGroupSession roomId settings now = (created, manager')) :
    (created = none ∧ manager' = manager ∧ settings.algorithm ≠ megolmV1) ∨
      ∃ object, created = some object ∧ Created manager roomId settings now object manager' := by
  unfold GroupSessionManager.createOutboundGroupSession at h
  split at h
  · next hnone =>
    cases h
    refine .inl ⟨rfl, rfl, fun hsupported => ?_⟩
    rw [OutboundGroupSession.new, if_pos hsupported] at hnone
    cases hnone
  · next session hnew =>
    cases h
    have hisNew := isNew_of_new hnew
    have hsupported : settings.algorithm = megolmV1 := by
      by_contra hother
      rw [OutboundGroupSession.new, if_neg hother] at hnew
      cases hnew
    refine .inr ⟨_, rfl, rfl, ?_, ?_, rfl, rfl, ?_, rfl, rfl, rfl, hsupported⟩
    · simpa [GroupSessionManager.insertSession] using hisNew
    · intro other hother
      exact Function.update_of_ne hother _ _
    · simp [hisNew.roomId_eq]

/-- A room keeps its session while it is in time and valid. -/
theorem getOrCreateOutboundSession_cases {result : Option (ℕ × Bool)}
    (h : manager.getOrCreateOutboundSession roomId settings now = (result, manager')) :
    (result = none ∧ manager' = (manager.getOrLoad roomId).2) ∨
    (∃ object, result = some (object, true) ∧
      Created (manager.getOrLoad roomId).2 roomId settings now object manager' ∧
      ∀ old, (manager.getOrLoad roomId).1 = some old →
        ((manager.getOrLoad roomId).2.objects old).expired now = true ∨
        ((manager.getOrLoad roomId).2.objects old).invalidated = true) ∨
    ∃ object, result = some (object, false) ∧ (manager.getOrLoad roomId).1 = some object ∧
      manager' = (manager.getOrLoad roomId).2 ∧ (manager'.objects object).expired now = false ∧
      (manager'.objects object).invalidated = false := by
  have hcreate : ∀ {start : GroupSessionManager library},
      (((start.createOutboundGroupSession roomId settings now).1.map (·, true)),
        (start.createOutboundGroupSession roomId settings now).2) = (result, manager') →
      (result = none ∧ manager' = start) ∨
        ∃ object, result = some (object, true) ∧
          Created start roomId settings now object manager' := by
    intro start hstart
    obtain ⟨created, next, hnext⟩ := exists_pair (start.createOutboundGroupSession roomId settings
      now)
    rw [hnext] at hstart
    cases hstart
    rcases createOutboundGroupSession_cases hnext with ⟨rfl, rfl, -⟩ | ⟨object, rfl, hcreated⟩
    · exact .inl ⟨rfl, rfl⟩
    · exact .inr ⟨object, rfl, hcreated⟩
  unfold GroupSessionManager.getOrCreateOutboundSession at h
  split at h
  · next object start hload =>
    rw [hload]
    split at h
    · next hworn =>
      rcases hcreate h with hnone | ⟨made, hresult, hcreated⟩
      · exact .inl hnone
      · refine .inr (.inl ⟨made, hresult, hcreated, fun old hold => ?_⟩)
        cases hold
        exact Bool.or_eq_true_iff.mp hworn
    · next hvalid =>
      cases h
      simp only [Bool.or_eq_true, not_or, Bool.not_eq_true] at hvalid
      exact .inr (.inr ⟨object, rfl, rfl, rfl, hvalid.1, hvalid.2⟩)
  · next start hload =>
    rw [hload]
    rcases hcreate h with hnone | ⟨made, hresult, hcreated⟩
    · exact .inl hnone
    · exact .inr (.inl ⟨made, hresult, hcreated, fun old hold => by cases hold⟩)

end MatrixSdk.GroupSessionManagers

import MatrixSdk.SessionFrames

/-!
A room key is not used any more once it has gone to a device that should not have it. The
record of whom a session was shared with covers every request that carried its key, as long
as no request that withholds the key is marked as sent after the key has gone to the same
device; then every successful call that shares the key leaves the room with a session whose
key is with the recipients of this call only.
-/
namespace MatrixSdk.Oversharing

open KeyedMaps DeviceTrust OutboundSessions ShareStrategies RecipientLists GroupSessionManagers
open KeyShares SessionFrames Traces GroupSessionManager KeyedMap List AList
open Option

variable {Ratchet : Type} {library : SessionLibrary Ratchet}

/-- The requests of the sessions in memory, and those that were marked as sent. -/
structure World (library : SessionLibrary Ratchet) where
  manager : GroupSessionManager library
  sent : List ToDeviceRequest

inductive Action where
  | shareRoomKey (call : ShareCall)
  | markRequestAsSent (requestId : ℕ)
  | invalidateGroupSession (roomId : String)
  | encrypt (roomId : String) (now : ℕ)

variable (manager : GroupSessionManager library)

/-- The request with this id, if it is still queued with its session. -/
def queuedRequest (requestId : ℕ) : Option (ToDeviceRequest × ShareInfoSet) :=
  (manager.sessionsBeingShared.lookup requestId).bind fun object =>
    (manager.objects object).toShareWithSet.lookup requestId

def World.act (world : World library) : Action → World library
  | .shareRoomKey call => { world with manager := (world.manager.shareRoomKey call).2 }
  | .markRequestAsSent requestId => {
      manager := (world.manager.markRequestAsSent requestId).2
      sent := world.sent ++ ((queuedRequest world.manager requestId).map Prod.fst).toList }
  | .invalidateGroupSession roomId =>
    { world with manager := (world.manager.invalidateGroupSession roomId).2 }
  | .encrypt roomId now => { world with manager := (world.manager.encrypt roomId now).2 }

/-- This is the object of the session that is used in some room. -/
def Current (object : ℕ) : Prop :=
  ∃ roomId, manager.sessions.lookup roomId = some object

/-- A request of a current session is marked as sent while it withholds the key from a device
only if the key is not recorded as sent to this device. -/
def Careful : Action → Prop
  | .markRequestAsSent requestId => ∀ object request infos,
      manager.sessionsBeingShared.lookup requestId = some object → Current manager object →
      (manager.objects object).toShareWithSet.lookup requestId = some (request, infos) →
      ∀ key code info, infos.lookup key = some (.withheld code) →
        (manager.objects object).sharedWithSet.lookup key ≠ some (.shared info)
  | .shareRoomKey _ | .invalidateGroupSession _ | .encrypt .. => True

def Step (world : World library) (action : Action) (world' : World library) : Prop :=
  Careful world.manager action ∧ world' = world.act action

/-- Every key that a request has brought to a device is recorded with its session. -/
structure Recorded (manager : GroupSessionManager library) (sent : List ToDeviceRequest) :
    Prop where
  session_lt : ∀ roomId object, manager.sessions.lookup roomId = some object →
    object < manager.nextObject
  sharing_lt : ∀ requestId object, manager.sessionsBeingShared.lookup requestId = some object →
    object < manager.nextObject
  cached : ∀ object < manager.nextObject,
    (manager.sessions.lookup (manager.objects object).roomId).isSome
  stored : ∀ roomId session, manager.store.outboundGroupSessions.lookup roomId = some session →
    (manager.sessions.lookup roomId).isSome
  id_lt : ∀ object < manager.nextObject,
    (manager.objects object).sessionId < manager.nextSessionId
  id_inj : ∀ object < manager.nextObject, ∀ other < manager.nextObject,
    (manager.objects object).sessionId = (manager.objects other).sessionId → object = other
  pending : ∀ object < manager.nextObject, ∀ requestId request infos,
    (manager.objects object).toShareWithSet.lookup requestId = some (request, infos) →
      Carries (manager.objects object).sessionId request infos
  sent_lt : ∀ request ∈ sent, ∀ key id index,
    request.messages.lookup key = some (.roomKey id index) → id < manager.nextSessionId
  recorded : ∀ request ∈ sent, ∀ key id index,
    request.messages.lookup key = some (.roomKey id index) →
      ∀ object, Current manager object → (manager.objects object).sessionId = id →
        ∃ info, (manager.objects object).sharedWithSet.lookup key = some (.shared info)

variable {manager : GroupSessionManager library} {sent : List ToDeviceRequest} {object : ℕ}

theorem recorded_of_unused (h : Unused manager) : Recorded manager [] where
  session_lt roomId object hlookup := by simp [h.sessions] at hlookup
  sharing_lt requestId object hlookup := by simp [h.sessionsBeingShared] at hlookup
  cached object hlt := by simp [h.objects] at hlt
  stored roomId session hlookup := by simp [h.store] at hlookup
  id_lt object hlt := by simp [h.objects] at hlt
  id_inj object hlt := by simp [h.objects] at hlt
  pending object hlt := by simp [h.objects] at hlt
  sent_lt request hrequest := by simp at hrequest
  recorded request hrequest := by simp at hrequest

variable {request : ToDeviceRequest} {infos : ShareInfoSet} {changes : Changes library} {now : ℕ}
  {roomId : String} {settings : EncryptionSettings} {manager' : GroupSessionManager library}

namespace Recorded

variable {f : OutboundGroupSession → OutboundGroupSession}

section

variable (h : Recorded manager sent)
include h

/-- Change one session in place. Its ids stay, its requests are well recorded, and what a
current session has recorded as shared stays so. -/
theorem modifyObject
    (hid : (f (manager.objects object)).sessionId = (manager.objects object).sessionId)
    (hroom : (f (manager.objects object)).roomId = (manager.objects object).roomId)
    (hpending : ∀ requestId request infos,
      (f (manager.objects object)).toShareWithSet.lookup requestId = some (request, infos) →
        Carries (manager.objects object).sessionId request infos)
    (hshared : Current manager object → ∀ key info,
      (manager.objects object).sharedWithSet.lookup key = some (.shared info) →
        ∃ info', (f (manager.objects object)).sharedWithSet.lookup key = some (.shared info')) :
    Recorded (manager.modifyObject object f) sent := by
  have hsame : ∀ other, ((manager.modifyObject object f).objects other).sessionId =
      (manager.objects other).sessionId ∧ ((manager.modifyObject object f).objects other).roomId =
      (manager.objects other).roomId := by
    intro other
    by_cases hother : other = object
    · rw [hother]
      simpa [GroupSessionManager.modifyObject] using ⟨hid, hroom⟩
    · simp [GroupSessionManager.modifyObject, hother]
  have hids := fun other => (hsame other).1
  refine ⟨h.session_lt, h.sharing_lt, ?_, h.stored, ?_, ?_, ?_, h.sent_lt, ?_⟩
  · intro other hlt
    rw [(hsame _).2]
    exact h.cached other hlt
  · intro other hlt
    rw [hids]
    exact h.id_lt other hlt
  · intro other hlt other' hlt' heq
    rw [hids, hids] at heq
    exact h.id_inj other hlt other' hlt' heq
  · intro other hlt requestId request infos hlookup
    rw [hids]
    by_cases hother : other = object
    · subst hother
      simp [GroupSessionManager.modifyObject] at hlookup
      exact hpending requestId request infos hlookup
    · simp [GroupSessionManager.modifyObject, Function.update_of_ne hother] at hlookup
      exact h.pending other hlt requestId request infos hlookup
  · intro request hrequest key id index hlookup other hcurrent hsession
    rw [hids] at hsession
    obtain ⟨info, hinfo⟩ := h.recorded request hrequest key id index hlookup other hcurrent hsession
    by_cases hother : other = object
    · subst hother
      obtain ⟨info', hinfo'⟩ := hshared hcurrent key info hinfo
      exact ⟨info', by simpa [GroupSessionManager.modifyObject] using hinfo'⟩
    · exact ⟨info, by simpa [GroupSessionManager.modifyObject, hother] using hinfo⟩

section

variable (hobject : object < manager.nextObject)
include hobject

theorem addRequest (hcarries : Carries (manager.objects object).sessionId request infos) :
    Recorded (manager.addRequest object request infos) sent := by
  have hmodified : Recorded (manager.modifyObject object fun session =>
      session.addRequest request.txnId request infos) sent := by
    refine h.modifyObject rfl rfl (fun requestId request' infos' hlookup => ?_)
      (fun _ key info hinfo => ⟨info, hinfo⟩)
    rcases lookup_insert_cases hlookup with ⟨-, heq⟩ | ⟨-, hlookup⟩
    · cases heq
      exact hcarries
    · exact h.pending object hobject requestId request' infos' hlookup
  refine { hmodified with sharing_lt := fun requestId other hlookup => ?_ }
  rcases lookup_insert_cases hlookup with ⟨-, rfl⟩ | ⟨-, hlookup⟩
  · exact hobject
  · exact h.sharing_lt requestId other hlookup

/-- A change that leaves the record of the shares and the queued requests alone. -/
theorem touch (hid : ∀ session, (f session).sessionId = session.sessionId)
    (hroom : ∀ session, (f session).roomId = session.roomId)
    (hshared : ∀ session, (f session).sharedWithSet = session.sharedWithSet)
    (hpending : ∀ session, (f session).toShareWithSet = session.toShareWithSet) :
    Recorded (manager.modifyObject object f) sent := by
  refine h.modifyObject (hid _) (hroom _) (fun requestId request infos hlookup => ?_)
    (fun _ key info hinfo => ⟨info, by rw [hshared]; exact hinfo⟩)
  rw [hpending] at hlookup
  exact h.pending object hobject requestId request infos hlookup

theorem saveOutbound : Recorded (manager.saveOutbound object) sent := by
  refine { h with stored := fun roomId session hlookup => ?_ }
  rcases lookup_insert_cases hlookup with ⟨rfl, -⟩ | ⟨-, hlookup⟩
  · exact h.cached object hobject
  · exact h.stored roomId session hlookup

end

theorem saveChanges
    (hobjects : ∀ object ∈ changes.outboundGroupSessions, object < manager.nextObject) :
    Recorded (manager.saveChanges changes) sent := by
  have hinbound : ∀ (sessions : List _) (manager : GroupSessionManager library),
      Recorded manager sent →
      Recorded (sessions.foldl saveInbound manager) sent := by
    intro sessions
    induction sessions with
    | nil => exact fun _ h => h
    | cons session sessions ih =>
      intro manager h
      exact ih _ { h with }
  have houtbound : ∀ (objects : List ℕ) (manager : GroupSessionManager library),
      Recorded manager sent →
      (∀ object ∈ objects, object < manager.nextObject) →
      Recorded (objects.foldl GroupSessionManager.saveOutbound manager) sent := by
    intro objects
    induction objects with
    | nil => exact fun _ h _ => h
    | cons object objects ih =>
      intro manager h hobjects
      refine ih _ (h.saveOutbound (hobjects object (by simp))) fun other hother => ?_
      exact hobjects other (by simp [hother])
  exact hinbound _ _ (houtbound _ _ h hobjects)

/-- The store has nothing that the cache has not. -/
theorem getOrLoad_eq (roomId : String) :
    manager.getOrLoad roomId = (manager.sessions.lookup roomId, manager) := by
  unfold getOrLoad
  cases hcached : manager.sessions.lookup roomId with
  | some object => rfl
  | none =>
    cases hstored : manager.store.outboundGroupSessions.lookup roomId with
    | none => rfl
    | some session =>
      have hsome := h.stored roomId session hstored
      rw [hcached] at hsome
      cases hsome

end

end Recorded

variable {session : OutboundGroupSession} {allowed : String × String → Prop} {call : ShareCall}
  {requestId : ℕ} {world : World library}

theorem Recorded.created (h : Recorded manager sent)
    (hcreated : Created manager roomId settings now object manager') : Recorded manager' sent := by
  have hobject := hcreated.object_eq
  have hlookup : ∀ room, room ≠ roomId →
      manager'.sessions.lookup room = manager.sessions.lookup room := fun room hroom => by
    rw [hcreated.sessions_eq, lookup_insert_ne hroom]
  have hnew : manager'.sessions.lookup roomId = some object := by
    rw [hcreated.sessions_eq, lookup_insert]
  have hmono : ∀ room, (manager.sessions.lookup room).isSome →
      (manager'.sessions.lookup room).isSome := by
    intro room hroom
    by_cases heq : room = roomId
    · rw [heq, hnew]
      rfl
    · rw [hlookup room heq]
      exact hroom
  have hold : ∀ other < manager'.nextObject, other ≠ object → other < manager.nextObject := by
    intro other hlt hne
    rw [hcreated.nextObject_eq] at hlt
    omega
  refine ⟨?_, ?_, ?_, ?_, ?_, ?_, ?_, ?_, ?_⟩
  · intro room other hroom
    rw [hcreated.nextObject_eq]
    by_cases heq : room = roomId
    · rw [heq, hnew, Option.some.injEq] at hroom
      omega
    · rw [hlookup room heq] at hroom
      have := h.session_lt room other hroom
      omega
  · intro requestId other hrequest
    rw [hcreated.sessionsBeingShared_eq] at hrequest
    rw [hcreated.nextObject_eq]
    have := h.sharing_lt requestId other hrequest
    omega
  · intro other hlt
    by_cases heq : other = object
    · rw [heq, hcreated.isNew.roomId_eq, hnew]
      rfl
    · rw [hcreated.objects_eq other heq]
      exact hmono _ (h.cached other (hold other hlt heq))
  · intro room session hstored
    rw [hcreated.store_eq] at hstored
    exact hmono room (h.stored room session hstored)
  · intro other hlt
    rw [hcreated.nextSessionId_eq]
    by_cases heq : other = object
    · rw [heq, hcreated.isNew.sessionId_eq]
      omega
    · rw [hcreated.objects_eq other heq]
      have := h.id_lt other (hold other hlt heq)
      omega
  · -- an older session has a smaller id than the new one
    have hsmaller : ∀ other < manager'.nextObject, other ≠ object →
        (manager'.objects other).sessionId < (manager'.objects object).sessionId := by
      intro other hlt heq
      rw [hcreated.isNew.sessionId_eq, hcreated.objects_eq other heq]
      exact h.id_lt other (hold other hlt heq)
    intro other hlt other' hlt' hid
    by_cases heq : other = object <;> by_cases heq' : other' = object
    · rw [heq, heq']
    · have := hsmaller other' hlt' heq'
      rw [heq] at hid
      omega
    · have := hsmaller other hlt heq
      rw [heq'] at hid
      omega
    · rw [hcreated.objects_eq other heq, hcreated.objects_eq other' heq'] at hid
      exact h.id_inj other (hold other hlt heq) other' (hold other' hlt' heq') hid
  · intro other hlt requestId request infos hpending
    by_cases heq : other = object
    · rw [heq, hcreated.isNew.toShareWithSet_eq] at hpending
      simp at hpending
    · rw [hcreated.objects_eq other heq] at hpending ⊢
      exact h.pending other (hold other hlt heq) requestId request infos hpending
  · intro request hrequest key id index hkey
    rw [hcreated.nextSessionId_eq]
    have := h.sent_lt request hrequest key id index hkey
    omega
  · intro request hrequest key id index hkey other hcurrent hid
    obtain ⟨room, hroom⟩ := hcurrent
    by_cases heq : other = object
    · -- no request that was sent can carry the key of the new session
      have hlt := h.sent_lt request hrequest key id index hkey
      rw [heq, hcreated.isNew.sessionId_eq] at hid
      omega
    · rw [hcreated.objects_eq other heq] at hid ⊢
      have hne : room ≠ roomId := by
        rintro rfl
        rw [hnew, Option.some.injEq] at hroom
        exact heq hroom.symm
      rw [hlookup room hne] at hroom
      exact h.recorded request hrequest key id index hkey other ⟨room, hroom⟩ hid

/-- A call is sharing the session of a room: so far its key goes to allowed devices only. -/
structure Sharing (sent : List ToDeviceRequest) (roomId : String) (object : ℕ)
    (allowed : String × String → Prop) (changed : List ℕ) (manager : GroupSessionManager library) :
    Prop where
  recorded : Recorded manager sent
  current : manager.sessions.lookup roomId = some object
  within : SharesWithin (manager.objects object) allowed
  changed_lt : ∀ other ∈ changed, other < manager.nextObject

namespace Sharing

variable {roomId : String} {allowed : String × String → Prop} {changed : List ℕ}

section

variable (h : Sharing sent roomId object allowed changed manager)
include h

theorem object_lt : object < manager.nextObject :=
  h.recorded.session_lt roomId object h.current

theorem addRequest (hcarries : Carries (manager.objects object).sessionId request infos)
    (hallowed : ∀ key info, infos.lookup key = some (.shared info) → allowed key) :
    Sharing sent roomId object allowed changed (manager.addRequest object request infos) := by
  refine ⟨h.recorded.addRequest h.object_lt hcarries, h.current, ?_, h.changed_lt⟩
  intro key info hshare
  have hobject : (manager.addRequest object request infos).objects object =
      (manager.objects object).addRequest request.txnId request infos := by
    simp [GroupSessionManager.addRequest, GroupSessionManager.modifyObject]
  rw [hobject] at hshare
  rcases mem_iterShares.mp hshare with hshared | ⟨requestId, request', infos', hpending, hinfo⟩
  · exact h.within key info (mem_iterShares.mpr (.inl hshared))
  · rcases lookup_insert_cases hpending with ⟨-, heq⟩ | ⟨-, hpending⟩
    · cases heq
      exact hallowed key info hinfo
    · exact h.within key info
        (mem_iterShares.mpr (.inr ⟨requestId, request', infos', hpending, hinfo⟩))

theorem encryptRequest {olm : DeviceData → RoomKeyEncryption} {devices : List DeviceData}
    (hdevices : ∀ device ∈ devices, allowed (device.userId, device.deviceId)) :
    Sharing sent roomId object allowed changed
      (manager.encryptRequest object olm devices).2 := by
  unfold GroupSessionManager.encryptRequest
  cases hkeys : encryptSessionFor (manager.objects object) olm devices with
  | none => exact h
  | some keys =>
    have hfor := keysFor_encryptSessionFor hkeys
    simp only
    split
    · exact h
    · refine h.addRequest hfor.carries fun key info hinfo => ?_
      obtain ⟨device, hdevice, rfl⟩ := hfor.addressed key info hinfo
      exact hdevices device hdevice

end

theorem encryptForDevices (olm : DeviceData → RoomKeyEncryption) (pieces : List (List DeviceData))
    (h : Sharing sent roomId object allowed changed manager)
    (hdevices : ∀ devices ∈ pieces, ∀ device ∈ devices,
      allowed (device.userId, device.deviceId)) :
    Sharing sent roomId object allowed changed
      (GroupSessionManager.encryptForDevices object olm manager pieces).2 := by
  induction pieces generalizing manager with
  | nil => exact h
  | cons devices pieces ih =>
    exact ih (h.encryptRequest (hdevices devices (by simp)))
      fun devices' hdevices' => hdevices devices' (by simp [hdevices'])

section

variable (h : Sharing sent roomId object allowed changed manager)
include h

theorem queueWithheld {devices : List (DeviceData × WithheldCode)} :
    Sharing sent roomId object allowed changed (manager.queueWithheld object devices) := by
  unfold GroupSessionManager.queueWithheld
  simp only
  split
  · exact h
  · refine h.addRequest (fun key id index hlookup => ?_) fun key info hinfo => ?_
    · rcases exists_of_lookup_foldl hlookup with hempty | ⟨entry, hentry⟩
      · simp at hempty
      · cases hentry
    · rcases exists_of_lookup_foldl hinfo with hempty | ⟨entry, hentry⟩
      · simp at hempty
      · cases hentry

theorem markAsShared :
    Sharing sent roomId object allowed changed
      (manager.modifyObject object OutboundGroupSession.markAsShared) := by
  refine ⟨h.recorded.touch h.object_lt (fun _ => rfl) (fun _ => rfl) (fun _ => rfl)
    fun _ => rfl, h.current, ?_, h.changed_lt⟩
  have hobject : (manager.modifyObject object OutboundGroupSession.markAsShared).objects object =
      (manager.objects object).markAsShared := by
    simp [GroupSessionManager.modifyObject]
  rw [hobject]
  exact h.within

theorem mono_changed {changed' : List ℕ}
    (hsub : ∀ other ∈ changed', other ∈ changed ∨ other = object) :
    Sharing sent roomId object allowed changed' manager := by
  refine ⟨h.recorded, h.current, h.within, fun other hother => ?_⟩
  rcases hsub other hother with hmem | rfl
  · exact h.changed_lt other hmem
  · exact h.object_lt

end

theorem handleWithheldDevices (devices : List (DeviceData × WithheldCode))
    (h : Sharing sent roomId object allowed changed manager) :
    Sharing sent roomId object allowed changed
      (manager.handleWithheldDevices object devices) := by
  unfold GroupSessionManager.handleWithheldDevices
  generalize chunks maxToDeviceMessages _ = pieces
  induction pieces generalizing manager with
  | nil => exact h
  | cons piece pieces ih => exact ih h.queueWithheld

theorem saveChanges (h : Sharing sent roomId object allowed changes.outboundGroupSessions manager) :
    Sharing sent roomId object allowed [] (manager.saveChanges changes) := by
  obtain ⟨hobjects, -, hsessions⟩ := saveChanges_frame manager changes
  refine ⟨h.recorded.saveChanges h.changed_lt, ?_, ?_, by simp⟩
  · rw [hsessions]
    exact h.current
  · rw [hobjects]
    exact h.within

theorem distribute (call : ShareCall) {result : CollectRecipientsResult}
    (h : Sharing sent roomId object (IsRecipient result) changes.outboundGroupSessions manager) :
    Sharing sent roomId object (IsRecipient result) []
      (manager.distribute object call changes result).2 := by
  have hdevices : ∀ devices ∈ chunks maxToDeviceMessages (devicesToShareWith
      (manager.objects object) (result.devices.flatMap Prod.snd)), ∀ device ∈ devices,
      IsRecipient result (device.userId, device.deviceId) := by
    intro devices hpiece device hdevice
    have hshare := mem_of_mem_chunks hpiece hdevice
    exact ⟨device, mem_of_mem_filter hshare, rfl⟩
  have hencrypted := h.encryptForDevices call.olm _ hdevices
  unfold GroupSessionManager.distribute
  simp only
  generalize GroupSessionManager.encryptForDevices object call.olm manager
    (chunks maxToDeviceMessages (devicesToShareWith (manager.objects object)
      (result.devices.flatMap Prod.snd))) = encrypted at hencrypted ⊢
  obtain ⟨noOlm, queued⟩ := encrypted
  cases noOlm with
  | none => exact hencrypted.mono_changed (by simp)
  | some noOlm =>
    have hwithheld := hencrypted.handleWithheldDevices (result.withheldDevices ++ noOlm)
    simp only
    split
    · refine (hwithheld.markAsShared.mono_changed ?_).saveChanges
      intro other hother
      split at hother
      · simpa using hother
      · exact .inr (by simpa using hother)
    · refine (hwithheld.mono_changed ?_).saveChanges
      intro other hother
      split at hother
      · exact .inl hother
      · exact .inr (by simpa using hother)

end Sharing

section

variable (h : Recorded manager sent)
include h

theorem sharing_of_created {changed : List ℕ}
    (hchanged : ∀ other ∈ changed, other < manager.nextObject)
    (hcreated : Created manager roomId settings now object manager') :
    Sharing sent roomId object allowed (changed ++ [object]) manager' := by
  refine ⟨h.created hcreated, ?_, fun key info hshare => ?_, fun other hother => ?_⟩
  · rw [hcreated.sessions_eq, lookup_insert]
  · rcases mem_iterShares.mp hshare with hshared | ⟨requestId, request, infos, hpending, -⟩
    · simp [hcreated.isNew.sharedWithSet_eq] at hshared
    · simp [hcreated.isNew.toShareWithSet_eq] at hpending
  · rw [hcreated.nextObject_eq]
    rcases mem_append.mp hother with hmem | hmem
    · have := hchanged other hmem
      omega
    · rw [mem_singleton.mp hmem, hcreated.object_eq]
      omega

/-- The session of the room at the start of a call. -/
theorem prepareSession_cases {result : Except ShareError (ℕ × Changes library)}
    (hprepare : manager.prepareSession call = (result, manager')) :
    Recorded manager' sent ∧ ∀ object changes, result = .ok (object, changes) →
      manager'.sessions.lookup call.roomId = some object ∧
        ∀ other ∈ changes.outboundGroupSessions, other < manager'.nextObject := by
  unfold prepareSession at hprepare
  obtain ⟨got, next, hgot⟩ := exists_pair (manager.getOrCreateOutboundSession call.roomId
    call.settings call.now)
  rw [hgot] at hprepare
  have hload := h.getOrLoad_eq call.roomId
  rcases getOrCreateOutboundSession_cases hgot with
    ⟨rfl, rfl⟩ | ⟨object, rfl, hcreated, -⟩ | ⟨object, rfl, hobject, rfl, -, -⟩
  · cases hprepare
    rw [hload]
    exact ⟨h, by simp⟩
  · rw [hload] at hcreated
    have hsharing : Sharing sent call.roomId object (fun _ => True) ([] ++ [object]) next :=
      sharing_of_created h (by simp) hcreated
    simp only at hprepare
    split at hprepare
    · cases hprepare
      exact ⟨hsharing.recorded, by simp⟩
    · cases hprepare
      refine ⟨hsharing.recorded, ?_⟩
      rintro object' changes ⟨⟩
      exact ⟨hsharing.current, hsharing.changed_lt⟩
  · rw [hload] at hobject hprepare
    cases hprepare
    refine ⟨h, ?_⟩
    rintro object' changes ⟨⟩
    exact ⟨hobject, by simp⟩

/-- A call keeps the record, and when it succeeds the session that the room is left with has
gone to recipients of the call only. -/
theorem shareRoomKey_cases {result : Except ShareError (List ToDeviceRequest)}
    (hshare : manager.shareRoomKey call = (result, manager')) :
    Recorded manager' sent ∧ ∀ requests, result = .ok requests →
      ∃ session collected object,
        collectSessionRecipients call.checks call.identities call.users call.settings session =
          .ok collected ∧
        Sharing sent call.roomId object (IsRecipient collected) [] manager' := by
  unfold shareRoomKey at hshare
  obtain ⟨prepared, next, hprepare⟩ := exists_pair (manager.prepareSession call)
  obtain ⟨hnext, hprepared⟩ := prepareSession_cases h hprepare
  rw [hprepare] at hshare
  cases prepared with
  | error error =>
    cases hshare
    exact ⟨hnext, by simp⟩
  | ok prepared =>
    obtain ⟨object, changes⟩ := prepared
    obtain ⟨hcurrent, hchanged⟩ := hprepared object changes rfl
    cases hcollect : collectSessionRecipients call.checks call.identities call.users
        call.settings (next.objects object) with
    | error error =>
      simp only [hcollect] at hshare
      cases hshare
      exact ⟨hnext, by simp⟩
    | ok collected =>
      simp only [hcollect] at hshare
      -- the session is kept, or a new one takes its place
      have hrotate : ∀ rotated after, next.maybeRotateGroupSession object call changes
            collected.shouldRotate = (rotated, after) →
          Recorded after sent ∧ ∀ object changes, rotated = .ok (object, changes) →
            Sharing sent call.roomId object (IsRecipient collected)
              changes.outboundGroupSessions after := by
        intro rotated after hrotate
        unfold maybeRotateGroupSession at hrotate
        cases hshould : collected.shouldRotate with
        | false =>
          simp only [hshould, Bool.false_eq_true, if_false] at hrotate
          cases hrotate
          refine ⟨hnext, ?_⟩
          rintro object changes ⟨⟩
          exact ⟨hnext, hcurrent, sharesWithin_of_not_shouldRotate hcollect hshould, hchanged⟩
        | true =>
          simp only [hshould, if_true] at hrotate
          obtain ⟨created, start, hcreate⟩ := exists_pair (next.createOutboundGroupSession
            call.roomId call.settings call.now)
          rw [hcreate] at hrotate
          rcases createOutboundGroupSession_cases hcreate with
            ⟨rfl, rfl, -⟩ | ⟨object, rfl, hcreated⟩
          · cases hrotate
            exact ⟨hnext, by simp⟩
          · have hsharing : Sharing sent call.roomId object (IsRecipient collected)
                (changes.outboundGroupSessions ++ [object]) start :=
              sharing_of_created hnext hchanged hcreated
            simp only at hrotate
            split at hrotate
            · cases hrotate
              exact ⟨hsharing.recorded, by simp⟩
            · cases hrotate
              refine ⟨hsharing.recorded, ?_⟩
              rintro object changes ⟨⟩
              exact hsharing
      obtain ⟨rotated, after, hafter⟩ := exists_pair (next.maybeRotateGroupSession object call
        changes collected.shouldRotate)
      obtain ⟨hrecorded, hsharing⟩ := hrotate rotated after hafter
      rw [hafter] at hshare
      cases rotated with
      | error error =>
        cases hshare
        exact ⟨hrecorded, by simp⟩
      | ok rotated =>
        obtain ⟨object', changes'⟩ := rotated
        have hdone := (hsharing object' changes' rfl).distribute call
        simp only at hshare
        rw [hshare] at hdone
        exact ⟨hdone.recorded, fun requests _ => ⟨_, collected, object', hcollect, hdone⟩⟩

theorem Recorded.invalidateGroupSession (roomId : String) :
    Recorded (manager.invalidateGroupSession roomId).2 sent := by
  unfold GroupSessionManager.invalidateGroupSession
  rw [h.getOrLoad_eq roomId]
  cases hcached : manager.sessions.lookup roomId with
  | none => exact h
  | some object =>
    have hlt := h.session_lt roomId object hcached
    have htouched : Recorded (manager.modifyObject object OutboundGroupSession.invalidateSession)
        sent := h.touch hlt (fun _ => rfl) (fun _ => rfl) (fun _ => rfl) fun _ => rfl
    exact htouched.saveOutbound hlt

theorem Recorded.encrypt (roomId : String) (now : ℕ) :
    Recorded (manager.encrypt roomId now).2 sent := by
  unfold GroupSessionManager.encrypt
  rw [h.getOrLoad_eq roomId]
  cases hcached : manager.sessions.lookup roomId with
  | none => exact h
  | some object =>
    have hlt := h.session_lt roomId object hcached
    simp only
    split
    · exact h
    · have hmodified : Recorded (manager.modifyObject object fun _ =>
          (manager.objects object).encryptHelper.2) sent :=
        h.modifyObject rfl rfl (h.pending object hlt) fun _ key info hinfo => ⟨info, hinfo⟩
      exact hmodified.saveOutbound hlt

theorem Recorded.eraseSharing :
    Recorded { manager with
      sessionsBeingShared := manager.sessionsBeingShared.erase requestId } sent :=
  { h with sharing_lt := fun id other hid =>
      h.sharing_lt id other (lookup_of_erase hid).2 }

/-- One more request was sent, whose keys are recorded with their session. -/
theorem Recorded.send (hobject : object < manager.nextObject)
    (hrequest : ∀ key id index, request.messages.lookup key = some (.roomKey id index) →
      id = (manager.objects object).sessionId ∧
        ∃ info, (manager.objects object).sharedWithSet.lookup key = some (.shared info)) :
    Recorded manager (sent ++ [request]) := by
  refine ⟨h.session_lt, h.sharing_lt, h.cached, h.stored, h.id_lt, h.id_inj, h.pending,
    forall_mem_append.mpr ⟨h.sent_lt, forall_mem_singleton.mpr ?_⟩,
    forall_mem_append.mpr ⟨h.recorded, forall_mem_singleton.mpr ?_⟩⟩
  · intro key id index hkey
    rw [(hrequest key id index hkey).1]
    exact h.id_lt object hobject
  · intro key id index hkey current hcurrent hid
    obtain ⟨hsession, hinfo⟩ := hrequest key id index hkey
    obtain ⟨room, hroom⟩ := hcurrent
    have hlt := h.session_lt room current hroom
    rw [h.id_inj current hlt object hobject (hid.trans hsession)]
    exact hinfo

end

/-- A session after one of its requests was sent. -/
structure Marked (session : OutboundGroupSession) (requestId : ℕ) (infos : ShareInfoSet)
    (marked : OutboundGroupSession) : Prop where
  sessionId_eq : marked.sessionId = session.sessionId
  roomId_eq : marked.roomId = session.roomId
  sharedWithSet_eq : marked.sharedWithSet = infos ∪ session.sharedWithSet
  toShareWithSet_eq : marked.toShareWithSet = session.toShareWithSet.erase requestId

/-- Marking a request as sent records the keys it has brought. -/
theorem Recorded.markRequestAsSent (h : Recorded manager sent)
    (hcareful : Careful manager (.markRequestAsSent requestId)) :
    Recorded (manager.markRequestAsSent requestId).2
      (sent ++ ((queuedRequest manager requestId).map Prod.fst).toList) := by
  unfold GroupSessionManager.markRequestAsSent queuedRequest
  cases hbeing : manager.sessionsBeingShared.lookup requestId with
  | none => simpa using h
  | some object =>
    have hlt := h.sharing_lt requestId object hbeing
    cases hqueued : (manager.objects object).toShareWithSet.lookup requestId with
    | none =>
      have hsame : (manager.objects object).markRequestAsSent requestId =
          ([], manager.objects object) := by simp [OutboundGroupSession.markRequestAsSent, hqueued]
      simp only [hsame, bind_some, hqueued, map_none, toList_none, append_nil]
      have hmodified : Recorded (manager.modifyObject object fun _ => manager.objects object)
          sent := h.modifyObject rfl rfl (h.pending object hlt) fun _ key info hinfo =>
            ⟨info, hinfo⟩
      exact (hmodified.eraseSharing).saveOutbound hlt
    | some queued =>
      obtain ⟨request, infos⟩ := queued
      have hmarked : Marked (manager.objects object) requestId infos
          ((manager.objects object).markRequestAsSent requestId).2 := by
        unfold OutboundGroupSession.markRequestAsSent
        simp only [hqueued]
        split <;> exact ⟨rfl, rfl, rfl, rfl⟩
      have hcarries := h.pending object hlt requestId request infos hqueued
      have hmodified : Recorded (manager.modifyObject object fun _ =>
          ((manager.objects object).markRequestAsSent requestId).2) sent := by
        refine h.modifyObject hmarked.sessionId_eq hmarked.roomId_eq ?_ ?_
        · intro id request' infos' hlookup
          rw [hmarked.toShareWithSet_eq] at hlookup
          exact h.pending object hlt id request' infos' (lookup_of_erase hlookup).2
        · -- an info of the request replaces the recorded one, but not by a withheld code
          intro hcurrent key info hinfo
          rw [hmarked.sharedWithSet_eq]
          cases hnew : infos.lookup key with
          | none =>
            have hnot : key ∉ infos := lookup_eq_none.mp hnew
            exact ⟨info, by rw [lookup_union_right hnot]; exact hinfo⟩
          | some new =>
            have hmem : key ∈ infos := by
              rw [← lookup_isSome, hnew]
              rfl
            cases new with
            | shared info' =>
              exact ⟨info', by rw [lookup_union_left hmem]; exact hnew⟩
            | withheld code =>
              exact absurd hinfo (hcareful object request infos hbeing hcurrent hqueued key
                code info hnew)
      simp only [bind_some, hqueued, map_some, toList_some]
      refine ((hmodified.send hlt fun key id index hkey => ?_).eraseSharing).saveOutbound
        hlt
      obtain ⟨hid, info, hinfo⟩ := hcarries key id index hkey
      have hobject : (manager.modifyObject object fun _ =>
          ((manager.objects object).markRequestAsSent requestId).2).objects object =
            ((manager.objects object).markRequestAsSent requestId).2 := by
        simp [GroupSessionManager.modifyObject]
      have hmem : key ∈ infos := by
        rw [← lookup_isSome, hinfo]
        rfl
      rw [hobject, hmarked.sessionId_eq, hmarked.sharedWithSet_eq, lookup_union_left hmem]
      exact ⟨hid, info, hinfo⟩

def World.Covered (world : World library) : Prop :=
  Recorded world.manager world.sent

theorem World.Covered.step {world' : World library} {action : Action} (h : world.Covered)
    (hstep : Step world action world') : world'.Covered := by
  obtain ⟨hcareful, rfl⟩ := hstep
  cases action with
  | shareRoomKey call => exact (shareRoomKey_cases h rfl).1
  | markRequestAsSent requestId => exact Recorded.markRequestAsSent h hcareful
  | invalidateGroupSession roomId => exact Recorded.invalidateGroupSession h roomId
  | encrypt roomId now => exact Recorded.encrypt h roomId now

/-- In a run that marks requests as sent with care, a call that succeeds leaves the room with
a session whose key no request, sent or queued, brings to a device that is not allowed. -/
theorem key_stays_with_recipients {actions : List Action} {world : World library}
    (hstart : Unused manager) (hrun : Trace Step ⟨manager, []⟩ actions world)
    (call : ShareCall) (requests : List ToDeviceRequest)
    (hshare : (world.manager.shareRoomKey call).1 = .ok requests) :
    ∃ collected object,
      collectRecipientsForShareStrategy call.checks none call.identities call.users
        call.settings.sharingStrategy = .ok collected ∧
      ((world.act (.shareRoomKey call)).manager.getOrLoad call.roomId).1 = some object ∧
      ∀ request, (request ∈ (world.act (.shareRoomKey call)).sent ∨
          ∃ other < (world.act (.shareRoomKey call)).manager.nextObject,
            request ∈ ((world.act (.shareRoomKey call)).manager.objects other).pendingRequests) →
        ∀ user device index, request.messages.lookup (user, device) = some (.roomKey
            ((world.act (.shareRoomKey call)).manager.objects object).sessionId index) →
          ∃ recipient ∈ recipients collected,
            recipient.userId = user ∧ recipient.deviceId = device := by
  have hrecorded : world.Covered :=
    hrun.preserves (fun _ _ _ h hstep => World.Covered.step h hstep) (recorded_of_unused hstart)
  obtain ⟨hafter, hok⟩ := shareRoomKey_cases hrecorded (Prod.mk.eta).symm
  obtain ⟨session, result, object, hcollect, hsharing⟩ := hok requests hshare
  obtain ⟨collected, hcollected, hsame⟩ := recipients_of_collectSessionRecipients hcollect
  refine ⟨collected, object, hcollected, ?_, ?_⟩
  · have hload := hafter.getOrLoad_eq call.roomId
    rw [hsharing.current] at hload
    exact congrArg Prod.fst hload
  · intro request hrequest user device index hkey
    have hshared : ∃ info, ((user, device), .shared info) ∈
        ((world.manager.shareRoomKey call).2.objects object).iterShares := by
      rcases hrequest with hsent | ⟨other, hother, hpending⟩
      · obtain ⟨info, hinfo⟩ := hafter.recorded request hsent (user, device) _ index hkey object
          ⟨call.roomId, hsharing.current⟩ rfl
        exact ⟨info, mem_iterShares.mpr (.inl hinfo)⟩
      · obtain ⟨⟨request', infos⟩, hvalue, rfl⟩ := mem_map.mp hpending
        obtain ⟨requestId, hlookup⟩ := (mem_values _ _).mp hvalue
        obtain ⟨hid, info, hinfo⟩ := hafter.pending other hother requestId request' infos hlookup
          (user, device) _ index hkey
        have heq : object = other := hafter.id_inj object hsharing.object_lt other hother hid
        subst heq
        exact ⟨info, mem_iterShares.mpr (.inr ⟨requestId, request', infos, hlookup, hinfo⟩)⟩
    obtain ⟨info, hinfo⟩ := hshared
    obtain ⟨recipient, hmem, hpair⟩ := hsame _ (hsharing.within _ info hinfo)
    exact ⟨recipient, hmem, congrArg Prod.fst hpair, congrArg Prod.snd hpair⟩

/-- Our own device and a phone of the other user, with this local trust. -/
def phoneStore (trustState : LocalTrust) : IdentityStore where
  userId := "@me"
  deviceId := "LAPTOP"
  devices user :=
    if user = "@me" then [deviceOf "@me" "LAPTOP" .unset]
    else if user = "@other" then [deviceOf "@other" "PHONE" trustState] else []
  identities _ := none
  userId_of_mem user device h := by
    split_ifs at h with hme hother
    · rw [mem_singleton.mp h, hme]
      rfl
    · rw [mem_singleton.mp h, hother]
      rfl
    · exact absurd h not_mem_nil
  nodup_deviceIds user := by
    split_ifs <;> simp

/-- Share the key of a room with the phone, which we have an Olm session with. -/
def shareWithPhone (trustState : LocalTrust) : ShareCall where
  roomId := "!room"
  users := ["@me", "@other"]
  settings := weeklySettings
  identities := phoneStore trustState
  checks := listedSignatures
  ownSenderData := some .unknown
  olm _ := .encrypted "phone"
  now := 0

def run (actions : List Action) : World numberedSessions := actions.foldl World.act ⟨newManager, []⟩

def bringingActions : List Action :=
  [.shareRoomKey (shareWithPhone .unset), .markRequestAsSent 0]

/-- The phone got the key and was blacklisted then: the next call makes a new session. -/
theorem blacklisted_phone_forces_rotation :
    ∃ object, (((run bringingActions).act
        (.shareRoomKey (shareWithPhone .blackListed))).manager.getOrLoad "!room").1 =
          some object ∧
      ∀ request ∈ (run bringingActions).sent,
        ∀ index, request.messages.lookup ("@other", "PHONE") ≠ some (.roomKey
          (((run bringingActions).act
            (.shareRoomKey (shareWithPhone .blackListed))).manager.objects object).sessionId
          index) := by
  have hrun : Trace Step ⟨newManager, []⟩ bringingActions (run bringingActions) := by
    refine .cons ⟨trivial, rfl⟩ (.cons ⟨?_, rfl⟩ (.nil _))
    -- nothing is recorded before the first request is sent
    intro object request infos hbeing _ _ key code info _ hshared
    have hobject : some object = some 0 := hbeing.symm.trans rfl
    rw [Option.some.inj hobject] at hshared
    have hinfo : some (ShareInfo.shared info) = none := hshared.symm.trans rfl
    cases hinfo
  obtain ⟨collected, object, hcollected, hload, hkeys⟩ := key_stays_with_recipients
    unused_newManager hrun (shareWithPhone .blackListed) _ rfl
  have hnone : recipients collected = [] := by
    cases hcollected
    rfl
  refine ⟨object, hload, fun request hrequest index hkey => ?_⟩
  obtain ⟨recipient, hmem, -⟩ := hkeys request (.inl hrequest) "@other" "PHONE" index hkey
  rw [hnone] at hmem
  exact absurd hmem not_mem_nil

/-- The key is withheld from the blacklisted phone, the phone gets it later, and the notice is
marked as sent after the key. -/
def hidingActions : List Action :=
  [.shareRoomKey (shareWithPhone .blackListed), .shareRoomKey (shareWithPhone .unset),
    .markRequestAsSent 1, .markRequestAsSent 0]

/-- The late notice hides that the phone has the key: when it is blacklisted again, the session
stays in use. -/
theorem late_withheld_notice_hides_share :
    ∃ requests collected object,
      ((run hidingActions).manager.shareRoomKey (shareWithPhone .blackListed)).1 =
        .ok requests ∧
      collectRecipientsForShareStrategy listedSignatures none (phoneStore .blackListed)
        ["@me", "@other"] .allDevices = .ok collected ∧ recipients collected = [] ∧
      (((run hidingActions).act
        (.shareRoomKey (shareWithPhone .blackListed))).manager.getOrLoad "!room").1 =
          some object ∧
      ∃ request ∈ (run hidingActions).sent,
        request.messages.lookup ("@other", "PHONE") = some (.roomKey
          (((run hidingActions).act
            (.shareRoomKey (shareWithPhone .blackListed))).manager.objects object).sessionId
          0) := by
  refine ⟨_, _, 0, rfl, rfl, rfl, rfl, _, mem_cons_self, ?_⟩
  decide

end MatrixSdk.Oversharing

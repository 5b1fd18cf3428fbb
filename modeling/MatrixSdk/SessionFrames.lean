import MatrixSdk.KeyShares

/-!
What handing out a key leaves alone. Queueing requests changes the record of whom a session is
shared with, and nothing else of it; the other sessions, the cache and the store stay as they
are until the changes of the call are saved.
-/
namespace MatrixSdk.SessionFrames

open KeyedMaps DeviceTrust OutboundSessions ShareStrategies RecipientLists Option List
open GroupSessionManagers KeyShares GroupSessionManager OutboundGroupSession

variable {Ratchet : Type} {library : SessionLibrary Ratchet}

/-- Two states of a session that differ in the record of its shares at most. -/
structure Alike (session other : OutboundGroupSession) : Prop where
  sessionId_eq : other.sessionId = session.sessionId
  roomId_eq : other.roomId = session.roomId
  creationTime_eq : other.creationTime = session.creationTime
  messageCount_eq : other.messageCount = session.messageCount
  messageIndex_eq : other.messageIndex = session.messageIndex
  invalidated_eq : other.invalidated = session.invalidated
  settings_eq : other.settings = session.settings

namespace Alike

variable {session other another : OutboundGroupSession}

theorem refl (session : OutboundGroupSession) : Alike session session :=
  ⟨rfl, rfl, rfl, rfl, rfl, rfl, rfl⟩

theorem trans (h : Alike session other) (h' : Alike other another) : Alike session another where
  sessionId_eq := h'.sessionId_eq.trans h.sessionId_eq
  roomId_eq := h'.roomId_eq.trans h.roomId_eq
  creationTime_eq := h'.creationTime_eq.trans h.creationTime_eq
  messageCount_eq := h'.messageCount_eq.trans h.messageCount_eq
  messageIndex_eq := h'.messageIndex_eq.trans h.messageIndex_eq
  invalidated_eq := h'.invalidated_eq.trans h.invalidated_eq
  settings_eq := h'.settings_eq.trans h.settings_eq

theorem expired_eq (h : Alike session other) (now : ℕ) :
    other.expired now = session.expired now := by
  unfold expired elapsed
    messageLimit safeRotationPeriod
  rw [h.messageCount_eq, h.settings_eq, h.creationTime_eq]

theorem markRequestAsSent (session : OutboundGroupSession) (requestId : ℕ) :
    Alike session (session.markRequestAsSent requestId).2 := by
  unfold OutboundGroupSession.markRequestAsSent
  split
  · exact .refl session
  · simp only
    split
    · exact ⟨rfl, rfl, rfl, rfl, rfl, rfl, rfl⟩
    · exact ⟨rfl, rfl, rfl, rfl, rfl, rfl, rfl⟩

end Alike

/-- Requests were queued with this object, and nothing else has happened. -/
structure Queued (object : ℕ) (manager manager' : GroupSessionManager library) : Prop where
  alike : ∀ other, Alike (manager.objects other) (manager'.objects other)
  nextObject_eq : manager'.nextObject = manager.nextObject
  sessions_eq : manager'.sessions = manager.sessions
  store_eq : manager'.store = manager.store
  sharing : ∀ requestId other, manager'.sessionsBeingShared.lookup requestId = some other →
    manager.sessionsBeingShared.lookup requestId = some other ∨ other = object

namespace Queued

variable {object : ℕ} {manager manager' manager'' : GroupSessionManager library}

theorem refl (object : ℕ) (manager : GroupSessionManager library) : Queued object manager manager :=
  ⟨fun _ => .refl _, rfl, rfl, rfl, fun _ _ h => .inl h⟩

theorem trans (h : Queued object manager manager') (h' : Queued object manager' manager'') :
    Queued object manager manager'' where
  alike other := (h.alike other).trans (h'.alike other)
  nextObject_eq := h'.nextObject_eq.trans h.nextObject_eq
  sessions_eq := h'.sessions_eq.trans h.sessions_eq
  store_eq := h'.store_eq.trans h.store_eq
  sharing requestId other hlookup := by
    rcases h'.sharing requestId other hlookup with hold | hobject
    · exact h.sharing requestId other hold
    · exact .inr hobject

theorem modifyObject {f : OutboundGroupSession → OutboundGroupSession}
    (hf : Alike (manager.objects object) (f (manager.objects object))) :
    Queued object manager (manager.modifyObject object f) := by
  refine ⟨fun other => ?_, rfl, rfl, rfl, fun _ _ h => .inl h⟩
  by_cases hother : other = object
  · rw [hother]
    simpa [GroupSessionManager.modifyObject] using hf
  · simpa [GroupSessionManager.modifyObject, hother] using Alike.refl _

theorem markAsShared (object : ℕ) (manager : GroupSessionManager library) :
    Queued object manager (manager.modifyObject object markAsShared) :=
  modifyObject ⟨rfl, rfl, rfl, rfl, rfl, rfl, rfl⟩

theorem addRequest (object : ℕ) (manager : GroupSessionManager library) (request : ToDeviceRequest)
    (infos : ShareInfoSet) : Queued object manager (manager.addRequest object request infos) := by
  have hmodified : Queued object manager (manager.modifyObject object fun session =>
      session.addRequest request.txnId request infos) :=
    modifyObject ⟨rfl, rfl, rfl, rfl, rfl, rfl, rfl⟩
  refine ⟨hmodified.alike, rfl, rfl, rfl, fun requestId other hlookup => ?_⟩
  rcases KeyedMap.lookup_insert_cases hlookup with ⟨-, hother⟩ | ⟨-, hlookup⟩
  · exact .inr hother.symm
  · exact .inl hlookup

theorem encryptRequest (object : ℕ) (olm : DeviceData → RoomKeyEncryption)
    (manager : GroupSessionManager library) (devices : List DeviceData) :
    Queued object manager (manager.encryptRequest object olm devices).2 := by
  unfold GroupSessionManager.encryptRequest
  split
  · exact .refl object manager
  · split
    · exact .refl object manager
    · exact .addRequest object manager _ _

theorem encryptForDevices (object : ℕ) (olm : DeviceData → RoomKeyEncryption)
    (manager : GroupSessionManager library) (pieces : List (List DeviceData)) :
    Queued object manager (GroupSessionManager.encryptForDevices object olm manager pieces).2 := by
  induction pieces generalizing manager with
  | nil => exact .refl object manager
  | cons devices pieces ih =>
    exact (Queued.encryptRequest object olm manager devices).trans (ih _)

theorem handleWithheldDevices (object : ℕ) (manager : GroupSessionManager library)
    (devices : List (DeviceData × WithheldCode)) :
    Queued object manager (manager.handleWithheldDevices object devices) := by
  unfold GroupSessionManager.handleWithheldDevices
  generalize chunks maxToDeviceMessages _ = pieces
  induction pieces generalizing manager with
  | nil => exact .refl object manager
  | cons piece pieces ih =>
    have hpiece : Queued object manager (manager.queueWithheld object piece) := by
      unfold GroupSessionManager.queueWithheld
      simp only
      split
      · exact .refl object manager
      · exact .addRequest object manager _ _
    exact hpiece.trans (ih _)

end Queued

/-- Saving changes the store only. -/
theorem saveChanges_frame (manager : GroupSessionManager library) (changes : Changes library) :
    (manager.saveChanges changes).objects = manager.objects ∧
    (manager.saveChanges changes).nextObject = manager.nextObject ∧
    (manager.saveChanges changes).sessions = manager.sessions := by
  have houtbound : ∀ (objects : List ℕ) (manager : GroupSessionManager library),
      (objects.foldl saveOutbound manager).objects = manager.objects ∧
      (objects.foldl saveOutbound manager).nextObject = manager.nextObject ∧
      (objects.foldl saveOutbound manager).sessions = manager.sessions := by
    intro objects
    induction objects with
    | nil => exact fun _ => ⟨rfl, rfl, rfl⟩
    | cons object objects ih => exact fun manager => ih (manager.saveOutbound object)
  have hinbound : ∀ (sessions : List _) (manager : GroupSessionManager library),
      (sessions.foldl saveInbound manager).objects = manager.objects ∧
      (sessions.foldl saveInbound manager).nextObject = manager.nextObject ∧
      (sessions.foldl saveInbound manager).sessions = manager.sessions := by
    intro sessions
    induction sessions with
    | nil => exact fun _ => ⟨rfl, rfl, rfl⟩
    | cons session sessions ih => exact fun manager => ih (manager.saveInbound session)
  obtain ⟨hobjects, hnext, hsessions⟩ := houtbound changes.outboundGroupSessions manager
  obtain ⟨hobjects', hnext', hsessions'⟩ := hinbound changes.inboundGroupSessions
    (changes.outboundGroupSessions.foldl saveOutbound manager)
  exact ⟨hobjects'.trans hobjects, hnext'.trans hnext, hsessions'.trans hsessions⟩

variable {olm : DeviceData → RoomKeyEncryption} {object : ℕ}

theorem encryptSessionFor_ne_none {session : OutboundGroupSession} {devices : List DeviceData}
    (h : ∀ device ∈ devices, olm device ≠ .failed) :
    encryptSessionFor session olm devices ≠ none := by
  unfold encryptSessionFor
  generalize EncryptedKeys.empty = keys
  induction devices generalizing keys with
  | nil => simp
  | cons device devices ih =>
    have hrest := ih fun other hother => h other (by simp [hother])
    rw [foldlM_cons]
    cases hdevice : olm device with
    | encrypted | missingSession =>
      simp only [encryptRoomKey, hdevice, bind_eq_bind, bind_some]
      exact hrest _
    | failed => exact absurd hdevice (h device (by simp))

variable {manager : GroupSessionManager library}

/-- The key is handed out unless an encryption for one of the devices fails. -/
theorem encryptForDevices_ne_none {pieces : List (List DeviceData)}
    (h : ∀ devices ∈ pieces, ∀ device ∈ devices, olm device ≠ .failed) :
    (encryptForDevices object olm manager pieces).1 ≠ none := by
  induction pieces generalizing manager with
  | nil => simp [encryptForDevices]
  | cons devices pieces ih =>
    have hrest : (encryptForDevices object olm (manager.encryptRequest object olm devices).2
        pieces).1 ≠ none := ih fun devices' hdevices' => h devices' (by simp [hdevices'])
    have hfirst : (manager.encryptRequest object olm devices).1 ≠ none := by
      unfold encryptRequest
      cases hkeys : encryptSessionFor (manager.objects object) olm devices with
      | none => exact absurd hkeys (encryptSessionFor_ne_none (h devices (by simp)))
      | some keys =>
        simp only
        split
        · simp
        · simp
    unfold encryptForDevices
    obtain ⟨noOlm, hnoOlm⟩ := ne_none_iff_exists'.mp hfirst
    obtain ⟨restNoOlm, hrestNoOlm⟩ := ne_none_iff_exists'.mp hrest
    simp only [hnoOlm, hrestNoOlm]
    simp

/-- The last part of a call queues its requests and then saves the changes, unless an
encryption has failed. -/
theorem distribute_cases {manager' : GroupSessionManager library} {call : ShareCall}
    {changes : Changes library}
    {collected : CollectRecipientsResult} {result : Except ShareError (List ToDeviceRequest)}
    (h : manager.distribute object call changes collected = (result, manager')) :
    ((∃ device ∈ recipients collected, call.olm device = .failed) ∧
      result = .error .olmEncryption ∧ Queued object manager manager') ∨
    ∃ requests middle outbound, result = .ok requests ∧ Queued object manager middle ∧
      (∀ other ∈ outbound, other ∈ changes.outboundGroupSessions ∨ other = object) ∧
      manager' = middle.saveChanges ⟨outbound, changes.inboundGroupSessions⟩ := by
  unfold distribute at h
  simp only at h
  generalize hdevices : devicesToShareWith (manager.objects object)
    (collected.devices.flatMap Prod.snd) = devices at h
  have hsub : ∀ device ∈ devices, device ∈ recipients collected := by
    intro device hdevice
    rw [← hdevices] at hdevice
    exact mem_of_mem_filter hdevice
  obtain ⟨saved, hsaved⟩ : ∃ saved, saved = if devices.isEmpty then changes
    else { changes with outboundGroupSessions := [object] } := ⟨_, rfl⟩
  have houtbound : ∀ other ∈ saved.outboundGroupSessions,
      other ∈ changes.outboundGroupSessions ∨ other = object := by
    intro other hother
    rw [hsaved] at hother
    split at hother
    · exact .inl hother
    · exact .inr (mem_singleton.mp hother)
  have hinbound : saved.inboundGroupSessions = changes.inboundGroupSessions := by
    rw [hsaved]
    split
    · rfl
    · rfl
  rw [← hsaved] at h
  have hencrypt := Queued.encryptForDevices object call.olm manager
    (chunks maxToDeviceMessages devices)
  obtain ⟨noOlm, encrypted, hpair⟩ := exists_pair (encryptForDevices object call.olm manager
    (chunks maxToDeviceMessages devices))
  rw [hpair] at h hencrypt
  cases noOlm with
  | none =>
    cases h
    refine .inl ⟨?_, rfl, hencrypt⟩
    by_contra hfail
    push Not at hfail
    have hsome : (encryptForDevices object call.olm manager
        (chunks maxToDeviceMessages devices)).1 ≠ none :=
      encryptForDevices_ne_none fun piece hpiece device hdevice =>
        hfail device (hsub device (mem_of_mem_chunks hpiece hdevice))
    rw [hpair] at hsome
    exact hsome rfl
  | some noOlm =>
    have hqueued := hencrypt.trans (.handleWithheldDevices object encrypted
      (collected.withheldDevices ++ noOlm))
    simp only at h
    split at h
    · have hshared := hqueued.trans (.markAsShared object _)
      cases h
      rw [hinbound]
      refine .inr ⟨_, _, _, rfl, hshared, ?_, rfl⟩
      intro other hother
      rcases mem_append.mp hother with hother | hother
      · exact houtbound other hother
      · exact .inr (mem_singleton.mp hother)
    · cases h
      obtain ⟨outbound, inbound⟩ := saved
      subst hinbound
      exact .inr ⟨_, _, _, rfl, hqueued, houtbound, rfl⟩

end MatrixSdk.SessionFrames

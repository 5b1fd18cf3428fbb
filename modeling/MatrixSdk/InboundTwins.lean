import MatrixSdk.SessionFrames

/-!
We can decrypt what we encrypt. A new outbound session is in the cache at once, while its
inbound twin is stored at the end of the call that has made it; so the twin is in the store
whenever the session is used, as long as no call that needs a new session fails.
-/
namespace MatrixSdk.InboundTwins

open KeyedMaps DeviceTrust OutboundSessions ShareStrategies RecipientLists InboundSessions Nat
open GroupSessionManagers KeyShares SessionFrames Traces GroupSessionManager KeyedMap List Function

variable {Ratchet : Type} {library : SessionLibrary Ratchet}

inductive Action where
  | shareRoomKey (call : ShareCall)
  | markRequestAsSent (requestId : ℕ)
  | invalidateGroupSession (roomId : String)
  | encrypt (roomId : String) (now : ℕ)
  | restart

variable (manager : GroupSessionManager library)

def act : Action → GroupSessionManager library
  | .shareRoomKey call => (manager.shareRoomKey call).2
  | .markRequestAsSent requestId => (manager.markRequestAsSent requestId).2
  | .invalidateGroupSession roomId => (manager.invalidateGroupSession roomId).2
  | .encrypt roomId now => (manager.encrypt roomId now).2
  | .restart => manager.restart

/-- The call can go on with the session that the room has. -/
def Reuses (call : ShareCall) : Prop :=
  ∃ object, (manager.getOrLoad call.roomId).1 = some object ∧
    ((manager.getOrLoad call.roomId).2.objects object).expired call.now = false ∧
    ((manager.getOrLoad call.roomId).2.objects object).invalidated = false ∧
    ∀ collected, collectSessionRecipients call.checks call.identities call.users call.settings
      ((manager.getOrLoad call.roomId).2.objects object) = .ok collected →
        collected.shouldRotate = false

/-- Nothing on the way of the call fails: our own sender data is found, and the recipients are
collected, and an encryption for one of them does not fail. -/
def Flawless (call : ShareCall) : Prop :=
  (∃ senderData, call.ownSenderData = some senderData) ∧
    ∃ collected, collectRecipientsForShareStrategy call.checks none call.identities call.users
        call.settings.sharingStrategy = .ok collected ∧
      ∀ device ∈ recipients collected, call.olm device ≠ .failed

/-- A call that needs a new session does not fail. -/
def Careful : Action → Prop
  | .shareRoomKey call => Reuses manager call ∨ Flawless call
  | .markRequestAsSent _ | .invalidateGroupSession _ | .encrypt .. | .restart => True

def Step (action : Action) (manager' : GroupSessionManager library) : Prop :=
  Careful manager action ∧ manager' = act manager action

/-- This inbound session decrypts what the outbound session will encrypt. -/
structure Decrypts (twin : InboundGroupSession library.toRatchetLibrary)
    (session : OutboundGroupSession) : Prop where
  key_eq : twin.key = (session.roomId, library.sessionId session.sessionId)
  index_le : twin.firstKnownIndex ≤ session.messageIndex

/-- The session has a twin in the store, or among the sessions that are still to be saved. -/
def HasTwin (unsaved : List (InboundGroupSession library.toRatchetLibrary))
    (store : CryptoStore library) (session : OutboundGroupSession) : Prop :=
  (∃ twin, store.inboundGroupSessions.get (session.roomId, library.sessionId session.sessionId) =
      some twin ∧ Decrypts twin session) ∨
    ∃ twin ∈ unsaved, Decrypts twin session

/-- Every outbound session, in memory or in the store, has its twin. -/
structure Twinned (unsaved : List (InboundGroupSession library.toRatchetLibrary))
    (manager : GroupSessionManager library) : Prop where
  fresh : ∀ twin ∈ unsaved, twin.firstKnownIndex = 0
  session_lt : ∀ roomId object, manager.sessions.lookup roomId = some object →
    object < manager.nextObject ∧ (manager.objects object).roomId = roomId
  sharing_lt : ∀ requestId object, manager.sessionsBeingShared.lookup requestId = some object →
    object < manager.nextObject
  made : ∀ object < manager.nextObject, HasTwin unsaved manager.store (manager.objects object)
  stored : ∀ roomId session, manager.store.outboundGroupSessions.lookup roomId = some session →
    HasTwin unsaved manager.store session ∧ session.roomId = roomId

variable {unsaved : List (InboundGroupSession library.toRatchetLibrary)}
  {store : CryptoStore library} {manager manager' : GroupSessionManager library}
  {session other : OutboundGroupSession} {object : ℕ}

theorem twinned_of_unused (h : Unused manager) : Twinned [] manager where
  fresh twin htwin := by simp at htwin
  session_lt roomId object hlookup := by simp [h.sessions] at hlookup
  sharing_lt requestId object hlookup := by simp [h.sessionsBeingShared] at hlookup
  made object hlt := by simp [h.objects] at hlt
  stored roomId session hlookup := by simp [h.store] at hlookup

variable {twin : InboundGroupSession library.toRatchetLibrary} {changes : Changes library}

namespace HasTwin

/-- A later state of the session has the same twin. -/
theorem later (h : HasTwin unsaved store session) (hid : other.sessionId = session.sessionId)
    (hroom : other.roomId = session.roomId) (hindex : session.messageIndex ≤ other.messageIndex) :
    HasTwin unsaved store other := by
  have hdecrypts (twin : InboundGroupSession library.toRatchetLibrary)
      (htwin : Decrypts twin session) : Decrypts twin other := by
    refine ⟨?_, htwin.index_le.trans hindex⟩
    rw [htwin.key_eq, hid, hroom]
  unfold HasTwin
  rw [hid, hroom]
  rcases h with ⟨twin, hget, htwin⟩ | ⟨twin, hmem, htwin⟩
  · exact .inl ⟨twin, hget, hdecrypts twin htwin⟩
  · exact .inr ⟨twin, hmem, hdecrypts twin htwin⟩

theorem append {more : List (InboundGroupSession library.toRatchetLibrary)}
    (h : HasTwin unsaved store session) : HasTwin (unsaved ++ more) store session := by
  rcases h with hstored | ⟨twin, hmem, htwin⟩
  · exact .inl hstored
  · exact .inr ⟨twin, mem_append_left more hmem, htwin⟩

/-- Save the first of the sessions. One that it replaces is not better, as it is fresh. -/
theorem save (hfresh : twin.firstKnownIndex = 0) (h : HasTwin (twin :: unsaved) store session) :
    HasTwin unsaved
      { store with inboundGroupSessions := store.inboundGroupSessions.save twin } session := by
  by_cases hkey : (session.roomId, library.sessionId session.sessionId) = twin.key
  · refine .inl ⟨twin, ?_, hkey.symm, ?_⟩
    · simp only [SessionStore.save, if_pos hkey]
    · rw [hfresh]
      exact zero_le _
  · rcases h with ⟨stored, hget, hstored⟩ | ⟨other, hmem, hother⟩
    · refine .inl ⟨stored, ?_, hstored⟩
      simp only [SessionStore.save, if_neg hkey]
      exact hget
    · rcases mem_cons.mp hmem with rfl | hmem
      · exact absurd hother.key_eq.symm hkey
      · exact .inr ⟨other, hmem, hother⟩

end HasTwin

namespace Twinned

section

variable (h : Twinned unsaved manager)
include h

theorem queued (hobject : object < manager.nextObject) (hqueued : Queued object manager manager') :
    Twinned unsaved manager' where
  fresh := h.fresh
  session_lt roomId other hlookup := by
    rw [hqueued.sessions_eq] at hlookup
    rw [hqueued.nextObject_eq, (hqueued.alike other).roomId_eq]
    exact h.session_lt roomId other hlookup
  sharing_lt requestId other hlookup := by
    rw [hqueued.nextObject_eq]
    rcases hqueued.sharing requestId other hlookup with hold | rfl
    · exact h.sharing_lt requestId other hold
    · exact hobject
  made other hlt := by
    rw [hqueued.nextObject_eq] at hlt
    rw [hqueued.store_eq]
    have halike := hqueued.alike other
    exact (h.made other hlt).later halike.sessionId_eq halike.roomId_eq
      halike.messageIndex_eq.ge
  stored roomId session hlookup := by
    rw [hqueued.store_eq] at hlookup ⊢
    exact h.stored roomId session hlookup

/-- Change a session in place, without turning its ratchet back. -/
theorem modifyObject {f : OutboundGroupSession → OutboundGroupSession}
    (hid : (f (manager.objects object)).sessionId = (manager.objects object).sessionId)
    (hroom : (f (manager.objects object)).roomId = (manager.objects object).roomId)
    (hindex : (manager.objects object).messageIndex ≤ (f (manager.objects object)).messageIndex) :
    Twinned unsaved (manager.modifyObject object f) := by
  have hmodified : (manager.modifyObject object f).objects object = f (manager.objects object) :=
    update_self ..
  have hkept : ∀ other ≠ object,
      (manager.modifyObject object f).objects other = manager.objects other :=
    fun other hother => update_of_ne hother ..
  refine ⟨h.fresh, fun roomId other hlookup => ?_, h.sharing_lt, fun other hlt => ?_, h.stored⟩
  · obtain ⟨hlt, hother⟩ := h.session_lt roomId other hlookup
    refine ⟨hlt, ?_⟩
    by_cases heq : other = object
    · subst heq
      rw [hmodified, hroom]
      exact hother
    · rw [hkept other heq]
      exact hother
  · by_cases heq : other = object
    · subst heq
      rw [hmodified]
      exact (h.made other hlt).later hid hroom hindex
    · rw [hkept other heq]
      exact h.made other hlt

theorem saveOutbound (hobject : object < manager.nextObject) :
    Twinned unsaved (manager.saveOutbound object) := by
  refine ⟨h.fresh, h.session_lt, h.sharing_lt, h.made, fun roomId session hlookup => ?_⟩
  rcases lookup_insert_cases hlookup with ⟨rfl, rfl⟩ | ⟨-, hlookup⟩
  · exact ⟨h.made object hobject, rfl⟩
  · exact h.stored roomId session hlookup

end

theorem saveInbound (h : Twinned (twin :: unsaved) manager) :
    Twinned unsaved (manager.saveInbound twin) where
  fresh other hother := h.fresh other (mem_cons_of_mem twin hother)
  session_lt := h.session_lt
  sharing_lt := h.sharing_lt
  made object hlt := (h.made object hlt).save (h.fresh twin mem_cons_self)
  stored roomId session hlookup := by
    obtain ⟨htwin, hroom⟩ := h.stored roomId session hlookup
    exact ⟨htwin.save (h.fresh twin mem_cons_self), hroom⟩

theorem saveChanges {outbound : List ℕ} (h : Twinned unsaved manager)
    (houtbound : ∀ object ∈ outbound, object < manager.nextObject) :
    Twinned [] (manager.saveChanges ⟨outbound, unsaved⟩) := by
  have hfirst : Twinned unsaved (outbound.foldl GroupSessionManager.saveOutbound manager) := by
    induction outbound generalizing manager with
    | nil => exact h
    | cons object outbound ih =>
      exact ih (h.saveOutbound (houtbound object (by simp)))
        fun other hother => houtbound other (by simp [hother])
  unfold GroupSessionManager.saveChanges
  generalize outbound.foldl GroupSessionManager.saveOutbound manager = middle at hfirst
  clear h
  induction unsaved generalizing middle with
  | nil => exact hfirst
  | cons twin unsaved ih => exact ih _ hfirst.saveInbound

theorem getOrLoad (h : Twinned unsaved manager) (roomId : String) :
    Twinned unsaved (manager.getOrLoad roomId).2 ∧
      ∀ object, (manager.getOrLoad roomId).1 = some object →
        object < (manager.getOrLoad roomId).2.nextObject ∧
          ((manager.getOrLoad roomId).2.objects object).roomId = roomId := by
  unfold GroupSessionManager.getOrLoad
  split
  · next object hlookup =>
    refine ⟨h, fun other hother => ?_⟩
    cases hother
    exact h.session_lt roomId object hlookup
  · split
    · exact ⟨h, fun other hother => by cases hother⟩
    · next session hstored =>
      have hsharing : ∀ (ids : List ℕ) (shared : KeyedMap ℕ ℕ) requestId other,
          (ids.foldl (fun shared requestId => shared.insert requestId manager.nextObject)
            shared).lookup requestId = some other →
          shared.lookup requestId = some other ∨ other = manager.nextObject := by
        intro ids
        induction ids with
        | nil => exact fun _ _ _ hlookup => .inl hlookup
        | cons id ids ih =>
          intro shared requestId other hlookup
          rcases ih _ requestId other hlookup with hold | hnew
          · rcases lookup_insert_cases hold with ⟨-, hnew⟩ | ⟨-, hold⟩
            · exact .inr hnew.symm
            · exact .inl hold
          · exact .inr hnew
      refine ⟨⟨h.fresh, fun room other hlookup => ?_, fun requestId other hlookup => ?_,
        fun other hlt => ?_, h.stored⟩, fun other hother => ?_⟩
      · show other < manager.nextObject + 1 ∧
          (Function.update manager.objects manager.nextObject session other).roomId = room
        rcases lookup_insert_cases hlookup with ⟨rfl, rfl⟩ | ⟨-, hlookup⟩
        · rw [update_self]
          exact ⟨lt_succ_self _, (h.stored room session hstored).2⟩
        · obtain ⟨hlt, hother⟩ := h.session_lt room other hlookup
          rw [update_of_ne (by omega)]
          exact ⟨by omega, hother⟩
      · show other < manager.nextObject + 1
        rcases hsharing _ _ requestId other hlookup with hold | hnew
        · have hlt := h.sharing_lt requestId other hold
          omega
        · omega
      · by_cases hother : other = manager.nextObject
        · subst hother
          simp only [update_self]
          exact (h.stored roomId session hstored).1
        · simp only [update_of_ne hother]
          have hlt' : other < manager.nextObject + 1 := hlt
          exact h.made other (by omega)
      · cases hother
        refine ⟨lt_succ_self _, ?_⟩
        simp only [update_self]
        exact (h.stored roomId session hstored).2

/-- A session that was made has its twin among the sessions to be saved. -/
theorem created {roomId : String} {settings : EncryptionSettings} {now : ℕ}
    (senderData : SenderData) (h : Twinned unsaved manager)
    (hcreated : Created manager roomId settings now object manager') :
    Twinned (unsaved ++
      [inboundTwin manager'.identityKeys (manager'.objects object) senderData]) manager' := by
  have hnext := hcreated.nextObject_eq
  have hobject := hcreated.object_eq
  refine ⟨forall_mem_append.mpr ⟨h.fresh, forall_mem_singleton.mpr hcreated.isNew.messageIndex_eq⟩,
    fun room other hlookup => ?_, fun requestId other hlookup => ?_, fun other hlt => ?_,
    fun room session hlookup => ?_⟩
  · rw [hcreated.sessions_eq] at hlookup
    rcases lookup_insert_cases hlookup with ⟨rfl, rfl⟩ | ⟨-, hlookup⟩
    · exact ⟨by omega, hcreated.isNew.roomId_eq⟩
    · obtain ⟨hlt, hother⟩ := h.session_lt room other hlookup
      rw [hcreated.objects_eq other (by omega)]
      exact ⟨by omega, hother⟩
  · rw [hcreated.sessionsBeingShared_eq] at hlookup
    have hlt := h.sharing_lt requestId other hlookup
    omega
  · by_cases hother : other = object
    · rw [hother]
      exact .inr ⟨_, mem_append_right unsaved (mem_singleton.mpr rfl), rfl, le_refl _⟩
    · rw [hcreated.objects_eq other hother, hcreated.store_eq]
      exact (h.made other (by omega)).append
  · rw [hcreated.store_eq] at hlookup ⊢
    obtain ⟨htwin, hroom⟩ := h.stored room session hlookup
    exact ⟨htwin.append, hroom⟩

section

variable (h : Twinned unsaved manager)
include h

theorem markRequestAsSent (requestId : ℕ) :
    Twinned unsaved (manager.markRequestAsSent requestId).2 := by
  unfold GroupSessionManager.markRequestAsSent
  split
  · exact h
  · next object hlookup =>
    have hmodified : Twinned unsaved (manager.modifyObject object fun _ =>
        ((manager.objects object).markRequestAsSent requestId).2) := by
      have halike := Alike.markRequestAsSent (manager.objects object) requestId
      exact h.modifyObject halike.sessionId_eq halike.roomId_eq halike.messageIndex_eq.ge
    refine saveOutbound ⟨hmodified.fresh, hmodified.session_lt, fun id other hother => ?_,
      hmodified.made, hmodified.stored⟩ (h.sharing_lt requestId object hlookup)
    exact h.sharing_lt id other (lookup_of_erase hother).2

theorem invalidateGroupSession (roomId : String) :
    Twinned unsaved (manager.invalidateGroupSession roomId).2 := by
  obtain ⟨hloaded, hlt⟩ := h.getOrLoad roomId
  unfold GroupSessionManager.invalidateGroupSession
  split
  · next hload =>
    rw [hload] at hloaded
    exact hloaded
  · next object loaded hload =>
    rw [hload] at hloaded hlt
    exact (hloaded.modifyObject rfl rfl (le_refl _)).saveOutbound (hlt object rfl).1

theorem encrypt (roomId : String) (now : ℕ) : Twinned unsaved (manager.encrypt roomId now).2 := by
  obtain ⟨hloaded, hlt⟩ := h.getOrLoad roomId
  unfold GroupSessionManager.encrypt
  split
  · next hload =>
    rw [hload] at hloaded
    exact hloaded
  · next object loaded hload =>
    rw [hload] at hloaded hlt
    split
    · exact hloaded
    · exact (hloaded.modifyObject rfl rfl (le_succ _)).saveOutbound (hlt object rfl).1

theorem restart : Twinned unsaved manager.restart where
  fresh := h.fresh
  session_lt roomId object hlookup := by simp [GroupSessionManager.restart] at hlookup
  sharing_lt requestId object hlookup := by simp [GroupSessionManager.restart] at hlookup
  made := h.made
  stored := h.stored

end

end Twinned

/-- A call has the session of its room. Either nothing can fail from here on, or there is no
new session and none is going to be made. -/
structure Prepared (call : ShareCall) (object : ℕ) (changes : Changes library)
    (manager : GroupSessionManager library) : Prop where
  twinned : Twinned changes.inboundGroupSessions manager
  object_lt : object < manager.nextObject
  outbound_lt : ∀ other ∈ changes.outboundGroupSessions, other < manager.nextObject
  supported : changes.inboundGroupSessions = [] ∨ call.settings.algorithm = megolmV1
  safe : Flawless call ∨ changes.inboundGroupSessions = [] ∧
    ∀ collected, collectSessionRecipients call.checks call.identities call.users call.settings
      (manager.objects object) = .ok collected → collected.shouldRotate = false

variable {call : ShareCall}

/-- A new session is recorded in the changes of a call that does not fail. -/
theorem prepared_of_created {senderData : SenderData}
    (h : Twinned changes.inboundGroupSessions manager)
    (houtbound : ∀ other ∈ changes.outboundGroupSessions, other < manager.nextObject)
    (hcreated : Created manager call.roomId call.settings call.now object manager')
    (hflawless : Flawless call) :
    Prepared call object (manager'.recordNewSession object changes senderData) manager' where
  twinned := h.created senderData hcreated
  object_lt := by
    rw [hcreated.object_eq, hcreated.nextObject_eq]
    exact lt_succ_self _
  outbound_lt other hother := by
    have hnext := hcreated.nextObject_eq
    have hobject := hcreated.object_eq
    rcases mem_append.mp hother with hother | hother
    · have hlt := houtbound other hother
      omega
    · rw [mem_singleton.mp hother]
      omega
  supported := .inr hcreated.supported
  safe := .inl hflawless

theorem Prepared.distribute {collected : CollectRecipientsResult}
    (h : Prepared call object changes manager)
    (hunfailed : changes.inboundGroupSessions ≠ [] →
      ∀ device ∈ recipients collected, call.olm device ≠ .failed) :
    Twinned [] (manager.distribute object call changes collected).2 := by
  obtain ⟨result, manager', hresult⟩ := exists_pair (manager.distribute object call changes
    collected)
  rw [hresult]
  rcases distribute_cases hresult with
    ⟨⟨device, hdevice, hfailed⟩, -, hqueued⟩ | ⟨requests, middle, outbound, -, hqueued, hsub, rfl⟩
  · -- where an encryption fails there is nothing to be saved
    have hnothing : changes.inboundGroupSessions = [] := by
      by_contra hnew
      exact hunfailed hnew device hdevice hfailed
    have htwinned := h.twinned.queued h.object_lt hqueued
    rw [hnothing] at htwinned
    exact htwinned
  · refine (h.twinned.queued h.object_lt hqueued).saveChanges fun other hother => ?_
    rw [hqueued.nextObject_eq]
    rcases hsub other hother with hchanged | rfl
    · exact h.outbound_lt other hchanged
    · exact h.object_lt

section

variable (h : Twinned [] manager) (hcareful : Careful manager (.shareRoomKey call))
include h hcareful

theorem prepareSession_cases {result : Except ShareError (ℕ × Changes library)}
    (hprepare : manager.prepareSession call = (result, manager')) :
    (∃ error, result = .error error ∧ Twinned [] manager') ∨
      ∃ object changes, result = .ok (object, changes) ∧
        Prepared call object changes manager' := by
  obtain ⟨hloaded, hlt⟩ := h.getOrLoad call.roomId
  unfold prepareSession at hprepare
  obtain ⟨found, next, hget⟩ := exists_pair (manager.getOrCreateOutboundSession call.roomId
    call.settings call.now)
  rw [hget] at hprepare
  rcases getOrCreateOutboundSession_cases hget with
    ⟨rfl, rfl⟩ | ⟨object, rfl, hcreated, hworn⟩ | ⟨object, rfl, hload, rfl, hexpired, hvalid⟩
  · cases hprepare
    exact .inl ⟨_, rfl, hloaded⟩
  · -- the session of the room could not be used, so nothing fails
    have hflawless : Flawless call := by
      rcases hcareful with ⟨reused, hreused, hexpired, hvalid, -⟩ | hflawless
      · rcases hworn reused hreused with hworn | hworn
        · rw [hworn] at hexpired
          cases hexpired
        · rw [hworn] at hvalid
          cases hvalid
      · exact hflawless
    obtain ⟨senderData, hsender⟩ := hflawless.1
    simp only [hsender] at hprepare
    cases hprepare
    exact .inr ⟨object, _, rfl, prepared_of_created hloaded (by simp) hcreated hflawless⟩
  · cases hprepare
    refine .inr ⟨object, _, rfl, hloaded, (hlt object hload).1, by simp, .inl rfl, ?_⟩
    rcases hcareful with ⟨reused, hreused, -, -, hstays⟩ | hflawless
    · rw [hload, Option.some.injEq] at hreused
      subst hreused
      exact .inr ⟨rfl, hstays⟩
    · exact .inl hflawless

theorem Twinned.shareRoomKey : Twinned [] (manager.shareRoomKey call).2 := by
  unfold GroupSessionManager.shareRoomKey
  obtain ⟨result, next, hprepare⟩ := exists_pair (manager.prepareSession call)
  rw [hprepare]
  rcases prepareSession_cases h hcareful hprepare with
    ⟨error, rfl, htwinned⟩ | ⟨object, changes, rfl, hprepared⟩
  · exact htwinned
  · simp only
    cases hcollect : collectSessionRecipients call.checks call.identities call.users call.settings
        (next.objects object) with
    | error error =>
      rcases hprepared.safe with ⟨-, collected, hcollected, -⟩ | ⟨hnothing, -⟩
      · obtain ⟨result, hresult, -⟩ := collectSessionRecipients_of_collect hcollected
        rw [hcollect] at hresult
        cases hresult
      · have htwinned := hprepared.twinned
        rw [hnothing] at htwinned
        exact htwinned
    | ok collected =>
      have hunfailed : Flawless call → ∀ device ∈ recipients collected,
          call.olm device ≠ .failed := by
        rintro ⟨-, collected', hcollected, hunfailed⟩
        obtain ⟨result, hresult, hsame⟩ := collectSessionRecipients_of_collect hcollected
        rw [hcollect, Except.ok.injEq] at hresult
        rw [hresult, hsame]
        exact hunfailed
      simp only
      unfold GroupSessionManager.maybeRotateGroupSession
      cases hrotate : collected.shouldRotate with
      | false =>
        refine hprepared.distribute fun hnew => ?_
        rcases hprepared.safe with hflawless | ⟨hnothing, -⟩
        · exact hunfailed hflawless
        · exact absurd hnothing hnew
      | true =>
        have hflawless : Flawless call := by
          rcases hprepared.safe with hflawless | ⟨-, hstays⟩
          · exact hflawless
          · rw [hstays collected hcollect] at hrotate
            cases hrotate
        obtain ⟨senderData, hsender⟩ := hflawless.1
        obtain ⟨created, rotated, hcreate⟩ := exists_pair (next.createOutboundGroupSession
          call.roomId call.settings call.now)
        simp only [if_true, hcreate, hsender]
        rcases createOutboundGroupSession_cases hcreate with
          ⟨rfl, rfl, hunsupported⟩ | ⟨made, rfl, hcreated⟩
        · rcases hprepared.supported with hnothing | hsupported
          · have htwinned := hprepared.twinned
            rw [hnothing] at htwinned
            exact htwinned
          · exact absurd hsupported hunsupported
        · exact (prepared_of_created hprepared.twinned hprepared.outbound_lt hcreated
            hflawless).distribute fun _ => hunfailed hflawless

end

theorem Twinned.step {action : Action} (h : Twinned [] manager)
    (hstep : Step manager action manager') : Twinned [] manager' := by
  obtain ⟨hcareful, rfl⟩ := hstep
  cases action with
  | shareRoomKey call => exact h.shareRoomKey hcareful
  | markRequestAsSent requestId => exact h.markRequestAsSent requestId
  | invalidateGroupSession roomId => exact h.invalidateGroupSession roomId
  | encrypt roomId now => exact h.encrypt roomId now
  | restart => exact h.restart

/-- In a run where no call that needs a new session fails, the store has an inbound session for
everything that is encrypted. -/
theorem encrypted_events_have_twins {actions : List Action} (hstart : Unused manager)
    (hrun : Trace Step manager actions manager') (roomId : String) (now : ℕ)
    (event : EncryptedEvent) (hencrypt : (manager'.encrypt roomId now).1 = .ok event) :
    ∃ twin,
      (manager'.encrypt roomId now).2.store.inboundGroupSessions.get
        (roomId, library.sessionId event.sessionId) = some twin ∧
      twin.sessionId = library.sessionId event.sessionId ∧
      twin.firstKnownIndex ≤ event.messageIndex := by
  have htwinned : Twinned [] manager' :=
    hrun.preserves (fun _ _ _ h hstep => Twinned.step h hstep) (twinned_of_unused hstart)
  obtain ⟨hloaded, hlt⟩ := htwinned.getOrLoad roomId
  obtain ⟨found, loaded, hload⟩ := exists_pair (manager'.getOrLoad roomId)
  unfold encrypt at hencrypt ⊢
  rw [hload] at hencrypt hloaded hlt ⊢
  cases found with
  | none => cases hencrypt
  | some object =>
    simp only at hencrypt ⊢
    split at hencrypt
    · cases hencrypt
    · next hvalid =>
      rw [if_neg hvalid]
      cases hencrypt
      obtain ⟨hobject, hroom⟩ := hlt object rfl
      rcases hloaded.made object hobject with ⟨twin, hget, hdecrypts⟩ | ⟨twin, hmem, -⟩
      · rw [hroom] at hget
        exact ⟨twin, hget, congrArg Prod.snd hdecrypts.key_eq, hdecrypts.index_le⟩
      · exact absurd hmem not_mem_nil

/-- A verified user has a phone that they have not signed, with this local trust. -/
def unsignedStore (trustState : LocalTrust) : IdentityStore where
  userId := "@me"
  deviceId := "LAPTOP"
  devices user :=
    if user = "@other" then [{ deviceOf "@other" "PHONE" trustState with signatures := [] }]
    else []
  identities user :=
    if user = "@me" then some (.own ⟨"@me", "me", "@me", "me", .verified⟩)
    else if user = "@other" then some (.other ⟨"@other", "other", "@other", true⟩) else none
  userId_of_mem user device h := by
    split_ifs at h with hother
    · rw [mem_singleton.mp h, hother]
      rfl
    · exact absurd h not_mem_nil
  nodup_deviceIds user := by
    split_ifs <;> simp

def shareWithUnsigned (trustState : LocalTrust) : ShareCall where
  roomId := "!room"
  users := ["@me", "@other"]
  settings := { weeklySettings with sharingStrategy := .errorOnVerifiedUserProblem }
  identities := unsignedStore trustState
  checks := { listedSignatures with verifyMasterKey := fun _ _ => true }
  ownSenderData := some .unknown
  olm _ := .encrypted "phone"
  now := 0

/-- The phone is ignored first, and not any more when the next call fails with the session that
is in the cache; then the client starts anew. -/
def sharedTwice : GroupSessionManager numberedSessions :=
  act (act (act newManager (.shareRoomKey (shareWithUnsigned .ignored)))
    (.shareRoomKey (shareWithUnsigned .unset))) .restart

theorem first_message_has_twin :
    ∃ twin, (sharedTwice.encrypt "!room" 0).2.store.inboundGroupSessions.get ("!room", "0") =
      some twin ∧ twin.sessionId = "0" ∧ twin.firstKnownIndex ≤ 0 := by
  have hflawless : Flawless (shareWithUnsigned .ignored) :=
    ⟨⟨.unknown, rfl⟩, _, rfl, fun device _ hfailed => by cases hfailed⟩
  have hreuses : Reuses (act newManager (.shareRoomKey (shareWithUnsigned .ignored)))
      (shareWithUnsigned .unset) :=
    ⟨0, rfl, rfl, rfl, fun collected hcollected => by cases hcollected⟩
  have hrun : Trace Step newManager [.shareRoomKey (shareWithUnsigned .ignored),
      .shareRoomKey (shareWithUnsigned .unset), .restart] sharedTwice :=
    .cons ⟨.inr hflawless, rfl⟩ (.cons ⟨.inl hreuses, rfl⟩ (.single ⟨trivial, rfl⟩))
  exact encrypted_events_have_twins unused_newManager hrun "!room" 0 ⟨0, 0⟩ rfl

/-- The first call fails because of the unsigned phone. The phone is ignored then, and the next
call succeeds with the session that is in the cache; but no call has stored its twin. -/
theorem retried_call_loses_twin :
    (newManager.shareRoomKey (shareWithUnsigned .unset)).1 =
        .error (.recipients (.verifiedUserHasUnsignedDevice [("@other", ["PHONE"])])) ∧
      ∃ requests event,
        ((act newManager (.shareRoomKey (shareWithUnsigned .unset))).shareRoomKey
          (shareWithUnsigned .ignored)).1 = .ok requests ∧
        ((act (act newManager (.shareRoomKey (shareWithUnsigned .unset)))
          (.shareRoomKey (shareWithUnsigned .ignored))).encrypt "!room" 0).1 = .ok event ∧
        ∀ room, ((act (act newManager (.shareRoomKey (shareWithUnsigned .unset)))
          (.shareRoomKey (shareWithUnsigned .ignored))).encrypt "!room"
            0).2.store.inboundGroupSessions.get
              (room, numberedSessions.sessionId event.sessionId) = none := by
  refine ⟨rfl, _, _, rfl, rfl, fun room => rfl⟩

end MatrixSdk.InboundTwins

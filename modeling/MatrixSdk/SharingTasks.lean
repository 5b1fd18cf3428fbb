import MatrixSdk.GroupSessionManagers

/-!
Tasks that share the key of a room and then encrypt with it. A task advances by small steps,
between which other tasks may run; one that is not interrupted does what the two calls do. It
panics when it finds no session for its message, or one that has expired.
-/
namespace MatrixSdk.SharingTasks

open OutboundSessions ShareStrategies
open GroupSessionManagers GroupSessionManager

variable {Ratchet : Type} {library : SessionLibrary Ratchet}

/-- What a new session is made for: the room has none to use, or it has to be rotated. -/
inductive Purpose (library : SessionLibrary Ratchet) where
  | prepare
  | rotate (changes : Changes library) (collected : CollectRecipientsResult)

/-- Where a task stands. The first states are those of `shareRoomKey`, from the look at the
cache to the saved changes; the last ones are those of `encrypt`. -/
inductive Task (library : SessionLibrary Ratchet) where
  | idle
  | asking (call : ShareCall)
  | loading (call : ShareCall)
  | loaded (call : ShareCall) (stored : Option OutboundGroupSession)
  | found (call : ShareCall) (object : Option ℕ)
  | creating (call : ShareCall) (purpose : Purpose library)
  | inserting (call : ShareCall) (purpose : Purpose library) (session : OutboundGroupSession)
  | prepared (call : ShareCall) (object : ℕ) (changes : Changes library)
  | distributing (call : ShareCall) (object : ℕ) (changes : Changes library)
      (collected : CollectRecipientsResult)
  | shared
  | reloading
  | reloaded (stored : Option OutboundGroupSession)
  | obtained (object : Option ℕ)
  | encrypting (object : ℕ)
  | saving (object : ℕ)
  | panicked (panic : EncryptPanic)

/-- Put a session from the store in the cache. -/
def insertLoaded (manager : GroupSessionManager library) (roomId : String)
    (session : OutboundGroupSession) : GroupSessionManager library :=
  { manager with
    objects := Function.update manager.objects manager.nextObject session
    nextObject := manager.nextObject + 1
    sessions := manager.sessions.insert roomId manager.nextObject
    sessionsBeingShared := session.pendingRequestIds.foldl
      (fun shared requestId => shared.insert requestId manager.nextObject)
      manager.sessionsBeingShared }

/-- The next step of a task. A call that fails leaves its task idle. -/
def advance (roomId : String) (now : ℕ) (manager : GroupSessionManager library) :
    Task library → GroupSessionManager library × Task library
  | .idle => (manager, .idle)
  | .asking call =>
    match manager.sessions.lookup roomId with
    | some object => (manager, .found call (some object))
    | none => (manager, .loading call)
  | .loading call => (manager, .loaded call (manager.store.outboundGroupSessions.lookup roomId))
  | .loaded call none => (manager, .found call none)
  | .loaded call (some session) =>
    (insertLoaded manager roomId session, .found call (some manager.nextObject))
  | .found call none => (manager, .creating call .prepare)
  | .found call (some object) =>
    if (manager.objects object).expired now || (manager.objects object).invalidated then
      (manager, .creating call .prepare)
    else (manager, .prepared call object ⟨[], []⟩)
  | .creating call purpose =>
    match OutboundGroupSession.new manager.nextSessionId roomId call.settings now with
    | none => (manager, .idle)
    | some session =>
      ({ manager with nextSessionId := manager.nextSessionId + 1 },
        .inserting call purpose session)
  | .inserting call purpose session =>
    let (object, manager) := manager.insertSession session
    match call.ownSenderData, purpose with
    | none, _ => (manager, .idle)
    | some senderData, .prepare =>
      (manager, .prepared call object (manager.recordNewSession object ⟨[], []⟩ senderData))
    | some senderData, .rotate changes collected =>
      (manager, .distributing call object (manager.recordNewSession object changes senderData)
        collected)
  | .prepared call object changes =>
    match collectSessionRecipients call.checks call.identities call.users call.settings
        (manager.objects object) with
    | .error _ => (manager, .idle)
    | .ok collected =>
      if collected.shouldRotate then (manager, .creating call (.rotate changes collected))
      else (manager, .distributing call object changes collected)
  | .distributing call object changes collected =>
    match manager.distribute object call changes collected with
    | (.error _, manager) => (manager, .idle)
    | (.ok _, manager) => (manager, .shared)
  | .shared =>
    match manager.sessions.lookup roomId with
    | some object => (manager, .obtained (some object))
    | none => (manager, .reloading)
  | .reloading => (manager, .reloaded (manager.store.outboundGroupSessions.lookup roomId))
  | .reloaded none => (manager, .obtained none)
  | .reloaded (some session) =>
    (insertLoaded manager roomId session, .obtained (some manager.nextObject))
  | .obtained none => (manager, .panicked .sessionNotShared)
  | .obtained (some object) =>
    if (manager.objects object).expired now then (manager, .panicked .sessionExpired)
    else (manager, .encrypting object)
  | .encrypting object =>
    (manager.modifyObject object fun session => session.encryptHelper.2, .saving object)
  | .saving object => (manager.saveOutbound object, .idle)
  | .panicked panic => (manager, .panicked panic)

/-- A task advances alone. -/
def Alone (roomId : String) (now : ℕ) :
    GroupSessionManager library × Task library →
      GroupSessionManager library × Task library → Prop :=
  Relation.ReflTransGen fun before after => advance roomId now before.1 before.2 = after

variable (call : ShareCall)

/-! Where the parts of the two calls leave a task. -/

def afterCreation (purpose : Purpose library) :
    Option ℕ × GroupSessionManager library → GroupSessionManager library × Task library
  | (none, manager) => (manager, .idle)
  | (some object, manager) =>
    match call.ownSenderData, purpose with
    | none, _ => (manager, .idle)
    | some senderData, .prepare =>
      (manager, .prepared call object (manager.recordNewSession object ⟨[], []⟩ senderData))
    | some senderData, .rotate changes collected =>
      (manager, .distributing call object (manager.recordNewSession object changes senderData)
        collected)

def afterLookup :
    Option (ℕ × Bool) × GroupSessionManager library → GroupSessionManager library × Task library
  | (none, manager) => (manager, .idle)
  | (some (object, true), manager) => afterCreation call .prepare (some object, manager)
  | (some (object, false), manager) => (manager, .prepared call object ⟨[], []⟩)

def afterCall {ε α : Type} (failed : ε → Task library) (done : α → Task library) :
    Except ε α × GroupSessionManager library → GroupSessionManager library × Task library
  | (.error error, manager) => (manager, failed error)
  | (.ok result, manager) => (manager, done result)

variable {call} {roomId : String} {now : ℕ} {manager : GroupSessionManager library}

namespace Alone

/-- The look at the cache and the store, before sharing and before encrypting. -/
theorem getOrLoad : (∀ call, Alone roomId now (manager, .asking call)
      ((manager.getOrLoad roomId).2, .found call (manager.getOrLoad roomId).1)) ∧
    Alone roomId now (manager, .shared)
      ((manager.getOrLoad roomId).2, .obtained (manager.getOrLoad roomId).1) := by
  unfold GroupSessionManager.getOrLoad
  cases hlookup : manager.sessions.lookup roomId with
  | some object => refine ⟨fun call => ?_, ?_⟩ <;> exact .single (by unfold advance; simp [hlookup])
  | none =>
    cases hstored : manager.store.outboundGroupSessions.lookup roomId with
    | none | some =>
      refine ⟨fun call => ?_, ?_⟩ <;> exact .head (by unfold advance; simp only [hlookup]; rfl)
        (.head (by unfold advance; simp only [hstored]; rfl) (.single rfl))

theorem create (purpose : Purpose library) : Alone roomId now (manager, .creating call purpose)
    (afterCreation call purpose
      (manager.createOutboundGroupSession roomId call.settings now)) := by
  unfold createOutboundGroupSession
  cases hnew : OutboundGroupSession.new manager.nextSessionId roomId call.settings now with
  | none => exact .single (by unfold advance; simp only [hnew, afterCreation])
  | some session =>
    refine .head (by unfold advance; simp only [hnew]; rfl) (.single ?_)
    unfold afterCreation
    cases hsender : call.ownSenderData <;> cases purpose <;>
      (unfold advance; simp only [hsender, insertSession])

theorem getOrCreateOutboundSession : Alone roomId now (manager, .asking call)
    (afterLookup call (manager.getOrCreateOutboundSession roomId call.settings now)) := by
  refine (getOrLoad.1 call).trans ?_
  unfold GroupSessionManager.getOrCreateOutboundSession
  rcases manager.getOrLoad roomId with ⟨found, loaded⟩
  have hnew : Alone roomId now (loaded, .creating call .prepare) (afterLookup call
      ((loaded.createOutboundGroupSession roomId call.settings now).map
        (·.map (·, true)) id)) := by
    refine (create .prepare).trans ?_
    rcases loaded.createOutboundGroupSession roomId call.settings now with ⟨_ | _, _⟩ <;>
      exact .refl
  cases found with
  | none => exact .head rfl hnew
  | some object =>
    cases hworn : (loaded.objects object).expired now || (loaded.objects object).invalidated <;>
      simp only [hworn]
    · exact .single (by unfold advance; simp only [hworn]; rfl)
    · exact .head (by unfold advance; simp only [hworn]; rfl) hnew

theorem prepareSession : Alone call.roomId call.now (manager, .asking call)
    (afterCall (fun _ => .idle) (fun ready => .prepared call ready.1 ready.2)
      (manager.prepareSession call)) := by
  refine getOrCreateOutboundSession.trans ?_
  unfold GroupSessionManager.prepareSession
  rcases manager.getOrCreateOutboundSession call.roomId call.settings call.now with
    ⟨_ | ⟨object, _ | _⟩, got⟩
  · exact .refl
  · exact .refl
  · unfold afterLookup afterCreation
    cases call.ownSenderData <;> exact .refl

theorem distribute {object : ℕ} {changes : Changes library} {collected : CollectRecipientsResult} :
    Alone roomId now (manager, .distributing call object changes collected)
      (afterCall (fun _ => .idle) (fun _ => .shared)
        (manager.distribute object call changes collected)) := by
  apply Relation.ReflTransGen.single
  unfold advance
  dsimp only
  rcases manager.distribute object call changes collected with ⟨_ | _, _⟩ <;> rfl

theorem shareRoomKey : Alone call.roomId call.now (manager, .asking call)
    (afterCall (fun _ => .idle) (fun _ => .shared) (manager.shareRoomKey call)) := by
  refine prepareSession.trans ?_
  unfold GroupSessionManager.shareRoomKey maybeRotateGroupSession
  rcases manager.prepareSession call with ⟨_ | ⟨object, changes⟩, ready⟩
  · exact .refl
  · show Alone call.roomId call.now (ready, .prepared call object changes) _
    cases hcollect : collectSessionRecipients call.checks call.identities call.users call.settings
        (ready.objects object) with
    | error error =>
      simp only [hcollect]
      exact .single (by unfold advance; simp only [hcollect, afterCall])
    | ok collected =>
      cases hrotate : collected.shouldRotate with
      | false =>
        simp only [hcollect, hrotate]
        exact .head (by unfold advance; simp only [hcollect, hrotate]; rfl) distribute
      | true =>
        simp only [hcollect, hrotate]
        refine .head (by unfold advance; simp only [hcollect, hrotate]; rfl) ((create _).trans ?_)
        rcases ready.createOutboundGroupSession call.roomId call.settings call.now with
          ⟨_ | rotated, made⟩
        · exact .refl
        · unfold afterCreation
          cases call.ownSenderData with
          | none => exact .refl
          | some senderData => exact distribute

theorem encrypt : Alone roomId now (manager, .shared)
    (afterCall .panicked (fun _ => .idle) (manager.encrypt roomId now)) := by
  refine getOrLoad.2.trans ?_
  unfold GroupSessionManager.encrypt
  rcases manager.getOrLoad roomId with ⟨_ | object, loaded⟩
  · exact .single rfl
  · cases hexpired : (loaded.objects object).expired now <;> simp only [hexpired]
    · exact .head (by unfold advance; simp only [hexpired]; rfl) (.head rfl (.single rfl))
    · exact .single (by unfold advance; simp only [hexpired]; rfl)

end Alone

/-- A task that no other one interrupts does what the two calls do, one after the other. -/
theorem alone_task_shares_and_encrypts (manager : GroupSessionManager library) (call : ShareCall) :
    Alone call.roomId call.now (manager, .asking call)
      (match manager.shareRoomKey call with
      | (.error _, manager) => (manager, .idle)
      | (.ok _, manager) =>
        afterCall .panicked (fun _ => .idle) (manager.encrypt call.roomId call.now)) := by
  refine Alone.shareRoomKey.trans ?_
  rcases manager.shareRoomKey call with ⟨_ | _, shared⟩
  · exact .refl
  · exact Alone.encrypt

end MatrixSdk.SharingTasks

import MatrixSdk.SharingTasks
import MatrixSdk.SessionFrames

/-!
Encrypting after sharing. Any number of tasks share the key of one room and encrypt with it,
in any interleaving and while time passes. A task checks when it shares the key that the
session has not expired, and panics if it has when it encrypts; so no task panics as long as
nothing that a task relies on expires in between.
-/
namespace MatrixSdk.UnexpiredSessions

open OutboundSessions GroupSessionManagers SessionFrames SharingTasks Traces
open GroupSessionManager OutboundGroupSession Function

variable {Ratchet : Type} {library : SessionLibrary Ratchet}

structure State (library : SessionLibrary Ratchet) where
  manager : GroupSessionManager library
  tasks : ℕ → Task library
  now : ℕ

inductive Action where
  | tick (later : ℕ)
  | start (task : ℕ) (call : ShareCall)
  | advance (task : ℕ)

def State.act (roomId : String) (state : State library) : Action → State library
  | .tick later => { state with now := later }
  | .start task call => { state with tasks := Function.update state.tasks task (.asking call) }
  | .advance task =>
    let (manager, next) := advance roomId state.now state.manager (state.tasks task)
    { state with manager := manager, tasks := Function.update state.tasks task next }

/-- Time does not go back, and a task starts when it is idle. -/
def Allowed (state : State library) : Action → Prop
  | .tick later => state.now ≤ later
  | .start task _ => state.tasks task = .idle
  | .advance _ => True

/-- The task has looked at the cache and is going to look at it again. -/
def ReliesOnCache : Task library → Prop
  | .found _ (some _) | .prepared .. | .distributing .. | .shared => True
  | _ => False

/-- The session in the cache has not expired. -/
def CachedInTime (roomId : String) (now : ℕ) (manager : GroupSessionManager library) : Prop :=
  ∃ object, manager.sessions.lookup roomId = some object ∧
    (manager.objects object).expired now = false

/-- Nothing that a task relies on expires: neither with time, nor with the message of another
task, nor is it replaced by a session from the store that has expired. -/
def Careful (roomId : String) (state : State library) : Action → Prop
  | .tick later =>
    (∀ task, ReliesOnCache (state.tasks task) → CachedInTime roomId state.now state.manager →
      CachedInTime roomId later state.manager) ∧
    (∀ task object, state.tasks task = .obtained (some object) →
      (state.manager.objects object).expired state.now = false →
      (state.manager.objects object).expired later = false) ∧
    ∀ task call purpose session, state.tasks task = .inserting call purpose session →
      session.expired state.now = false → session.expired later = false
  | .start .. => True
  | .advance task =>
    (∀ object, state.tasks task = .encrypting object → ∀ other,
      ReliesOnCache (state.tasks other) ∨ state.tasks other = .obtained (some object) →
        (state.manager.objects object).messageCount + 1 <
          (state.manager.objects object).messageLimit) ∧
    ∀ call session, state.tasks task = .loaded call (some session) → ∀ other ≠ task,
      ReliesOnCache (state.tasks other) → session.expired state.now = false

def Step (roomId : String) (state : State library) (action : Action) (state' : State library) :
    Prop :=
  Allowed state action ∧ Careful roomId state action ∧ state' = state.act roomId action

variable {roomId : String} {now later : ℕ} {manager manager' : GroupSessionManager library}
  {task : Task library}

/-- What a task can count on. -/
def Holds (roomId : String) (now : ℕ) (manager : GroupSessionManager library) : Task library → Prop
  | .found _ (some object) =>
    manager.sessions.lookup roomId = some object ∨ CachedInTime roomId now manager
  | .prepared .. | .distributing .. | .shared => CachedInTime roomId now manager
  | .inserting _ _ session => session.roomId = roomId ∧ session.expired now = false
  | .obtained (some object) =>
    object < manager.nextObject ∧ (manager.objects object).expired now = false
  | .obtained none | .reloading | .reloaded _ | .panicked _ => False
  | .idle | .asking _ | .loading _ | .loaded .. | .found _ none | .creating .. | .encrypting _
  | .saving _ => True

/-- A task can still count on what it could count on before another one has advanced, if what it
relies on has stayed in time. -/
theorem Holds.frame (h : Holds roomId now manager task)
    (hcached : ReliesOnCache task → CachedInTime roomId now manager →
      CachedInTime roomId later manager')
    (hsame : ReliesOnCache task → ∀ object, manager.sessions.lookup roomId = some object →
      manager'.sessions.lookup roomId = some object ∨ CachedInTime roomId later manager')
    (hobtained : ∀ object, task = .obtained (some object) → object < manager.nextObject →
      (manager.objects object).expired now = false →
      object < manager'.nextObject ∧ (manager'.objects object).expired later = false)
    (hinserting : ∀ call purpose session, task = .inserting call purpose session →
      session.expired now = false → session.expired later = false) :
    Holds roomId later manager' task := by
  match task with
  | .found _ (some object) =>
    rcases h with hlookup | hfresh
    · exact hsame trivial object hlookup
    · exact .inr (hcached trivial hfresh)
  | .prepared .. | .distributing .. | .shared => exact hcached trivial h
  | .inserting call purpose session =>
    exact ⟨h.1, hinserting call purpose session rfl h.2⟩
  | .obtained (some object) => exact hobtained object rfl h.1 h.2
  | .obtained none | .reloading | .reloaded _ | .panicked _ => exact h
  | .idle | .asking _ | .loading _ | .loaded .. | .found _ none | .creating .. | .encrypting _
  | .saving _ => trivial

/-- Two managers with the same sessions, apart from the record of their shares. -/
structure Same (manager manager' : GroupSessionManager library) : Prop where
  sessions_eq : manager'.sessions = manager.sessions
  nextObject_eq : manager'.nextObject = manager.nextObject
  alike : ∀ object, Alike (manager.objects object) (manager'.objects object)

theorem Same.cachedInTime (h : Same manager manager') (hcached : CachedInTime roomId now manager) :
    CachedInTime roomId now manager' := by
  obtain ⟨object, hlookup, hexpired⟩ := hcached
  refine ⟨object, ?_, ?_⟩
  · rw [h.sessions_eq]
    exact hlookup
  · rw [(h.alike object).expired_eq]
    exact hexpired

theorem Holds.same (h : Holds roomId now manager task) (hsame : Same manager manager') :
    Holds roomId now manager' task := by
  refine h.frame (fun _ => hsame.cachedInTime) (fun _ object hlookup => .inl ?_)
    (fun object _ hlt hexpired => ?_) fun _ _ _ _ => id
  · rw [hsame.sessions_eq]
    exact hlookup
  · rw [hsame.nextObject_eq, (hsame.alike object).expired_eq]
    exact ⟨hlt, hexpired⟩

variable {object : ℕ}

theorem same_distribute {call : ShareCall} {changes : Changes library}
    {collected : ShareStrategies.CollectRecipientsResult}
    {result : Except ShareError (List ToDeviceRequest)}
    (h : manager.distribute object call changes collected = (result, manager')) :
    Same manager manager' := by
  rcases distribute_cases h with
    ⟨-, -, hqueued⟩ | ⟨requests, middle, outbound, -, hqueued, -, rfl⟩
  · exact ⟨hqueued.sessions_eq, hqueued.nextObject_eq, hqueued.alike⟩
  · obtain ⟨hobjects, hnext, hsessions⟩ :=
      saveChanges_frame middle ⟨outbound, changes.inboundGroupSessions⟩
    refine ⟨hsessions.trans hqueued.sessions_eq, hnext.trans hqueued.nextObject_eq, fun other => ?_⟩
    rw [hobjects]
    exact hqueued.alike other

/-- The session was put in the cache as a new object. -/
structure Inserted (roomId : String) (session : OutboundGroupSession)
    (manager manager' : GroupSessionManager library) : Prop where
  lookup_eq : manager'.sessions.lookup roomId = some manager.nextObject
  object_eq : manager'.objects manager.nextObject = session
  objects_eq : ∀ other < manager.nextObject, manager'.objects other = manager.objects other
  nextObject_eq : manager'.nextObject = manager.nextObject + 1

variable {session : OutboundGroupSession} {state : State library}

theorem inserted_insertLoaded :
    Inserted roomId session manager (insertLoaded manager roomId session) where
  lookup_eq := AList.lookup_insert _
  object_eq := update_self ..
  objects_eq _ hother := update_of_ne (Nat.ne_of_lt hother) ..
  nextObject_eq := rfl

theorem Inserted.cachedInTime (h : Inserted roomId session manager manager')
    (hexpired : session.expired now = false) : CachedInTime roomId now manager' := by
  refine ⟨manager.nextObject, h.lookup_eq, ?_⟩
  rw [h.object_eq]
  exact hexpired

theorem Holds.inserted (h : Holds roomId now manager task)
    (hinserted : Inserted roomId session manager manager')
    (hexpired : ReliesOnCache task → session.expired now = false) :
    Holds roomId now manager' task := by
  refine h.frame (fun hrelies _ => hinserted.cachedInTime (hexpired hrelies))
    (fun hrelies _ _ => .inr (hinserted.cachedInTime (hexpired hrelies)))
    (fun object _ hlt hobject => ?_) fun _ _ _ _ => id
  rw [hinserted.objects_eq object hlt, hinserted.nextObject_eq]
  exact ⟨Nat.lt_succ_of_lt hlt, hobject⟩

/-- Another task has encrypted a message with this object. -/
theorem Holds.counted (h : Holds roomId now manager task)
    (hlimit : ReliesOnCache task ∨ task = .obtained (some object) →
      (manager.objects object).messageCount + 1 < (manager.objects object).messageLimit) :
    Holds roomId now
      (manager.modifyObject object fun session => session.encryptHelper.2) task := by
  have hobjects : ∀ other, (manager.objects other).expired now = false →
      (other = object →
        (manager.objects object).messageCount + 1 < (manager.objects object).messageLimit) →
      ((manager.modifyObject object fun session => session.encryptHelper.2).objects
        other).expired now = false := by
    intro other hexpired hcount
    by_cases hother : other = object
    · subst hother
      simp only [modifyObject, update_self]
      unfold expired at hexpired ⊢
      rw [Bool.or_eq_false_iff] at hexpired ⊢
      exact ⟨decide_eq_false (Nat.not_le.mpr (hcount rfl)), hexpired.2⟩
    · simp only [modifyObject, update_of_ne hother]
      exact hexpired
  refine h.frame (fun hrelies hcached => ?_) (fun _ _ hlookup => .inl hlookup)
    (fun other htask hlt hexpired => ⟨hlt, hobjects other hexpired fun heq => ?_⟩) fun _ _ _ _ => id
  · obtain ⟨cached, hlookup, hexpired⟩ := hcached
    exact ⟨cached, hlookup, hobjects cached hexpired fun _ => hlimit (.inl hrelies)⟩
  · subst heq
    exact hlimit (.inr htask)

/-- A new session may be used for an hour and for one message at least. -/
theorem expired_of_isNew {sessionId : ℕ} {settings : EncryptionSettings}
    (h : IsNew session sessionId roomId settings now) : session.expired now = false := by
  have hlimit : ¬session.messageLimit ≤ session.messageCount := by
    rw [h.messageCount_eq]
    unfold messageLimit
    omega
  have helapsed : session.elapsed now = false := by
    have hperiod : oneHour ≤ session.safeRotationPeriod := Nat.le_max_right _ _
    have hhour : 0 < oneHour := by decide
    unfold elapsed
    rw [h.creationTime_eq, if_neg (Nat.lt_irrefl now), decide_eq_false_iff_not]
    omega
  unfold expired
  rw [helapsed, Bool.or_false, decide_eq_false_iff_not]
  exact hlimit

theorem Same.refl (manager : GroupSessionManager library) : Same manager manager :=
  ⟨rfl, rfl, fun _ => .refl _⟩

/-- What one step of a task does to the sessions: nothing that matters for their time, or it
puts one in the cache, which has not expired unless it comes from the store, or it counts a
message. The task can count on what its new state needs. -/
theorem advance_cases {next : Task library}
    (hstep : advance roomId now manager task = (manager', next))
    (hlt : ∀ object, manager.sessions.lookup roomId = some object → object < manager.nextObject)
    (h : Holds roomId now manager task) :
    Holds roomId now manager' next ∧
      (Same manager manager' ∨
      (∃ session, Inserted roomId session manager manager' ∧
        (session.expired now = false ∨ ∃ call, task = .loaded call (some session))) ∨
      ∃ object, task = .encrypting object ∧
        manager' = manager.modifyObject object fun session => session.encryptHelper.2) := by
  match task with
  | .idle | .loading _ | .loaded _ none | .found _ none =>
    cases hstep
    exact ⟨trivial, .inl (.refl manager)⟩
  | .asking call =>
    simp only [advance] at hstep
    split at hstep
    · next object hlookup =>
      cases hstep
      exact ⟨.inl hlookup, .inl (.refl manager)⟩
    · cases hstep
      exact ⟨trivial, .inl (.refl manager)⟩
  | .loaded call (some session) =>
    cases hstep
    exact ⟨.inl inserted_insertLoaded.lookup_eq,
      .inr (.inl ⟨session, inserted_insertLoaded, .inr ⟨call, rfl⟩⟩)⟩
  | .found call (some object) =>
    simp only [advance] at hstep
    split at hstep
    · cases hstep
      exact ⟨trivial, .inl (.refl manager)⟩
    · next hvalid =>
      cases hstep
      refine ⟨?_, .inl (.refl manager)⟩
      rcases h with hlookup | hcached
      · simp only [Bool.or_eq_true, not_or, Bool.not_eq_true] at hvalid
        exact ⟨object, hlookup, hvalid.1⟩
      · exact hcached
  | .creating call purpose =>
    simp only [advance] at hstep
    split at hstep
    · cases hstep
      exact ⟨trivial, .inl (.refl manager)⟩
    · next session hnew =>
      cases hstep
      have hisNew := isNew_of_new hnew
      exact ⟨⟨hisNew.roomId_eq, expired_of_isNew hisNew⟩, .inl ⟨rfl, rfl, fun _ => .refl _⟩⟩
  | .inserting call purpose session =>
    obtain ⟨hroom, hexpired⟩ := h
    have hinserted : Inserted roomId session manager (manager.insertSession session).2 :=
      ⟨by rw [← hroom]; exact AList.lookup_insert _, update_self ..,
        fun _ hother => update_of_ne (Nat.ne_of_lt hother) .., rfl⟩
    simp only [advance] at hstep
    split at hstep
    · cases hstep
      exact ⟨trivial, .inr (.inl ⟨session, hinserted, .inl hexpired⟩)⟩
    · cases hstep
      exact ⟨hinserted.cachedInTime hexpired, .inr (.inl ⟨session, hinserted, .inl hexpired⟩)⟩
    · cases hstep
      exact ⟨hinserted.cachedInTime hexpired, .inr (.inl ⟨session, hinserted, .inl hexpired⟩)⟩
  | .prepared call object changes =>
    simp only [advance] at hstep
    split at hstep
    · cases hstep
      exact ⟨trivial, .inl (.refl manager)⟩
    · split at hstep
      · cases hstep
        exact ⟨trivial, .inl (.refl manager)⟩
      · cases hstep
        exact ⟨h, .inl (.refl manager)⟩
  | .distributing call object changes collected =>
    simp only [advance] at hstep
    split at hstep
    · next hdistribute =>
      cases hstep
      exact ⟨trivial, .inl (same_distribute hdistribute)⟩
    · next hdistribute =>
      cases hstep
      have hsame := same_distribute hdistribute
      exact ⟨hsame.cachedInTime h, .inl hsame⟩
  | .shared =>
    obtain ⟨object, hlookup, hexpired⟩ := h
    simp only [advance, hlookup] at hstep
    cases hstep
    exact ⟨⟨hlt object hlookup, hexpired⟩, .inl (.refl manager)⟩
  | .obtained (some object) =>
    obtain ⟨-, hexpired⟩ := h
    simp only [advance, hexpired] at hstep
    cases hstep
    exact ⟨trivial, .inl (.refl manager)⟩
  | .encrypting object =>
    cases hstep
    exact ⟨trivial, .inr (.inr ⟨object, rfl, rfl⟩)⟩
  | .saving object =>
    cases hstep
    exact ⟨trivial, .inl ⟨rfl, rfl, fun _ => .refl _⟩⟩
  | .obtained none | .reloading | .reloaded _ | .panicked _ => exact h.elim

/-- The cache refers to objects that were made, and every task finds what it counts on. -/
structure Safe (roomId : String) (state : State library) : Prop where
  cached_lt : ∀ object, state.manager.sessions.lookup roomId = some object →
    object < state.manager.nextObject
  holds : ∀ task, Holds roomId state.now state.manager (state.tasks task)

theorem Safe.advance {task : ℕ} (h : Safe roomId state)
    (hcareful : Careful roomId state (.advance task)) :
    Safe roomId (state.act roomId (.advance task)) := by
  obtain ⟨manager', next, hstep⟩ := exists_pair (SharingTasks.advance roomId state.now
    state.manager (state.tasks task))
  obtain ⟨hnext, heffect⟩ := advance_cases hstep h.cached_lt (h.holds task)
  have hothers : (∀ object, manager'.sessions.lookup roomId = some object →
      object < manager'.nextObject) ∧
      ∀ other ≠ task, Holds roomId state.now manager' (state.tasks other) := by
    rcases heffect with hsame | ⟨session, hinserted, hexpired⟩ | ⟨object, htask, rfl⟩
    · refine ⟨fun object hlookup => ?_, fun other _ => (h.holds other).same hsame⟩
      rw [hsame.sessions_eq] at hlookup
      rw [hsame.nextObject_eq]
      exact h.cached_lt object hlookup
    · refine ⟨fun object hlookup => ?_, fun other hother => ?_⟩
      · rw [hinserted.lookup_eq, Option.some.injEq] at hlookup
        rw [hinserted.nextObject_eq]
        omega
      · refine (h.holds other).inserted hinserted fun hrelies => ?_
        rcases hexpired with hexpired | ⟨call, htask⟩
        · exact hexpired
        · exact hcareful.2 call session htask other hother hrelies
    · exact ⟨h.cached_lt, fun other _ => (h.holds other).counted (hcareful.1 object htask other)⟩
  unfold State.act
  simp only [hstep]
  refine ⟨hothers.1, fun other => ?_⟩
  by_cases hother : other = task
  · subst hother
    simp only [update_self]
    exact hnext
  · simp only [update_of_ne hother]
    exact hothers.2 other hother

theorem Safe.step {state' : State library} {action : Action} (h : Safe roomId state)
    (hstep : Step roomId state action state') : Safe roomId state' := by
  obtain ⟨-, hcareful, rfl⟩ := hstep
  cases action with
  | tick later =>
    obtain ⟨hcached, hobtained, hinserting⟩ := hcareful
    refine ⟨h.cached_lt, fun task => ?_⟩
    exact (h.holds task).frame (hcached task) (fun _ _ hlookup => .inl hlookup)
      (fun object htask hlt hexpired => ⟨hlt, hobtained task object htask hexpired⟩)
      (hinserting task)
  | start task call =>
    refine ⟨h.cached_lt, fun other => ?_⟩
    by_cases hother : other = task
    · subst hother
      simp only [State.act, update_self]
      exact trivial
    · simp only [State.act, update_of_ne hother]
      exact h.holds other
  | advance task => exact h.advance hcareful

/-- In every run of the tasks in which nothing expires that a task relies on, no task panics
when it encrypts. -/
theorem no_task_panics {state state' : State library} {actions : List Action}
    (hidle : ∀ task, state.tasks task = .idle)
    (hcached : ∀ object, state.manager.sessions.lookup roomId = some object →
      object < state.manager.nextObject)
    (hrun : Trace (Step roomId) state actions state') (task : ℕ) (panic : EncryptPanic) :
    state'.tasks task ≠ .panicked panic := by
  have hstart : Safe roomId state := by
    refine ⟨hcached, fun task => ?_⟩
    rw [hidle task]
    exact trivial
  have hsafe : Safe roomId state' :=
    hrun.preserves (fun _ _ _ h hstep => Safe.step h hstep) hstart
  intro hpanicked
  have hholds := hsafe.holds task
  rw [hpanicked] at hholds
  exact hholds

def advanceAll (roomId : String) (state : State library) (tasks : List ℕ) : State library :=
  tasks.foldl (fun state task => state.act roomId (.advance task)) state

/-- The task loads nothing into the cache, and its message leaves room for others. -/
def leavesRoom (state : State library) (task : ℕ) : Bool :=
  match state.tasks task with
  | .encrypting object =>
    (state.manager.objects object).messageCount + 1 < (state.manager.objects object).messageLimit
  | .loaded _ (some _) => false
  | _ => true

def allLeaveRoom (roomId : String) (state : State library) : List ℕ → Bool
  | [] => true
  | task :: tasks =>
    leavesRoom state task && allLeaveRoom roomId (state.act roomId (.advance task)) tasks

theorem trace_advanceAll {tasks : List ℕ} (h : allLeaveRoom roomId state tasks = true) :
    Trace (Step roomId) state (tasks.map .advance) (advanceAll roomId state tasks) := by
  induction tasks generalizing state with
  | nil => exact .nil state
  | cons task tasks ih =>
    obtain ⟨hroom, hrest⟩ := Bool.and_eq_true_iff.mp h
    refine .cons ⟨trivial, ⟨fun object htask other _ => ?_, fun call session htask => ?_⟩, rfl⟩
      (ih hrest)
    · simpa [leavesRoom, htask] using hroom
    · simp [leavesRoom, htask] at hroom

def startState : State numberedSessions := ⟨newManager, fun _ => .idle, 0⟩

/-- Share the key of an empty room, for this number of messages. -/
def shareFor (messages : ℕ) : ShareCall where
  roomId := "!room"
  users := []
  settings := { weeklySettings with rotationPeriodMsgs := messages }
  identities := RecipientLists.blacklistingStore
  checks := RecipientLists.listedSignatures
  ownSenderData := some .unknown
  olm _ := .missingSession
  now := 0

/-- Two tasks share a key, and each encrypts a message while the other one does. -/
theorem two_tasks_encrypt :
    let started := (startState.act "!room" (.start 0 (shareFor 3))).act "!room"
      (.start 1 (shareFor 3))
    let encrypted := advanceAll "!room" started
      (List.replicate 8 0 ++ List.replicate 4 1 ++ [0, 1, 0, 1, 0, 1, 0, 1])
    (encrypted.tasks 0, encrypted.tasks 1) = (.idle, .idle) ∧
      (encrypted.manager.objects 0).messageCount = 2 ∧
      ∀ task panic, encrypted.tasks task ≠ .panicked panic := by
  refine ⟨rfl, rfl, fun task panic => ?_⟩
  have hcached : ∀ object, startState.manager.sessions.lookup "!room" = some object →
      object < startState.manager.nextObject := by
    intro object hlookup
    simp [startState, newManager, GroupSessionManager.new] at hlookup
  have hfirst : Step "!room" startState (.start 0 (shareFor 3)) _ := ⟨rfl, trivial, rfl⟩
  have hsecond : Step "!room" (startState.act "!room" (.start 0 (shareFor 3)))
    (.start 1 (shareFor 3)) _ := ⟨rfl, trivial, rfl⟩
  exact no_task_panics (fun _ => rfl) hcached
    (.cons hfirst (.cons hsecond (trace_advanceAll rfl))) task panic

/-- Two tasks share a key that may be used for one message. Both have shared it when the first
one encrypts its message, and the second one panics. -/
theorem second_message_panics :
    ∃ shared encrypted,
      Trace (fun state action state' => Allowed state action ∧ state' = state.act "!room" action)
        startState ([.start 0 (shareFor 1), .start 1 (shareFor 1)] ++
          (List.replicate 8 (.advance 0) ++ List.replicate 4 (.advance 1))) shared ∧
      shared.tasks 0 = .shared ∧ shared.tasks 1 = .shared ∧
      Trace (fun state action state' => Allowed state action ∧ state' = state.act "!room" action)
        shared (List.replicate 4 (.advance 0) ++ List.replicate 2 (.advance 1)) encrypted ∧
      encrypted.tasks 0 = .idle ∧ encrypted.tasks 1 = .panicked .sessionExpired := by
  have hadvance : ∀ (tasks : List ℕ) (state : State numberedSessions),
      Trace (fun state action state' =>
      Allowed state action ∧ state' = state.act "!room" action) state
        (tasks.map .advance) (advanceAll "!room" state tasks) := by
    intro tasks
    induction tasks with
    | nil => exact .nil
    | cons task tasks ih => exact fun state => .cons ⟨trivial, rfl⟩ (ih _)
  refine ⟨_, _, .cons ⟨rfl, rfl⟩ (.cons ⟨rfl, rfl⟩
    (hadvance (List.replicate 8 0 ++ List.replicate 4 1) _)), rfl, rfl,
    hadvance (List.replicate 4 0 ++ List.replicate 2 1) _, rfl, rfl⟩

end MatrixSdk.UnexpiredSessions

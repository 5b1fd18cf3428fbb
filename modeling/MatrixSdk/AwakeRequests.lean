import MatrixSdk.PendingChanges

/-!
What keeps a pending request awake. A request that was pending when a response for its sender was
committed is looked up by the response that holds it, or by one that has yet to tell the owner
about its commit, or it needs a query.
-/
namespace MatrixSdk.AwakeRequests

open IncomingRequests KeyQueryResponses KeyedMaps PendingChanges
open RequestLeases KeyQueryResponseClaim KeyedMap

variable (world : World)

/-- A response for the user is being processed and has not told the owner about its commit. -/
def Unrecorded (user : String) : Prop :=
  ∃ token response, world.responses.lookup token = some response ∧
    response.phase.isUnrecorded = true ∧ user ∈ response.users

/-- Such a response has committed its devices. -/
def Committing (user : String) : Prop :=
  ∃ token response, world.responses.lookup token = some response ∧
    response.phase = .saved ∧ user ∈ response.users

/-- The response will look the request up. -/
def Due (response : Response) (key : RequestKey) : Prop :=
  match response.phase with
  | .replaying keys _ => key ∈ keys
  | _ => True

/-- The response holds a request for a lookup, which has found `known` so far. -/
def Holds (token : ℕ) (known : Option Bool) : Prop :=
  ∃ response keys replay, world.responses.lookup token = some response ∧
    response.phase = .replaying keys (some replay) ∧ replay.known = known

/-- The request is going to be looked up or asked for. -/
def LookAhead (pending : PendingRequest) : Prop :=
  match pending.state with
  | .needsQuery | .initialLookup _ | .queryInFlight => True
  | .waitingForExternalUpdate => False
  | .responseClaimed token _ => ∃ response, world.responses.lookup token = some response ∧
      Due response pending.event.key
  | .replayClaimed token _ _ => Holds world token none

/-- A response was committed since the one that holds the request looked. -/
def Behind (pending : PendingRequest) : Prop :=
  match pending.state with
  | .responseClaimed _ observed | .replayClaimed _ _ observed =>
    observed < pending.committedUpdateGeneration
  | _ => False

/-- The lookup has found the device. -/
def Found (pending : PendingRequest) : Prop :=
  match pending.state with
  | .replayClaimed token _ _ => Holds world token (some true)
  | _ => False

/-- What is known about a pending request that is not cancelled. -/
structure Sound (strict : Bool) (world : World) (pending : PendingRequest) : Prop where
  claimed : ∀ token observed, pending.state = .responseClaimed token observed →
    observed ≤ pending.committedUpdateGeneration ∧
    ∃ response, world.responses.lookup token = some response ∧
      pending.event.sender ∈ response.users
  held : ∀ token replayToken observed,
    pending.state = .replayClaimed token replayToken observed →
    observed ≤ pending.committedUpdateGeneration ∧
    ∃ response keys replay, world.responses.lookup token = some response ∧
      pending.event.sender ∈ response.users ∧
      response.phase = .replaying keys (some replay) ∧
      replay.event = pending.event ∧ replay.token = replayToken
  unseen : pending.event.key ∈ world.unseen → Committing world pending.event.sender ∨
    LookAhead world pending ∨ Behind pending
  known : (pending.event.sender, pending.event.fromDevice) ∈ world.devices →
    pending.event.key ∈ world.unseen ∨ LookAhead world pending ∨ Found world pending
  inFlight : pending.state = .queryInFlight →
    world.queries.isWaiting pending.event.sender = true ∨
      Unrecorded world pending.event.sender
  strictly : strict = true → pending.state = .queryInFlight →
    (pending.event.sender, pending.event.fromDevice) ∈ world.devices →
    Committing world pending.event.sender

/-- The request needs a query, is looked up for the first time or, in a run that is not strict,
has a query in flight. -/
def isSafe (strict : Bool) (state : PendingState) : Bool :=
  isCalm state || !strict && decide (state = .queryInFlight)

/-- The steps that keep the requests awake: a query is taken to be scheduled only where one is
(and in a strict run where it is of use), the lookup of a replay does not fail, no request sees
so many commits that their number wraps, and a response that ends before it tells the owner
about its commit leaves no request behind. -/
def Careful (strict : Bool) (world : World) : Action → Prop
  | .markScheduled user => ∀ pending ∈ world.machine.owner.pendings,
      pending.cancelled = false → pending.event.sender = user → pending.state = .needsQuery →
      (world.queries.isWaiting user = true ∨ Unrecorded world user) ∧
        (strict = true → (user, pending.event.fromDevice) ∉ world.devices)
  | .look _ failed => failed = false
  | .record _ => ∀ pending ∈ world.machine.owner.pendings,
      pending.committedUpdateGeneration + 1 < 2 ^ 64
  | .fail token => ∀ response, world.responses.lookup token = some response →
      response.phase.isUnrecorded = true → ∀ pending ∈ world.machine.owner.pendings,
        pending.cancelled = false → pending.event.sender ∈ response.users →
        (pending.state = .queryInFlight →
          world.queries.isWaiting pending.event.sender = true) ∧
        (response.phase = .saved → isSafe strict pending.state = true ∨
          ownsState ⟨token⟩ pending.state = true)
  | _ => True

def CarefulStep (strict : Bool) (world : World) (action : Action) (world' : World) : Prop :=
  Careful strict world action ∧ world.act action = world'

structure Awake (strict : Bool) (world : World) : Prop where
  orderly : Orderly world.machine
  tokens : ∀ token response, world.responses.lookup token = some response →
    token < world.machine.nextResponseClaimToken
  users : ∀ token response, world.responses.lookup token = some response →
    response.deviceUsers ⊆ response.users
  sound : ∀ pending ∈ world.machine.owner.pendings, pending.cancelled = false →
    Sound strict world pending

section Soundness

variable {strict : Bool} {world world' : World} {pending : PendingRequest}

theorem Sound.of_isCalm (h : isCalm pending.state = true) : Sound strict world pending := by
  have hahead : LookAhead world pending := by
    unfold LookAhead
    cases hstate : pending.state with
    | needsQuery | initialLookup => trivial
    | _ =>
      rw [hstate] at h
      cases h
  refine ⟨fun token observed hstate => ?_, fun token replayToken observed hstate => ?_,
    fun _ => .inr (.inl hahead), fun _ => .inr (.inl hahead), fun hstate => ?_,
    fun _ hstate => ?_⟩
  all_goals
    rw [hstate] at h
    cases h

variable {token observed replayToken : ℕ} {response : Response}

theorem Sound.of_waiting (hstate : pending.state = .waitingForExternalUpdate)
    (hunseen : pending.event.key ∈ world.unseen → Committing world pending.event.sender)
    (hknown : (pending.event.sender, pending.event.fromDevice) ∈ world.devices →
      pending.event.key ∈ world.unseen) : Sound strict world pending := by
  refine ⟨fun token observed hstate' => ?_, fun token replayToken observed hstate' => ?_,
    fun h => .inl (hunseen h), fun h => .inl (hknown h), fun hstate' => ?_,
    fun _ hstate' => ?_⟩
  all_goals
    rw [hstate] at hstate'
    cases hstate'

section

variable (hstate : pending.state = .responseClaimed token observed)
include hstate

/-- A request that a response has yet to look up. -/
theorem Sound.of_due (hobserved : observed ≤ pending.committedUpdateGeneration)
    (hlookup : world.responses.lookup token = some response)
    (husers : pending.event.sender ∈ response.users) (hdue : Due response pending.event.key) :
    Sound strict world pending := by
  have hahead : LookAhead world pending := by
    unfold LookAhead
    rw [hstate]
    exact ⟨response, hlookup, hdue⟩
  refine ⟨fun token' observed' hstate' => ?_, fun token' replayToken observed' hstate' => ?_,
    fun _ => .inr (.inl hahead), fun _ => .inr (.inl hahead), fun hstate' => ?_,
    fun _ hstate' => ?_⟩
  all_goals
    rw [hstate] at hstate'
    cases hstate'
  exact ⟨hobserved, response, hlookup, husers⟩

theorem ownsState_of_claimed : ownsState ⟨token⟩ pending.state = true := by
  simp [hstate, ownsState]

end

section

variable (hstate : pending.state = .replayClaimed token replayToken observed)
include hstate

/-- A request that is held for a lookup. -/
theorem Sound.of_held {keys : List RequestKey} {replay : Replay}
    (hobserved : observed ≤ pending.committedUpdateGeneration)
    (hlookup : world.responses.lookup token = some response)
    (husers : pending.event.sender ∈ response.users)
    (hphase : response.phase = .replaying keys (some replay))
    (hevent : replay.event = pending.event) (htoken : replay.token = replayToken)
    (hunseen : pending.event.key ∈ world.unseen → replay.known = none)
    (hknown : (pending.event.sender, pending.event.fromDevice) ∈ world.devices →
      replay.known = none ∨ replay.known = some true) : Sound strict world pending := by
  have hahead : replay.known = none → LookAhead world pending := by
    intro hnone
    unfold LookAhead
    rw [hstate]
    exact ⟨response, keys, replay, hlookup, hphase, hnone⟩
  refine ⟨fun token' observed' hstate' => ?_, fun token' replayToken' observed' hstate' => ?_,
    fun hmem => .inr (.inl (hahead (hunseen hmem))), fun hmem => ?_, fun hstate' => ?_,
    fun _ hstate' => ?_⟩
  · rw [hstate] at hstate'
    cases hstate'
  · rw [hstate] at hstate'
    cases hstate'
    exact ⟨hobserved, response, keys, replay, hlookup, husers, hphase, hevent, htoken⟩
  · rcases hknown hmem with hnone | hfound
    · exact .inr (.inl (hahead hnone))
    · refine .inr (.inr ?_)
      unfold Found
      rw [hstate]
      exact ⟨response, keys, replay, hlookup, hphase, hfound⟩
  · rw [hstate] at hstate'
    cases hstate'
  · rw [hstate] at hstate'
    cases hstate'

theorem ownsState_of_held : ownsState ⟨token⟩ pending.state = true := by
  simp [hstate, ownsState]

end

/-- The response serves the request as before. -/
structure Serves (pending : PendingRequest) (response response' : Response) : Prop where
  users : response'.users = response.users
  due : Due response pending.event.key → Due response' pending.event.key
  current : ∀ token replayToken observed,
    pending.state = .replayClaimed token replayToken observed → ∀ keys replay,
    response.phase = .replaying keys (some replay) →
    ∃ keys', response'.phase = .replaying keys' (some replay)

theorem Serves.refl (pending : PendingRequest) (response : Response) :
    Serves pending response response :=
  ⟨rfl, id, fun _ _ _ _ keys _ h => ⟨keys, h⟩⟩

/-- The response of the request serves it as before, and nothing else that bears on it has
changed for the worse. -/
structure Undisturbed (world world' : World) (pending : PendingRequest) : Prop where
  serves : ∀ token response, ownsState ⟨token⟩ pending.state = true →
    world.responses.lookup token = some response →
    ∃ response', world'.responses.lookup token = some response' ∧
      Serves pending response response'
  unseen : pending.event.key ∈ world'.unseen →
    pending.event.key ∈ world.unseen ∨ Committing world' pending.event.sender
  kept : pending.event.key ∈ world.unseen → pending.event.key ∈ world'.unseen
  devices : (pending.event.sender, pending.event.fromDevice) ∈ world'.devices →
    (pending.event.sender, pending.event.fromDevice) ∈ world.devices ∨
      pending.event.key ∈ world'.unseen ∧ Committing world' pending.event.sender
  waiting : pending.state = .queryInFlight →
    world.queries.isWaiting pending.event.sender = true ∨ Unrecorded world pending.event.sender →
    world'.queries.isWaiting pending.event.sender = true ∨ Unrecorded world' pending.event.sender

/-- An undisturbed request stays as it is, up to the number of the commits. -/
theorem Sound.advance (h : Sound strict world pending) {generation : ℕ}
    (hgeneration : pending.committedUpdateGeneration ≤ generation)
    (hframe : Undisturbed world world' pending)
    (hcommitting : Committing world pending.event.sender →
      Committing world' pending.event.sender ∨
        Behind { pending with committedUpdateGeneration := generation }) :
    Sound strict world' { pending with committedUpdateGeneration := generation } := by
  have hholds : ∀ token replayToken observed known,
      pending.state = .replayClaimed token replayToken observed →
      Holds world token known → Holds world' token known := by
    rintro token replayToken observed known hstate ⟨response, keys, replay, hlookup, hphase, hknown⟩
    obtain ⟨response', hlookup', hserved⟩ :=
      hframe.serves token response (ownsState_of_held hstate) hlookup
    obtain ⟨keys', hphase'⟩ := hserved.current token replayToken observed hstate keys replay hphase
    exact ⟨response', keys', replay, hlookup', hphase', hknown⟩
  have hahead : LookAhead world pending →
      LookAhead world' { pending with committedUpdateGeneration := generation } := by
    unfold LookAhead
    cases hstate : pending.state with
    | responseClaimed token observed =>
      rintro ⟨response, hlookup, hdue⟩
      obtain ⟨response', hlookup', hserved⟩ :=
        hframe.serves token response (ownsState_of_claimed hstate) hlookup
      exact ⟨response', hlookup', hserved.due hdue⟩
    | replayClaimed token replayToken observed =>
      exact hholds token replayToken observed none hstate
    | _ => exact id
  have hbehind : Behind pending →
      Behind { pending with committedUpdateGeneration := generation } := by
    unfold Behind
    cases hstate : pending.state with
    | responseClaimed token observed => exact fun hlt => Nat.lt_of_lt_of_le hlt hgeneration
    | replayClaimed token replayToken observed =>
      exact fun hlt => Nat.lt_of_lt_of_le hlt hgeneration
    | _ => exact id
  have hfound : Found world pending →
      Found world' { pending with committedUpdateGeneration := generation } := by
    unfold Found
    cases hstate : pending.state with
    | replayClaimed token replayToken observed =>
      exact hholds token replayToken observed (some true) hstate
    | _ => exact id
  refine ⟨fun token observed hstate => ?_, fun token replayToken observed hstate => ?_,
    fun hmem => ?_, fun hmem => ?_, fun hstate => hframe.waiting hstate (h.inFlight hstate),
    fun hstrict hstate hmem => ?_⟩
  · obtain ⟨hobserved, response, hlookup, husers⟩ := h.claimed token observed hstate
    obtain ⟨response', hlookup', hserved⟩ :=
      hframe.serves token response (ownsState_of_claimed hstate) hlookup
    refine ⟨Nat.le_trans hobserved hgeneration, response', hlookup', ?_⟩
    rw [hserved.users]
    exact husers
  · obtain ⟨hobserved, response, keys, replay, hlookup, husers, hphase, hreplay⟩ :=
      h.held token replayToken observed hstate
    obtain ⟨response', hlookup', hserved⟩ :=
      hframe.serves token response (ownsState_of_held hstate) hlookup
    obtain ⟨keys', hphase'⟩ := hserved.current token replayToken observed hstate keys replay hphase
    refine ⟨Nat.le_trans hobserved hgeneration, response', keys', replay, hlookup', ?_, hphase',
      hreplay⟩
    rw [hserved.users]
    exact husers
  · rcases hframe.unseen hmem with hbefore | hcommit
    · rcases h.unseen hbefore with hcase | hcase | hcase
      · rcases hcommitting hcase with hcase | hcase
        · exact .inl hcase
        · exact .inr (.inr hcase)
      · exact .inr (.inl (hahead hcase))
      · exact .inr (.inr (hbehind hcase))
    · exact .inl hcommit
  · rcases hframe.devices hmem with hbefore | ⟨hmem, -⟩
    · rcases h.known hbefore with hcase | hcase | hcase
      · exact .inl (hframe.kept hcase)
      · exact .inr (.inl (hahead hcase))
      · exact .inr (.inr (hfound hcase))
    · exact .inl hmem
  · rcases hframe.devices hmem with hbefore | ⟨-, hcommit⟩
    · rcases hcommitting (h.strictly hstrict hstate hbefore) with hcase | hcase
      · exact hcase
      · -- nobody holds a request that waits for a query
        unfold Behind at hcase
        simp only [show pending.state = .queryInFlight from hstate] at hcase
    · exact hcommit

/-- A query was scheduled for the request. -/
theorem Sound.of_queryInFlight (hstate : pending.state = .queryInFlight)
    (hwaiting : world.queries.isWaiting pending.event.sender = true ∨
      Unrecorded world pending.event.sender)
    (hstrict : strict = true →
      (pending.event.sender, pending.event.fromDevice) ∉ world.devices) :
    Sound strict world pending := by
  have hahead : LookAhead world pending := by
    unfold LookAhead
    rw [hstate]
    trivial
  refine ⟨fun token observed hstate' => ?_, fun token replayToken observed hstate' => ?_,
    fun _ => .inr (.inl hahead), fun _ => .inr (.inl hahead), fun _ => hwaiting,
    fun h _ hmem => absurd hmem (hstrict h)⟩
  all_goals
    rw [hstate] at hstate'
    cases hstate'

theorem ownsState_cases {state : PendingState} (h : ownsState ⟨token⟩ state = true) :
    (∃ observed, state = .responseClaimed token observed) ∨
      ∃ replayToken observed, state = .replayClaimed token replayToken observed := by
  cases state with
  | responseClaimed owner observed =>
    cases of_decide_eq_true h
    exact .inl ⟨observed, rfl⟩
  | replayClaimed owner replayToken observed =>
    cases of_decide_eq_true h
    exact .inr ⟨replayToken, observed, rfl⟩
  | _ => cases h

section

variable (h : Sound strict world pending)
include h

/-- The same for a request that stays as it is. -/
theorem Sound.frame (hframe : Undisturbed world world' pending)
    (hcommitting : Committing world pending.event.sender → Committing world' pending.event.sender) :
    Sound strict world' pending :=
  h.advance le_rfl hframe fun hcommit => .inl (hcommitting hcommit)

/-- The responses, the store and the commits are as before. -/
theorem Sound.frame_same (hresponses : world'.responses = world.responses)
    (hunseen : world'.unseen = world.unseen) (hdevices : world'.devices = world.devices)
    (hwaiting : world.queries.isWaiting pending.event.sender = true →
      world'.queries.isWaiting pending.event.sender = true) : Sound strict world' pending := by
  refine h.frame ⟨fun token response _ hlookup => ?_, ?_, ?_, ?_, ?_⟩ ?_
  · rw [hresponses]
    exact ⟨response, hlookup, .refl _ response⟩
  · rw [hunseen]
    exact .inl
  · rw [hunseen]
    exact id
  · rw [hdevices]
    exact .inl
  · unfold Unrecorded
    rw [hresponses]
    exact fun _ => Or.imp_left hwaiting
  · unfold Committing
    rw [hresponses]
    exact id

/-- A response holds only requests of its users. -/
theorem Sound.mem_users (howns : ownsState ⟨token⟩ pending.state = true)
    (hlookup : world.responses.lookup token = some response) :
    pending.event.sender ∈ response.users := by
  rcases ownsState_cases howns with ⟨observed, hstate⟩ | ⟨replayToken, observed, hstate⟩
  · obtain ⟨-, other, hother, husers⟩ := h.claimed token observed hstate
    rw [hlookup] at hother
    cases hother
    exact husers
  · obtain ⟨-, other, keys, replay, hother, husers, -⟩ :=
      h.held token replayToken observed hstate
    rw [hlookup] at hother
    cases hother
    exact husers

/-- The lookup that holds a request is the one that its response is at. -/
theorem Sound.replay_eq (hstate : pending.state = .replayClaimed token replayToken observed)
    (hlookup : world.responses.lookup token = some response) :
    ∃ keys replay, response.phase = .replaying keys (some replay) ∧
      replay.event = pending.event ∧ replay.token = replayToken := by
  obtain ⟨-, other, keys, replay, hother, -, hphase, hreplay⟩ :=
    h.held token replayToken observed hstate
  rw [hlookup] at hother
  cases hother
  exact ⟨keys, replay, hphase, hreplay⟩

end

section Phases

variable {token : ℕ} {response : Response} {phase : Phase} {user : String}

section

variable (hlookup : world.responses.lookup token = some response)
  (hresponses : world'.responses = world.responses.insert token { response with phase := phase })
include hlookup hresponses

section

variable (hphase : user ∈ response.users → response.phase.isUnrecorded = true → phase = .saved)
include hphase

theorem committing_of_insert (h : Committing world user) : Committing world' user := by
  unfold Committing
  rw [hresponses]
  refine exists_lookup_insert hlookup ?_ h
  rintro ⟨hsaved, huser⟩
  exact ⟨hphase huser (by rw [hsaved]; rfl), huser⟩

theorem unrecorded_of_insert (h : Unrecorded world user) : Unrecorded world' user := by
  unfold Unrecorded
  rw [hresponses]
  refine exists_lookup_insert hlookup ?_ h
  rintro ⟨hunrecorded, huser⟩
  exact ⟨by rw [hphase huser hunrecorded]; rfl, huser⟩

end

variable (hserves : ownsState ⟨token⟩ pending.state = true →
  Serves pending response { response with phase := phase })
include hserves

theorem serves_of_insert :
    ∀ other response', ownsState ⟨other⟩ pending.state = true →
      world.responses.lookup other = some response' →
      ∃ response'', world'.responses.lookup other = some response'' ∧
        Serves pending response' response'' := by
  intro other response' howns hother
  rw [hresponses]
  by_cases heq : other = token
  · subst heq
    rw [hlookup] at hother
    cases hother
    exact ⟨_, AList.lookup_insert _, hserves howns⟩
  · exact ⟨response', by rw [AList.lookup_insert_ne heq]; exact hother, .refl _ _⟩

/-- One response goes on to another phase. -/
theorem Sound.frame_phase (h : Sound strict world pending)
    (hphase : pending.event.sender ∈ response.users → response.phase.isUnrecorded = true →
      phase = .saved)
    (hunseen : world'.unseen = world.unseen) (hdevices : world'.devices = world.devices)
    (hqueries : world'.queries = world.queries) : Sound strict world' pending := by
  refine h.frame ⟨serves_of_insert hlookup hresponses hserves, ?_, ?_, ?_, ?_⟩
    (committing_of_insert hlookup hresponses hphase)
  · rw [hunseen]
    exact .inl
  · rw [hunseen]
    exact id
  · rw [hdevices]
    exact .inl
  · rw [hqueries]
    exact fun _ => Or.imp_right (unrecorded_of_insert hlookup hresponses hphase)

end

section

variable (hlookup : world.responses.lookup token = some response)
  (hresponses : world'.responses = world.responses.erase token)
include hlookup hresponses

theorem committing_of_erase (hphase : user ∈ response.users → response.phase ≠ .saved)
    (h : Committing world user) : Committing world' user := by
  unfold Committing
  rw [hresponses]
  exact exists_lookup_erase hlookup (fun hsaved => hphase hsaved.2 hsaved.1) h

theorem unrecorded_of_erase (hphase : user ∈ response.users → ¬response.phase.isUnrecorded = true)
    (h : Unrecorded world user) : Unrecorded world' user := by
  unfold Unrecorded
  rw [hresponses]
  exact exists_lookup_erase hlookup (fun hended => hphase hended.2 hended.1) h

end

theorem serves_of_erase (hresponses : world'.responses = world.responses.erase token)
    (hfree : ¬ownsState ⟨token⟩ pending.state = true) :
    ∀ other response', ownsState ⟨other⟩ pending.state = true →
      world.responses.lookup other = some response' →
      ∃ response'', world'.responses.lookup other = some response'' ∧
        Serves pending response' response'' := by
  intro other response' howns hother
  refine ⟨response', ?_, .refl _ _⟩
  rw [hresponses, AList.lookup_erase_ne, hother]
  rintro rfl
  exact hfree howns

end Phases

end Soundness

open DeviceTrust Traces RequestOwner List Bool AList Nat

theorem le_nextResponseClaimToken (machine : RequestMachine) (action : OwnerAction) :
    machine.nextResponseClaimToken ≤ (machine.act action).nextResponseClaimToken := by
  cases action with
  | claimResponse users => exact le_succ _
  | poll generation =>
    simp only [RequestMachine.act, RequestMachine.poll]
    split
    · exact le_rfl
    · exact le_rfl
  | commit | dropDelivery =>
    simp only [RequestMachine.act]
    split
    · exact le_rfl
    · exact le_rfl
  | _ => exact le_rfl

section Steps

variable {strict : Bool} {world : World}

section Owner

variable (h : Awake strict world)
include h

theorem Awake.keysDiffer : KeysDiffer world.machine.owner :=
  h.orderly.keys

/-- A section that leaves the responses alone. -/
theorem Awake.run (action : OwnerAction)
    (hsound : ∀ pending ∈ (world.machine.act action).owner.pendings, pending.cancelled = false →
      pending ∈ world.machine.owner.pendings ∨ Sound strict (world.run action) pending) :
    Awake strict (world.run action) where
  orderly := orderly_act _ action _ h.orderly rfl
  tokens token response hlookup :=
    lt_of_lt_of_le (h.tokens token response hlookup) (le_nextResponseClaimToken _ action)
  users := h.users
  sound pending hmem hcancelled := by
    rcases hsound pending hmem hcancelled with hbefore | hsound
    · exact (h.sound pending hbefore hcancelled).frame_same rfl rfl rfl id
    · exact hsound

theorem Awake.owner {action : OwnerAction} (hfree : isFree action = true) :
    Awake strict (world.run action) := by
  refine h.run action fun pending hmem hcancelled => ?_
  rcases calm_of_isFree hfree hmem hcancelled with hbefore | hcalm
  · exact .inl hbefore
  · exact .inr (.of_isCalm hcalm)

variable {user : String}

theorem Awake.markScheduled (hcareful : Careful strict world (.markScheduled user)) :
    Awake strict (world.run (.markScheduled user)) := by
  refine h.run _ fun pending hmem hcancelled => ?_
  obtain ⟨before, hbefore, rfl⟩ := mem_pendings_mapPending.mp hmem
  split at hcancelled
  · next hmarked =>
    right
    rw [if_pos hmarked]
    simp only [and_eq_true, not_eq_true', decide_eq_true_eq] at hmarked
    obtain ⟨⟨hlive, hsender⟩, hstate⟩ := hmarked
    obtain ⟨hwaiting, hstrict⟩ := hcareful before hbefore hlive hsender hstate
    subst hsender
    exact .of_queryInFlight rfl hwaiting hstrict
  · next hmarked =>
    rw [if_neg hmarked]
    exact .inl hbefore

theorem Awake.markChanged (user : String) :
    Awake strict { world with queries := world.queries.insertUser user } where
  orderly := h.orderly
  tokens := h.tokens
  users := h.users
  sound pending hmem hcancelled := by
    refine (h.sound pending hmem hcancelled).frame_same rfl rfl rfl fun hwaiting => ?_
    simp only [UsersForKeyQuery.isWaiting, UsersForKeyQuery.insertUser] at hwaiting ⊢
    by_cases hother : pending.event.sender = user
    · rw [hother, lookup_insert]
      rfl
    · rwa [lookup_insert_ne hother]

theorem Awake.register (requestId : String) (users : List String) :
    Awake strict (world.register requestId users) := by
  unfold World.register
  split
  · exact ⟨h.orderly, h.tokens, h.users, fun pending hmem hcancelled =>
      (h.sound pending hmem hcancelled).frame_same rfl rfl rfl id⟩
  · exact h

theorem Awake.receive (requestId : String) (deviceUsers : List String) :
    Awake strict (world.receive requestId deviceUsers) := by
  have hnew : (world.receive requestId deviceUsers).responses.lookup
      world.machine.nextResponseClaimToken =
        some ⟨requestId, deviceUsers ++ world.coveredUsers requestId, deviceUsers, .claimed⟩ :=
    lookup_insert _
  have hold : ∀ token response, world.responses.lookup token = some response →
      (world.receive requestId deviceUsers).responses.lookup token = some response := by
    intro token response hlookup
    exact (lookup_insert_ne (h.tokens token response hlookup).ne).trans hlookup
  have hcases : ∀ token response,
      (world.receive requestId deviceUsers).responses.lookup token = some response →
      token = world.machine.nextResponseClaimToken ∧ response =
        ⟨requestId, deviceUsers ++ world.coveredUsers requestId, deviceUsers, .claimed⟩ ∨
      world.responses.lookup token = some response := by
    intro token response hlookup
    rcases KeyedMap.lookup_insert_cases hlookup with ⟨htoken, hresponse⟩ | ⟨-, hlookup⟩
    · exact .inl ⟨htoken, hresponse.symm⟩
    · exact .inr hlookup
  refine ⟨orderly_act _ (.claimResponse _) _ h.orderly rfl, ?_, ?_, ?_⟩
  · intro token response hlookup
    rcases hcases token response hlookup with ⟨rfl, -⟩ | hlookup
    · exact lt_succ_self _
    · exact lt_succ_of_lt (h.tokens token response hlookup)
  · intro token response hlookup
    rcases hcases token response hlookup with ⟨-, rfl⟩ | hlookup
    · exact subset_append_left _ _
    · exact h.users token response hlookup
  · intro pending hmem hcancelled
    obtain ⟨before, hbefore, rfl⟩ := mem_pendings_mapPending.mp hmem
    split at hcancelled
    · next hclaimed =>
      rw [if_pos hclaimed]
      simp only [and_eq_true, decide_eq_true_eq] at hclaimed
      exact .of_due rfl le_rfl hnew hclaimed.1.2 trivial
    · next hclaimed =>
      rw [if_neg hclaimed]
      refine (h.sound before hbefore hcancelled).frame
        ⟨fun token response _ hlookup => ?_, .inl, id, .inl, fun _ => Or.imp_right ?_⟩ ?_
      · exact ⟨response, hold token response hlookup, .refl _ response⟩
      · rintro ⟨token, response, hlookup, hphase⟩
        exact ⟨token, response, hold token response hlookup, hphase⟩
      · rintro ⟨token, response, hlookup, hphase⟩
        exact ⟨token, response, hold token response hlookup, hphase⟩

end Owner

section Responses

variable {token : ℕ} {response : Response} (h : Awake strict world)
  (hlookup : world.responses.lookup token = some response)
include h hlookup

/-- The responses after one of them has gone on to another phase. -/
theorem Awake.lookup_insert_cases {phase : Phase} {other : ℕ} {response' : Response}
    (hother : (world.responses.insert token { response with phase := phase }).lookup other =
      some response') :
    other < world.machine.nextResponseClaimToken ∧ response'.deviceUsers ⊆ response'.users := by
  rcases KeyedMap.lookup_insert_cases hother with ⟨rfl, rfl⟩ | ⟨-, hother⟩
  · exact ⟨h.tokens other response hlookup, h.users other response hlookup⟩
  · exact ⟨h.tokens other response' hother, h.users other response' hother⟩

/-- A section of a response, after which it is in another phase. -/
theorem Awake.run_phase (action : OwnerAction) (phase : Phase)
    (hsound : ∀ pending ∈ (world.machine.act action).owner.pendings, pending.cancelled = false →
      Sound strict ((world.run action).setPhase token response phase) pending) :
    Awake strict ((world.run action).setPhase token response phase) where
  orderly := orderly_act _ action _ h.orderly rfl
  tokens _ _ hother :=
    lt_of_lt_of_le (h.lookup_insert_cases hlookup hother).1 (le_nextResponseClaimToken _ action)
  users _ _ hother := (h.lookup_insert_cases hlookup hother).2
  sound := hsound

theorem Awake.save (hphase : response.phase = .claimed) (devices : List (String × String)) :
    Awake strict (world.save token response devices) := by
  have hcommits : ∀ user ∈ response.users, Committing (world.save token response devices) user :=
    fun user huser => ⟨token, _, lookup_insert _, rfl, huser⟩
  refine ⟨h.orderly, fun other response' hother => (h.lookup_insert_cases hlookup hother).1,
    fun other response' hother => (h.lookup_insert_cases hlookup hother).2, ?_⟩
  intro pending hmem hcancelled
  have hserves : KeyQueryResponseClaim.ownsState ⟨token⟩ pending.state = true →
      Serves pending response { response with phase := .saved } := by
    refine fun _ => ⟨rfl, fun _ => trivial, fun _ _ _ _ keys replay hreplay => ?_⟩
    rw [hphase] at hreplay
    cases hreplay
  refine (h.sound pending hmem hcancelled).frame
    ⟨serves_of_insert hlookup rfl hserves, ?_, mem_append_right _, ?_, fun _ => Or.imp_right
      (unrecorded_of_insert hlookup rfl fun _ _ => rfl)⟩
    (committing_of_insert hlookup rfl fun _ _ => rfl)
  · intro hunseen
    rcases mem_append.mp hunseen with hkey | hunseen
    · right
      obtain ⟨other, hother, hkey⟩ := mem_map.mp hkey
      have hsender : other.event.sender = pending.event.sender := congrArg RequestKey.sender hkey
      rw [← hsender]
      exact hcommits _ (by simpa using (mem_filter.mp hother).2)
    · exact .inl hunseen
  · intro hdevice
    rcases mem_append.mp hdevice with hdevice | hdevice
    · exact .inl (mem_filter.mp hdevice).1
    · right
      have hdeviceUsers : pending.event.sender ∈ response.deviceUsers := by
        simpa using (mem_filter.mp hdevice).2
      have husers := h.users token response hlookup hdeviceUsers
      refine ⟨mem_append_left _ ?_, hcommits _ husers⟩
      exact mem_map_of_mem (mem_filter.mpr ⟨hmem, by simpa using husers⟩)

omit h hlookup in
theorem isWaiting_foldl {users : List String} {number : SequenceNumber} {user : String}
    (hmem : user ∉ users) (queries : UsersForKeyQuery) :
    (users.foldl (fun queries other => queries.maybeRemoveUser number other) queries).isWaiting
      user = queries.isWaiting user := by
  induction users generalizing queries with
  | nil => rfl
  | cons other users ih =>
    rw [foldl_cons, ih (fun h => hmem (mem_cons_of_mem _ h))]
    have hne : user ≠ other := fun heq => hmem (by simp [heq])
    unfold UsersForKeyQuery.maybeRemoveUser
    split
    · rfl
    · split
      · rfl
      · unfold UsersForKeyQuery.isWaiting
        rw [AList.lookup_erase_ne hne]

theorem Awake.upToDate (hphase : response.phase = .saved) :
    Awake strict (world.upToDate response) := by
  unfold World.upToDate
  split
  · exact h
  · refine ⟨h.orderly, h.tokens, h.users, fun pending hmem hcancelled => ?_⟩
    refine (h.sound pending hmem hcancelled).frame
      ⟨fun other response' _ hother => ⟨response', hother, .refl _ _⟩, .inl, id, .inl,
        fun _ hwaiting => ?_⟩ id
    by_cases hsender : pending.event.sender ∈ response.deviceUsers
    · -- the response itself has yet to tell the owner
      right
      refine ⟨token, response, hlookup, ?_, h.users token response hlookup hsender⟩
      rw [hphase]
      rfl
    · rw [isWaiting_foldl hsender]
      exact hwaiting

/-- A response tells the owner about its commit. -/
theorem Awake.record (hphase : response.phase = .saved)
    (hcareful : Careful strict world (.record token)) :
    Awake strict ((world.run (.recordCommit response.users token)).setPhase token response
      .recorded) := by
  refine h.run_phase hlookup _ _ fun pending hmem hcancelled => ?_
  obtain ⟨before, hbefore, rfl⟩ := mem_pendings_mapPending.mp hmem
  have hnew : ((world.run (.recordCommit response.users token)).setPhase token response
      .recorded).responses.lookup token = some { response with phase := .recorded } :=
    lookup_insert _
  by_cases hcovered : (!before.cancelled && decide (before.event.sender ∈ response.users)) = true
  · simp only [hcovered, if_true] at hcancelled ⊢
    simp only [and_eq_true, not_eq_true', decide_eq_true_eq] at hcovered
    have hsound := h.sound before hbefore hcovered.1
    have hgeneration : (before.committedUpdateGeneration + 1) % 2 ^ 64 =
        before.committedUpdateGeneration + 1 :=
      mod_eq_of_lt (hcareful before hbefore)
    rw [hgeneration]
    -- a request that another response holds has a commit to catch up with
    have hother : committedState token (before.committedUpdateGeneration + 1) before.state =
          before.state → ownsState ⟨token⟩ before.state = false → Behind { before with
            committedUpdateGeneration := before.committedUpdateGeneration + 1 } →
        Sound strict ((world.run (.recordCommit response.users token)).setPhase token response
          .recorded) { before with
            state := committedState token (before.committedUpdateGeneration + 1) before.state
            committedUpdateGeneration := before.committedUpdateGeneration + 1 } := by
      intro hsame hnot hbehind
      rw [hsame]
      refine hsound.advance (le_succ _) ⟨serves_of_insert hlookup rfl fun howns => ?_, .inl, id,
        .inl, fun hstate => ?_⟩ fun _ => .inr hbehind
      · rw [hnot] at howns
        cases howns
      · unfold Behind at hbehind
        simp [hstate] at hbehind
    cases hstate : before.state with
    | needsQuery | queryInFlight | waitingForExternalUpdate =>
      exact .of_due rfl le_rfl hnew hcovered.2 trivial
    | initialLookup owner => exact .of_isCalm rfl
    | responseClaimed owner observed =>
      by_cases howner : owner = token
      · subst howner
        have hclaimed : committedState owner (before.committedUpdateGeneration + 1)
            (.responseClaimed owner observed) =
              .responseClaimed owner (before.committedUpdateGeneration + 1) := by
          simp [committedState]
        exact .of_due hclaimed le_rfl hnew hcovered.2 trivial
      · rw [← hstate]
        apply hother
        · simp [hstate, committedState, howner]
        · simp [hstate, ownsState, howner]
        · unfold Behind
          simp only [hstate]
          exact lt_succ_of_le (hsound.claimed owner observed hstate).1
    | replayClaimed owner replayToken observed =>
      have howner : owner ≠ token := by
        rintro rfl
        obtain ⟨keys, replay, hreplay, -⟩ := hsound.replay_eq hstate hlookup
        rw [hphase] at hreplay
        cases hreplay
      rw [← hstate]
      apply hother
      · simp [hstate, committedState, howner]
      · simp [hstate, ownsState, howner]
      · unfold Behind
        simp only [hstate]
        exact lt_succ_of_le (hsound.held owner replayToken observed hstate).1
  · simp only [hcovered, false_eq_true, if_false] at hcancelled ⊢
    have hsender : before.event.sender ∉ response.users := by simpa [hcancelled] using hcovered
    have hsound := h.sound before hbefore hcancelled
    refine hsound.frame_phase hlookup rfl (fun howns => ?_) (fun hmem => absurd hmem hsender) rfl
      rfl rfl
    exact absurd (hsound.mem_users howns hlookup) hsender

/-- A response collects the requests to look up. -/
theorem Awake.select (hphase : response.phase = .recorded) (now : ℕ) :
    Awake strict ((world.run (.retry now response.users token)).setPhase token response
      (.replaying (world.machine.owner.retryKeys now response.users token).1 none)) := by
  refine h.run_phase hlookup _ _ fun pending hmem hcancelled => ?_
  have hsound := h.sound pending (mem_pendings_of_expire hmem) hcancelled
  refine hsound.frame_phase hlookup rfl (fun howns => ⟨rfl, fun _ => ?_, ?_⟩)
    (fun _ hrecorded => ?_)
    rfl rfl rfl
  · have husers := hsound.mem_users howns hlookup
    rcases ownsState_cases howns with ⟨observed, hstate⟩ | ⟨replayToken, observed, hstate⟩
    · exact mem_map_of_mem (mem_filter.mpr ⟨hmem, by simp [hcancelled, husers, hstate]⟩)
    · obtain ⟨keys, replay, hreplay, -⟩ := hsound.replay_eq hstate hlookup
      rw [hphase] at hreplay
      cases hreplay
  · intro _ _ _ _ keys replay hreplay
    rw [hphase] at hreplay
    cases hreplay
  · rw [hphase] at hrecorded
    cases hrecorded

/-- A response takes hold of its next request. -/
theorem Awake.hold {key : RequestKey}
    {keys : List RequestKey} (hphase : response.phase = .replaying (key :: keys) none) :
    Awake strict (world.hold token response key keys) := by
  have hunrecorded : response.phase.isUnrecorded = true → False := by
    rw [hphase]
    exact false_ne_true
  have hcurrent : ∀ {keys' replay}, response.phase ≠ .replaying keys' (some replay) := by
    intro keys' replay hreplay
    rw [hphase] at hreplay
    cases hreplay
  -- what becomes of the requests with another key
  have hothers : ∀ {current : Option Replay} {pending : PendingRequest},
      pending ∈ world.machine.owner.pendings → pending.cancelled = false →
      (KeyQueryResponseClaim.ownsState ⟨token⟩ pending.state = true →
        pending.event.key ≠ key) →
      Sound strict ((world.run (.claimForReplay key token)).setPhase token response
        (.replaying keys current)) pending := by
    intro current pending hmem hcancelled hkey
    refine (h.sound pending hmem hcancelled).frame_phase hlookup rfl
      (fun howns =>
        ⟨rfl, fun hdue => ?_, fun _ _ _ _ keys' replay hreplay => absurd hreplay hcurrent⟩)
      (fun _ hrecorded => (hunrecorded hrecorded).elim) rfl rfl rfl
    unfold Due at hdue
    rw [hphase] at hdue
    exact (mem_cons.mp hdue).resolve_left (hkey howns)
  unfold World.hold
  cases hclaim : world.machine.owner.claimPendingToDeviceRequestForReplay key token
    world.machine.nextRequestClaimToken with
  | none =>
    refine h.run_phase hlookup _ _ fun pending hmem hcancelled => ?_
    have hbefore : pending ∈ world.machine.owner.pendings := by
      simpa [RequestMachine.act, hclaim] using hmem
    refine hothers hbefore hcancelled fun howns hkey => ?_
    subst hkey
    rcases ownsState_cases howns with ⟨observed, hstate⟩ | ⟨replayToken, observed, hstate⟩
    · rw [h.keysDiffer.claimForReplay_eq hbefore hstate] at hclaim
      cases hclaim
    · obtain ⟨_, _, hreplay, -⟩ :=
        (h.sound pending hbefore hcancelled).replay_eq hstate hlookup
      exact hcurrent hreplay
  | some held =>
    obtain ⟨taken, htaken, rfl, observed, hstate⟩ : ∃ taken ∈ world.machine.owner.pendings,
        taken.event.key = key ∧ ∃ observed, taken.state = .responseClaimed token observed := by
      obtain ⟨taken, hfind, hclaim⟩ := Option.bind_eq_some_iff.mp hclaim
      split at hclaim
      · next owner' observed hstate =>
        split at hclaim
        · cases hclaim
        · next howner =>
          refine ⟨taken, mem_of_find?_eq_some hfind, by simpa using find?_some hfind, observed, ?_⟩
          rw [hstate, not_not.mp howner]
      · cases hclaim
    have heq := h.keysDiffer.claimForReplay_eq htaken hstate world.machine.nextRequestClaimToken
    refine h.run_phase hlookup _ _ fun pending hmem hcancelled => ?_
    simp [RequestMachine.act, heq] at hmem
    obtain ⟨before, hbefore, rfl⟩ := mem_pendings_mapPending.mp hmem
    rw [heq] at hclaim
    cases hclaim
    by_cases hkey : before.event.key = taken.event.key
    · have hbefore' := h.keysDiffer.eq_of_key htaken hbefore hkey
      subst hbefore'
      rw [if_pos hkey] at hcancelled ⊢
      have hsound := h.sound before hbefore hcancelled
      have husers := hsound.mem_users (ownsState_of_claimed hstate) hlookup
      exact .of_held rfl (hsound.claimed token observed hstate).1 (lookup_insert _) husers
        rfl rfl rfl (fun _ => rfl) fun _ => .inl rfl
    · rw [if_neg hkey] at hcancelled ⊢
      exact hothers hbefore hcancelled fun _ => hkey

section Replays

variable {keys : List RequestKey} {replay : Replay}

variable {pending : PendingRequest} {observed : ℕ}
  (hphase : response.phase = .replaying keys (some replay))
include hphase

omit h hlookup in
theorem not_isUnrecorded : ¬response.phase.isUnrecorded = true := by
  rw [hphase]
  exact false_ne_true

omit h in
/-- A request that the response holds for a lookup is the one that the lookup is for. -/
theorem Sound.matches_of_held {replayToken : ℕ} (h : Sound strict world pending)
    (hstate : pending.state = .replayClaimed token replayToken observed) :
    replay.event = pending.event ∧ (replay.claim token).stateMatches pending.state = true := by
  obtain ⟨_, other, hother, hevent, htoken⟩ := h.replay_eq hstate hlookup
  rw [hphase] at hother
  cases hother
  refine ⟨hevent, ?_⟩
  simp [hstate, RequestClaim.stateMatches, Replay.claim, htoken]

omit h in
/-- The requests that the lookup is not for stay with the response as they are. -/
theorem Sound.serves_of_not_heldBy (h : Sound strict world pending) {current : Option Replay}
    (hheld : ¬HeldBy (replay.claim token) pending)
    (howns : KeyQueryResponseClaim.ownsState ⟨token⟩ pending.state = true) :
    Serves pending response { response with phase := .replaying keys current } := by
  refine ⟨rfl, fun hdue => ?_, fun token' replayToken observed hstate => ?_⟩
  · unfold Due at hdue ⊢
    rw [hphase] at hdue
    exact hdue
  · exfalso
    rcases ownsState_cases howns with ⟨_, hstate'⟩ | ⟨_, _, hstate'⟩
    · rw [hstate] at hstate'
      cases hstate'
    · obtain ⟨hevent, hmatches⟩ := h.matches_of_held hlookup hphase hstate'
      exact hheld ⟨by rw [← hevent]; rfl, hmatches⟩

/-- The response looks up the device of the request that it holds. -/
theorem Awake.look : Awake strict (world.look token response keys replay false) := by
  refine ⟨h.orderly, fun _ _ hother => (h.lookup_insert_cases hlookup hother).1,
    fun _ _ hother => (h.lookup_insert_cases hlookup hother).2, ?_⟩
  intro pending hmem hcancelled
  have hsound := h.sound pending hmem hcancelled
  by_cases hheld : HeldBy (replay.claim token) pending
  · obtain ⟨hkey, hmatches⟩ : pending.event.key = replay.event.key ∧ _ := hheld
    obtain ⟨observed, hstate⟩ : ∃ observed,
        pending.state = .replayClaimed token replay.token observed := by
      cases hstate : pending.state with
      | replayClaimed responseToken replayToken observed =>
        rw [hstate] at hmatches
        obtain ⟨hkind, hreplay⟩ := and_eq_true_iff.mp hmatches
        cases of_decide_eq_true (and_eq_true_iff.mp hkind).2
        cases of_decide_eq_true hreplay
        exact ⟨observed, rfl⟩
      | _ => simp [hstate, RequestClaim.stateMatches, Replay.claim] at hmatches
    obtain ⟨hevent, -⟩ := hsound.matches_of_held hlookup hphase hstate
    have husers := hsound.mem_users (ownsState_of_held hstate) hlookup
    have hpending : (world.machine.owner.hasPending fun pending =>
        pending.event.key = replay.event.key &&
          (replay.claim token).stateMatches pending.state) = true := by
      refine hasPending_iff.mpr ⟨pending, hmem, ?_⟩
      simp [hkey, hmatches]
    refine .of_held hstate (hsound.held _ _ _ hstate).1 (lookup_insert _) husers rfl hevent
      rfl (fun hunseen => ?_) (fun hdevice => .inr ?_)
    · simp [World.look, hpending, hkey] at hunseen
    · have hdevice : (pending.event.sender, pending.event.fromDevice) ∈ world.devices := hdevice
      simp [hevent, hdevice]
  · -- the lookup is not for this request
    have hunrecorded := not_isUnrecorded hphase
    refine hsound.frame ⟨serves_of_insert hlookup rfl
        (hsound.serves_of_not_heldBy hlookup hphase hheld), fun hunseen => .inl ?_,
      fun hunseen => ?_, .inl, fun _ => Or.imp_right (unrecorded_of_insert hlookup rfl
        fun _ => (absurd · hunrecorded))⟩
      (committing_of_insert hlookup rfl fun _ => (absurd · hunrecorded))
    · simp [World.look] at hunseen
      split at hunseen
      · exact (mem_filter.mp hunseen).1
      · exact hunseen
    · simp only [World.look]
      split
      · next hfound =>
        refine mem_filter.mpr ⟨hunseen, decide_eq_true fun hkey => hheld ⟨hkey, ?_⟩⟩
        obtain ⟨other, hother, hmatches⟩ :=
          hasPending_iff.mp (and_eq_true_iff.mp hfound).2
        obtain ⟨hkey', hmatches⟩ := and_eq_true_iff.mp hmatches
        have hsame := h.keysDiffer.eq_of_key hmem hother
          ((of_decide_eq_true hkey').trans hkey.symm)
        rw [← hsame]
        exact hmatches
      · exact hunseen

omit h in
/-- The requests that the lookup was not for, when it is over. -/
theorem Sound.frame_settle (h : Sound strict world pending) (action : OwnerAction)
    (hheld : ¬HeldBy (replay.claim token) pending) :
    Sound strict ((world.run action).setPhase token response (.replaying keys none)) pending := by
  have hunrecorded := not_isUnrecorded hphase
  exact h.frame_phase hlookup rfl (h.serves_of_not_heldBy hlookup hphase hheld)
    (fun _ => (absurd · hunrecorded)) rfl rfl rfl

omit h in
/-- A request whose device was not found goes back to its response. -/
theorem Sound.of_release {before : PendingRequest} (h : Sound strict world before)
    (hknown : replay.known = some false)
    (hstate : before.state = .replayClaimed token replay.token observed) (action : OwnerAction) :
    Sound strict ((world.run action).setPhase token response (.replaying keys none))
      (before.setState (.responseClaimed token observed)) := by
  have husers := h.mem_users (ownsState_of_held hstate) hlookup
  have hunrecorded := not_isUnrecorded hphase
  -- the lookup is over, and has found nothing
  have hholds : ∀ known, Holds world token known → known = some false := by
    rintro known ⟨other, keys', replay', hother, hphase', hknown'⟩
    rw [hlookup] at hother
    cases hother
    rw [hphase] at hphase'
    cases hphase'
    exact hknown'.symm.trans hknown
  have hahead : ¬LookAhead world before := by
    unfold LookAhead
    rw [hstate]
    intro hheld
    cases hholds none hheld
  have hfound : ¬Found world before := by
    unfold Found
    rw [hstate]
    intro hheld
    cases hholds (some true) hheld
  refine ⟨fun token' observed' hstate' => ?_, fun _ _ _ hstate' => (by cases hstate'),
    fun hmem => ?_, fun hmem => ?_, fun hstate' => (by cases hstate'),
    fun _ hstate' => (by cases hstate')⟩
  · cases hstate'
    exact ⟨(h.held token replay.token observed hstate).1, _, lookup_insert _, husers⟩
  · rcases h.unseen hmem with hcase | hcase | hcase
    · exact .inl (committing_of_insert hlookup rfl
        (fun _ => (absurd · hunrecorded)) hcase)
    · exact absurd hcase hahead
    · refine .inr (.inr ?_)
      unfold Behind at hcase
      rw [hstate] at hcase
      exact hcase
  · rcases h.known hmem with hcase | hcase | hcase
    · exact .inl hcase
    · exact absurd hcase hahead
    · exact absurd hcase hfound

/-- The response is done with the request that it holds. -/
theorem Awake.settle (outcome : ReplayOutcome) :
    Awake strict (world.settle token response keys replay outcome) := by
  unfold World.settle
  split
  · refine h.run_phase hlookup _ _ fun pending hmem hcancelled => ?_
    obtain ⟨hbefore, hheld⟩ := h.keysDiffer.of_publish hmem hcancelled
    exact (h.sound pending hbefore hcancelled).frame_settle hlookup hphase _ hheld
  · next hknown =>
    refine h.run_phase hlookup _ _ fun pending hmem hcancelled => ?_
    rcases h.keysDiffer.of_release rfl hmem with
      ⟨before, hbefore, observed, hstate, -, rfl⟩ | ⟨hbefore, hheld⟩
    · exact (h.sound before hbefore hcancelled).of_release hlookup hphase hknown hstate _
    · exact (h.sound pending hbefore hcancelled).frame_settle hlookup hphase _ hheld
  · refine h.run_phase hlookup _ _ fun pending hmem hcancelled => ?_
    obtain ⟨hbefore, hheld⟩ : pending ∈ world.machine.owner.pendings ∧
        ¬HeldBy (replay.claim token) pending := by
      change pending ∈ ((replay.claim token).finish world.machine.owner).pendings at hmem
      unfold RequestClaim.finish at hmem
      split at hmem
      · next hclaim => exact h.keysDiffer.of_settleCancelled hclaim hmem hcancelled
      · obtain ⟨hmem, hretain⟩ := mem_pendings_retainPending.mp hmem
        refine ⟨hmem, fun hheld => ?_⟩
        simp [hheld.1, hheld.2] at hretain
    exact (h.sound pending hbefore hcancelled).frame_settle hlookup hphase _ hheld
  · refine h.run_phase hlookup _ _ fun pending hmem hcancelled => ?_
    rcases h.keysDiffer.of_drop rfl hmem with hcalm | ⟨hbefore, hheld⟩
    · exact .of_isCalm hcalm
    · exact (h.sound pending hbefore hcancelled).frame_settle hlookup hphase _ hheld
  · exact h

end Replays

omit h hlookup in
theorem finishPending_cases (token : ℕ) (pending : PendingRequest) :
    (∃ observed, pending.state = .responseClaimed token observed ∧
      (observed < pending.committedUpdateGeneration ∧
        finishPending ⟨token⟩ pending =
          pending.setState (.responseClaimed token pending.committedUpdateGeneration) ∨
      pending.committedUpdateGeneration ≤ observed ∧
        finishPending ⟨token⟩ pending =
          pending.setState .waitingForExternalUpdate)) ∨
    (∀ observed, pending.state ≠ .responseClaimed token observed) ∧
      finishPending ⟨token⟩ pending = pending := by
  unfold finishPending
  split
  · next owner observed hstate =>
    by_cases howner : owner = token
    · subst howner
      left
      refine ⟨observed, hstate, ?_⟩
      by_cases hlt : observed < pending.committedUpdateGeneration
      · exact .inl ⟨hlt, by simp [hlt]⟩
      · exact .inr ⟨by omega, by simp [hlt]⟩
    · right
      refine ⟨fun other heq => ?_, by simp [howner]⟩
      rw [hstate] at heq
      cases heq
      exact howner rfl
  · next hstate => exact .inr ⟨fun observed heq => hstate token observed heq, rfl⟩

/-- The response is through with its requests: it lets them wait, or goes round again. -/
theorem Awake.finish (hphase : response.phase = .replaying [] none) :
    Awake strict (world.finish token response) := by
  have hunrecorded : ¬response.phase.isUnrecorded = true := by
    rw [hphase]
    exact false_ne_true
  have hsaved : response.phase ≠ .saved := by
    rw [hphase]
    exact fun heq => by cases heq
  -- nothing is held for a lookup
  have hfree : ∀ {pending : PendingRequest}, Sound strict world pending →
      (∀ observed, pending.state ≠ .responseClaimed token observed) →
      ¬KeyQueryResponseClaim.ownsState ⟨token⟩ pending.state = true := by
    intro pending hsound hclaimed howns
    rcases ownsState_cases howns with ⟨observed, hstate⟩ | ⟨replayToken, observed, hstate⟩
    · exact hclaimed observed hstate
    · obtain ⟨_, _, hreplay, -⟩ := hsound.replay_eq hstate hlookup
      rw [hphase] at hreplay
      cases hreplay
  -- a request that has caught up with the commits was not found by the lookup
  have hcaught : ∀ {pending : PendingRequest} {observed : ℕ}, Sound strict world pending →
      pending.state = .responseClaimed token observed →
      pending.committedUpdateGeneration ≤ observed →
      (pending.event.key ∈ world.unseen → Committing world pending.event.sender) ∧
        ((pending.event.sender, pending.event.fromDevice) ∈ world.devices →
          pending.event.key ∈ world.unseen) := by
    intro pending observed hsound hstate hle
    have hahead : ¬LookAhead world pending := by
      unfold LookAhead
      rw [hstate]
      rintro ⟨other, hother, hdue⟩
      rw [hlookup] at hother
      cases hother
      unfold Due at hdue
      rw [hphase] at hdue
      cases hdue
    refine ⟨fun hmem => ?_, fun hmem => ?_⟩
    · rcases hsound.unseen hmem with hcase | hcase | hcase
      · exact hcase
      · exact absurd hcase hahead
      · unfold Behind at hcase
        rw [hstate] at hcase
        omega
    · rcases hsound.known hmem with hcase | hcase | hcase
      · exact hcase
      · exact absurd hcase hahead
      · unfold Found at hcase
        rw [hstate] at hcase
        exact hcase.elim
  unfold World.finish
  simp only
  split
  · refine h.run_phase hlookup _ _ fun pending hmem hcancelled => ?_
    obtain ⟨before, hbefore, rfl⟩ := mem_pendings_mapPending.mp hmem
    rcases finishPending_cases token before with
      ⟨observed, hstate, ⟨hlt, heq⟩ | ⟨hle, heq⟩⟩ | ⟨hclaimed, heq⟩
    · rw [heq] at hcancelled ⊢
      have hsound := h.sound before hbefore hcancelled
      have husers := hsound.mem_users (ownsState_of_claimed hstate) hlookup
      exact .of_due rfl le_rfl (lookup_insert _) husers trivial
    · rw [heq] at hcancelled ⊢
      obtain ⟨hunseen, hknown⟩ := hcaught (h.sound before hbefore hcancelled) hstate hle
      exact .of_waiting rfl (fun hmem => committing_of_insert hlookup rfl
        (fun _ => (absurd · hunrecorded)) (hunseen hmem)) hknown
    · rw [heq] at hcancelled ⊢
      have hsound := h.sound before hbefore hcancelled
      exact hsound.frame_phase hlookup rfl (fun howns => absurd howns (hfree hsound hclaimed))
        (fun _ => (absurd · hunrecorded)) rfl rfl rfl
  · next hreplay =>
    refine ⟨orderly_act _ (.finishResponse ⟨token⟩) _ h.orderly rfl, ?_, ?_, ?_⟩
    · exact fun other response' hother => h.tokens other response' (lookup_of_erase hother).2
    · exact fun other response' hother => h.users other response' (lookup_of_erase hother).2
    · intro pending hmem hcancelled
      obtain ⟨before, hbefore, rfl⟩ := mem_pendings_mapPending.mp hmem
      rcases finishPending_cases token before with
        ⟨observed, hstate, ⟨hlt, heq⟩ | ⟨hle, heq⟩⟩ | ⟨hclaimed, heq⟩
      · -- such a request makes the response go round again
        refine absurd (hasPending_iff.mpr ⟨before, hbefore, ?_⟩) hreplay
        simp [needsReplay, hstate, hlt]
      · rw [heq] at hcancelled ⊢
        obtain ⟨hunseen, hknown⟩ := hcaught (h.sound before hbefore hcancelled) hstate hle
        exact .of_waiting rfl (fun hmem => committing_of_erase hlookup rfl (fun _ => hsaved)
          (hunseen hmem)) hknown
      · rw [heq] at hcancelled ⊢
        have hsound := h.sound before hbefore hcancelled
        exact hsound.frame ⟨serves_of_erase rfl (hfree hsound hclaimed), .inl, id, .inl,
          fun _ => Or.imp_right (unrecorded_of_erase hlookup rfl fun _ => hunrecorded)⟩
          (committing_of_erase hlookup rfl fun _ => hsaved)

/-- The response ends early and lets go of its requests. -/
theorem Awake.fail (hcareful : Careful strict world (.fail token)) :
    Awake strict (world.fail token response) := by
  -- every request that is left was there before, or is calm
  have hcases : ∀ pending ∈ (world.fail token response).machine.owner.pendings,
      isCalm pending.state = true ∨ pending ∈ world.machine.owner.pendings ∧
        ¬KeyQueryResponseClaim.ownsState ⟨token⟩ pending.state = true := by
    intro pending hmem
    obtain ⟨before, hbefore, rfl⟩ := mem_pendings_mapPending.mp hmem
    split
    · exact .inl rfl
    · next howns =>
      split at hbefore
      · rcases h.keysDiffer.of_drop rfl hbefore with hcalm | ⟨hbefore, -⟩
        · exact .inl hcalm
        · exact .inr ⟨hbefore, howns⟩
      · exact .inr ⟨hbefore, howns⟩
  have hsame : (world.fail token response).machine.nextResponseClaimToken =
        world.machine.nextResponseClaimToken ∧
      (world.fail token response).unseen = world.unseen ∧
      (world.fail token response).devices = world.devices ∧
      (world.fail token response).queries = world.queries := by
    unfold World.fail
    split
    · exact ⟨rfl, rfl, rfl, rfl⟩
    · exact ⟨rfl, rfl, rfl, rfl⟩
  obtain ⟨htoken, hunseen, hdevices, hqueries⟩ := hsame
  refine ⟨?_, ?_, ?_, ?_⟩
  · unfold World.fail
    split
    · exact orderly_act _ (.releaseResponse ⟨token⟩) _
        (orderly_act _ (.dropClaim _) _ h.orderly rfl) rfl
    · exact orderly_act _ (.releaseResponse ⟨token⟩) _ h.orderly rfl
  · intro other response' hother
    rw [htoken]
    exact h.tokens other response' (lookup_of_erase hother).2
  · exact fun other response' hother => h.users other response' (lookup_of_erase hother).2
  · intro pending hmem hcancelled
    rcases hcases pending hmem with hcalm | ⟨hbefore, howns⟩
    · exact .of_isCalm hcalm
    · have hsound := h.sound pending hbefore hcancelled
      have hframe : (pending.event.sender ∈ response.users → response.phase ≠ .saved) →
          (pending.state = .queryInFlight → pending.event.sender ∈ response.users →
            response.phase.isUnrecorded = true →
            world.queries.isWaiting pending.event.sender = true) →
          Sound strict (world.fail token response) pending := by
        intro hsaved hwaiting
        refine hsound.frame ⟨serves_of_erase rfl howns, ?_, ?_, ?_, fun hstate hbefore => ?_⟩
          (committing_of_erase hlookup rfl hsaved)
        · rw [hunseen]
          exact .inl
        · rw [hunseen]
          exact id
        · rw [hdevices]
          exact .inl
        · rw [hqueries]
          by_cases hcovered : pending.event.sender ∈ response.users ∧
              response.phase.isUnrecorded = true
          · exact .inl (hwaiting hstate hcovered.1 hcovered.2)
          · exact hbefore.imp_right (unrecorded_of_erase hlookup rfl
              fun husers hunrecorded => hcovered ⟨husers, hunrecorded⟩)
      by_cases hsaved : pending.event.sender ∈ response.users ∧ response.phase = .saved
      · -- the commit of this response is not told to the owner
        have hunrecorded : response.phase.isUnrecorded = true := by
          rw [hsaved.2]
          rfl
        obtain ⟨hquery, hsafe⟩ :=
          hcareful response hlookup hunrecorded pending hbefore hcancelled hsaved.1
        have hsafe := (hsafe hsaved.2).resolve_right howns
        rcases or_eq_true_iff.mp hsafe with hcalm | hquiet
        · exact .of_isCalm hcalm
        · obtain ⟨hstrict, hstate⟩ := and_eq_true_iff.mp hquiet
          have hstate := of_decide_eq_true hstate
          refine .of_queryInFlight hstate (.inl ?_) fun htrue => ?_
          · rw [hqueries]
            exact hquery hstate
          · rw [htrue] at hstrict
            cases hstrict
      · refine hframe (fun husers hphase => hsaved ⟨husers, hphase⟩) ?_
        intro hstate husers hunrecorded
        exact (hcareful response hlookup hunrecorded pending hbefore hcancelled husers).1 hstate

end Responses

/-- An action on a response in one phase leaves the world as it is when there is none. -/
theorem Awake.of_phase {token : ℕ} {phase : Phase} {next : Response → World}
    (h : Awake strict world)
    (hnext : ∀ response, world.responses.lookup token = some response →
      response.phase = phase → Awake strict (next response)) :
    Awake strict (match world.responses.lookup token with
      | some response => if response.phase = phase then next response else world
      | none => world) := by
  split
  · next response hlookup =>
    split
    · next hphase => exact hnext response hlookup hphase
    · exact h
  · exact h

theorem awake_act (strict : Bool) (world : World) (action : Action) (world' : World)
    (h : Awake strict world) (hstep : CarefulStep strict world action world') :
    Awake strict world' := by
  obtain ⟨hcareful, rfl⟩ := hstep
  cases action with
  | owner action =>
    simp only [World.act]
    split
    · next hfree => exact h.owner hfree
    · exact h
  | markChanged user => exact h.markChanged user
  | markScheduled user => exact h.markScheduled hcareful
  | register requestId users => exact h.register requestId users
  | receive requestId deviceUsers => exact h.receive requestId deviceUsers
  | save token devices => exact h.of_phase fun _ hlookup hphase => h.save hlookup hphase devices
  | upToDate token => exact h.of_phase fun _ hlookup hphase => h.upToDate hlookup hphase
  | record token => exact h.of_phase fun _ hlookup hphase => h.record hlookup hphase hcareful
  | select token now => exact h.of_phase fun _ hlookup hphase => h.select hlookup hphase now
  | hold token =>
    simp only [World.act]
    split
    · next response hlookup =>
      split
      · next hphase => exact h.hold hlookup hphase
      · exact h
    · exact h
  | look token failed =>
    cases show failed = false from hcareful
    simp only [World.act]
    split
    · next response hlookup =>
      split
      · next hphase =>
        split
        · exact h.look hlookup hphase
        · exact h
      · exact h
    · exact h
  | settle token outcome =>
    simp only [World.act]
    split
    · next response hlookup =>
      split
      · next hphase => exact h.settle hlookup hphase outcome
      · exact h
    · exact h
  | finish token => exact h.of_phase fun _ hlookup hphase => h.finish hlookup hphase
  | fail token =>
    simp only [World.act]
    split
    · next response hlookup => exact h.fail hlookup hcareful
    · exact h

end Steps

end MatrixSdk.AwakeRequests

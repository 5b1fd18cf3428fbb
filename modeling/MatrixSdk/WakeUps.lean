import MatrixSdk.AwakeRequests

/-!
No pending request is forgotten in a careful run: each step keeps the requests awake. This fails
where the lookup of a replay fails, where a query is taken to be scheduled that is over already,
and where a response ends between its commit and telling the owner.
-/
namespace MatrixSdk.WakeUps

open AwakeRequests DeviceTrust IncomingRequests KeyQueryResponses KeyedMaps PendingChanges
open RequestLeases Traces

theorem awake_new (strict : Bool) : Awake strict .new where
  orderly := orderly_new
  tokens token response hlookup := by cases hlookup
  users token response hlookup := by cases hlookup
  sound pending hmem := by cases hmem

/-- In every careful run, when all responses have let go of their requests, no request that is
not cancelled is held by a response; one that was pending when a response for its sender was
committed was looked up since, or needs a query, or is being looked up for the first time; one
with a query in flight has its sender among those that wait for a query; and one that waits for
an update, or in a strict run for a query, has no device in the store. -/
theorem pending_requests_are_awake {strict : Bool} {actions : List Action} {world : World}
    (hrun : Trace (CarefulStep strict) .new actions world) (hreleased : world.responses = ∅) :
    ∀ pending ∈ world.machine.owner.pendings, pending.cancelled = false →
      (∀ token, ¬KeyQueryResponseClaim.ownsState ⟨token⟩ pending.state = true) ∧
      (pending.event.key ∈ world.unseen → pending.state = .needsQuery ∨
        pending.state = .queryInFlight ∨ pending.state.isInitialLookup = true) ∧
      (pending.state = .queryInFlight →
        world.queries.isWaiting pending.event.sender = true) ∧
      (pending.state = .waitingForExternalUpdate ∨
          strict = true ∧ pending.state = .queryInFlight →
        (pending.event.sender, pending.event.fromDevice) ∉ world.devices) := by
  intro pending hmem hcancelled
  have hawake : Awake strict world := hrun.preserves (awake_act strict) (awake_new strict)
  have hsound := hawake.sound pending hmem hcancelled
  have hnone : ∀ token response, world.responses.lookup token ≠ some response := by
    intro token response hlookup
    rw [hreleased] at hlookup
    cases hlookup
  have hcommitting : ¬Committing world pending.event.sender := by
    rintro ⟨token, response, hlookup, -⟩
    exact hnone token response hlookup
  have hfree : ∀ token, ¬KeyQueryResponseClaim.ownsState ⟨token⟩ pending.state = true := by
    intro token howns
    rcases ownsState_cases howns with ⟨observed, hstate⟩ | ⟨replayToken, observed, hstate⟩
    · obtain ⟨-, response, hlookup, -⟩ := hsound.claimed token observed hstate
      exact hnone token response hlookup
    · obtain ⟨-, response, _, _, hlookup, -⟩ := hsound.held token replayToken observed hstate
      exact hnone token response hlookup
  have hunseen : pending.event.key ∈ world.unseen → pending.state = .needsQuery ∨
      pending.state = .queryInFlight ∨ pending.state.isInitialLookup = true := by
    intro hkey
    cases hstate : pending.state with
    | needsQuery => exact .inl rfl
    | queryInFlight => exact .inr (.inl rfl)
    | initialLookup token => exact .inr (.inr rfl)
    | waitingForExternalUpdate =>
      rcases hsound.unseen hkey with hcase | hcase | hcase
      · exact absurd hcase hcommitting
      · simp [LookAhead, hstate] at hcase
      · simp [Behind, hstate] at hcase
    | responseClaimed token observed | replayClaimed token replayToken observed =>
      exact absurd (by simp [hstate, KeyQueryResponseClaim.ownsState]) (hfree token)
  refine ⟨hfree, hunseen, fun hstate => ?_, ?_⟩
  · rcases hsound.inFlight hstate with hwaiting | ⟨token, response, hlookup, -⟩
    · exact hwaiting
    · exact absurd hlookup (hnone token response)
  · rintro (hstate | ⟨hstrict, hstate⟩) hdevice
    · rcases hsound.known hdevice with hcase | hcase | hcase
      · rcases hunseen hcase with h | h | h
        · rw [hstate] at h
          cases h
        · rw [hstate] at h
          cases h
        · rw [hstate] at h
          cases h
      · simp [LookAhead, hstate] at hcase
      · simp [Found, hstate] at hcase
    · exact hcommitting (hsound.strictly hstrict hstate hdevice)

def AllCareful (strict : Bool) : World → List Action → Prop
  | _, [] => True
  | world, action :: actions =>
    Careful strict world action ∧ AllCareful strict (world.act action) actions

theorem AllCareful.trace {strict : Bool} {actions : List Action} {world : World}
    (h : AllCareful strict world actions) :
    Trace (CarefulStep strict) world actions (actions.foldl World.act world) := by
  induction actions generalizing world with
  | nil => exact .nil world
  | cons action actions ih => exact .cons ⟨h.1, rfl⟩ (ih h.2)

def phoneRequest : RequestEvent := ⟨"@alice:example.org", "txn", none, "PHONE", 1000⟩

/-- A request from a device that is not known waits for a response, which does not have the
device either. -/
def laptopResponse : List Action :=
  [.owner (.retain 1000 phoneRequest), .receive "query" ["@alice:example.org"],
    .save 0 [("@alice:example.org", "LAPTOP")], .upToDate 0, .record 0, .select 0 1001, .hold 0,
    .look 0 false, .settle 0 .release, .finish 0]

theorem unknown_phone_waits :
    (laptopResponse.foldl World.act .new).machine.owner.pendings =
      [⟨phoneRequest, .waitingForExternalUpdate, 1, false⟩] ∧
    ("@alice:example.org", "PHONE") ∉ (laptopResponse.foldl World.act .new).devices := by
  have hcareful : AllCareful true .new laptopResponse :=
    ⟨trivial, trivial, trivial, trivial, by unfold Careful; decide, trivial, trivial, rfl,
      trivial, trivial, trivial⟩
  have hpendings : (laptopResponse.foldl World.act .new).machine.owner.pendings =
      [⟨phoneRequest, .waitingForExternalUpdate, 1, false⟩] := by decide
  have hawake := pending_requests_are_awake hcareful.trace (AList.ext (by decide))
    ⟨phoneRequest, .waitingForExternalUpdate, 1, false⟩ (by rw [hpendings]; simp) rfl
  exact ⟨hpendings, hawake.2.2.2 (.inl rfl)⟩

/-- The device is in the response, but it cannot be read while the request is looked up again:
the request waits for an update that never comes, its device is in the store, and no query is
left. -/
def unreadableStore : List Action :=
  [.owner (.retain 1000 phoneRequest), .markChanged "@alice:example.org",
    .markScheduled "@alice:example.org", .register "query" ["@alice:example.org"],
    .receive "query" ["@alice:example.org"], .save 0 [("@alice:example.org", "PHONE")],
    .upToDate 0, .record 0, .select 0 1001, .hold 0, .look 0 true, .settle 0 .release, .finish 0]

theorem failed_lookup_strands_request :
    (unreadableStore.foldl World.act .new).responses.entries = [] ∧
    (unreadableStore.foldl World.act .new).machine.owner.pendings =
      [⟨phoneRequest, .waitingForExternalUpdate, 1, false⟩] ∧
    phoneRequest.key ∈ (unreadableStore.foldl World.act .new).unseen ∧
    ("@alice:example.org", "PHONE") ∈ (unreadableStore.foldl World.act .new).devices ∧
    (unreadableStore.foldl World.act .new).queries.isWaiting "@alice:example.org" = false ∧
    (unreadableStore.foldl World.act .new).requestDetails.lookup "query" = none := by
  decide

end MatrixSdk.WakeUps

import Mathlib.Data.Nat.Notation
import MatrixSdk.Traces

/-!
The back-pagination requests for one room at one priority. A request that comes while there is a
run waits for the result of that run.
-/
namespace MatrixSdk.BackPaginationQueue

open Traces List

structure Outcome where
  reachedStart : Bool
  events : List String

structure Request where
  stop : Outcome → Bool
  maxBatches : Option ℕ

inductive StopReason where
  | reachedTimelineStart
  | stopConditionMet
  | batchLimitReached
  | noDataAvailable
  | failed
  | cancelled
  | skipped
deriving DecidableEq

/-- A caller, with the batches that were loaded since it came. -/
structure Waiter where
  request : Request
  seen : List Outcome

/-- A run is for the first request, and has a reason once it is over. -/
structure Run where
  request : Request
  batches : ℕ
  reason : Option StopReason
  waiters : List Waiter

structure Queue where
  run : Option Run
  answers : List (Waiter × StopReason)

inductive Event where
  | submitted (request : Request)
  | loaded (outcome : Outcome)
  | failed
  | cancelled
  | skipped
  | finished

/-- Whether the loop of `run_request` ends with its latest batch. -/
def stopReason (request : Request) (batches : ℕ) (outcome : Outcome) : Option StopReason :=
  if request.stop outcome then some .stopConditionMet
  else if outcome.reachedStart then some .reachedTimelineStart
  else if outcome.events.isEmpty then some .noDataAvailable
  else if request.maxBatches.any (· ≤ batches) then some .batchLimitReached
  else none

namespace Run

variable (run : Run)

def tryCoalesce (request : Request) : Run :=
  { run with waiters := run.waiters ++ [⟨request, []⟩] }

def load (outcome : Outcome) : Run :=
  if run.reason.isSome then run
  else {
    run with
    batches := run.batches + 1
    reason := stopReason run.request (run.batches + 1) outcome
    waiters := run.waiters.map fun waiter => { waiter with seen := waiter.seen ++ [outcome] } }

def giveUp (reason : StopReason) : Run :=
  { run with reason := run.reason.or (some reason) }

end Run

def Queue.step (queue : Queue) : Event → Queue
  | .submitted request =>
    { queue with run := (queue.run.getD ⟨request, 0, none, []⟩).tryCoalesce request }
  | .loaded outcome => { queue with run := queue.run.map (·.load outcome) }
  | .failed => { queue with run := queue.run.map (·.giveUp .failed) }
  | .cancelled => { queue with run := queue.run.map (·.giveUp .cancelled) }
  | .skipped => { queue with run := queue.run.map (·.giveUp .skipped) }
  | .finished =>
    match queue.run with
    | some ⟨_, _, some reason, waiters⟩ =>
      -- whoever came after the end of the run is answered too
      ⟨none, queue.answers ++ waiters.map fun waiter => (waiter, reason)⟩
    | _ => queue

/-- The caller's own predicate held, or its own limit was reached. -/
def Deserves (waiter : Waiter) : StopReason → Prop
  | .stopConditionMet => ∃ outcome ∈ waiter.seen, waiter.request.stop outcome = true
  | .batchLimitReached => ∃ max ∈ waiter.request.maxBatches, max ≤ waiter.seen.length
  | _ => True

/-- A request only joins a run for an equal one, before the first batch. -/
def Joins (queue : Queue) : Event → Prop
  | .submitted request => ∀ run ∈ queue.run,
    run.request = request ∧ run.batches = 0 ∧ run.reason = none
  | _ => True

/-- The caller has seen what the run has loaded, for an equal request. -/
structure Serves (run : Run) (waiter : Waiter) : Prop where
  request : waiter.request = run.request
  seen : waiter.seen.length = run.batches
  reason : ∀ reason ∈ run.reason, Deserves waiter reason

structure Fair (queue : Queue) : Prop where
  run : ∀ run ∈ queue.run, ∀ waiter ∈ run.waiters, Serves run waiter
  answers : ∀ answer ∈ queue.answers, Deserves answer.1 answer.2

variable {run : Run} {waiter : Waiter} {queue : Queue} {reason : StopReason}

theorem deserves_of_stopReason {outcome : Outcome}
    (h : stopReason waiter.request (waiter.seen.length + 1) outcome = some reason) :
    Deserves { waiter with seen := waiter.seen ++ [outcome] } reason := by
  unfold stopReason at h
  -- only the predicate and the limit ask for something
  split at h
  · next hstop =>
    cases h
    exact ⟨outcome, by simp, hstop⟩
  split at h
  · cases h
    trivial
  split at h
  · cases h
    trivial
  split at h
  · next hlimit =>
    cases h
    simpa [Option.any_eq_true, Deserves] using hlimit
  · cases h

theorem Serves.tryCoalesce (h : ∀ waiter ∈ run.waiters, Serves run waiter) {request : Request}
    (hjoins : run.request = request ∧ run.batches = 0 ∧ run.reason = none) :
    ∀ waiter ∈ (run.tryCoalesce request).waiters, Serves (run.tryCoalesce request) waiter := by
  obtain ⟨rfl, hbatches, hreason⟩ := hjoins
  intro waiter hmem
  rcases mem_append.mp hmem with hmem | hmem
  · obtain ⟨hrequest, hseen, htold⟩ := h waiter hmem
    exact ⟨hrequest, hseen, htold⟩
  · cases mem_singleton.mp hmem
    exact ⟨rfl, hbatches.symm, by simp [Run.tryCoalesce, hreason]⟩

theorem Serves.load (h : ∀ waiter ∈ run.waiters, Serves run waiter) (outcome : Outcome) :
    ∀ waiter ∈ (run.load outcome).waiters, Serves (run.load outcome) waiter := by
  unfold Run.load
  split
  · exact h
  · intro _ hmem
    obtain ⟨waiter, hwaiter, rfl⟩ := mem_map.mp hmem
    obtain ⟨hrequest, hseen, -⟩ := h waiter hwaiter
    refine ⟨hrequest, by simp [hseen], fun reason hreason => deserves_of_stopReason ?_⟩
    rw [hrequest, hseen]
    exact hreason

theorem Serves.giveUp (h : Serves run waiter) (hreason : Deserves waiter reason) :
    Serves (run.giveUp reason) waiter := by
  refine ⟨h.request, h.seen, fun other hother => ?_⟩
  rcases Option.or_eq_some_iff.mp hother with hbefore | ⟨-, ⟨⟩⟩
  · exact h.reason other hbefore
  · exact hreason

theorem Fair.step (h : Fair queue) {event : Event} (hjoins : Joins queue event) :
    Fair (queue.step event) := by
  obtain ⟨hrun, hanswers⟩ := h
  cases event with
  | submitted request =>
    refine ⟨?_, hanswers⟩
    rintro _ ⟨⟩
    cases hqueue : queue.run with
    | none => exact Serves.tryCoalesce (by simp) ⟨rfl, rfl, rfl⟩
    | some run => exact Serves.tryCoalesce (hrun run hqueue) (hjoins run hqueue)
  | loaded outcome =>
    refine ⟨fun _ hmem => ?_, hanswers⟩
    obtain ⟨run, hqueue, rfl⟩ := Option.map_eq_some_iff.mp hmem
    exact Serves.load (hrun run hqueue) outcome
  | failed | cancelled | skipped =>
    refine ⟨fun _ hmem waiter hwaiter => ?_, hanswers⟩
    obtain ⟨run, hqueue, rfl⟩ := Option.map_eq_some_iff.mp hmem
    exact (hrun run hqueue waiter hwaiter).giveUp trivial
  | finished =>
    simp only [Queue.step]
    split
    · next reason waiters hqueue =>
      refine ⟨nofun, fun answer hmem => ?_⟩
      rcases mem_append.mp hmem with hmem | hmem
      · exact hanswers answer hmem
      · obtain ⟨waiter, hwaiter, rfl⟩ := mem_map.mp hmem
        exact (hrun _ hqueue waiter hwaiter).reason reason rfl
    · exact ⟨hrun, hanswers⟩

/-- Callers that ask for the same before the first batch can rely on the answer. -/
theorem answer_is_deserved (events : List Event)
    (h : Trace (fun queue event next => Joins queue event ∧ next = queue.step event)
      ⟨none, []⟩ events queue) :
    ∀ answer ∈ queue.answers, Deserves answer.1 answer.2 := by
  refine (h.preserves (fun queue event next hfair hstep => ?_) ⟨nofun, nofun⟩ : Fair queue).answers
  obtain ⟨hjoins, rfl⟩ := hstep
  exact hfair.step hjoins

def untilEvent (event : String) : Request :=
  ⟨fun outcome => outcome.events.contains event, some 1⟩

def equalRequests : List Event :=
  [.submitted (untilEvent "$a"), .submitted (untilEvent "$a"), .loaded ⟨false, ["$b"]⟩, .finished]

theorem equal_requests_are_served :
    (equalRequests.foldl Queue.step ⟨none, []⟩).answers.length = 2 ∧
      ∀ answer ∈ (equalRequests.foldl Queue.step ⟨none, []⟩).answers, Deserves answer.1 answer.2 :=
  ⟨rfl, answer_is_deserved equalRequests (.cons ⟨by simp [Joins], rfl⟩
    (.cons ⟨by simp [Joins, Queue.step, Run.tryCoalesce], rfl⟩
      (.cons ⟨trivial, rfl⟩ (.single ⟨trivial, rfl⟩))))⟩

/-- Two callers wait for different events, and both are told that theirs was found. -/
theorem joined_request_is_told_of_another_event :
    ([.submitted (untilEvent "$a"), .submitted (untilEvent "$b"), .loaded ⟨false, ["$a"]⟩,
        .finished].foldl Queue.step ⟨none, []⟩).answers.map
      (fun answer => (answer.1.seen.map answer.1.request.stop, answer.2)) =
        [([true], .stopConditionMet), ([false], .stopConditionMet)] := by
  decide

end MatrixSdk.BackPaginationQueue

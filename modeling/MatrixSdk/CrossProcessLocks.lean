import MatrixSdk.KeyedMaps
import MatrixSdk.Traces

/-!
A lock between processes. Each process counts the guards that it has given out; the lease that
stands behind them is in a table that all processes share, and a task of the process extends it
as long as there are guards.

A process is named by the holder name under which it takes leases. The sections of the source
between two of its suspension points, and the calls to the table, are single actions. Instants
are in nanoseconds.
-/
namespace MatrixSdk.CrossProcessLocks

open KeyedMaps Traces

def fromMillis (ms : ℕ) : ℕ := 1000000 * ms

def leaseDurationMs : ℕ := 500

def noCrossProcessLockGeneration : ℕ := 0

def firstCrossProcessLockGeneration : ℕ := 1

structure Lease where
  holder : String
  expiration : ℕ
  generation : ℕ
deriving DecidableEq

def tryTakeLeasedLock (leases : KeyedMap String Lease) (now leaseDurationMs : ℕ)
    (key holder : String) : Option ℕ × KeyedMap String Lease :=
  let expiration := now + fromMillis leaseDurationMs
  match leases.lookup key with
  | some lease =>
    if lease.holder = holder then
      (some lease.generation, leases.insert key { lease with expiration := expiration })
    else if lease.expiration < now then
      let generation := (lease.generation + 1) % 2 ^ 64
      (some generation, leases.insert key ⟨holder, expiration, generation⟩)
    else (none, leases)
  | none =>
    (some firstCrossProcessLockGeneration,
      leases.insert key ⟨holder, expiration, firstCrossProcessLockGeneration⟩)

/-- When a holder gets a lease, and of which generation. -/
inductive Grants (now : ℕ) (holder : String) : Option Lease → ℕ → Prop
  | extended {lease : Lease} (hholder : lease.holder = holder) :
      Grants now holder (some lease) lease.generation
  | stolen {lease : Lease} (hholder : lease.holder ≠ holder) (hexpired : lease.expiration < now) :
      Grants now holder (some lease) ((lease.generation + 1) % 2 ^ 64)
  | first : Grants now holder none firstCrossProcessLockGeneration

theorem tryTakeLeasedLock_cases (leases : KeyedMap String Lease) (now duration : ℕ)
    (key holder : String) :
    tryTakeLeasedLock leases now duration key holder = (none, leases) ∨
    ∃ generation, Grants now holder (leases.lookup key) generation ∧
      tryTakeLeasedLock leases now duration key holder =
        (some generation, leases.insert key ⟨holder, now + fromMillis duration, generation⟩) := by
  unfold tryTakeLeasedLock
  cases hlookup : leases.lookup key with
  | none => exact .inr ⟨_, .first, rfl⟩
  | some lease =>
    by_cases hholder : lease.holder = holder
    · refine .inr ⟨lease.generation, .extended hholder, ?_⟩
      subst hholder
      simp
    · by_cases hexpired : lease.expiration < now
      · exact .inr ⟨_, .stolen hholder hexpired, by simp [hholder, hexpired]⟩
      · exact .inl (by simp [hholder, hexpired])

/-- Where the section that holds `locking_attempt` has got to. `leased` has the answer of the
table; `releasing` is the renew task, which found no guards. -/
inductive Attempt where
  | idle
  | reentering
  | acquiring
  | leased (generation : ℕ) (intruded : Bool)
  | obtained
  | releasing
deriving DecidableEq

inductive RenewTask where
  | checking
  | sleeping
deriving DecidableEq

inductive CrossProcessLockState where
  | clean
  | dirty
deriving DecidableEq

/-- The lock of one process. The last four fields are not in the source. `leasedAt` is when the
process last took or extended its lease. `intruded` says that another holder has acquired the
lock since this process last took it; `acquired`, that the process has acquired the lock before;
and `stained`, that it acquired the lock after an intrusion and has not cleared that since. -/
structure ProcessLock where
  guards : ℕ
  generation : ℕ
  isDirty : Bool
  attempt : Attempt
  renewTask : Option RenewTask
  leasedAt : Option ℕ
  intruded : Bool
  acquired : Bool
  stained : Bool
deriving DecidableEq

inductive OwnAction where
  | enter
  | record
  | handOut
  | abandon
  | cloneGuard
  | dropGuard
  | clearDirty
  | checkHolders

inductive Call where
  | take
  | extend
  | release

namespace ProcessLock

def new : ProcessLock :=
  ⟨0, noCrossProcessLockGeneration, false, .idle, none, none, false, false, false⟩

variable (lock : ProcessLock)

/-- `try_lock_once` gets `locking_attempt` and counts the guards. -/
def enter : ProcessLock :=
  if lock.attempt = .idle then
    { lock with attempt := if 0 < lock.guards then .reentering else .acquiring }
  else lock

/-- `try_lock_once` compares the generations and starts the task that extends the lease, in the
place of an earlier one. -/
def record : ProcessLock :=
  match lock.attempt with
  | .leased generation intruded =>
    { lock with
      attempt := .obtained
      generation := generation
      isDirty := lock.isDirty ||
        (lock.generation ≠ noCrossProcessLockGeneration && lock.generation ≠ generation)
      renewTask := some .checking
      acquired := true
      stained := lock.stained || (lock.acquired && intruded) }
  | _ => lock

/-- What `try_lock_once` returns with its guard. -/
def guardState : Option CrossProcessLockState :=
  match lock.attempt with
  | .reentering => some .clean
  | .obtained => some (if lock.isDirty then .dirty else .clean)
  | _ => none

def handOut : ProcessLock :=
  match lock.guardState with
  | some _ => { lock with guards := lock.guards + 1, attempt := .idle }
  | none => lock

/-- `try_lock_once` is dropped while it waits for the table. -/
def abandon : ProcessLock :=
  match lock.attempt with
  | .acquiring => { lock with attempt := .idle }
  | .leased _ intruded => { lock with attempt := .idle, intruded := lock.intruded || intruded }
  | _ => lock

def cloneGuard : ProcessLock :=
  if 0 < lock.guards then { lock with guards := lock.guards + 1 } else lock

def dropGuard : ProcessLock := { lock with guards := lock.guards - 1 }

def clearDirty : ProcessLock := { lock with isDirty := false, stained := false }

/-- The renew task gets `locking_attempt` and counts the guards. -/
def checkHolders : ProcessLock :=
  if lock.renewTask = some .checking ∧ lock.attempt = .idle then
    if lock.guards = 0 then { lock with attempt := .releasing }
    else { lock with renewTask := some .sleeping }
  else lock

def act : OwnAction → ProcessLock
  | .enter => lock.enter
  | .record => lock.record
  | .handOut => lock.handOut
  | .abandon => lock.abandon
  | .cloneGuard => lock.cloneGuard
  | .dropGuard => lock.dropGuard
  | .clearDirty => lock.clearDirty
  | .checkHolders => lock.checkHolders

/-- Whether the process is about to make a call. -/
def makes : Call → Bool
  | .take => lock.attempt = .acquiring
  | .extend => lock.renewTask = some .sleeping
  | .release => lock.attempt = .releasing

/-- What the process does with the answer to a call. The task ends once it has released the
lease, and when it could not extend it. -/
def receive (now : ℕ) : Call → Option ℕ → ProcessLock
  | .take, some generation =>
    { lock with
      attempt := .leased generation lock.intruded, leasedAt := some now, intruded := false }
  | .take, none => { lock with attempt := .idle }
  | .extend, some _ => { lock with renewTask := some .checking, leasedAt := some now }
  | .extend, none => { lock with renewTask := none }
  | .release, _ => { lock with attempt := .idle, renewTask := none, leasedAt := none }

/-- Another holder has acquired the lock. -/
def intrude : ProcessLock := { lock with intruded := true }

end ProcessLock

def Call.leaseDurationMs : Call → ℕ
  | .take | .extend => CrossProcessLocks.leaseDurationMs
  | .release => 0

/-- The processes, their table of leases and the clock. -/
structure System where
  now : ℕ
  leases : KeyedMap String Lease
  locks : String → ProcessLock

/-- What can happen: time passes, a process does something on its own, or it calls the table. A
call that fails does not reach the table. -/
inductive Action where
  | elapse (duration : ℕ)
  | own (holder : String) (action : OwnAction)
  | call (holder : String) (call : Call) (fails : Bool)

namespace System

def new : System := ⟨0, ∅, fun _ => .new⟩

variable (key : String) (system : System)

/-- A lease was given to `holder`, or was not. -/
def answer (holder : String) (call : Call) (generation : Option ℕ)
    (leases : KeyedMap String Lease) : System :=
  { system with
    leases := leases
    locks := fun other =>
      if other = holder then (system.locks other).receive system.now call generation
      else if generation.isSome then (system.locks other).intrude
      else system.locks other }

def call (holder : String) (call : Call) (fails : Bool) : System :=
  if (system.locks holder).makes call then
    if fails then system.answer holder call none system.leases
    else
      let taken := tryTakeLeasedLock system.leases system.now call.leaseDurationMs key holder
      system.answer holder call taken.1 taken.2
  else system

def act : Action → System
  | .elapse duration => { system with now := system.now + duration }
  | .own holder action =>
    { system with
      locks := Function.update system.locks holder ((system.locks holder).act action) }
  | .call holder call fails => system.call key holder call fails

/-- A call is not made, or gets no lease, or gets one and puts it in the table. -/
theorem call_cases (holder : String) (call : Call) (fails : Bool) :
    system.call key holder call fails = system ∨
    ((system.locks holder).makes call = true ∧
      (system.call key holder call fails = system.answer holder call none system.leases ∨
      ∃ generation, Grants system.now holder (system.leases.lookup key) generation ∧
        system.call key holder call fails =
          system.answer holder call (some generation) (system.leases.insert key
            ⟨holder, system.now + fromMillis call.leaseDurationMs, generation⟩))) := by
  unfold System.call
  by_cases hmakes : (system.locks holder).makes call = true
  · rw [if_pos hmakes]
    refine .inr ⟨hmakes, ?_⟩
    cases fails with
    | true => exact .inl rfl
    | false =>
      rcases tryTakeLeasedLock_cases system.leases system.now call.leaseDurationMs key holder with
        hnone | ⟨generation, hgrants, hsome⟩
      · exact .inl (by simp [hnone])
      · exact .inr ⟨generation, hgrants, by simp [hsome]⟩
  · rw [if_neg hmakes]
    exact .inl rfl

section

variable (holder : String) (call : Call) (generation : Option ℕ) (leases : KeyedMap String Lease)
include holder call generation leases

@[simp]
theorem answer_leases : (system.answer holder call generation leases).leases = leases := rfl

@[simp]
theorem answer_now : (system.answer holder call generation leases).now = system.now := rfl

@[simp]
theorem answer_locks_self :
    (system.answer holder call generation leases).locks holder =
      (system.locks holder).receive system.now call generation := by
  simp [answer]

end

theorem answer_locks_of_ne {holder other : String} (call : Call) (generation : Option ℕ)
    (leases : KeyedMap String Lease) (hne : other ≠ holder) :
    (system.answer holder call generation leases).locks other =
      if generation.isSome then (system.locks other).intrude else system.locks other := by
  simp [answer, hne]

end System

/-- The state after some actions on the lock that is named `key`. -/
def run (key : String) (actions : List Action) : System :=
  actions.foldl (System.act key) .new

/-! ### Waiting for the lock -/

def initialBackoffMs : ℕ := 10

def maxBackoffMs : ℕ := 1000

inductive WaitingTime where
  | some (ms : ℕ)
  | stop
deriving DecidableEq

/-- What `try_lock_once` and `spin_lock` return. -/
inductive LockResult where
  | obtained
  | busy
  | timedOut
  | failed
deriving DecidableEq

/-- A call of `spin_lock`: its result, the times that it waited, and the backoff that it leaves
behind. It has no result if it is dropped. -/
structure Spin where
  result : Option LockResult
  waits : List ℕ
  backoff : WaitingTime
deriving DecidableEq

/-- `spin_lock`, whose attempts have the given results. -/
def spinLock (maxBackoff : Option ℕ) (backoff : WaitingTime) : List LockResult → Spin
  | [] => ⟨none, [], backoff⟩
  | .obtained :: _ => ⟨some .obtained, [], .some initialBackoffMs⟩
  | .failed :: _ => ⟨some .failed, [], backoff⟩
  | _ :: attempts =>
    match backoff with
    | .some ms =>
      let doubled := min (ms * 2) (2 ^ 32 - 1)
      let spin := spinLock maxBackoff
        (if maxBackoff.getD maxBackoffMs ≤ doubled then .stop else .some doubled) attempts
      { spin with waits := ms :: spin.waits }
    | .stop => ⟨some .timedOut, [], .stop⟩

/-- Waits that double from `ms` on, as long as they are below the maximum. -/
def IsFull (maximum ms : ℕ) (waits : List ℕ) : Prop :=
  ∃ n, waits = (List.range (n + 1)).map (ms * 2 ^ ·) ∧ ms * 2 ^ n < maximum ∧
    maximum ≤ ms * 2 ^ (n + 1)

section Backoff

variable {maxBackoff : Option ℕ} {backoff : WaitingTime} {attempts : List LockResult}

theorem backoff_of_obtained (h : (spinLock maxBackoff backoff attempts).result = some .obtained) :
    (spinLock maxBackoff backoff attempts).backoff = .some initialBackoffMs := by
  fun_induction spinLock with
  | case2 => rfl
  | case4 _ _ _ _ _ _ _ ih => exact ih h
  | _ => cases h

theorem IsFull.cons {maximum ms : ℕ} {waits : List ℕ} (h : IsFull maximum (ms * 2) waits) :
    IsFull maximum ms (ms :: waits) := by
  obtain ⟨n, rfl, hlt, hle⟩ := h
  have hpow : ∀ k, ms * 2 * 2 ^ k = ms * 2 ^ (k + 1) := fun k => by
    rw [Nat.pow_succ', Nat.mul_assoc]
  refine ⟨n + 1, ?_, hpow n ▸ hlt, hpow (n + 1) ▸ hle⟩
  rw [List.range_succ_eq_map (n := n + 1), List.map_cons, List.map_map]
  simp [Function.comp_def, hpow]

theorem isFull_of_timedOut {ms : ℕ} (hms : ms < maxBackoff.getD maxBackoffMs)
    (hmax : maxBackoff.getD maxBackoffMs < 2 ^ 32)
    (h : (spinLock maxBackoff (.some ms) attempts).result = some .timedOut) :
    IsFull (maxBackoff.getD maxBackoffMs) ms (spinLock maxBackoff (.some ms) attempts).waits := by
  induction attempts generalizing ms with
  | nil => cases h
  | cons attempt attempts ih =>
    cases attempt with
    | obtained | failed => cases h
    | busy | timedOut =>
      simp only [spinLock] at h ⊢
      by_cases hstop : maxBackoff.getD maxBackoffMs ≤ min (ms * 2) (2 ^ 32 - 1)
      · rw [if_pos hstop] at h ⊢
        refine ⟨0, ?_, by simpa using hms, by omega⟩
        match attempts, h with
        | .busy :: _, _ | .timedOut :: _, _ => simp [spinLock]
      · rw [if_neg hstop] at h ⊢
        have hdoubled : min (ms * 2) (2 ^ 32 - 1) = ms * 2 := by omega
        rw [hdoubled] at h hstop ⊢
        exact (ih (by omega) h).cons

/-- The first wait is the backoff that the call starts with. -/
theorem backoff_of_isFull {maximum ms : ℕ}
    (h : IsFull maximum ms (spinLock maxBackoff backoff attempts).waits) : backoff = .some ms := by
  obtain ⟨n, hwaits, -⟩ := h
  rw [List.range_succ_eq_map, List.map_cons] at hwaits
  match attempts, backoff with
  | .busy :: _, .some first | .timedOut :: _, .some first =>
    simpa [spinLock] using (List.cons.inj hwaits).1

/-- A call that times out has made all its attempts just when it starts with the initial backoff,
as it does when every call before it got the lock. -/
theorem spin_lock_backs_off (hmax : initialBackoffMs < maxBackoff.getD maxBackoffMs)
    (hbound : maxBackoff.getD maxBackoffMs < 2 ^ 32)
    (h : (spinLock maxBackoff backoff attempts).result = some .timedOut) :
    (IsFull (maxBackoff.getD maxBackoffMs) initialBackoffMs
      (spinLock maxBackoff backoff attempts).waits ↔ backoff = .some initialBackoffMs) ∧
    ∀ calls : List (Option ℕ × List LockResult), Trace (fun before call after => ∃ waits,
      spinLock call.1 before call.2 = ⟨some .obtained, waits, after⟩) (.some initialBackoffMs)
      calls backoff → backoff = .some initialBackoffMs := by
  refine ⟨⟨backoff_of_isFull, ?_⟩, fun calls hcalls => ?_⟩
  · rintro rfl
    exact isFull_of_timedOut hmax hbound h
  · refine Eq.symm (hcalls.preserves (fun _ _ _ _ hobtained => ?_) rfl)
    obtain ⟨_, heq⟩ := hobtained
    simpa [heq] using (backoff_of_obtained (congrArg Spin.result heq)).symm

theorem spin_lock_waits_twice :
    let first := spinLock (some 40) (.some 10) [.busy, .obtained]
    first.waits = [10] ∧
      IsFull 40 10 (spinLock (some 40) first.backoff (List.replicate 3 .busy)).waits := by
  refine ⟨rfl, ?_⟩
  have hcall := @spin_lock_backs_off (some 40) (.some 10) (.replicate 3 .busy) (by decide)
    (by decide) (by decide)
  exact hcall.1.2 (hcall.2 [(some 40, [.busy, .obtained])] (.single ⟨[10], rfl⟩))

/-- A call after one that timed out gives up at its first attempt. -/
theorem timed_out_call_spoils_the_next :
    let first := spinLock (some 40) (.some 10) (List.replicate 3 .busy)
    first = ⟨some .timedOut, [10, 20], .stop⟩ ∧
      spinLock none first.backoff [.busy] = ⟨some .timedOut, [], .stop⟩ := by
  decide

end Backoff

end MatrixSdk.CrossProcessLocks

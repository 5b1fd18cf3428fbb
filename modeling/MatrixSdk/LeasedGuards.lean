import MatrixSdk.CrossProcessLocks

/-!
The guards of a process stand for its lease. As long as each process with guards has taken or
extended its lease in time, only one process has guards. A process that could not extend its
lease goes on giving out guards for as long as it has one left.
-/
namespace MatrixSdk.LeasedGuards

open CrossProcessLocks KeyedMaps System ProcessLock Function Nat

def leaseDuration : ℕ := fromMillis leaseDurationMs

/-- The process took or extended its lease at most the duration of a lease ago. -/
def IsCurrent (system : System) (holder : String) : Prop :=
  ∃ time, (system.locks holder).leasedAt = some time ∧ system.now ≤ time + leaseDuration

/-- The lease in the table is that of the process, and has not expired. -/
def Owns (key : String) (system : System) (holder : String) : Prop :=
  ∃ lease, system.leases.lookup key = some lease ∧ lease.holder = holder ∧
    system.now ≤ lease.expiration

/-- Every process with guards has extended its lease in time. -/
def Timely (system : System) : Prop :=
  ∀ holder, 0 < (system.locks holder).guards → IsCurrent system holder

/-- A process that has guards, or is about to give one out, has taken a lease and not released
it. -/
structure Backed (lock : ProcessLock) : Prop where
  guards : 0 < lock.guards → lock.leasedAt.isSome = true
  leased : ∀ generation intruded, lock.attempt = .leased generation intruded →
    lock.leasedAt.isSome = true
  handing : lock.guardState.isSome = true → lock.leasedAt.isSome = true
  releasing : lock.attempt = .releasing → lock.guards = 0

theorem act_leasedAt (lock : ProcessLock) (action : OwnAction) :
    (lock.act action).leasedAt = lock.leasedAt := by
  cases action with
  | enter => simp only [ProcessLock.act, enter]; split <;> rfl
  | record => simp only [ProcessLock.act, record]; split <;> rfl
  | handOut => simp only [ProcessLock.act, handOut]; split <;> rfl
  | abandon => simp only [ProcessLock.act, abandon]; split <;> rfl
  | cloneGuard => simp only [ProcessLock.act, cloneGuard]; split <;> rfl
  | dropGuard => rfl
  | clearDirty => rfl
  | checkHolders =>
    simp only [ProcessLock.act, checkHolders]
    split
    · split <;> rfl
    · rfl

section Backed

variable {lock : ProcessLock}

/-- Nobody holds `locking_attempt`, and the guards are backed. -/
theorem Backed.of_idle (hattempt : lock.attempt = .idle)
    (hguards : 0 < lock.guards → lock.leasedAt.isSome = true) : Backed lock where
  guards := hguards
  leased generation intruded h := by rw [hattempt] at h; cases h
  handing h := by simp [guardState, hattempt] at h
  releasing h := by rw [hattempt] at h; cases h

section

variable (h : Backed lock)
include h

theorem Backed.enter : Backed lock.enter := by
  unfold ProcessLock.enter
  split
  · by_cases hguards : 0 < lock.guards
    · rw [if_pos hguards]
      have hsome := h.guards hguards
      exact ⟨fun _ => hsome, fun _ _ _ => hsome, fun _ => hsome, by simp⟩
    · rw [if_neg hguards]
      exact ⟨h.guards, by simp, by simp [guardState], by simp⟩
  · exact h

theorem Backed.record : Backed lock.record := by
  unfold ProcessLock.record
  split
  case h_1 generation intruded hattempt =>
    have hsome := h.leased generation intruded hattempt
    exact ⟨fun _ => hsome, fun _ _ _ => hsome, fun _ => hsome, by simp⟩
  case h_2 => exact h

theorem Backed.handOut : Backed lock.handOut := by
  unfold ProcessLock.handOut
  split
  case h_1 state hstate => exact .of_idle rfl fun _ => h.handing (by simp [hstate])
  case h_2 => exact h

theorem Backed.abandon : Backed lock.abandon := by
  unfold ProcessLock.abandon
  split
  · exact .of_idle rfl h.guards
  · exact .of_idle rfl h.guards
  · exact h

theorem Backed.cloneGuard : Backed lock.cloneGuard := by
  unfold ProcessLock.cloneGuard
  split
  case isTrue hguards =>
    refine ⟨fun _ => h.guards hguards, h.leased, h.handing, fun hattempt => ?_⟩
    have := h.releasing hattempt
    omega
  case isFalse => exact h

theorem Backed.dropGuard : Backed lock.dropGuard where
  guards hguards := h.guards (lt_of_lt_of_le hguards (sub_le _ _))
  leased := h.leased
  handing := h.handing
  releasing hattempt := by
    have := h.releasing hattempt
    simp only [ProcessLock.dropGuard]
    omega

theorem Backed.checkHolders : Backed lock.checkHolders := by
  unfold ProcessLock.checkHolders
  split
  · split
    case isTrue hguards =>
      exact ⟨h.guards, by simp, by simp [ProcessLock.guardState], fun _ => hguards⟩
    case isFalse => exact ⟨h.guards, h.leased, h.handing, h.releasing⟩
  · exact h

theorem Backed.clearDirty : Backed lock.clearDirty where
  guards := h.guards
  leased := h.leased
  handing hstate := by
    apply h.handing
    simp [ProcessLock.guardState, ProcessLock.clearDirty] at hstate ⊢
    split <;> simp_all
  releasing := h.releasing

theorem Backed.act (action : OwnAction) : Backed (lock.act action) := by
  cases action with
  | enter => exact h.enter
  | record => exact h.record
  | handOut => exact h.handOut
  | abandon => exact h.abandon
  | cloneGuard => exact h.cloneGuard
  | dropGuard => exact h.dropGuard
  | clearDirty => exact h.clearDirty
  | checkHolders => exact h.checkHolders

theorem Backed.receive {call : Call} (hmakes : lock.makes call = true) (now : ℕ)
    (generation : Option ℕ) : Backed (lock.receive now call generation) := by
  cases call with
  | take =>
    have hattempt : lock.attempt = .acquiring := by simpa [makes] using hmakes
    cases generation with
    | none => exact .of_idle rfl h.guards
    | some generation => exact ⟨fun _ => rfl, fun _ _ _ => rfl, fun _ => rfl, by
        simp [ProcessLock.receive]⟩
  | extend =>
    cases generation with
    | none => exact ⟨h.guards, h.leased, h.handing, h.releasing⟩
    | some generation => exact ⟨fun _ => rfl, fun _ _ _ => rfl, fun _ => rfl, h.releasing⟩
  | release =>
    have hattempt : lock.attempt = .releasing := by simpa [makes] using hmakes
    refine .of_idle rfl fun hguards => ?_
    have := h.releasing hattempt
    simp [ProcessLock.receive] at hguards
    omega

end

end Backed

/-- How the processes' own accounts of their leases agree with the table. -/
structure Accounted (key : String) (system : System) : Prop where
  backed : ∀ holder, Backed (system.locks holder)
  past : ∀ holder time, (system.locks holder).leasedAt = some time → time ≤ system.now
  held : ∀ holder time, (system.locks holder).leasedAt = some time →
    system.now ≤ time + leaseDuration →
    ∃ generation, system.leases.lookup key = some ⟨holder, time + leaseDuration, generation⟩
  expires : ∀ lease time, system.leases.lookup key = some lease →
    (system.locks lease.holder).leasedAt = some time → lease.expiration = time + leaseDuration

variable {holder : String}

section Steps

variable {key : String} {system : System}

theorem Backed.intrude {lock : ProcessLock} (h : Backed lock) : Backed lock.intrude :=
  ⟨h.guards, h.leased, h.handing, h.releasing⟩

variable {other : String} {time generation : ℕ}

theorem leasedAt_answer_of_ne (call : Call) (generation : Option ℕ)
    (leases : KeyedMap String Lease) (hne : other ≠ holder) :
    ((system.answer holder call generation leases).locks other).leasedAt =
      (system.locks other).leasedAt := by
  rw [answer_locks_of_ne _ _ _ _ hne]
  split <;> rfl

variable {leases : KeyedMap String Lease}

/-- A process that gets no lease may at most forget the one that it had. -/
theorem leasedAt_answer_none {call : Call}
    (htime : ((system.answer holder call none leases).locks other).leasedAt = some time) :
    (system.locks other).leasedAt = some time := by
  by_cases hother : other = holder
  · subst hother
    rw [answer_locks_self] at htime
    cases call with
    | take => exact htime
    | extend => exact htime
    | release => cases htime
  · rwa [leasedAt_answer_of_ne _ _ _ hother] at htime

theorem leasedAt_answer_some {call : Call}
    (htime : ((system.answer holder call (some generation) leases).locks holder).leasedAt =
      some time) : time = system.now ∧ fromMillis call.leaseDurationMs = leaseDuration := by
  rw [answer_locks_self] at htime
  cases call with
  | take => exact ⟨(Option.some.inj htime).symm, rfl⟩
  | extend => exact ⟨(Option.some.inj htime).symm, rfl⟩
  | release => cases htime

variable (h : Accounted key system)
include h

theorem Accounted.elapse (duration : ℕ) :
    Accounted key { system with now := system.now + duration } where
  backed := h.backed
  past holder time htime := le_add_right_of_le (h.past holder time htime)
  held holder time htime hnow :=
    h.held holder time htime (le_trans (le_add_right _ _) hnow)
  expires := h.expires

theorem Accounted.own (holder : String) (action : OwnAction) :
    Accounted key (system.act key (.own holder action)) := by
  have hleasedAt : ∀ other, ((system.act key (.own holder action)).locks other).leasedAt =
      (system.locks other).leasedAt := by
    intro other
    change (update system.locks holder _ other).leasedAt = _
    by_cases hother : other = holder
    · subst hother
      rw [update_self]
      exact act_leasedAt _ action
    · rw [update_of_ne hother]
  refine ⟨fun other => ?_, fun other time htime => ?_, fun other time htime => ?_,
    fun lease time hlookup htime => ?_⟩
  · change Backed (update system.locks holder _ other)
    by_cases hother : other = holder
    · subst hother
      rw [update_self]
      exact (h.backed other).act action
    · rw [update_of_ne hother]
      exact h.backed other
  all_goals rw [hleasedAt] at htime
  · exact h.past other time htime
  · exact h.held other time htime
  · exact h.expires lease time hlookup htime

theorem Accounted.backed_answer {call : Call} (hmakes : (system.locks holder).makes call = true)
    (generation : Option ℕ) (other : String) :
    Backed ((system.answer holder call generation leases).locks other) := by
  by_cases hother : other = holder
  · subst hother
    rw [answer_locks_self]
    exact (h.backed other).receive hmakes _ _
  · rw [answer_locks_of_ne _ _ _ _ hother]
    split
    · exact (h.backed other).intrude
    · exact h.backed other

theorem Accounted.answer_none {call : Call} (hmakes : (system.locks holder).makes call = true) :
    Accounted key (system.answer holder call none system.leases) where
  backed := h.backed_answer hmakes _
  past other time htime := h.past other time (leasedAt_answer_none htime)
  held other time htime := h.held other time (leasedAt_answer_none htime)
  expires lease time hlookup htime := h.expires lease time hlookup (leasedAt_answer_none htime)

theorem Accounted.answer_some {call : Call} (hmakes : (system.locks holder).makes call = true)
    (hgrants : Grants system.now holder (system.leases.lookup key) generation) :
    Accounted key (system.answer holder call (some generation) (system.leases.insert key
      ⟨holder, system.now + fromMillis call.leaseDurationMs, generation⟩)) where
  backed := h.backed_answer hmakes _
  past other time htime := by
    by_cases hother : other = holder
    · subst hother
      exact le_of_eq (leasedAt_answer_some htime).1
    · rw [leasedAt_answer_of_ne _ _ _ hother] at htime
      exact h.past other time htime
  held other time htime hnow := by
    by_cases hother : other = holder
    · subst hother
      obtain ⟨rfl, hduration⟩ := leasedAt_answer_some htime
      rw [answer_leases, AList.lookup_insert, hduration]
      exact ⟨generation, rfl⟩
    · rw [leasedAt_answer_of_ne _ _ _ hother] at htime
      have hexpired : time + leaseDuration < system.now := by
        by_contra hcurrent
        obtain ⟨generation', hlookup⟩ := h.held other time htime (by omega)
        rw [hlookup] at hgrants
        cases hgrants with
        | extended hholder => exact hother hholder
        | stolen _ hexpired => exact hcurrent hexpired
      rw [answer_now] at hnow
      omega
  expires lease time hlookup htime := by
    rw [answer_leases, AList.lookup_insert] at hlookup
    cases hlookup
    obtain ⟨rfl, hduration⟩ := leasedAt_answer_some htime
    rw [hduration]

theorem Accounted.call (holder : String) (call : Call) (fails : Bool) :
    Accounted key (system.call key holder call fails) := by
  rcases system.call_cases key holder call fails with
    hsame | ⟨hmakes, hnone | ⟨generation, hgrants, hsome⟩⟩
  · rw [hsame]
    exact h
  · rw [hnone]
    exact h.answer_none hmakes
  · rw [hsome]
    exact h.answer_some hmakes hgrants

end Steps

theorem accounted_run (key : String) (actions : List Action) : Accounted key (run key actions) := by
  refine List.foldlRecOn actions (System.act key) ?_ fun system h action _ => ?_
  · refine ⟨fun _ => .of_idle rfl (by simp [System.new, ProcessLock.new]), ?_, ?_, ?_⟩
    · intro holder time htime
      cases htime
    · intro holder time htime
      cases htime
    · intro lease time hlookup
      cases hlookup
  · cases action with
    | elapse duration => exact h.elapse duration
    | own holder action => exact h.own holder action
    | call holder call fails => exact h.call holder call fails

variable {key : String} {system : System}

/-- A process whose account says that its lease is current has it in the table, and conversely
once it has taken one. -/
theorem Accounted.owns_iff (h : Accounted key system)
    (hleased : (system.locks holder).leasedAt.isSome = true) :
    Owns key system holder ↔ IsCurrent system holder := by
  obtain ⟨time, htime⟩ := Option.isSome_iff_exists.mp hleased
  constructor
  · rintro ⟨lease, hlookup, rfl, hnow⟩
    rw [h.expires lease time hlookup htime] at hnow
    exact ⟨time, htime, hnow⟩
  · rintro ⟨time, htime, hnow⟩
    obtain ⟨generation, hlookup⟩ := h.held holder time htime hnow
    exact ⟨_, hlookup, rfl, hnow⟩

theorem Owns.unique {first second : String} (hfirst : Owns key system first)
    (hsecond : Owns key system second) : first = second := by
  obtain ⟨lease, hlookup, rfl, -⟩ := hfirst
  obtain ⟨lease', hlookup', rfl, -⟩ := hsecond
  rw [hlookup] at hlookup'
  rw [Option.some.inj hlookup']

/-- Whatever the processes do, while those with guards have extended their leases in time, only
one has guards; and a guard that `try_lock_once` gives out stands for a lease that the process
owns exactly when the process took or extended it at most the duration of a lease ago. -/
theorem guards_exclude_other_processes (key : String) (actions : List Action) :
    (Timely (run key actions) → ∀ first second,
      0 < ((run key actions).locks first).guards → 0 < ((run key actions).locks second).guards →
      first = second) ∧
    ∀ holder, ((run key actions).locks holder).guardState.isSome = true →
      (Owns key ((run key actions).act key (.own holder .handOut)) holder ↔
        IsCurrent (run key actions) holder) := by
  have h := accounted_run key actions
  refine ⟨fun htimely first second hfirst hsecond => ?_, fun holder hstate => ?_⟩
  · have howns : ∀ holder, 0 < ((run key actions).locks holder).guards →
        Owns key (run key actions) holder := fun holder hguards =>
      (h.owns_iff ((h.backed holder).guards hguards)).mpr (htimely holder hguards)
    exact (howns first hfirst).unique (howns second hsecond)
  · exact h.owns_iff ((h.backed holder).handing hstate)

def obtainGuard (holder : String) : List Action :=
  [.own holder .enter, .call holder .take false, .own holder .record, .own holder .handOut]

/-- The first process gives up its guard and releases its lease, then the second one takes it. -/
def handover : List Action :=
  obtainGuard "first" ++
    [.own "first" .dropGuard, .own "first" .checkHolders, .call "first" .release false,
      .elapse 1, .own "second" .enter, .call "second" .take false, .own "second" .record]

def isBy (holder : String) : Action → Bool
  | .elapse _ => false
  | .own other _ | .call other .. => other = holder

theorem guards_of_idle {holder : String} {actions : List Action}
    (h : ∀ action ∈ actions, isBy holder action = false) :
    ((run key actions).locks holder).guards = 0 := by
  suffices hrun : ∀ system : System, (system.locks holder).guards = 0 →
      ((actions.foldl (System.act key) system).locks holder).guards = 0 from hrun .new rfl
  induction actions with
  | nil => exact fun _ hzero => hzero
  | cons action actions ih =>
    obtain ⟨haction, hactions⟩ := List.forall_mem_cons.mp h
    refine fun system hzero => ih hactions _ ?_
    cases action with
    | elapse => exact hzero
    | own other action =>
      have hne : holder ≠ other := fun heq => by simp [isBy, heq] at haction
      simpa [System.act, hne] using hzero
    | call other call fails =>
      have hne : holder ≠ other := fun heq => by simp [isBy, heq] at haction
      simp only [System.act, System.call, answer]
      split_ifs <;> simpa [hne, apply_ite, intrude] using hzero

theorem second_guard_is_owned :
    Owns "lock" ((run "lock" handover).act "lock" (.own "second" .handOut)) "second" ∧
    ∀ holder, 0 < ((run "lock" (handover ++ [.own "second" .handOut])).locks holder).guards →
      holder = "second" := by
  refine ⟨((guards_exclude_other_processes "lock" handover).2 "second" rfl).mpr
    ⟨1, rfl, by decide⟩, fun holder hguards => ?_⟩
  have htimely : Timely (run "lock" (handover ++ [.own "second" .handOut])) := by
    intro holder hguards
    by_cases hsecond : holder = "second"
    · subst hsecond
      exact ⟨1, rfl, by decide⟩
    by_cases hfirst : holder = "first"
    · subst hfirst
      exact absurd hguards (by decide)
    · rw [guards_of_idle] at hguards
      · cases hguards
      · simp [handover, obtainGuard, isBy, Ne.symm hfirst, Ne.symm hsecond]
  exact (guards_exclude_other_processes "lock" (handover ++ [.own "second" .handOut])).1 htimely
    holder "second" hguards (by decide)

/-- The first process cannot extend its lease, and keeps its guard. Once the lease has expired, the
second process takes the lock, and then the first one asks for another guard. -/
def failedExtension : List Action :=
  obtainGuard "first" ++
    [.own "first" .checkHolders, .call "first" .extend true, .elapse (leaseDuration + 1)] ++
    obtainGuard "second" ++ [.own "first" .enter]

theorem guard_given_out_for_lost_lease :
    ((run "lock" failedExtension).locks "first").guardState = some .clean ∧
    (((run "lock" failedExtension).act "lock" (.own "first" .handOut)).locks "first").guards = 2 ∧
    ((run "lock" failedExtension).locks "second").guards = 1 ∧
    (run "lock" failedExtension).leases.lookup "lock" =
      some ⟨"second", 2 * leaseDuration + 1, 2⟩ := by
  decide

end MatrixSdk.LeasedGuards

import MatrixSdk.CrossProcessLocks
import Mathlib.Data.List.Count
import Mathlib.Data.List.Induction

/-!
Whether a lock is dirty. The table counts how often its lease has changed hands, and a process
that takes the lease compares this generation with the one that it has seen last. A guard that
is given out next to another one is reported as clean without a look at the lock's state.
-/
namespace MatrixSdk.DirtyLocks

open CrossProcessLocks ProcessLock Nat System

/-- The generation that a process has seen tells whether there was an intrusion: the table has
the same one as long as there was none, and a later one from then on. -/
structure Tracks (lease : Lease) (holder : String) (generation : ℕ) (intruded : Bool) :
    Prop where
  same : intruded = false → lease.holder = holder ∧ lease.generation = generation
  later : intruded = true → generation < lease.generation

section Grants

variable {now expiration bound generation seen : ℕ} {holder other : String} {lookup : Option Lease}
  {lease : Lease} {intruded : Bool}

/-- The generations in the table are counted from one on, and have not wrapped. -/
def Bounded (bound : ℕ) (lookup : Option Lease) : Prop :=
  ∀ lease, lookup = some lease → 0 < lease.generation ∧ lease.generation ≤ bound

theorem Bounded.grants (h : Bounded bound lookup) (hbound : bound + 1 < 2 ^ 64)
    (hgrants : Grants now holder lookup generation) :
    Bounded (bound + 1) (some ⟨holder, expiration, generation⟩) := by
  intro lease hlease
  cases hlease
  cases hgrants with
  | first => exact ⟨Nat.one_pos, Nat.le_add_left 1 bound⟩
  | extended =>
    obtain ⟨hpos, hle⟩ := h _ rfl
    exact ⟨hpos, le_succ_of_le hle⟩
  | stolen =>
    obtain ⟨-, hle⟩ := h _ rfl
    rw [mod_eq_of_lt (by omega)]
    exact ⟨succ_pos _, succ_le_succ hle⟩

/-- The lease stays with its holder, or goes over to the next generation. -/
theorem generation_of_grants (h : Bounded bound (some lease)) (hbound : bound + 1 < 2 ^ 64)
    (hgrants : Grants now holder (some lease) generation) :
    lease.holder = holder ∧ generation = lease.generation ∨
      lease.holder ≠ holder ∧ generation = lease.generation + 1 := by
  cases hgrants with
  | extended hholder => exact .inl ⟨hholder, rfl⟩
  | stolen hholder =>
    have := (h lease rfl).2
    exact .inr ⟨hholder, mod_eq_of_lt (by omega)⟩

/-- A lease that goes to the holder itself tells it nothing new. -/
theorem Tracks.grants_self (h : Tracks lease holder seen intruded)
    (hbounded : Bounded bound (some lease)) (hbound : bound + 1 < 2 ^ 64)
    (hgrants : Grants now holder (some lease) generation) :
    Tracks ⟨holder, expiration, generation⟩ holder seen intruded where
  same hintruded := by
    obtain ⟨hholder, hseen⟩ := h.same hintruded
    rcases generation_of_grants hbounded hbound hgrants with ⟨-, rfl⟩ | ⟨hne, -⟩
    · exact ⟨rfl, hseen⟩
    · exact absurd hholder hne
  later hintruded := by
    have hlater := h.later hintruded
    show seen < generation
    rcases generation_of_grants hbounded hbound hgrants with ⟨-, rfl⟩ | ⟨-, rfl⟩
    · exact hlater
    · omega

end Grants

/-- What a process has seen of the table. A lease that is not recorded yet was taken with what
was known of intrusions before it. -/
structure Sees (lookup : Option Lease) (holder : String) (lock : ProcessLock) : Prop where
  acquired : lock.acquired = true ↔ lock.generation ≠ noCrossProcessLockGeneration
  stained : lock.isDirty = lock.stained
  settled : lock.acquired = true → (∀ generation intruded,
      lock.attempt ≠ .leased generation intruded) →
    ∃ lease, lookup = some lease ∧ Tracks lease holder lock.generation lock.intruded
  leased : ∀ generation intruded, lock.attempt = .leased generation intruded →
    ∃ lease, lookup = some lease ∧ 0 < generation ∧
      Tracks lease holder generation lock.intruded ∧
      (lock.acquired = true →
        Tracks ⟨holder, 0, generation⟩ holder lock.generation intruded)

section Own

variable {lookup : Option Lease} {holder : String} {lock : ProcessLock} {lock' : ProcessLock}

section

variable (h : Sees lookup holder lock)
include h

section

variable (hgeneration : lock'.generation = lock.generation)
  (hacquired : lock'.acquired = lock.acquired) (hstained : lock'.isDirty = lock'.stained)
  (hintruded : lock'.intruded = lock.intruded)
include hgeneration hacquired hstained hintruded

/-- A process that does not touch its generation or its view of intrusions, and does not hold
`locking_attempt` with a lease. -/
theorem Sees.frame (hattempt : ∀ generation intruded, lock.attempt ≠ .leased generation intruded)
    (hattempt' : ∀ generation intruded, lock'.attempt ≠ .leased generation intruded) :
    Sees lookup holder lock' where
  acquired := by
    rw [hacquired, hgeneration]
    exact h.acquired
  stained := hstained
  settled hacq _ := by
    rw [hgeneration, hintruded]
    exact h.settled (hacquired ▸ hacq) hattempt
  leased generation intruded hleased := absurd hleased (hattempt' _ _)

/-- A process that goes on with its attempt as it is. -/
theorem Sees.frame_same (hattempt : lock'.attempt = lock.attempt) : Sees lookup holder lock' where
  acquired := by
    rw [hacquired, hgeneration]
    exact h.acquired
  stained := hstained
  settled := by
    rw [hacquired, hattempt, hgeneration, hintruded]
    exact h.settled
  leased := by
    rw [hacquired, hattempt, hgeneration, hintruded]
    exact h.leased

end

theorem Sees.record : Sees lookup holder lock.record := by
  unfold ProcessLock.record
  split
  case h_2 => exact h
  case h_1 generation intruded hattempt =>
    obtain ⟨lease, hlookup, hpos, htracks, hbefore⟩ := h.leased generation intruded hattempt
    refine ⟨⟨fun _ => Nat.pos_iff_ne_zero.mp hpos, fun _ => rfl⟩, ?_,
      fun _ _ => ⟨lease, hlookup, htracks⟩, by simp⟩
    -- the generations differ exactly after an intrusion
    show (lock.isDirty || _) = (lock.stained || _)
    rw [h.stained]
    congr 1
    cases hacquired : lock.acquired with
    | false =>
      have hzero : lock.generation = noCrossProcessLockGeneration := by
        by_contra hne
        rw [h.acquired.mpr hne] at hacquired
        cases hacquired
      simp [hzero]
    | true =>
      have hne := h.acquired.mp hacquired
      have hseen := hbefore hacquired
      cases intruded with
      | false =>
        have hsame : generation = lock.generation := (hseen.same rfl).2
        simp [hsame]
      | true =>
        have hlater : lock.generation < generation := hseen.later rfl
        simp [hne, Nat.ne_of_lt hlater]

theorem Sees.abandon : Sees lookup holder lock.abandon := by
  unfold ProcessLock.abandon
  split
  case h_1 hattempt => exact h.frame rfl rfl h.stained rfl (by simp [hattempt]) (by simp)
  case h_3 => exact h
  case h_2 generation intruded hattempt =>
    obtain ⟨lease, hlookup, -, htracks, hbefore⟩ := h.leased generation intruded hattempt
    refine ⟨h.acquired, h.stained, fun hacquired _ => ⟨lease, hlookup, ?_, ?_⟩, by simp⟩
    · intro hintruded
      obtain ⟨hlast, hfirst⟩ : lock.intruded = false ∧ intruded = false := by simpa using hintruded
      obtain ⟨hholder, hgeneration⟩ := htracks.same hlast
      have hseen : generation = lock.generation := ((hbefore hacquired).same hfirst).2
      exact ⟨hholder, hgeneration.trans hseen⟩
    · intro hintruded
      show lock.generation < lease.generation
      -- an intrusion before the lease, or one after it
      have hle : generation ≤ lease.generation := by
        cases hlast : lock.intruded with
        | false => exact le_of_eq (htracks.same hlast).2.symm
        | true => exact le_of_lt (htracks.later hlast)
      cases hfirst : intruded with
      | true =>
        have hlt : lock.generation < generation := (hbefore hacquired).later hfirst
        omega
      | false =>
        have hseen : generation = lock.generation := ((hbefore hacquired).same hfirst).2
        have hlast : lock.intruded = true := by simpa [hfirst] using hintruded
        have hlt := htracks.later hlast
        omega

theorem Sees.act (action : OwnAction) : Sees lookup holder (lock.act action) := by
  cases action with
  | record => exact h.record
  | abandon => exact h.abandon
  | dropGuard => exact h.frame_same rfl rfl h.stained rfl rfl
  | clearDirty => exact h.frame_same rfl rfl rfl rfl rfl
  | cloneGuard =>
    show Sees lookup holder lock.cloneGuard
    unfold cloneGuard
    split
    · exact h.frame_same rfl rfl h.stained rfl rfl
    · exact h
  | enter =>
    show Sees lookup holder lock.enter
    unfold ProcessLock.enter
    split
    case isFalse => exact h
    case isTrue hattempt =>
      refine h.frame rfl rfl h.stained rfl (by simp [hattempt]) fun generation intruded => ?_
      split <;> simp
  | handOut =>
    show Sees lookup holder lock.handOut
    unfold handOut
    split
    case h_2 => exact h
    case h_1 state hstate =>
      refine h.frame rfl rfl h.stained rfl (fun generation intruded hattempt => ?_) (by simp)
      simp [guardState, hattempt] at hstate
  | checkHolders =>
    show Sees lookup holder lock.checkHolders
    unfold checkHolders
    split
    case isFalse => exact h
    case isTrue hidle =>
      split
      · exact h.frame rfl rfl h.stained rfl (by simp [hidle.2]) (by simp)
      · exact h.frame_same rfl rfl h.stained rfl rfl

end

variable {now expiration bound generation : ℕ}

/-- A call that gets a lease. One that was taken is still to be recorded. -/
theorem Sees.receive_some (h : Sees lookup holder lock) {call : Call}
    (hmakes : lock.makes call = true) (hbounded : Bounded bound lookup)
    (hbound : bound + 1 < 2 ^ 64) (hgrants : Grants now holder lookup generation) :
    Sees (some ⟨holder, expiration, generation⟩) holder
      (lock.receive now call (some generation)) := by
  have hgrow : ∀ {seen : ℕ} {intruded : Bool},
      (∃ lease, lookup = some lease ∧ Tracks lease holder seen intruded) → ∀ expiration,
      Tracks ⟨holder, expiration, generation⟩ holder seen intruded := by
    rintro seen intruded ⟨lease, rfl, htracks⟩ expiration
    exact htracks.grants_self hbounded hbound hgrants
  cases call with
  | take =>
    have hattempt : lock.attempt = .acquiring := by simpa [ProcessLock.makes] using hmakes
    have hnext : Bounded (bound + 1) (some ⟨holder, 0, generation⟩) :=
      hbounded.grants hbound hgrants
    have hpos : 0 < generation := (hnext _ rfl).1
    refine ⟨h.acquired, h.stained, fun _ hnone => absurd rfl (hnone _ _), ?_⟩
    rintro _ _ ⟨⟩
    refine ⟨_, rfl, hpos, ⟨fun _ => ⟨rfl, rfl⟩, fun hintruded => by cases hintruded⟩, ?_⟩
    exact fun hacquired => hgrow (h.settled hacquired (by simp [hattempt])) 0
  | extend =>
    refine ⟨h.acquired, h.stained, fun hacquired hnone => ⟨_, rfl, ?_⟩, ?_⟩
    · exact hgrow (h.settled hacquired hnone) _
    · intro generation' intruded hattempt
      obtain ⟨lease, hlookup, hpos, htracks, hbefore⟩ := h.leased generation' intruded hattempt
      exact ⟨_, rfl, hpos, hgrow ⟨lease, hlookup, htracks⟩ _, hbefore⟩
  | release =>
    have hattempt : lock.attempt = .releasing := by simpa [ProcessLock.makes] using hmakes
    refine ⟨h.acquired, h.stained, fun hacquired _ => ⟨_, rfl, ?_⟩, by simp [receive]⟩
    exact hgrow (h.settled hacquired (by simp [hattempt])) _

theorem Sees.intrude (h : Sees lookup holder lock) {other : String} (hother : holder ≠ other)
    (hbounded : Bounded bound lookup) (hbound : bound + 1 < 2 ^ 64)
    (hgrants : Grants now other lookup generation) :
    Sees (some ⟨other, expiration, generation⟩) holder lock.intrude := by
  have hgrow : ∀ {seen : ℕ} {intruded : Bool},
      (∃ lease, lookup = some lease ∧ Tracks lease holder seen intruded) →
      Tracks ⟨other, expiration, generation⟩ holder seen true := by
    rintro seen intruded ⟨lease, rfl, htracks⟩
    refine ⟨nofun, fun _ => ?_⟩
    rcases generation_of_grants hbounded hbound hgrants with ⟨rfl, rfl⟩ | ⟨-, rfl⟩
    · apply htracks.later
      by_contra hintruded
      exact hother (htracks.same (by simpa using hintruded)).1.symm
    · cases intruded with
      | false => exact lt_succ_of_le (le_of_eq (htracks.same rfl).2.symm)
      | true => exact lt_succ_of_lt (htracks.later rfl)
  refine ⟨h.acquired, h.stained, fun hacquired hnone => ⟨_, rfl, ?_⟩, ?_⟩
  · exact hgrow (h.settled hacquired hnone)
  · intro generation' intruded hattempt
    obtain ⟨lease, hlookup, hpos, htracks, hbefore⟩ := h.leased generation' intruded hattempt
    exact ⟨_, rfl, hpos, hgrow ⟨lease, hlookup, htracks⟩, hbefore⟩

end Own

/-- All processes have seen of the table what there is to see, and there have been at most
`bound` calls. -/
structure Watched (key : String) (bound : ℕ) (system : System) : Prop where
  bounded : Bounded bound (system.leases.lookup key)
  sees : ∀ holder, Sees (system.leases.lookup key) holder (system.locks holder)

section Steps

variable {key : String} {bound : ℕ} {system : System}

theorem Watched.mono (h : Watched key bound system) : Watched key (bound + 1) system where
  bounded lease hlookup := by
    obtain ⟨hpos, hle⟩ := h.bounded lease hlookup
    exact ⟨hpos, le_succ_of_le hle⟩
  sees := h.sees

theorem Watched.own (h : Watched key bound system) (holder : String) (action : OwnAction) :
    Watched key bound (system.act key (.own holder action)) where
  bounded := h.bounded
  sees other := by
    show Sees _ other (Function.update system.locks holder _ other)
    by_cases hother : other = holder
    · subst hother
      rw [Function.update_self]
      exact (h.sees other).act action
    · rw [Function.update_of_ne hother]
      exact h.sees other

variable {holder : String}

section

variable (h : Watched key bound system)
include h

theorem Watched.answer_none {call : Call} (hmakes : (system.locks holder).makes call = true) :
    Watched key bound (system.answer holder call none system.leases) where
  bounded := h.bounded
  sees other := by
    by_cases hother : other = holder
    · subst hother
      rw [answer_locks_self]
      have hsees := h.sees other
      cases call with
      | take =>
        have hattempt : (system.locks other).attempt = .acquiring := by
          simpa [ProcessLock.makes] using hmakes
        exact hsees.frame rfl rfl hsees.stained rfl (by simp [hattempt]) (by simp [receive])
      | extend => exact hsees.frame_same rfl rfl hsees.stained rfl rfl
      | release =>
        have hattempt : (system.locks other).attempt = .releasing := by
          simpa [ProcessLock.makes] using hmakes
        exact hsees.frame rfl rfl hsees.stained rfl (by simp [hattempt]) (by simp [receive])
    · rw [answer_locks_of_ne _ _ _ _ hother]
      exact h.sees other

theorem Watched.answer_some (hbound : bound + 1 < 2 ^ 64) {call : Call}
    {generation expiration : ℕ} (hmakes : (system.locks holder).makes call = true)
    (hgrants : Grants system.now holder (system.leases.lookup key) generation) :
    Watched key (bound + 1) (system.answer holder call (some generation)
      (system.leases.insert key ⟨holder, expiration, generation⟩)) where
  bounded := by
    rw [answer_leases, AList.lookup_insert]
    exact h.bounded.grants hbound hgrants
  sees other := by
    rw [answer_leases, AList.lookup_insert]
    by_cases hother : other = holder
    · subst hother
      rw [answer_locks_self]
      exact (h.sees other).receive_some hmakes h.bounded hbound hgrants
    · rw [answer_locks_of_ne _ _ _ _ hother]
      exact (h.sees other).intrude hother h.bounded hbound hgrants

theorem Watched.call (hbound : bound + 1 < 2 ^ 64) (holder : String) (call : Call) (fails : Bool) :
    Watched key (bound + 1) (system.call key holder call fails) := by
  rcases system.call_cases key holder call fails with
    hsame | ⟨hmakes, hnone | ⟨generation, hgrants, hsome⟩⟩
  · rw [hsame]
    exact h.mono
  · rw [hnone]
    exact (h.answer_none hmakes).mono
  · rw [hsome]
    exact h.answer_some hbound hmakes hgrants

end

end Steps

def isCall : Action → Bool
  | .call .. => true
  | .elapse _ | .own .. => false

theorem watched_run (key : String) (actions : List Action)
    (hcalls : actions.countP isCall < 2 ^ 64) :
    Watched key (actions.countP isCall) (run key actions) := by
  induction actions using List.reverseRecOn with
  | nil =>
    refine ⟨?_, fun holder => ⟨by simp [run, System.new, ProcessLock.new], rfl, ?_, ?_⟩⟩
    · intro lease hlookup
      cases hlookup
    · intro hacquired
      cases hacquired
    · intro generation intruded hattempt
      cases hattempt
  | append_singleton actions action ih =>
    rw [run, List.foldl_concat]
    rw [List.countP_append] at hcalls ⊢
    have h := ih (by omega)
    cases action with
    | elapse duration => exact ⟨h.bounded, h.sees⟩
    | own holder action => exact h.own holder action
    | call holder call fails => exact h.call hcalls holder call fails

/-- In every run with fewer than 2^64 calls to the table, a lock is dirty exactly when another
holder acquired it between two acquisitions of its process and this was not cleared since. Each
guard tells so, except for one that is given out next to another guard of a dirty lock. -/
theorem dirty_guards_iff (key : String) (actions : List Action)
    (hcalls : actions.countP isCall < 2 ^ 64) (holder : String) :
    (((run key actions).locks holder).isDirty = true ↔
      ((run key actions).locks holder).stained = true) ∧
    ∀ state, ((run key actions).locks holder).guardState = some state →
      ((state = .dirty ↔ ((run key actions).locks holder).stained = true) ↔
        (((run key actions).locks holder).attempt = .reentering →
          ((run key actions).locks holder).isDirty = false)) := by
  have hstained := ((watched_run key actions hcalls).sees holder).stained
  generalize (run key actions).locks holder = lock at hstained ⊢
  refine ⟨by rw [hstained], fun state hstate => ?_⟩
  rw [← hstained]
  cases hattempt : lock.attempt with
  | reentering =>
    have hclean : state = .clean := by simpa [guardState, hattempt] using hstate.symm
    subst hclean
    simp
  | obtained =>
    have hreport : state = if lock.isDirty then .dirty else .clean := by
      simpa [guardState, hattempt] using hstate.symm
    rw [hreport]
    cases lock.isDirty <;> simp
  | idle | acquiring | leased | releasing => simp [guardState, hattempt] at hstate

/-- A process obtains the lock and gives it up again. -/
def useOnce (holder : String) : List Action :=
  [.own holder .enter, .call holder .take false, .own holder .record, .own holder .handOut,
    .own holder .dropGuard, .own holder .checkHolders, .call holder .release false, .elapse 1]

/-- The first process obtains the lock before and after the second one. -/
def intrusion : List Action :=
  useOnce "first" ++ useOnce "second" ++
    [.own "first" .enter, .call "first" .take false, .own "first" .record]

theorem first_guard_after_intrusion_is_dirty :
    ((run "lock" intrusion).locks "first").guardState = some .dirty ∧
    ((run "lock" intrusion).locks "first").stained = true := by
  have hstate : ((run "lock" intrusion).locks "first").guardState = some .dirty := by decide
  have hdirty := (dirty_guards_iff "lock" intrusion (by decide) "first").2 .dirty hstate
  exact ⟨hstate, (hdirty.mpr (by decide)).mp rfl⟩

/-- A second guard, next to the first one, is clean. -/
theorem second_guard_after_intrusion_is_clean :
    ((run "lock" intrusion).locks "first").guardState = some .dirty ∧
    ((run "lock" (intrusion ++ [.own "first" .handOut, .own "first" .enter])).locks
      "first").guardState = some .clean ∧
    ((run "lock" (intrusion ++ [.own "first" .handOut, .own "first" .enter])).locks
      "first").stained = true := by
  decide

end MatrixSdk.DirtyLocks

import MatrixSdk.DeviceTracking

/-!
The numbers of invalidations. They wrap, but with fewer than 2^63 invalidations they compare like
what they count: a response finds a user's number to be later than its own exactly if the user
was invalidated after the request was registered. A collection hands out the registered requests
that cover a dirty user, and registers new ones, of bounded size, for the others.
-/
namespace MatrixSdk.InvalidatedUsers

open DeviceTracking DeviceTrust KeyQueryResponses KeyedMaps Tracker BitVec Nat SequenceNumber AList
open Option

section Numbers

theorem toInt_ofNat {count : ℕ} (hcount : count < 2 ^ 63) :
    (BitVec.ofNat 64 count).toInt = count := by
  rw [toInt_eq_toNat_cond, toNat_ofNat, mod_eq_of_lt (by omega), if_pos]
  omega

end Numbers

section Removals

variable {querySequence : SequenceNumber} {tracker : Tracker} {user : String}

/-- What a response does to a waiter of one of its users. -/
def complete (querySequence : SequenceNumber) (users : List String) (waiter : KeysQueryWaiter) :
    KeysQueryWaiter :=
  if waiter.user ∈ users ∧ waiter.sequenceNumber.gt querySequence = false then
    { waiter with completed := true }
  else waiter

/-- A response goes through its tracked users, and touches the dirty users and the waiters only. -/
theorem removeUsers_eq (querySequence : SequenceNumber) (users : List String) (tracker : Tracker) :
    (removeUsers querySequence users tracker).2 =
      { tracker with
        queries := (users.filter (· ∈ tracker.trackedUsers)).foldl
          (fun queries user => queries.maybeRemoveUser querySequence user) tracker.queries
        waiters := tracker.waiters.map
          (complete querySequence (users.filter (· ∈ tracker.trackedUsers))) } := by
  induction users generalizing tracker with
  | nil =>
    have hnone : complete querySequence [] = id := by
      funext waiter
      simp [complete]
    simp [removeUsers, hnone]
  | cons user users ih =>
    unfold removeUsers
    by_cases htracked : user ∈ tracker.trackedUsers
    · have hfirst : (tracker.maybeRemoveUser querySequence user).2 =
          { tracker with
            queries := tracker.queries.maybeRemoveUser querySequence user
            waiters := tracker.waiters.map (complete querySequence [user]) } := by
        have hone : complete querySequence [user] = fun waiter =>
            if waiter.user = user ∧ waiter.sequenceNumber.gt querySequence = false then
              { waiter with completed := true }
            else waiter := by
          funext waiter
          simp only [complete, List.mem_singleton]
        rw [hone]
        rfl
      have hcomplete : complete querySequence (users.filter (· ∈ tracker.trackedUsers)) ∘
          complete querySequence [user] =
          complete querySequence (user :: users.filter (· ∈ tracker.trackedUsers)) := by
        funext waiter
        simp only [Function.comp, complete]
        by_cases hgt : waiter.sequenceNumber.gt querySequence = false
        · by_cases huser : waiter.user = user
          · simp [hgt, huser]
          · simp [hgt, huser]
        · simp [hgt]
      simp only [if_pos htracked]
      rw [ih, hfirst]
      simp [htracked, hcomplete]
    · rw [if_neg htracked, ih]
      simp [htracked]

theorem lookup_maybeRemoveUser (queries : UsersForKeyQuery) (first : String) :
    (queries.maybeRemoveUser querySequence first).userMap.lookup user =
      if user = first then (queries.userMap.lookup user).filter (·.gt querySequence)
      else queries.userMap.lookup user := by
  unfold UsersForKeyQuery.maybeRemoveUser
  by_cases huser : user = first
  · subst huser
    rw [if_pos rfl]
    cases hlookup : queries.userMap.lookup user with
    | none => exact hlookup
    | some number =>
      by_cases hgt : number.gt querySequence = true
      · simp [hgt, hlookup, filter_some]
      · simp [hgt, filter_some]
  · rw [if_neg huser]
    split
    · rfl
    · split
      · rfl
      · exact lookup_erase_ne huser

/-- After a response, the users that it went through are dirty only if they were invalidated
later. -/
theorem lookup_foldl_maybeRemoveUser (users : List String) (queries : UsersForKeyQuery) :
    (users.foldl (fun queries user => queries.maybeRemoveUser querySequence user)
        queries).userMap.lookup user =
      if user ∈ users then (queries.userMap.lookup user).filter (·.gt querySequence)
      else queries.userMap.lookup user := by
  induction users generalizing queries with
  | nil => simp
  | cons first users ih =>
    rw [List.foldl_cons, ih, lookup_maybeRemoveUser]
    by_cases huser : user = first
    · subst huser
      simp [filter_filter]
    · simp [huser]

theorem nextSequenceNumber_foldl (users : List String) (queries : UsersForKeyQuery) :
    (users.foldl (fun queries user => queries.maybeRemoveUser querySequence user)
      queries).nextSequenceNumber = queries.nextSequenceNumber := by
  induction users generalizing queries with
  | nil => rfl
  | cons first users ih =>
    rw [List.foldl_cons, ih]
    unfold UsersForKeyQuery.maybeRemoveUser
    split
    · rfl
    · split <;> rfl

/-- What is saved as clean is clean. -/
theorem not_dirty_of_mem_updates {users : List String}
    (h : (user, false) ∈ (removeUsers querySequence users tracker).1) :
    (removeUsers querySequence users tracker).2.queries.userMap.lookup user = none := by
  induction users generalizing tracker with
  | nil => cases h
  | cons first users ih =>
    unfold removeUsers at h ⊢
    by_cases htracked : first ∈ tracker.trackedUsers
    · simp only [if_pos htracked] at h ⊢
      rcases List.mem_cons.mp h with hfirst | hrest
      · obtain ⟨rfl, hclean⟩ := Prod.mk.inj hfirst
        rw [removeUsers_eq]
        have hnone : (tracker.maybeRemoveUser querySequence user).2.queries.userMap.lookup user =
            none := by
          show (tracker.queries.maybeRemoveUser querySequence user).userMap.lookup user = none
          rw [lookup_maybeRemoveUser, if_pos rfl]
          unfold maybeRemoveUser at hclean
          cases hlookup : tracker.queries.userMap.lookup user with
          | none => rfl
          | some number =>
            rw [hlookup] at hclean
            simpa using hclean
        simp only [lookup_foldl_maybeRemoveUser, hnone]
        split <;> rfl
      · exact ih hrest
    · rw [if_neg htracked] at h ⊢
      exact ih h

end Removals

/-- A number of the source stands for the invalidation with this index. -/
def Numbers (tracker : Tracker) (number : SequenceNumber) (index : ℕ) : Prop :=
  tracker.base ≤ index ∧ number = ⟨BitVec.ofNat 64 (index - tracker.base)⟩

/-- A request was registered after the invalidation that its number stands for. -/
def Registered (tracker : Tracker) (registration : Registration) : Prop :=
  tracker.base < registration.registeredAt ∧ registration.registeredAt ≤ tracker.invalidations ∧
    Numbers tracker registration.sequenceNumber (registration.registeredAt - 1)

/-- The numbers of the source follow the order of the invalidations. -/
structure Numbered (tracker : Tracker) : Prop where
  next : Numbers tracker tracker.queries.nextSequenceNumber tracker.invalidations
  last : ∀ user number, tracker.queries.userMap.lookup user = some number →
    ∃ index, tracker.lastInvalidation user = some index ∧ index < tracker.invalidations ∧
      Numbers tracker number index
  details : ∀ requestId registration, tracker.requestDetails.lookup requestId = some registration →
    Registered tracker registration
  processing : ∀ response ∈ tracker.processing, Registered tracker response.registration
  waiters : ∀ waiter ∈ tracker.waiters, waiter.invalidation < tracker.invalidations ∧
    Numbers tracker waiter.sequenceNumber waiter.invalidation

section Numbered

variable {tracker : Tracker} {user : String}

/-- One number is behind another one exactly if it stands for an earlier invalidation. -/
theorem Numbers.gt_iff {number other : SequenceNumber} {index index' : ℕ}
    (hnumber : Numbers tracker number index) (hother : Numbers tracker other index')
    (hindex : index < 2 ^ 63) (hindex' : index' < 2 ^ 63) :
    number.gt other = decide (index' < index) := by
  obtain ⟨hle, rfl⟩ := hnumber
  obtain ⟨hle', rfl⟩ := hother
  have hzero : (0 : BitVec 64).toInt = 0 := rfl
  simp only [gt, BitVec.slt, toInt_sub, toInt_ofNat (Nat.lt_of_le_of_lt (Nat.sub_le _ _) hindex),
    toInt_ofNat (Nat.lt_of_le_of_lt (Nat.sub_le _ _) hindex'), hzero, Int.bmod, decide_eq_decide]
  omega

theorem Registered.invalidate {registration : Registration}
    (h : Registered tracker registration) (user : String) :
    Registered (tracker.invalidate user) registration :=
  ⟨h.1, Nat.le_succ_of_le h.2.1, h.2.2⟩

section

variable (h : Numbered tracker)
include h

theorem Numbered.invalidate (user : String) : Numbered (tracker.invalidate user) where
  next := by
    obtain ⟨hle, hnext⟩ := h.next
    refine ⟨Nat.le_succ_of_le hle, ?_⟩
    show tracker.queries.nextSequenceNumber.increment = _
    rw [hnext, increment, SequenceNumber.mk.injEq]
    show _ = BitVec.ofNat 64 (tracker.invalidations + 1 - tracker.base)
    rw [Nat.sub_add_comm hle, ofNat_add]
    rfl
  last other number hlookup := by
    show ∃ index, Function.update tracker.lastInvalidation user _ other = some index ∧
      index < tracker.invalidations + 1 ∧ Numbers tracker number index
    rcases KeyedMap.lookup_insert_cases hlookup with ⟨rfl, rfl⟩ | ⟨hother, hlookup⟩
    · rw [Function.update_self]
      exact ⟨_, rfl, lt_succ_self _, h.next⟩
    · rw [Function.update_of_ne hother]
      obtain ⟨index, hlast, hlt, hnumbers⟩ := h.last other number hlookup
      exact ⟨index, hlast, lt_succ_of_lt hlt, hnumbers⟩
  details requestId registration hlookup := (h.details requestId registration hlookup).invalidate _
  processing response hmem := (h.processing response hmem).invalidate _
  waiters waiter hmem := by
    obtain ⟨hlt, hnumbers⟩ := h.waiters waiter hmem
    exact ⟨lt_succ_of_lt hlt, hnumbers⟩

theorem Numbered.foldl_invalidate (users : List String) :
    Numbered (users.foldl Tracker.invalidate tracker) :=
  List.foldlRecOn users Tracker.invalidate h fun _ htracker user _ => htracker.invalidate user

theorem Numbered.removeUsers (querySequence : SequenceNumber) (users : List String) :
    Numbered (removeUsers querySequence users tracker).2 := by
  rw [removeUsers_eq]
  refine ⟨?_, ?_, h.details, h.processing, ?_⟩
  · show Numbers tracker _ _
    rw [nextSequenceNumber_foldl]
    exact h.next
  · intro other number hlookup
    simp only [lookup_foldl_maybeRemoveUser] at hlookup
    apply h.last other number
    split at hlookup
    · exact (filter_eq_some_iff.mp hlookup).1
    · exact hlookup
  · intro waiter hmem
    obtain ⟨before, hbefore, rfl⟩ := List.mem_map.mp hmem
    unfold complete
    split
    · exact h.waiters before hbefore
    · exact h.waiters before hbefore

theorem Numbered.register (hpos : tracker.base < tracker.invalidations) (users : List String) :
    Numbered (tracker.register users) := by
  refine ⟨h.next, h.last, ?_, h.processing, h.waiters⟩
  intro requestId registration hlookup
  rcases KeyedMap.lookup_insert_cases hlookup with ⟨rfl, rfl⟩ | ⟨-, hlookup⟩
  · refine ⟨hpos, le_rfl, le_sub_one_of_lt hpos, ?_⟩
    rw [h.next.2, previous, SequenceNumber.mk.injEq]
    have hcount : tracker.invalidations - tracker.base =
        tracker.invalidations - 1 - tracker.base + 1 := by omega
    rw [hcount, ofNat_add]
    exact add_sub_cancel _ _
  · exact h.details requestId registration hlookup

theorem Numbered.foldl_register (hpos : tracker.base < tracker.invalidations)
    (created : List (List String)) : Numbered (created.foldl Tracker.register tracker) := by
  induction created generalizing tracker with
  | nil => exact h
  | cons users created ih => exact ih (h.register hpos users) hpos

theorem Numbered.wait (user : String) : Numbered (tracker.wait user) := by
  unfold Tracker.wait
  split
  · exact h
  case h_2 number hlookup =>
    refine ⟨h.next, h.last, h.details, h.processing, fun waiter hmem => ?_⟩
    rcases List.mem_append.mp hmem with hmem | hmem
    · exact h.waiters waiter hmem
    · obtain rfl := List.mem_singleton.mp hmem
      obtain ⟨index, hlast, hlt, hnumbers⟩ := h.last user number hlookup
      simp only [hlast, getD_some]
      exact ⟨hlt, hnumbers⟩

end

end Numbered

open List

section Chunks

variable {α : Type} {size : ℕ} {users : List α}

theorem flatten_chunksFrom (hsize : 0 < size) {fuel : ℕ} (hfuel : users.length ≤ fuel) :
    (chunksFrom size fuel users).flatten = users := by
  induction fuel generalizing users with
  | zero =>
    have hnil : users = [] := length_eq_zero_iff.mp (le_zero.mp hfuel)
    subst hnil
    rfl
  | succ fuel ih =>
    unfold chunksFrom
    cases users with
    | nil => rfl
    | cons user users =>
      have hrest : ((user :: users).drop size).length ≤ fuel := by
        rw [length_drop]
        omega
      rw [isEmpty_cons, if_neg (by simp), flatten_cons, ih hrest, take_append_drop]

theorem flatten_chunks (hsize : 0 < size) (users : List α) :
    (chunks size users).flatten = users :=
  flatten_chunksFrom hsize le_rfl

theorem length_le_of_mem_chunks {chunk : List α} (hmem : chunk ∈ chunks size users) :
    chunk.length ≤ size := by
  unfold chunks at hmem
  generalize users.length = fuel at hmem
  induction fuel generalizing users with
  | zero => cases hmem
  | succ fuel ih =>
    unfold chunksFrom at hmem
    split at hmem
    · cases hmem
    · rcases mem_cons.mp hmem with rfl | hmem
      · exact length_take_le size users
      · exact ih hmem

end Chunks

/-- The registered requests have ids of their own and cover different users, not too many. -/
structure Apart (tracker : Tracker) : Prop where
  fresh : ∀ requestId registration, tracker.requestDetails.lookup requestId = some registration →
    requestId < tracker.nextRequestId
  small : ∀ requestId registration, tracker.requestDetails.lookup requestId = some registration →
    registration.users.Nodup ∧ registration.users.length ≤ maxKeyQueryUsers
  disjoint : ∀ first second registration other,
    tracker.requestDetails.lookup first = some registration →
    tracker.requestDetails.lookup second = some other → first ≠ second →
    ∀ user ∈ registration.users, user ∉ other.users

/-- No registered request covers the user. -/
def IsUncovered (tracker : Tracker) (user : String) : Prop :=
  ∀ requestId registration, tracker.requestDetails.lookup requestId = some registration →
    user ∉ registration.users

section Apart

variable {tracker : Tracker} {users : List String}

theorem lookup_register {requestId : ℕ} {registration : Registration}
    (hlookup : (tracker.register users).requestDetails.lookup requestId = some registration) :
    requestId = tracker.nextRequestId ∧ registration.users = users ∨
      requestId ≠ tracker.nextRequestId ∧
        tracker.requestDetails.lookup requestId = some registration := by
  rcases KeyedMap.lookup_insert_cases hlookup with ⟨hid, rfl⟩ | hold
  · exact .inl ⟨hid, rfl⟩
  · exact .inr hold

theorem Apart.register (h : Apart tracker) (hnodup : users.Nodup)
    (hlength : users.length ≤ maxKeyQueryUsers)
    (huncovered : ∀ user ∈ users, IsUncovered tracker user) :
    Apart (tracker.register users) where
  fresh requestId registration hlookup := by
    rcases lookup_register hlookup with ⟨rfl, -⟩ | ⟨-, hold⟩
    · exact lt_succ_self _
    · exact lt_succ_of_lt (h.fresh requestId registration hold)
  small requestId registration hlookup := by
    rcases lookup_register hlookup with ⟨-, hnew⟩ | ⟨-, hold⟩
    · rw [hnew]
      exact ⟨hnodup, hlength⟩
    · exact h.small requestId registration hold
  disjoint first second registration other hfirst hsecond hne user hmem hmem' := by
    rcases lookup_register hfirst with ⟨rfl, hnew⟩ | ⟨-, hold⟩
    · rcases lookup_register hsecond with ⟨rfl, -⟩ | ⟨-, hold'⟩
      · exact hne rfl
      · exact huncovered user (hnew ▸ hmem) second other hold' hmem'
    · rcases lookup_register hsecond with ⟨-, hnew'⟩ | ⟨-, hold'⟩
      · exact huncovered user (hnew' ▸ hmem') first registration hold hmem
      · exact h.disjoint first second registration other hold hold' hne user hmem hmem'

theorem Apart.foldl_register (h : Apart tracker) {created : List (List String)}
    (hnodup : created.flatten.Nodup)
    (hlength : ∀ users ∈ created, users.length ≤ maxKeyQueryUsers)
    (huncovered : ∀ user ∈ created.flatten, IsUncovered tracker user) :
    Apart (created.foldl Tracker.register tracker) := by
  induction created generalizing tracker with
  | nil => exact h
  | cons users created ih =>
    rw [flatten_cons, nodup_append] at hnodup
    obtain ⟨hfirst, hrest, hdisjoint⟩ := hnodup
    have hregister : Apart (tracker.register users) := by
      apply h.register hfirst (hlength users mem_cons_self)
      intro user hmem
      exact huncovered user (mem_append_left _ hmem)
    refine ih hregister hrest (fun other hmem => hlength other (mem_cons_of_mem _ hmem)) ?_
    intro user hmem requestId registration hlookup
    rcases lookup_register hlookup with ⟨-, hnew⟩ | ⟨-, hold⟩
    · rw [hnew]
      exact fun hmem' => hdisjoint user hmem' user hmem rfl
    · exact huncovered user (mem_append_right _ hmem) requestId registration hold

theorem maxKeyQueryUsers_pos : 0 < maxKeyQueryUsers := by decide

variable (serverName : String → String) (backoff : List String)

/-- The dirty users that a collection has to take care of and that no request covers. -/
def uncovered (tracker : Tracker) : List String :=
  (tracker.queries.userMap.keys.filter fun user => serverName user ∉ backoff).filter fun user =>
    (tracker.requestDetails.entries.map fun entry => (entry.1, entry.2.users)).all (user ∉ ·.2)

theorem collect_eq : (tracker.collect serverName backoff).2 =
    (chunks maxKeyQueryUsers (uncovered serverName backoff tracker)).foldl
      Tracker.register tracker := rfl

variable {user : String}

theorem isUncovered_of_mem (hmem : user ∈ uncovered serverName backoff tracker) :
    IsUncovered tracker user := by
  intro requestId registration hlookup
  have hall := all_eq_true.mp (mem_filter.mp hmem).2
  have hentry := hall (requestId, registration.users)
    (mem_map.mpr ⟨⟨requestId, registration⟩, mem_lookup_iff.mp hlookup, rfl⟩)
  simpa using hentry

theorem Apart.collect (h : Apart tracker) : Apart (tracker.collect serverName backoff).2 := by
  rw [collect_eq]
  have hflatten := flatten_chunks maxKeyQueryUsers_pos (uncovered serverName backoff tracker)
  apply h.foldl_register
  · rw [hflatten]
    exact (tracker.queries.userMap.nodupKeys.filter _).filter _
  · intro users hmem
    exact length_le_of_mem_chunks hmem
  · rw [hflatten]
    exact fun user hmem => isUncovered_of_mem serverName backoff hmem

/-- The requests of a collection cover every dirty user whose server is not in backoff. -/
theorem collect_covers {number : SequenceNumber}
    (hdirty : tracker.queries.userMap.lookup user = some number)
    (hserver : serverName user ∉ backoff) :
    ∃ request ∈ (tracker.collect serverName backoff).1, user ∈ request.2 := by
  have hkey : user ∈ tracker.queries.userMap.keys.filter fun user => serverName user ∉ backoff := by
    refine mem_filter.mpr ⟨?_, by simpa using hserver⟩
    exact mem_keys.mpr (lookup_isSome.mp (by rw [hdirty]; rfl))
  by_cases hcovered : IsUncovered tracker user
  · have hmem : user ∈ uncovered serverName backoff tracker := by
      refine mem_filter.mpr ⟨hkey, all_eq_true.mpr ?_⟩
      rintro request hrequest
      obtain ⟨⟨requestId, registration⟩, hentry, rfl⟩ := mem_map.mp hrequest
      simpa using hcovered requestId registration (mem_lookup_iff.mpr hentry)
    rw [← flatten_chunks maxKeyQueryUsers_pos (uncovered serverName backoff tracker)] at hmem
    obtain ⟨chunk, hchunk, hin⟩ := mem_flatten.mp hmem
    obtain ⟨index, hindex⟩ := mem_iff_getElem?.mp hchunk
    refine ⟨(tracker.nextRequestId + index, chunk), mem_append_right _ ?_, hin⟩
    exact mem_map.mpr ⟨(chunk, index), mk_mem_zipIdx_iff_getElem?.mpr hindex, rfl⟩
  · unfold IsUncovered at hcovered
    push Not at hcovered
    obtain ⟨requestId, registration, hlookup, hin⟩ := hcovered
    refine ⟨(requestId, registration.users), mem_append_left _ ?_, hin⟩
    refine mem_filter.mpr ⟨?_, any_eq_true.mpr ⟨user, hin, by simpa using hkey⟩⟩
    exact mem_map.mpr ⟨⟨requestId, registration⟩, mem_lookup_iff.mp hlookup, rfl⟩

end Apart

end MatrixSdk.InvalidatedUsers

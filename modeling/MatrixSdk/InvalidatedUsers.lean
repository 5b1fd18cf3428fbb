import MatrixSdk.InvalidationNumbers

/-!
No invalidation of a device list is missed. A response takes a user off the dirty users only if
its request was registered after the user's last invalidation, and a user that is dirty in memory
is dirty in the store. A waiter, however, is content with the invalidation that it knew of.
-/
namespace MatrixSdk.InvalidatedUsers

open DeviceTracking DeviceTrust KeyedMaps KeyedMap List Tracker AList Option

def IsDirty (tracker : Tracker) (user : String) : Prop :=
  if tracker.loaded then (tracker.queries.userMap.lookup user).isSome = true
  else tracker.store.lookup user = some true

/-- A user that is dirty in memory is dirty in the store, or on its way there. Nothing that is
saved as clean is dirty. -/
structure Stored (tracker : Tracker) : Prop where
  unloaded : tracker.loaded = false →
    (∀ user, tracker.queries.userMap.lookup user = none) ∧ tracker.saving = none ∧
      tracker.marked = [] ∧ tracker.unsaved = []
  clean : ∀ saving, tracker.saving = some saving → ∀ user, (user, false) ∈ saving.updates →
    tracker.queries.userMap.lookup user = none
  stored : ∀ user, (tracker.queries.userMap.lookup user).isSome = true →
    tracker.store.lookup user = some true ∨ user ∈ tracker.marked ∨ user ∈ tracker.unsaved ∨
      ∃ saving, tracker.saving = some saving ∧ saving.ofResponse = false ∧
        (user, true) ∈ saving.updates

section Stored

variable {tracker : Tracker} {user : String} {users : List String}

theorem Tracker.isReady_iff : tracker.isReady = true ↔
    tracker.loaded = true ∧ tracker.saving = none := by
  simp [isReady]

/-- An invalidation makes its user dirty, and no other one. -/
theorem lookup_invalidate_isSome (other : String) :
    ((tracker.invalidate user).queries.userMap.lookup other).isSome = true ↔
      other = user ∨ (tracker.queries.userMap.lookup other).isSome = true := by
  show ((tracker.queries.userMap.insert user _).lookup other).isSome = true ↔ _
  by_cases hother : other = user
  · subst hother
    simp
  · simp [lookup_insert_ne hother, hother]

theorem lookup_foldl_invalidate_isSome (tracker : Tracker) (users : List String) (other : String) :
    ((users.foldl invalidate tracker).queries.userMap.lookup other).isSome = true ↔
      other ∈ users ∨ (tracker.queries.userMap.lookup other).isSome = true := by
  induction users generalizing tracker with
  | nil => simp
  | cons first users ih =>
    rw [foldl_cons, ih, lookup_invalidate_isSome, mem_cons]
    tauto

/-- Invalidations touch what the source numbers, and nothing else. -/
theorem foldl_invalidate_eq (users : List String) (tracker : Tracker) :
    ∃ queries invalidations lastInvalidation, users.foldl invalidate tracker =
      { tracker with
        queries := queries, invalidations := invalidations
        lastInvalidation := lastInvalidation } := by
  induction users generalizing tracker with
  | nil => exact ⟨_, _, _, rfl⟩
  | cons user users ih =>
    obtain ⟨queries, invalidations, lastInvalidation, heq⟩ := ih (tracker.invalidate user)
    exact ⟨queries, invalidations, lastInvalidation, heq⟩

section

variable (h : Stored tracker)
include h

/-- An operation invalidates some users, and keeps the lock while it saves them. -/
theorem Stored.invalidate_all (hready : tracker.isReady = true) (users trackedUsers : List String) :
    Stored { users.foldl invalidate tracker with
      trackedUsers := trackedUsers, saving := some ⟨users.map (·, true), false⟩ } := by
  obtain ⟨hloaded, hsaving⟩ := Tracker.isReady_iff.mp hready
  have hdirty := lookup_foldl_invalidate_isSome tracker users
  obtain ⟨queries, invalidations, lastInvalidation, heq⟩ := foldl_invalidate_eq users tracker
  rw [heq] at hdirty ⊢
  refine ⟨fun hunloaded => ?_, ?_, fun user hsome => ?_⟩
  · exact absurd (hloaded.symm.trans hunloaded) (by simp)
  · rintro _ ⟨⟩ user hmem
    simp at hmem
  · rcases (hdirty user).mp hsome with hmem | hbefore
    · exact .inr (.inr (.inr ⟨_, rfl, rfl, mem_map.mpr ⟨user, hmem, rfl⟩⟩))
    · refine (h.stored user hbefore).imp_right (Or.imp_right (Or.imp_right ?_))
      rintro ⟨saving, hsome, -⟩
      rw [hsaving] at hsome
      cases hsome

theorem Stored.mark (hready : tracker.isReady = true) (user : String) :
    Stored (tracker.mark user) := by
  obtain ⟨hloaded, hsaving⟩ := Tracker.isReady_iff.mp hready
  refine ⟨fun hunloaded => ?_, fun saving hsome => ?_, fun other hsome => ?_⟩
  · exact absurd (hloaded.symm.trans hunloaded) (by simp)
  · exact absurd (hsaving.symm.trans hsome) (by simp)
  · rcases (lookup_invalidate_isSome other).mp hsome with rfl | hbefore
    · exact .inr (.inl mem_cons_self)
    · rcases h.stored other hbefore with hstore | hmarked | hunsaved | hsaves
      · exact .inl hstore
      · exact .inr (.inl (mem_cons_of_mem _ hmarked))
      · exact .inr (.inr (.inl hunsaved))
      · exact .inr (.inr (.inr hsaves))

theorem Stored.trackMarked (hmem : user ∈ tracker.marked) : Stored (tracker.trackMarked user) := by
  refine ⟨fun hunloaded => ?_, h.clean, fun other hsome => ?_⟩
  · rw [(h.unloaded hunloaded).2.2.1] at hmem
    cases hmem
  · rcases h.stored other hsome with hstore | hmarked | hunsaved | hsaves
    · exact .inl hstore
    · by_cases hother : other = user
      · subst hother
        exact .inr (.inr (.inl mem_cons_self))
      · exact .inr (.inl ((mem_erase_of_ne hother).mpr hmarked))
    · exact .inr (.inr (.inl (mem_cons_of_mem _ hunsaved)))
    · exact .inr (.inr (.inr hsaves))

theorem Stored.saveMarked (hmem : user ∈ tracker.unsaved) : Stored (tracker.saveMarked user) := by
  refine ⟨fun hunloaded => ?_, h.clean, fun other hsome => ?_⟩
  · rw [(h.unloaded hunloaded).2.2.2] at hmem
    cases hmem
  · show (tracker.store.insert user true).lookup other = some true ∨ _
    by_cases hother : other = user
    · subst hother
      exact .inl (lookup_insert _)
    · rw [lookup_insert_ne hother]
      rcases h.stored other hsome with hstore | hmarked | hunsaved | hsaves
      · exact .inl hstore
      · exact .inr (.inl hmarked)
      · exact .inr (.inr (.inl ((mem_erase_of_ne hother).mpr hunsaved)))
      · exact .inr (.inr (.inr hsaves))

theorem Stored.load : Stored tracker.load := by
  unfold Tracker.load
  by_cases hloaded : tracker.loaded = true
  · rw [if_pos hloaded]
    exact h
  · rw [if_neg hloaded]
    obtain ⟨hnone, hsaving, -, -⟩ := h.unloaded (by simpa using hloaded)
    have hdirty := lookup_foldl_invalidate_isSome tracker
      ((tracker.store.entries.filter fun entry => entry.2).map Sigma.fst)
    obtain ⟨queries, invalidations, lastInvalidation, heq⟩ := foldl_invalidate_eq
      ((tracker.store.entries.filter fun entry => entry.2).map Sigma.fst) tracker
    simp only [heq] at hdirty ⊢
    refine ⟨(fun hunloaded => nomatch hunloaded), fun saving hsome => ?_, fun user hsome => ?_⟩
    · exact absurd (hsaving.symm.trans hsome) (by simp)
    · rcases (hdirty user).mp hsome with hmem | hbefore
      · obtain ⟨⟨user, dirty⟩, hentry, rfl⟩ := mem_map.mp hmem
        obtain ⟨hentry, hdirty⟩ := mem_filter.mp hentry
        cases hdirty
        exact .inl (mem_lookup_iff.mpr hentry)
      · rw [hnone] at hbefore
        cases hbefore

end

/-- What is saved for a user that is dirty is that it is dirty. -/
theorem lookup_saveUpdates {updates : List (String × Bool)} {store : KeyedMap String Bool}
    (hclean : (user, false) ∉ updates) :
    (saveUpdates updates store).lookup user =
      if (user, true) ∈ updates then some true else store.lookup user := by
  induction updates generalizing store with
  | nil => simp [saveUpdates]
  | cons update updates ih =>
    obtain ⟨first, dirty⟩ := update
    rw [mem_cons, not_or] at hclean
    rw [saveUpdates, foldl_cons]
    change (saveUpdates updates (store.insert first dirty)).lookup user = _
    rw [ih hclean.2]
    by_cases huser : user = first
    · subst huser
      cases dirty with
      | true => simp
      | false => exact absurd rfl hclean.1
    · simp [lookup_insert_ne huser, huser]

theorem Stored.saved (h : Stored tracker) {saving : Saving}
    (hsaving : tracker.saving = some saving) :
    Stored { tracker with
      store := saveUpdates saving.updates tracker.store, saving := none } := by
  refine ⟨fun hunloaded => ?_, (fun _ hsome => nomatch hsome), fun user hsome => ?_⟩
  · have hnone := (h.unloaded hunloaded).2.1
    rw [hsaving] at hnone
    cases hnone
  · have hclean : (user, false) ∉ saving.updates := by
      intro hmem
      have hnone := h.clean saving hsaving user hmem
      rw [hnone] at hsome
      cases hsome
    rw [lookup_saveUpdates hclean]
    by_cases hmem : (user, true) ∈ saving.updates
    · exact .inl (if_pos hmem)
    · rw [if_neg hmem]
      refine (h.stored user hsome).imp_right (Or.imp_right (Or.imp_right ?_))
      rintro ⟨saving', hsome', -, hmem'⟩
      rw [hsaving] at hsome'
      cases hsome'
      exact absurd hmem' hmem

theorem Stored.saveFails (h : Stored tracker)
    (hfails : tracker.saving.all Saving.ofResponse = true) :
    Stored { tracker with saving := none } := by
  refine ⟨fun hunloaded => ?_, (fun _ hsome => nomatch hsome), fun user hsome => ?_⟩
  · obtain ⟨hnone, -, hmarked, hunsaved⟩ := h.unloaded hunloaded
    exact ⟨hnone, rfl, hmarked, hunsaved⟩
  · refine (h.stored user hsome).imp_right (Or.imp_right (Or.imp_right ?_))
    rintro ⟨saving, hsaving, hsafe, -⟩
    rw [hsaving, all_some, hsafe] at hfails
    cases hfails

theorem Stored.upToDate (h : Stored tracker) (hready : tracker.isReady = true) (index : ℕ)
    (response : Processing) : Stored (tracker.upToDate index response) := by
  obtain ⟨hloaded, hsaving⟩ := Tracker.isReady_iff.mp hready
  have hframe := removeUsers_eq response.registration.sequenceNumber response.users tracker
  refine ⟨fun hunloaded => ?_, ?_, fun user hsome => ?_⟩
  · simp only [Tracker.upToDate, hframe, hloaded] at hunloaded
    cases hunloaded
  · rintro _ ⟨⟩ user hmem
    exact not_dirty_of_mem_updates hmem
  · have hbefore : (tracker.queries.userMap.lookup user).isSome = true := by
      simp only [Tracker.upToDate, hframe, lookup_foldl_maybeRemoveUser] at hsome
      split at hsome
      · cases hlookup : tracker.queries.userMap.lookup user with
        | none =>
          rw [hlookup] at hsome
          exact hsome
        | some number => rfl
      · exact hsome
    simp only [Tracker.upToDate, hframe]
    refine (h.stored user hbefore).imp_right (Or.imp_right (Or.imp_right ?_))
    rintro ⟨saving, hsome, -⟩
    rw [hsaving] at hsome
    cases hsome

end Stored

/-- All that holds of the tracked users, whatever happens. -/
structure Consistent (tracker : Tracker) : Prop where
  numbered : Numbered tracker
  apart : Apart tracker
  stored : Stored tracker

section Steps

variable {tracker : Tracker} (serverName : String → String) {other : Tracker}

theorem Apart.congr (h : Apart tracker) (hdetails : other.requestDetails = tracker.requestDetails)
    (hnext : other.nextRequestId = tracker.nextRequestId) : Apart other := by
  refine ⟨?_, ?_, ?_⟩
  · rw [hdetails, hnext]
    exact h.fresh
  · rw [hdetails]
    exact h.small
  · rw [hdetails]
    exact h.disjoint

theorem Apart.foldl_invalidate (h : Apart tracker) (users : List String) :
    Apart (users.foldl invalidate tracker) := by
  obtain ⟨queries, invalidations, lastInvalidation, heq⟩ := foldl_invalidate_eq users tracker
  rw [heq]
  exact ⟨h.fresh, h.small, h.disjoint⟩

theorem Apart.consume (h : Apart tracker) (requestId : ℕ) :
    Apart { tracker with requestDetails := tracker.requestDetails.erase requestId } where
  fresh other registration hlookup :=
    h.fresh other registration (lookup_of_erase hlookup).2
  small other registration hlookup :=
    h.small other registration (lookup_of_erase hlookup).2
  disjoint first second registration other hfirst hsecond :=
    h.disjoint first second registration other (lookup_of_erase hfirst).2
      (lookup_of_erase hsecond).2

theorem Numbered.collect (h : Numbered tracker) (backoff : List String) :
    Numbered (tracker.collect serverName backoff).2 := by
  rw [collect_eq]
  cases hmap : uncovered serverName backoff tracker with
  | nil => exact h
  | cons user users =>
    rw [← hmap]
    -- a user that is dirty has been invalidated since the manager was created
    have hmem : user ∈ uncovered serverName backoff tracker := by
      rw [hmap]
      exact mem_cons_self
    have hkey := AList.mem_keys.mp (mem_filter.mp (mem_filter.mp hmem).1).1
    obtain ⟨number, hlookup⟩ := isSome_iff_exists.mp (AList.lookup_isSome.mpr hkey)
    obtain ⟨index, -, hlt, hbase, -⟩ := h.last user number hlookup
    exact h.foldl_register (by omega) _

section

variable (h : Consistent tracker)
include h

theorem Consistent.load : Consistent tracker.load := by
  refine ⟨?_, ?_, h.stored.load⟩
  · unfold Tracker.load
    split
    · exact h.numbered
    · have hnumbered := h.numbered.foldl_invalidate
        ((tracker.store.entries.filter fun entry => entry.2).map Sigma.fst)
      exact ⟨hnumbered.next, hnumbered.last, hnumbered.details, hnumbered.processing,
        hnumbered.waiters⟩
  · unfold Tracker.load
    split
    · exact h.apart
    · have hapart := h.apart.foldl_invalidate
        ((tracker.store.entries.filter fun entry => entry.2).map Sigma.fst)
      exact ⟨hapart.fresh, hapart.small, hapart.disjoint⟩

section

variable (hready : tracker.isReady = true)
include hready

theorem Consistent.upToDate (index : ℕ) (response : Processing) :
    Consistent (tracker.upToDate index response) := by
  have hnumbered := h.numbered.removeUsers response.registration.sequenceNumber response.users
  refine ⟨⟨hnumbered.next, hnumbered.last, hnumbered.details, ?_, hnumbered.waiters⟩, ?_,
    h.stored.upToDate hready index response⟩
  · intro other hmem
    have hother := h.numbered.processing other (mem_of_mem_eraseIdx hmem)
    have hbase : (tracker.upToDate index response).base = tracker.base := by
      simp only [Tracker.upToDate, removeUsers_eq]
    have hcount : (tracker.upToDate index response).invalidations = tracker.invalidations := by
      simp [Tracker.upToDate, removeUsers_eq]
    unfold Registered Numbers at hother ⊢
    rw [hbase, hcount]
    exact hother
  · apply h.apart.congr
    · simp [Tracker.upToDate, removeUsers_eq]
    · simp [Tracker.upToDate, removeUsers_eq]

theorem Consistent.invalidate_all (users trackedUsers : List String) :
    Consistent { users.foldl invalidate tracker with
      trackedUsers := trackedUsers, saving := some ⟨users.map (·, true), false⟩ } := by
  have hnumbered := h.numbered.foldl_invalidate users
  have hapart := h.apart.foldl_invalidate users
  exact ⟨⟨hnumbered.next, hnumbered.last, hnumbered.details, hnumbered.processing,
    hnumbered.waiters⟩, ⟨hapart.fresh, hapart.small, hapart.disjoint⟩,
    h.stored.invalidate_all hready users trackedUsers⟩

theorem Consistent.mark (user : String) : Consistent (tracker.mark user) := by
  have hnumbered := h.numbered.invalidate user
  exact ⟨⟨hnumbered.next, hnumbered.last, hnumbered.details, hnumbered.processing,
    hnumbered.waiters⟩, h.apart.congr rfl rfl, h.stored.mark hready user⟩

end

end

theorem foldl_register_eq (created : List (List String)) (tracker : Tracker) :
    ∃ requestDetails nextRequestId, created.foldl register tracker =
      { tracker with requestDetails := requestDetails, nextRequestId := nextRequestId } := by
  induction created generalizing tracker with
  | nil => exact ⟨_, _, rfl⟩
  | cons users created ih => exact ih (tracker.register users)

theorem Consistent.collect (h : Consistent tracker) (backoff : List String) :
    Consistent (tracker.collect serverName backoff).2 := by
  refine ⟨h.numbered.collect serverName backoff, h.apart.collect serverName backoff, ?_⟩
  rw [collect_eq]
  obtain ⟨requestDetails, nextRequestId, heq⟩ := foldl_register_eq
    (chunks maxKeyQueryUsers (uncovered serverName backoff tracker)) tracker
  rw [heq]
  exact ⟨h.stored.unloaded, h.stored.clean, h.stored.stored⟩

theorem Consistent.wait (h : Consistent tracker) (user : String) :
    Consistent (tracker.wait user) := by
  refine ⟨h.numbered.wait user, ?_, ?_⟩
  · unfold Tracker.wait
    split
    · exact h.apart
    · exact h.apart.congr rfl rfl
  · unfold Tracker.wait
    split
    · exact h.stored
    · exact ⟨h.stored.unloaded, h.stored.clean, h.stored.stored⟩

theorem consistent_start (store : KeyedMap String Bool) (invalidations nextRequestId : ℕ)
    (lastInvalidation : String → Option ℕ) :
    Consistent (.start store invalidations nextRequestId lastInvalidation) := by
  refine ⟨⟨⟨le_rfl, by simp [Tracker.start]⟩, nofun, nofun, nofun, nofun⟩, ⟨?_, ?_, ?_⟩,
    ⟨fun _ => ⟨fun _ => rfl, rfl, rfl, rfl⟩,
    fun saving hsome => (by cases hsome), fun user hsome => (by cases hsome)⟩⟩
  · intro requestId registration hlookup
    cases hlookup
  · intro requestId registration hlookup
    cases hlookup
  · intro first second registration other hlookup
    cases hlookup

/-- What an action can do. -/
inductive Outcome (tracker : Tracker) : DeviceTracking.Action → Tracker → Prop
  | same (action : DeviceTracking.Action) : Outcome tracker action tracker
  | load : Outcome tracker .load tracker.load
  | invalidates (action : DeviceTracking.Action) (users trackedUsers : List String)
      (hready : tracker.isReady = true) :
      Outcome tracker action { users.foldl invalidate tracker with
        trackedUsers := trackedUsers, saving := some ⟨users.map (·, true), false⟩ }
  | mark (user : String) (hready : tracker.isReady = true) :
      Outcome tracker (.mark user) (tracker.mark user)
  | trackMarked (user : String) (hmem : user ∈ tracker.marked) :
      Outcome tracker (.trackMarked user) (tracker.trackMarked user)
  | saveMarked (user : String) (hmem : user ∈ tracker.unsaved) :
      Outcome tracker (.saveMarked user) (tracker.saveMarked user)
  | collect (backoff : List String) :
      Outcome tracker (.collect backoff) (tracker.collect serverName backoff).2
  | respond (requestId : ℕ) (users : List String) (registration : Registration)
      (hlookup : tracker.requestDetails.lookup requestId = some registration) :
      Outcome tracker (.respond requestId users)
        { tracker with processing := tracker.processing ++ [⟨users, registration⟩] }
  | upToDate (index : ℕ) (response : Processing) (hready : tracker.isReady = true)
      (hresponse : tracker.processing[index]? = some response) :
      Outcome tracker (.upToDate index) (tracker.upToDate index response)
  | failResponse (index : ℕ) :
      Outcome tracker (.failResponse index)
        { tracker with processing := tracker.processing.eraseIdx index }
  | saved (saving : Saving) (hsaving : tracker.saving = some saving) :
      Outcome tracker .saved { tracker with
        store := saveUpdates saving.updates tracker.store, saving := none }
  | saveFails (hfails : tracker.saving.all Saving.ofResponse = true) :
      Outcome tracker .saveFails { tracker with saving := none }
  | consume (requestId : ℕ) :
      Outcome tracker (.consume requestId)
        { tracker with requestDetails := tracker.requestDetails.erase requestId }
  | wait (user : String) : Outcome tracker (.wait user) (tracker.wait user)
  | restart (hsettled : tracker.isSettled = true) :
      Outcome tracker .restart (.start tracker.store tracker.invalidations tracker.nextRequestId
        tracker.lastInvalidation)

/-- An action that is not possible does nothing. -/
theorem Outcome.ite {action : DeviceTracking.Action} {c : Prop} [Decidable c]
    (h : c → Outcome serverName tracker action other) :
    Outcome serverName tracker action (if c then other else tracker) := by
  split
  · next hc => exact h hc
  · exact .same _

theorem outcome_act {action : DeviceTracking.Action}
    (hlossless : tracker.isLossless action = true) :
    Outcome serverName tracker action (tracker.act serverName action) := by
  cases action with
  | load => exact .load
  | updateTracked users => exact .ite _ (.invalidates _ _ _)
  | markTrackedChanged users =>
    refine .ite _ fun hready => ?_
    obtain ⟨queries, invalidations, lastInvalidation, heq⟩ :=
      foldl_invalidate_eq (users.filter (· ∈ tracker.trackedUsers)) tracker
    have houtcome : Outcome serverName tracker (.markTrackedChanged users) _ :=
      .invalidates _ (users.filter (· ∈ tracker.trackedUsers)) tracker.trackedUsers hready
    simp [markTrackedChanged, heq] at houtcome ⊢
    exact houtcome
  | mark user => exact .ite _ (.mark user)
  | trackMarked user => exact .ite _ (.trackMarked user)
  | saveMarked user => exact .ite _ (.saveMarked user)
  | failMarked user => cases hlossless
  | collect backoff => exact .ite _ fun _ => .collect backoff
  | respond requestId users =>
    simp only [Tracker.act]
    split
    case h_1 registration hlookup => exact .respond requestId users registration hlookup
    case h_2 => exact .same _
  | upToDate index =>
    refine .ite _ fun hready => ?_
    split
    case h_1 response hresponse => exact .upToDate index response hready hresponse
    case h_2 => exact .same _
  | failResponse index => exact .failResponse index
  | saved =>
    simp only [Tracker.act]
    split
    case h_1 saving hsaving => exact .saved saving hsaving
    case h_2 => exact .same _
  | saveFails => exact .saveFails hlossless
  | consume requestId => exact .consume requestId
  | wait user => exact .ite _ fun _ => .wait user
  | restart => exact .restart hlossless

theorem consistent_act (h : Consistent tracker) {action : DeviceTracking.Action}
    (hlossless : tracker.isLossless action = true) :
    Consistent (tracker.act serverName action) := by
  have ⟨hnumbered, hapart, hstored⟩ := h
  have hoften : ∀ {store saving trackedUsers marked unsaved},
      Numbered { tracker with
        store := store, saving := saving, trackedUsers := trackedUsers, marked := marked
        unsaved := unsaved } :=
    ⟨hnumbered.next, hnumbered.last, hnumbered.details, hnumbered.processing, hnumbered.waiters⟩
  generalize hnext : tracker.act serverName action = next
  have houtcome := hnext ▸ outcome_act serverName hlossless
  cases houtcome with
  | same => exact h
  | load => exact h.load
  | invalidates _ users trackedUsers hready => exact h.invalidate_all hready users trackedUsers
  | mark user hready => exact h.mark hready user
  | trackMarked user hmem => exact ⟨hoften, hapart.congr rfl rfl, hstored.trackMarked hmem⟩
  | saveMarked user hmem => exact ⟨hoften, hapart.congr rfl rfl, hstored.saveMarked hmem⟩
  | collect backoff => exact h.collect serverName backoff
  | respond requestId users registration hlookup =>
    refine ⟨⟨hnumbered.next, hnumbered.last, hnumbered.details, ?_, hnumbered.waiters⟩,
      hapart.congr rfl rfl, ⟨hstored.unloaded, hstored.clean, hstored.stored⟩⟩
    intro response hmem
    rcases mem_append.mp hmem with hmem | hmem
    · exact hnumbered.processing response hmem
    · obtain rfl := mem_singleton.mp hmem
      exact hnumbered.details requestId registration hlookup
  | upToDate index response hready _ => exact h.upToDate hready index response
  | failResponse index =>
    refine ⟨⟨hnumbered.next, hnumbered.last, hnumbered.details, ?_, hnumbered.waiters⟩,
      hapart.congr rfl rfl, ⟨hstored.unloaded, hstored.clean, hstored.stored⟩⟩
    exact fun response hmem => hnumbered.processing response (mem_of_mem_eraseIdx hmem)
  | saved saving hsaving => exact ⟨hoften, hapart.congr rfl rfl, hstored.saved hsaving⟩
  | saveFails hfails => exact ⟨hoften, hapart.congr rfl rfl, hstored.saveFails hfails⟩
  | consume requestId =>
    refine ⟨⟨hnumbered.next, hnumbered.last, ?_, hnumbered.processing, hnumbered.waiters⟩,
      hapart.consume requestId, ⟨hstored.unloaded, hstored.clean, hstored.stored⟩⟩
    exact fun other registration hlookup =>
      hnumbered.details other registration (lookup_of_erase hlookup).2
  | wait user => exact h.wait user
  | restart hsettled => exact consistent_start _ _ _ _

variable {user : String}

theorem isDirty_of_loaded (hloaded : tracker.loaded = true) :
    IsDirty tracker user ↔ (tracker.queries.userMap.lookup user).isSome = true := by
  unfold IsDirty
  rw [if_pos hloaded]

section

variable (h : IsDirty tracker user)
include h

/-- An action that leaves the dirty users and the store alone. -/
theorem IsDirty.congr (hloaded : other.loaded = tracker.loaded)
    (hqueries : other.queries = tracker.queries) (hstore : other.store = tracker.store) :
    IsDirty other user := by
  unfold IsDirty at h ⊢
  rw [hloaded, hqueries, hstore]
  exact h

/-- Once the users are loaded, only the dirty users in memory count. -/
theorem IsDirty.of_loaded (hloaded : tracker.loaded = true) (hloaded' : other.loaded = true)
    (hsome : (tracker.queries.userMap.lookup user).isSome = true →
      (other.queries.userMap.lookup user).isSome = true) : IsDirty other user :=
  (isDirty_of_loaded hloaded').mpr (hsome ((isDirty_of_loaded hloaded).mp h))

theorem IsDirty.load : IsDirty tracker.load user := by
  by_cases hloaded : tracker.loaded = true
  · unfold Tracker.load
    rw [if_pos hloaded]
    exact h
  · have hstore : tracker.store.lookup user = some true := by
      unfold IsDirty at h
      rwa [if_neg hloaded] at h
    unfold Tracker.load
    rw [if_neg hloaded]
    apply (isDirty_of_loaded rfl).mpr
    apply (lookup_foldl_invalidate_isSome tracker _ user).mpr
    left
    exact mem_map.mpr ⟨⟨user, true⟩, mem_filter.mpr ⟨mem_lookup_iff.mp hstore, rfl⟩, rfl⟩

end

/-- In a settled state what is dirty in memory is dirty in the store. -/
theorem Stored.of_isSettled (h : Stored tracker) (hsettled : tracker.isSettled = true)
    (hdirty : (tracker.queries.userMap.lookup user).isSome = true) :
    tracker.store.lookup user = some true := by
  simp [isSettled, Bool.and_eq_true] at hsettled
  obtain ⟨⟨hsaving, hmarked⟩, hunsaved⟩ := hsettled
  rcases h.stored user hdirty with hstore | hmem | hmem | ⟨saving, hsome, hsafe, -⟩
  · exact hstore
  · rw [hmarked] at hmem
    cases hmem
  · rw [hunsaved] at hmem
    cases hmem
  · rw [hsome, all_some, hsafe] at hsaving
    cases hsaving

variable {action : DeviceTracking.Action}

section

variable (h : Consistent tracker) (hcount : tracker.invalidations < 2 ^ 63)
include h hcount

theorem Consistent.leaves_upToDate {index : ℕ} {response : Processing}
    (hloaded : tracker.loaded = true) (hresponse : tracker.processing[index]? = some response)
    (hdirty : IsDirty tracker user) (hclean : ¬IsDirty (tracker.upToDate index response) user) :
    ∃ last, user ∈ response.users ∧ tracker.lastInvalidation user = some last ∧
      last < response.registration.registeredAt := by
  have hloaded' : (tracker.upToDate index response).loaded = true := by
    simp only [Tracker.upToDate, removeUsers_eq]
    exact hloaded
  obtain ⟨number, hlookup⟩ :=
    isSome_iff_exists.mp ((isDirty_of_loaded hloaded).mp hdirty)
  have hgone := mt (isDirty_of_loaded hloaded').mpr hclean
  change ¬((removeUsers _ _ tracker).2.queries.userMap.lookup user).isSome = true at hgone
  rw [removeUsers_eq, lookup_foldl_maybeRemoveUser] at hgone
  split at hgone
  case isFalse => simp [hlookup] at hgone
  case isTrue hmem =>
    obtain ⟨last, hlast, hlt, hnumber⟩ := h.numbered.last user number hlookup
    obtain ⟨hbase, hle, hrequest⟩ :=
      h.numbered.processing response (mem_of_getElem? hresponse)
    have hgt : number.gt response.registration.sequenceNumber = false := by
      simpa [hlookup, filter_some] using hgone
    rw [hnumber.gt_iff hrequest (by omega) (by omega), decide_eq_false_iff_not] at hgt
    refine ⟨last, (mem_filter.mp hmem).1, hlast, ?_⟩
    omega

variable (hlossless : tracker.isLossless action = true)
include hlossless

/-- A user is no longer dirty because of a response to a request that was registered after the
user's last invalidation, and for no other reason. -/
theorem Consistent.leaves (hdirty : IsDirty tracker user)
    (hclean : ¬IsDirty (tracker.act serverName action) user) :
    ∃ index response last, action = .upToDate index ∧
      tracker.processing[index]? = some response ∧ user ∈ response.users ∧
      tracker.lastInvalidation user = some last ∧ last < response.registration.registeredAt := by
  generalize hnext : tracker.act serverName action = next at hclean
  have houtcome := hnext ▸ outcome_act serverName hlossless
  by_contra hnone
  apply hclean
  cases houtcome with
  | same => exact hdirty
  | load => exact hdirty.load
  | invalidates _ users trackedUsers hready =>
    have hloaded := (Tracker.isReady_iff.mp hready).1
    have hloaded' : (users.foldl invalidate tracker).loaded = true := by
      obtain ⟨_, _, _, heq⟩ := foldl_invalidate_eq users tracker
      rw [heq]
      exact hloaded
    refine hdirty.of_loaded hloaded hloaded' fun hsome => ?_
    exact (lookup_foldl_invalidate_isSome tracker users user).mpr (.inr hsome)
  | mark other hready =>
    have hloaded := (Tracker.isReady_iff.mp hready).1
    have hloaded' : (tracker.mark other).loaded = true := hloaded
    refine hdirty.of_loaded hloaded hloaded' fun hsome => ?_
    exact (lookup_invalidate_isSome user).mpr (.inr hsome)
  | trackMarked | respond | failResponse | saveFails | consume =>
    exact hdirty.congr rfl rfl rfl
  | saveMarked other hmem =>
    cases hloaded : tracker.loaded with
    | true => exact hdirty.of_loaded hloaded hloaded id
    | false =>
      rw [(h.stored.unloaded hloaded).2.2.2] at hmem
      cases hmem
  | collect backoff =>
    rw [collect_eq]
    obtain ⟨_, _, heq⟩ := foldl_register_eq
      (chunks maxKeyQueryUsers (uncovered serverName backoff tracker)) tracker
    rw [heq]
    exact hdirty.congr rfl rfl rfl
  | saved saving hsaving =>
    by_cases hloaded : tracker.loaded = true
    · exact hdirty.of_loaded hloaded hloaded id
    · have hnone := (h.stored.unloaded (by simpa using hloaded)).2.1
      rw [hsaving] at hnone
      cases hnone
  | wait other =>
    unfold Tracker.wait
    split
    · exact hdirty
    · exact hdirty.congr rfl rfl rfl
  | restart hsettled =>
    cases hloaded : tracker.loaded with
    | true => exact h.stored.of_isSettled hsettled ((isDirty_of_loaded hloaded).mp hdirty)
    | false =>
      unfold IsDirty at hdirty
      rwa [if_neg (by simp [hloaded])] at hdirty
  | upToDate index response hready hresponse =>
    obtain ⟨last, huser, hlast, hlt⟩ :=
      h.leaves_upToDate hcount (Tracker.isReady_iff.mp hready).1 hresponse hdirty hclean
    exact absurd ⟨index, response, last, rfl, hresponse, huser, hlast, hlt⟩ hnone

/-- A waiter is completed by a response to a request that was registered after the invalidation
that the waiter knew of, and for no other reason. -/
theorem Consistent.completes {position : ℕ} {waiter completed : KeysQueryWaiter}
    (hwaiter : tracker.waiters[position]? = some waiter) (hwaits : waiter.completed = false)
    (hcompleted : (tracker.act serverName action).waiters[position]? = some completed)
    (hdone : completed.completed = true) :
    ∃ index response, action = .upToDate index ∧ tracker.processing[index]? = some response ∧
      waiter.user ∈ response.users ∧
      waiter.invalidation < response.registration.registeredAt := by
  have hunchanged : ∀ {next : Tracker}, next.waiters = tracker.waiters →
      next.waiters[position]? ≠ some completed := by
    intro next heq hsome
    rw [heq, hwaiter] at hsome
    cases hsome
    rw [hwaits] at hdone
    cases hdone
  generalize hnext : tracker.act serverName action = next at hcompleted
  have houtcome := hnext ▸ outcome_act serverName hlossless
  have hinvalidate : ∀ users : List String, (users.foldl invalidate tracker).waiters =
      tracker.waiters := by
    intro users
    obtain ⟨_, _, _, heq⟩ := foldl_invalidate_eq users tracker
    rw [heq]
  cases houtcome with
  | same | mark | trackMarked | saveMarked | respond | failResponse | saved | saveFails | consume =>
    exact absurd hcompleted (hunchanged rfl)
  | load =>
    refine absurd hcompleted (hunchanged ?_)
    unfold Tracker.load
    split
    · rfl
    · exact hinvalidate _
  | invalidates _ users trackedUsers hready =>
    exact absurd hcompleted (hunchanged (hinvalidate users))
  | collect backoff =>
    refine absurd hcompleted (hunchanged ?_)
    rw [collect_eq]
    obtain ⟨_, _, heq⟩ := foldl_register_eq
      (chunks maxKeyQueryUsers (uncovered serverName backoff tracker)) tracker
    rw [heq]
  | restart =>
    change ([] : List KeysQueryWaiter)[position]? = some completed at hcompleted
    simp at hcompleted
  | wait other =>
    unfold Tracker.wait at hcompleted
    split at hcompleted
    · exact absurd hcompleted (hunchanged rfl)
    · have hlt : position < tracker.waiters.length := by
        by_contra hge
        rw [getElem?_eq_none (by omega)] at hwaiter
        cases hwaiter
      simp [getElem?_append_left hlt] at hcompleted
      exact absurd hcompleted (hunchanged rfl)
  | upToDate index response hready hresponse =>
    have hwaiters : (tracker.upToDate index response).waiters = tracker.waiters.map
        (complete response.registration.sequenceNumber
          (response.users.filter (· ∈ tracker.trackedUsers))) := by
      simp [Tracker.upToDate, removeUsers_eq]
    rw [hwaiters, getElem?_map, hwaiter] at hcompleted
    cases hcompleted
    unfold complete at hdone
    split at hdone
    case isFalse =>
      rw [hwaits] at hdone
      cases hdone
    case isTrue hcomplete =>
      obtain ⟨hmem, hgt⟩ := hcomplete
      obtain ⟨hlt, hnumber⟩ := h.numbered.waiters waiter (mem_of_getElem? hwaiter)
      obtain ⟨hbase, hle, hrequest⟩ :=
        h.numbered.processing response (mem_of_getElem? hresponse)
      rw [hnumber.gt_iff hrequest (by omega) (by omega), decide_eq_false_iff_not] at hgt
      refine ⟨index, response, rfl, hresponse, (mem_filter.mp hmem).1, ?_⟩
      omega

end

theorem consistent_run {actions : List DeviceTracking.Action} (h : Consistent tracker)
    (hlossless : losslessFrom serverName tracker actions = true) :
    Consistent (actions.foldl (fun tracker action => tracker.act serverName action) tracker) := by
  induction actions generalizing tracker with
  | nil => exact h
  | cons action actions ih =>
    obtain ⟨hfirst, hrest⟩ := Bool.and_eq_true_iff.mp hlossless
    exact ih (consistent_act serverName h hfirst) hrest

end Steps

/-- However the invalidations, the collections, the responses and the reloads follow each other,
with fewer than 2^63 invalidations none of which is lost on its way to the store: a user leaves the
dirty users only through a response to a request that was registered after its last invalidation;
a collection covers every dirty user whose server is not in backoff; the registered requests cover
different users, at most 250 each; a waiter is completed only by a response to a request that was
registered after the invalidation that was the user's last one when the waiter began to wait; and
in a settled state a user that is dirty in memory is dirty in the store. -/
theorem no_invalidation_is_missed (serverName : String → String) (store : KeyedMap String Bool)
    (actions : List DeviceTracking.Action)
    (hlossless : isLosslessRun serverName store actions = true)
    (hcount : (run serverName store actions).invalidations < 2 ^ 63) :
    (∀ action user, (run serverName store actions).isLossless action = true →
      IsDirty (run serverName store actions) user →
      ¬IsDirty ((run serverName store actions).act serverName action) user →
      ∃ index response last, action = .upToDate index ∧
        (run serverName store actions).processing[index]? = some response ∧
        user ∈ response.users ∧
        (run serverName store actions).lastInvalidation user = some last ∧
        last < response.registration.registeredAt) ∧
    (∀ backoff user number,
      (run serverName store actions).queries.userMap.lookup user = some number →
      serverName user ∉ backoff →
      ∃ request ∈ ((run serverName store actions).collect serverName backoff).1,
        user ∈ request.2) ∧
    (∀ requestId registration,
      (run serverName store actions).requestDetails.lookup requestId = some registration →
      registration.users.length ≤ maxKeyQueryUsers ∧
      ∀ otherId other, (run serverName store actions).requestDetails.lookup otherId = some other →
        requestId ≠ otherId → ∀ user ∈ registration.users, user ∉ other.users) ∧
    (∀ action (position : ℕ) (waiter completed : KeysQueryWaiter),
      (run serverName store actions).isLossless action = true →
      (run serverName store actions).waiters[position]? = some waiter →
      waiter.completed = false →
      ((run serverName store actions).act serverName action).waiters[position]? =
        some completed →
      completed.completed = true →
      ∃ index response, action = .upToDate index ∧
        (run serverName store actions).processing[index]? = some response ∧
        waiter.user ∈ response.users ∧
        waiter.invalidation < response.registration.registeredAt) ∧
    ((run serverName store actions).isSettled = true → ∀ user number,
      (run serverName store actions).queries.userMap.lookup user = some number →
      (run serverName store actions).store.lookup user = some true) := by
  have h : Consistent (run serverName store actions) :=
    consistent_run serverName (consistent_start store 0 0 _) hlossless
  refine ⟨fun action user hnext hdirty hclean => h.leaves serverName hcount hnext hdirty hclean,
    fun backoff user number hdirty hserver => collect_covers serverName backoff hdirty hserver,
    fun requestId registration hlookup => ⟨(h.apart.small requestId registration hlookup).2, ?_⟩,
    fun action position waiter completed hnext hwaiter hwaits hcompleted hdone =>
      h.completes serverName hcount hnext hwaiter hwaits hcompleted hdone, ?_⟩
  · intro otherId other hother hne
    exact h.apart.disjoint requestId otherId registration other hlookup hother hne
  · intro hsettled user number hlookup
    exact h.stored.of_isSettled hsettled (by rw [hlookup]; rfl)

/-- Alice is tracked, somebody waits for her devices, and a request is registered. Then she is
invalidated once more, and the response to the request comes. -/
def lateInvalidation : List DeviceTracking.Action :=
  [.load, .updateTracked ["@alice:example.org"], .saved, .wait "@alice:example.org", .collect [],
    .respond 0 ["@alice:example.org"], .markTrackedChanged ["@alice:example.org"], .saved]

theorem waiter_knows_first_invalidation :
    ∃ index response, DeviceTracking.Action.upToDate 0 = .upToDate index ∧
      (run id ∅ lateInvalidation).processing[index]? = some response ∧
      "@alice:example.org" ∈ response.users ∧ 0 < response.registration.registeredAt :=
  (no_invalidation_is_missed id ∅ lateInvalidation (by decide) (by decide)).2.2.2.1 (.upToDate 0) 0
    ⟨"@alice:example.org", ⟨0⟩, false, 0⟩ ⟨"@alice:example.org", ⟨0⟩, true, 0⟩
    rfl (by decide) rfl (by decide) rfl

/-- The waiter is completed, though the request was registered before the last invalidation, and
the user is still dirty. And an invalidation is lost if its save fails, or if the users are loaded
again before it is saved. -/
theorem waiter_completed_before_last_invalidation :
    (run id ∅ (lateInvalidation ++ [.upToDate 0])).waiters =
      [⟨"@alice:example.org", ⟨0⟩, true, 0⟩] ∧
    (run id ∅ lateInvalidation).processing =
      [⟨["@alice:example.org"], ⟨⟨⟨0⟩, ["@alice:example.org"]⟩, 1⟩⟩] ∧
    (run id ∅ lateInvalidation).lastInvalidation "@alice:example.org" = some 1 ∧
    (run id ∅ (lateInvalidation ++ [.upToDate 0])).queries.isWaiting "@alice:example.org" = true ∧
    (∀ actions ∈ [[.load, .updateTracked ["@alice:example.org"], .saveFails],
        [.load, .mark "@alice:example.org", .trackMarked "@alice:example.org",
          .failMarked "@alice:example.org"]],
      (run id ∅ actions).isSettled = true ∧
        (run id ∅ actions).queries.isWaiting "@alice:example.org" = true ∧
        (run id ∅ actions).store.lookup "@alice:example.org" = none) ∧
    (run id ∅ [.load, .updateTracked ["@alice:example.org"], .restart, .load]).queries.isWaiting
      "@alice:example.org" = false := by
  decide

end MatrixSdk.InvalidatedUsers

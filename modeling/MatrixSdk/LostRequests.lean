import MatrixSdk.ParentLinks

/-!
What becomes of a stored id. It stays stored until it was sent or cancelled, until its media event
is aborted, or until nothing more is to be done for what a user wanted. A redaction only waits for
an event that was cancelled.
-/
namespace MatrixSdk.LostRequests

open KeyedRows SendQueue RoomSendQueues CanonicalRequests QueueInvariants QueueTurns
open RequestOrigins ParentLinks QueueStorage List

variable {s s' : RoomSendQueue} {media : Media} {used : List ℕ}
  {q q' : QueueStorage} {t a b id : ℕ} {op : Op} {answers : Answers} {d : DependentQueuedRequest}
  {h : MediaHandles} {request : QueuedRequest}

/-! ### What is not stored any more -/

section

variable (hids : (q.dependents.map (·.ownTransactionId)).Nodup)
include hids

theorem not_hasDependent_remove : (q.removeDependentQueuedRequest t).hasDependent t = false := by
  refine Bool.eq_false_iff.mpr fun hdep => ?_
  obtain ⟨d, hd, hown⟩ := hasDependent_iff.mp hdep
  exact ne_of_mem_remove hids hd hown

/-- Once an abort was tried, the media event does not wait any more. -/
theorem not_hasDependent_abortUpload : (q.abortUpload t h).2.hasDependent t = false := by
  have hfile : ∀ {q : QueueStorage} {removed : Bool},
      (q.dependents.map (·.ownTransactionId)).Nodup →
      (removed = true → q.hasDependent t = false) →
      (abortUpload.abortFileUpload q t h.uploadFileTxn removed).2.hasDependent t =
        false := by
    intro q removed hids hremoved
    unfold abortUpload.abortFileUpload
    split
    · exact not_hasDependent_remove (by rw [cancelUpload_dependents]; exact hids)
    · split
      · next hyes => exact hremoved hyes
      · exact not_hasDependent_remove hids
  unfold abortUpload
  split
  · next thumbnail hthumbnail =>
    have hids' : ((((q.removeSendQueueRequest thumbnail).cancelUpload
        thumbnail).removeDependentQueuedRequest h.uploadFileTxn).dependents.map
          (·.ownTransactionId)).Nodup := by
      simp only [removeDependentQueuedRequest, cancelUpload_dependents]
      exact hids.sublist (remove_sublist.map _)
    dsimp only
    split
    · exact not_hasDependent_remove hids'
    · exact hfile (hids'.sublist (remove_sublist.map _)) fun _ => not_hasDependent_remove hids'
  · exact hfile hids fun hno => by cases hno

end

/-- An abort that finds the media event waiting says so. -/
theorem abortUpload_of_waiting (hne : t ≠ h.uploadFileTxn) (hdep : q.hasDependent t = true) :
    (q.abortUpload t h).1 = true := by
  unfold abortUpload
  split
  · next thumbnail hthumbnail =>
    have hstill : (((q.removeSendQueueRequest thumbnail).cancelUpload
        thumbnail).removeDependentQueuedRequest h.uploadFileTxn).hasDependent t = true := by
      obtain ⟨d, hd, hown⟩ := hasDependent_iff.mp hdep
      refine hasDependent_iff.mpr ⟨d, mem_remove_of_ne ?_ (hown ▸ hne), hown⟩
      rw [cancelUpload_dependents]
      exact hd
    dsimp only
    split
    · rfl
    · unfold abortUpload.abortFileUpload
      simp only [hstill]
      split <;> rfl
  · unfold abortUpload.abortFileUpload
    split
    · rfl
    · exact hdep

variable {x : ℕ} {uploads parents : List ℕ} {first : QueuedRequest}
  {ds : List DependentQueuedRequest} {finish : DependentQueuedRequest} {reason : Option String}

theorem ids_subset_of_queued (hqueued : Queued q q' x uploads first ds finish) :
    ids q ⊆ ids q' := by
  intro id hid
  rw [hqueued.eq]
  rcases mem_ids.mp hid with ⟨r, hr, rfl⟩ | ⟨d, hd, rfl⟩
  · exact mem_ids.mpr (.inl ⟨r, mem_append_left _ hr, rfl⟩)
  · exact mem_ids.mpr (.inr ⟨d, mem_append_left _ hd, rfl⟩)

/-- Why an id is not stored any more. -/
inductive Lost (s : RoomSendQueue) (op : Op) (s' : RoomSendQueue) (id : ℕ) : Prop
  | sent (request : QueuedRequest) (answer : String) (hop : op = .sent answer)
      (htask : s.task = .sending request) (hid : request.transactionId = id)
  | cancelled (hevent : ¬ IsUpload s.media id) (hlog : .cancelled id ∈ s'.log)
  | aborted (t : ℕ) (all : List MediaHandles) (hmem : (t, all) ∈ s.media)
      (hid : id ∈ uploadsOf all) (hdep : s'.queue.hasDependent t = false)
  | intent (d : DependentQueuedRequest) (hd : d ∈ s.queue.dependents) (hintent : Intent d)
      (hid : d.ownTransactionId = id)

variable {child : ℕ}

theorem cancelEvent_keeps (hid : id ∈ ids q) :
    id ∈ ids (q.cancelEvent t reason child).2 ∨
      id = t ∧ (q.cancelEvent t reason child).1 = true := by
  unfold cancelEvent
  split
  · rw [ids_saveDependent]
    exact .inl (mem_append_left _ hid)
  · rcases mem_ids.mp hid with ⟨request, hr, rfl⟩ | ⟨d, hd, rfl⟩
    · by_cases heq : request.transactionId = t
      · exact .inr ⟨heq, hasRequest_iff.mpr ⟨request, hr, heq⟩⟩
      · exact .inl (mem_ids.mpr (.inl ⟨request, mem_remove_of_ne hr heq, rfl⟩))
    · exact .inl (mem_ids.mpr (.inr ⟨d, hd, rfl⟩))

theorem applySingle_keeps (hd : d ∈ q.dependents) (hid : id ∈ ids q) :
    id ∈ ids (q.applySingle answers d) ∨ (Intent d ∧ d.ownTransactionId = id) ∨
      (d.kind.isRedact = true ∧ d.parentTransactionId = id) := by
  have hremove : Intent d → id ∈ ids (q.removeDependentQueuedRequest d.ownTransactionId) ∨
      (Intent d ∧ d.ownTransactionId = id) := by
    intro hintent
    by_cases heq : id = d.ownTransactionId
    · exact .inr ⟨hintent, heq.symm⟩
    · exact .inl (mem_ids_removeDependent hid heq)
  cases happ : applicationOf answers d with
  | queue kind => exact .inl ((mem_ids_applySingle_of_queue hd happ).mpr hid)
  | edit content =>
    rw [applySingle_eq, happ]
    rw [ids_updateRequest]
    rcases hremove (intent_of_application happ (by simp) (by simp)) with hkept | hown
    · exact .inl hkept
    · exact .inr (.inl hown)
  | drop =>
    rw [applySingle_eq, happ]
    have hredact := (kind_of_drop happ).1
    rcases hremove (.inr (.inl hredact)) with hkept | hown
    · by_cases heq : id = d.parentTransactionId
      · exact .inr (.inr ⟨hredact, heq.symm⟩)
      · exact .inl (mem_ids_removeRequest hkept heq)
    · exact .inr (.inl hown)
  | redact _ | done =>
    rw [applySingle_eq, happ]
    rcases hremove (intent_of_application happ (by simp) (by simp)) with hkept | hown
    · exact .inl hkept
    · exact .inr (.inl hown)
  | retry =>
    rw [applySingle_eq, happ]
    exact .inl hid

theorem removeNonCanonical_keeps (hq : QueueOk media used q)
    (hparents : ∀ d ∈ q.dependents, d.parentTransactionId ∈ parents) (hid : id ∈ ids q) :
    id ∈ ids (q.canonicalized parents) ∨
      ∃ d ∈ q.dependents, Intent d ∧ d.ownTransactionId = id := by
  rcases mem_ids.mp hid with hreq | ⟨d, hd, hown⟩
  · exact .inl (mem_ids.mpr (.inl hreq))
  · by_cases hintent : Intent d
    · exact .inr ⟨d, hd, hintent, hown⟩
    · exact .inl (mem_ids.mpr (.inr
        ⟨d, mem_removeNonCanonical_of_not_intent hq hparents hd hintent, hown⟩))

/-- Every redaction that waits comes from a cancellation. -/
def RedactsCancelled (s : RoomSendQueue) : Prop :=
  ∀ d ∈ s.queue.dependents, d.kind.isRedact = true → .cancelled d.parentTransactionId ∈ s.log

theorem applyDependentRequests_keeps (hs : WellFormed s) (hredacts : RedactsCancelled s)
    (hstep : Step s (.applyDependentRequests parents answers) s') (hid : id ∈ ids s.queue) :
    id ∈ ids s'.queue ∨ Lost s (.applyDependentRequests parents answers) s' id := by
  have hparents := (of_applyDependentRequests hstep).2
  obtain ⟨entries, hlog⟩ := step_log hstep
  obtain ⟨s₁, ⟨-, hkept⟩, heq⟩ := applyDependentRequests_induct
    (P := fun s₁ => s₁.queue.dependents ⊆ s.queue.dependents ∧ (id ∈ ids s₁.queue ∨
      ∃ d ∈ s.queue.dependents, (Intent d ∧ d.ownTransactionId = id) ∨
        (d.kind.isRedact = true ∧ d.parentTransactionId = id)))
    hs.queue.dependentIds hstep
    ⟨fun _ hd => mem_of_mem_filter hd, by
      rcases removeNonCanonical_keeps hs.queue hparents hid with hkept | ⟨d, hd, hown⟩
      · exact .inl hkept
      · exact .inr ⟨d, hd, .inl hown⟩⟩
    fun s₁ d hd hs₁ => ⟨fun _ hd' => hs₁.1 (applySingle_dependents_subset hd'), by
      rcases hs₁.2 with hkept | hlost
      · have hone : id ∈ ids (s₁.queue.applySingle answers d) ∨ _ := applySingle_keeps hd hkept
        rcases hone with hkept | hlost
        · exact .inl hkept
        · exact .inr ⟨d, hs₁.1 hd, hlost⟩
      · exact .inr hlost⟩
  rcases hkept with hkept | ⟨d, hd, ⟨hintent, hown⟩ | ⟨hredact, hparent⟩⟩
  · rw [heq]
    exact .inl hkept
  · exact .inr (.intent d hd hintent hown)
  · refine .inr (.cancelled ?_ ?_)
    · rw [← hparent]
      rcases intent_or_follows (hs.queue.dependent d hd) with ⟨-, -, hevent⟩ | ⟨hnot, -⟩
      · exact hevent
      · exact absurd (.inr (.inl hredact)) hnot
    · rw [hlog, ← hparent]
      exact mem_append_left _ (hredacts d hd hredact)

/-- What is stored stays stored until it is sent, cancelled or aborted, or was only wanted. -/
theorem step_keeps (hs : WellFormed s) (hredacts : RedactsCancelled s) (hstep : Step s op s')
    (hid : id ∈ ids s.queue) : id ∈ ids s'.queue ∨ Lost s op s' id := by
  have hcancel : ∀ {t reason child}, ¬ IsUpload s.media t →
      (.cancelled t ∈ s'.log ∨ (s.queue.cancelEvent t reason child).1 = false) →
      s'.queue = (s.queue.cancelEvent t reason child).2 →
      id ∈ ids s'.queue ∨ Lost s op s' id := by
    intro t reason child hevent hlog hqueue
    rw [hqueue]
    rcases cancelEvent_keeps (t := t) hid with hkept | ⟨rfl, htrue⟩
    · exact .inl hkept
    · refine .inr (.cancelled hevent (hlog.resolve_right ?_))
      rw [htrue]
      simp
  have hlogged : ∀ {b : Bool} {t : ℕ} {log : List Entry},
      .cancelled t ∈ log ++ (if b then [Entry.cancelled t] else []) ∨ b = false := by
    intro b t log
    cases b <;> simp
  cases hstep with
  | push =>
    rcases mem_ids.mp hid with ⟨r, hr, rfl⟩ | hdep
    · exact .inl (mem_ids.mpr (.inl ⟨r, mem_append_left _ hr, rfl⟩))
    · exact .inl (mem_ids.mpr (.inr hdep))
  | pushMedia =>
    obtain ⟨first, ds, finish, hqueued⟩ := pushMedia_queued s.queue _ _ _
    exact .inl (ids_subset_of_queued hqueued hid)
  | pushGallery hitems =>
    obtain ⟨first, ds, finish, hqueued⟩ := pushGallery_queued s.queue _ _ hitems
    exact .inl (ids_subset_of_queued hqueued hid)
  | replaceEvent => exact .inl (ids_subset_replaceEvent _ _ hid)
  | editMediaCaption => exact .inl (ids_subset_editMediaCaption _ _ hid)
  | react => exact .inl (ids_subset_react _ _ hid)
  | cancelEvent hfresh hevent => exact hcancel hevent hlogged rfl
  | @removeDependent t hreact =>
    by_cases heq : id = t
    · subst heq
      rcases mem_ids.mp hid with hreq | ⟨d, hd, hown⟩
      · exact .inl (mem_ids.mpr (.inl hreq))
      · exact .inr (.intent d hd (.inr (.inr (hreact d hd hown))) hown)
    · exact .inl (mem_ids_removeDependent hid heq)
  | @abortUpload t h all hmem hh =>
    have hsub : ∀ u ∈ uploadsOf [h], u ∈ uploadsOf all := by
      intro u hu
      refine mem_flatMap.mpr ⟨h, hh, ?_⟩
      simpa [uploadsOf] using hu
    have hfile : h.uploadFileTxn ∈ uploadsOf all := hsub _ (by simp [uploadsOf])
    have hevent := hs.media.not_isUpload hmem
    have hremoves : Removes (uploadsOf [h]) [h.uploadFileTxn, t] s.queue
        (s.queue.abortUpload t h).2 := abortUpload_removes
    by_cases hup : id ∈ uploadsOf all
    · exact .inr (.aborted t all hmem hup (not_hasDependent_abortUpload hs.queue.dependentIds))
    · rcases mem_ids.mp hid with ⟨r, hr, rfl⟩ | ⟨d, hd, rfl⟩
      · exact .inl (mem_ids.mpr (.inl
          ⟨r, hremoves.keepsRequest r hr fun hin => hup (hsub _ hin), rfl⟩))
      · by_cases heq : d.ownTransactionId = t
        · have hne : t ≠ h.uploadFileTxn := fun hsame => hevent ⟨_, hmem, hsame ▸ hfile⟩
          have htrue := abortUpload_of_waiting hne (hasDependent_iff.mpr ⟨d, hd, heq⟩)
          refine .inr (.cancelled (heq ▸ hevent) ?_)
          simp [RoomSendQueue.withCancelled, RoomSendQueue.note, htrue, heq]
        · refine .inl (mem_ids.mpr (.inr ⟨d, hremoves.keepsDependent d hd fun hin => ?_, rfl⟩))
          rcases mem_cons.mp hin with hin | hin
          · exact hup (hin ▸ hfile)
          · exact heq (mem_singleton.mp hin)
  | markAsUnwedged =>
    refine .inl ?_
    change id ∈ ids (s.queue.updateSendQueueRequestStatus _ _)
    rw [ids_updateStatus]
    exact hid
  | applyDependentRequests htask hnodup hparents =>
    exact applyDependentRequests_keeps hs hredacts
      (.applyDependentRequests htask hnodup hparents) hid
  | peek htask hpeek =>
    obtain ⟨-, rfl⟩ := peekNextToSend_eq hpeek
    exact .inl hid
  | @sent request answer htask =>
    by_cases heq : request.transactionId = id
    · exact .inr (.sent request answer rfl htask heq)
    · rcases mem_ids.mp hid with ⟨r, hr, rfl⟩ | ⟨d, hd, rfl⟩
      · exact .inl (mem_ids.mpr (.inl ⟨r, mem_remove_of_ne hr (Ne.symm heq), rfl⟩))
      · refine .inl (mem_ids.mpr (.inr ⟨_, mem_map.mpr ⟨d, hd, rfl⟩, ?_⟩))
        split <;> rfl
  | @wedged request reason =>
    refine .inl ?_
    change id ∈ ids (s.queue.markAsNotBeingSent.updateSendQueueRequestStatus _ _)
    rw [ids_updateStatus]
    exact hid
  | dropDuplicate htask hfresh =>
    have hold := hs.task
    simp only [TaskOk, htask] at hold
    exact hcancel hold.2.2 hlogged rfl
  | wait | aborted | notSent | duplicate => exact .inl hid

/-! ### Redactions -/

section

variable (hredact : d.kind.isRedact = true)
include hredact

theorem mem_of_save {parent : ℕ} {kind : DependentQueuedRequestKind} (hkind : kind.isRedact = false)
    (hd : d ∈ (q.saveDependentQueuedRequest parent child kind).dependents) : d ∈ q.dependents := by
  rcases mem_append.mp hd with hd | hd
  · exact hd
  · rw [mem_singleton.mp hd] at hredact
    simp [hkind] at hredact

theorem redact_of_editMediaCaption {caption : String} (hq : QueueOk media used q)
    (hd : d ∈ (q.editMediaCaption t caption child).2.dependents) : d ∈ q.dependents := by
  unfold editMediaCaption at hd
  split at hd
  · split at hd
    · split at hd
      · simp only [updateDependentQueuedRequest] at hd
        rw [update_eq_map hq.dependentIds] at hd
        obtain ⟨e, he, rfl⟩ := mem_map.mp hd
        split at hredact
        · cases hredact
        · next hne =>
          rw [if_neg hne]
          exact he
      · exact hd
    · exact hd
  · split at hd
    · exact hd
    · split at hd
      · exact hd
      · split at hd
        · exact mem_of_save hredact rfl hd
        · exact hd

theorem redact_of_queued (hqueued : Queued q q' x uploads first ds finish)
    (hd : d ∈ q'.dependents) : d ∈ q.dependents := by
  rw [hqueued.eq] at hd
  rcases mem_append.mp hd with hd | hd
  · exact hd
  · exact absurd (.inr (.inl hredact)) (not_intent_of_queued hqueued hd)

end

theorem RedactsCancelled.step (h : RedactsCancelled s) (hs : WellFormed s)
    (hstep : Step s op s') : RedactsCancelled s' := by
  obtain ⟨entries, hlog⟩ := step_log hstep
  have hold : ∀ d ∈ s.queue.dependents, d.kind.isRedact = true →
      .cancelled d.parentTransactionId ∈ s'.log := by
    intro d hd hredact
    rw [hlog]
    exact mem_append_left _ (h d hd hredact)
  have hcancel : ∀ {t reason child} {log : List Entry}, ∀ d ∈
      (s.queue.cancelEvent t reason child).2.dependents, d ∈ s.queue.dependents ∨
      .cancelled d.parentTransactionId ∈
        log ++ (if (s.queue.cancelEvent t reason child).1 then [Entry.cancelled t] else []) := by
    intro t reason child log d hd
    unfold cancelEvent at hd ⊢
    split at hd
    · next hsent =>
      rcases mem_append.mp hd with hd | hd
      · exact .inl hd
      · exact .inr (by simp [mem_singleton.mp hd, hsent])
    · exact .inl hd
  intro d hd hredact
  cases hstep with
  | pushMedia =>
    obtain ⟨first, ds, finish, hqueued⟩ := pushMedia_queued s.queue _ _ _
    exact hold d (redact_of_queued hredact hqueued hd) hredact
  | pushGallery hitems =>
    obtain ⟨first, ds, finish, hqueued⟩ := pushGallery_queued s.queue _ _ hitems
    exact hold d (redact_of_queued hredact hqueued hd) hredact
  | replaceEvent =>
    refine hold d ?_ hredact
    change d ∈ (s.queue.replaceEvent _ _ _).2.dependents at hd
    unfold replaceEvent at hd
    split at hd
    · exact hd
    · split at hd
      · exact mem_of_save hredact rfl hd
      · exact hd
  | editMediaCaption => exact hold d (redact_of_editMediaCaption hredact hs.queue hd) hredact
  | react =>
    refine hold d ?_ hredact
    change d ∈ (s.queue.react _ _ _).2.dependents at hd
    unfold QueueStorage.react at hd
    split at hd
    · exact hd
    · exact mem_of_save hredact rfl hd
  | cancelEvent | dropDuplicate =>
    rcases hcancel d hd with hd | hnew
    · exact hold d hd hredact
    · exact hnew
  | removeDependent => exact hold d (mem_of_mem_remove hd) hredact
  | abortUpload => exact hold d (abortUpload_removes.dependents.subset hd) hredact
  | applyDependentRequests htask hnodup hparents =>
    exact hold d (applyDependentRequests_dependents_subset hs
      (.applyDependentRequests htask hnodup hparents) hd) hredact
  | peek htask hpeek =>
    obtain ⟨-, rfl⟩ := peekNextToSend_eq hpeek
    exact hold d hd hredact
  | sent =>
    obtain ⟨e, he, rfl⟩ := mem_map.mp hd
    have hkind : e.kind.isRedact = true := by split at hredact <;> exact hredact
    have hparent := hold e he hkind
    split <;> exact hparent
  | push | markAsUnwedged | wait | aborted | notSent | wedged | duplicate =>
    exact hold d hd hredact

end MatrixSdk.LostRequests

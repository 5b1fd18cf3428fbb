import MatrixSdk.Cancellations

/-!
Where the dependent requests come from. A new one waits for something that is stored, and nothing
ever waits for an edit, a redaction or a reaction. The id of a request that was sent is never
stored again, be it an event or an upload.
-/
namespace MatrixSdk.RequestOrigins

open KeyedRows SendQueue RoomSendQueues QueueInvariants QueueTurns
open DependentQueuedRequestKind List

variable {s s' : RoomSendQueue} {media : Media} {used : List ℕ}
  {q q' : QueueStorage} {t : ℕ} {op : Op} {d : DependentQueuedRequest}

theorem not_intent_of_isOwnEvent (h : d.kind.isOwnEvent = true) : ¬ Intent d := by
  unfold Intent
  cases hkind : d.kind <;> simp_all [isOwnEvent, isEdit, isRedact, isReact]

/-- A stored dependent request was stored before, for the same parent, or it is new. Then its
parent is new as well, or it is stored. -/
def DependentsFrom (used : List ℕ) (q q' : QueueStorage) : Prop :=
  ∀ d' ∈ q'.dependents,
    (∃ d ∈ q.dependents, d.ownTransactionId = d'.ownTransactionId ∧
      d.parentTransactionId = d'.parentTransactionId ∧ (Intent d' → Intent d) ∧
      (d'.parentKey = none → d.parentKey = none)) ∨
    (d'.ownTransactionId ∉ used ∧
      (¬ Intent d' ∧ d'.parentTransactionId ∉ used ∨ q.hasRequest d'.parentTransactionId = true ∨
        ∃ d ∈ q.dependents, d.kind.isOwnEvent = true ∧
          d.ownTransactionId = d'.parentTransactionId))

theorem dependentsFrom_of_subset (h : q'.dependents ⊆ q.dependents) :
    DependentsFrom used q q' :=
  fun d hd => .inl ⟨d, h hd, rfl, rfl, fun hintent => hintent, fun hkey => hkey⟩

theorem dependentsFrom_of_append {dependents : List DependentQueuedRequest}
    (heq : q'.dependents = q.dependents ++ dependents)
    (hnew : ∀ d ∈ dependents, d.ownTransactionId ∉ used ∧
      (¬ Intent d ∧ d.parentTransactionId ∉ used ∨ q.hasRequest d.parentTransactionId = true ∨
        ∃ e ∈ q.dependents, e.kind.isOwnEvent = true ∧
          e.ownTransactionId = d.parentTransactionId)) :
    DependentsFrom used q q' := by
  unfold DependentsFrom
  rw [heq]
  exact forall_mem_append.mpr
    ⟨dependentsFrom_of_subset (List.Subset.refl _), fun d hd => .inr (hnew d hd)⟩

theorem dependentsFrom_of_turn {new : List ℕ} (hq : QueueOk media used q)
    (hsent : ∀ id, q.beingSent = some id → q.hasRequest id = true)
    (h : Turn media q t new q') (hnew : ∀ id ∈ new, id ∉ used) : DependentsFrom used q q' := by
  cases h with
  | same | write | drop | unwedge => exact dependentsFrom_of_subset (List.Subset.refl _)
  | parkEdit hbeing | parkRedact hbeing =>
    refine dependentsFrom_of_append rfl (forall_mem_singleton.mpr ?_)
    exact ⟨hnew _ (by simp), .inr (.inl (hsent t hbeing))⟩
  | parkReact ht =>
    exact dependentsFrom_of_append rfl (forall_mem_singleton.mpr ⟨hnew _ (by simp), .inr ht⟩)
  | @recaption _ e localEcho content he hown hkind =>
    intro d' hd'
    simp [QueueStorage.updateDependentQueuedRequest] at hd'
    rw [update_eq_map hq.dependentIds] at hd'
    obtain ⟨d, hd, rfl⟩ := mem_map.mp hd'
    refine .inl ⟨d, hd, ?_⟩
    split
    · refine ⟨rfl, rfl, fun hintent => ?_, fun hkey => hkey⟩
      exact absurd hintent (not_intent_of_isOwnEvent rfl)
    · exact ⟨rfl, rfl, fun hintent => hintent, fun hkey => hkey⟩
  | dropReaction => exact dependentsFrom_of_subset fun _ hd => mem_of_mem_remove hd

variable {x : ℕ} {uploads : List ℕ} {first : QueuedRequest} {ds : List DependentQueuedRequest}
  {finish : DependentQueuedRequest}

theorem not_intent_of_queued (h : Queued q q' x uploads first ds finish) (hd : d ∈ ds ++ [finish]) :
    ¬ Intent d := by
  rcases mem_append.mp hd with hd | hd
  · obtain ⟨-, contentType, cacheKey, isThumbnail, hkind⟩ := h.chain.kind hd
    simp [Intent, hkind, isEdit, isRedact, isReact]
  · rw [mem_singleton.mp hd]
    exact not_intent_of_isOwnEvent h.finishKind

theorem dependentsFrom_of_queued (h : Queued q q' x uploads first ds finish)
    (hfresh : ∀ id ∈ uploads ++ [x], id ∉ used) : DependentsFrom used q q' := by
  refine dependentsFrom_of_append (by rw [h.eq]) ?_
  intro d hd
  refine ⟨hfresh _ ?_, .inl ⟨not_intent_of_queued h hd,
    hfresh _ (mem_append_left _ (h.parent_mem hd))⟩⟩
  rw [h.ids_eq]
  exact mem_cons_of_mem _ (mem_map_of_mem hd)

theorem step_dependentsFrom (hs : WellFormed s) (hstep : Step s op s') :
    DependentsFrom s.used s.queue s'.queue := by
  have hturn : ∀ {t new q'}, Turn s.media s.queue t new q' → (∀ id ∈ new, id ∉ s.used) →
      DependentsFrom s.used s.queue q' := fun h hnew =>
    dependentsFrom_of_turn hs.queue hs.beingSent h hnew
  cases hstep with
  | pushMedia hfresh =>
    obtain ⟨first, ds, finish, hqueued⟩ := pushMedia_queued s.queue _ _ _
    exact dependentsFrom_of_queued hqueued hfresh.2
  | pushGallery hitems hfresh =>
    obtain ⟨first, ds, finish, hqueued⟩ := pushGallery_queued s.queue _ _ hitems
    exact dependentsFrom_of_queued hqueued hfresh.2
  | replaceEvent hfresh => exact hturn (replaceEvent_turn _) hfresh.2
  | editMediaCaption hfresh => exact hturn (editMediaCaption_turn _) hfresh.2
  | react hfresh => exact hturn (react_turn hs.media hs.queue _) hfresh.2
  | cancelEvent hfresh hevent => exact hturn (cancelEvent_turn _ hevent) hfresh.2
  | removeDependent => exact dependentsFrom_of_subset fun _ hd => mem_of_mem_remove hd
  | abortUpload => exact dependentsFrom_of_subset abortUpload_removes.dependents.subset
  | applyDependentRequests htask hnodup hparents =>
    exact dependentsFrom_of_subset (applyDependentRequests_dependents_subset hs
      (.applyDependentRequests htask hnodup hparents))
  | peek htask hpeek =>
    obtain ⟨-, rfl⟩ := peekNextToSend_eq hpeek
    exact dependentsFrom_of_subset (List.Subset.refl _)
  | sent =>
    intro d' hd'
    obtain ⟨d, hd, rfl⟩ := mem_map.mp hd'
    refine .inl ⟨d, hd, ?_⟩
    split
    · exact ⟨rfl, rfl, fun hintent => hintent, fun hkey => by cases hkey⟩
    · exact ⟨rfl, rfl, fun hintent => hintent, fun hkey => hkey⟩
  | dropDuplicate htask hfresh =>
    have hold := hs.task
    simp [TaskOk, htask] at hold
    exact hturn (cancelEvent_turn none hold.2.2) hfresh.2
  | push | markAsUnwedged | wait | aborted | notSent | wedged | duplicate =>
    exact dependentsFrom_of_subset (List.Subset.refl _)

/-! ### Ids that are done with -/

structure Settled (s : RoomSendQueue) : Prop where
  sending : ∀ request, s.task = .sending request →
    ∀ d ∈ s.queue.dependents, d.ownTransactionId ≠ request.transactionId
  sent : ∀ request key, .sent request key ∈ s.log →
    request.transactionId ∈ s.used ∧ request.transactionId ∉ ids s.queue
  childless : ∀ d ∈ s.queue.dependents, Intent d → ∀ d' ∈ s.queue.dependents,
    d'.parentTransactionId ≠ d.ownTransactionId

theorem settled_new : Settled RoomSendQueue.new where
  sending := by simp [RoomSendQueue.new]
  sent := by simp [RoomSendQueue.new]
  childless := by simp [RoomSendQueue.new]

namespace Settled

variable {request : QueuedRequest}

section

variable (h : Settled s) (hs : WellFormed s) (hstep : Step s op s')
include h hs hstep

theorem step_sending (htask : s'.task = .sending request) (hd : d ∈ s'.queue.dependents) :
    d.ownTransactionId ≠ request.transactionId := by
  have hfrom := (step_idsFrom hs hstep).dependent d hd
  rcases sending_of_step hstep htask with hold | hr
  · have hused : request.transactionId ∈ s.used := by
      have htaskOk := hs.task
      simp [TaskOk, hold] at htaskOk
      exact htaskOk.2.1
    rcases hfrom with ⟨e, he, hown⟩ | hnew
    · rw [← hown]
      exact h.sending request hold e he
    · exact fun heq => hnew (heq ▸ hused)
  · rcases hfrom with ⟨e, he, hown⟩ | hnew
    · rw [← hown]
      exact (hs.queue.disjoint request hr e he).symm
    · exact fun heq => hnew (heq ▸ hs.queue.requestsUsed request hr)

theorem step_sent {key : SentRequestKey} (hsent : .sent request key ∈ s'.log) :
    request.transactionId ∈ s'.used ∧ request.transactionId ∉ ids s'.queue := by
  rcases sent_of_step hstep hsent with hold | ⟨htask, answer, rfl⟩
  · obtain ⟨hused, hgone⟩ := h.sent request key hold
    refine ⟨step_used hstep hused, fun hid => ?_⟩
    rcases (step_idsFrom hs hstep).mem_ids hid with hstored | hnew
    · exact hgone hstored
    · exact hnew hused
  · have hused : request.transactionId ∈ s.used := by
      have htaskOk := hs.task
      simp [TaskOk, htask] at htaskOk
      exact htaskOk.2.1
    refine ⟨step_used hstep hused, fun hid => ?_⟩
    cases hstep with
    | sent htask' =>
      obtain rfl := Task.sending.inj (htask'.symm.trans htask)
      rcases mem_ids.mp hid with ⟨other, hother, heq⟩ | ⟨d', hd', heq⟩
      · exact ne_of_mem_remove hs.queue.requestIds hother heq
      · obtain ⟨d, hd, rfl⟩ := mem_map.mp hd'
        apply h.sending _ htask d hd
        rw [← heq]
        split <;> rfl

/-- What waits for an upload is a part of a media event, and what a user wants done is done to
something that is not an intent itself. -/
theorem step_childless {d d' : DependentQueuedRequest} (hd : d ∈ s'.queue.dependents)
    (hintent : Intent d) (hd' : d' ∈ s'.queue.dependents) :
    d'.parentTransactionId ≠ d.ownTransactionId := by
  have hfrom := step_dependentsFrom hs hstep
  intro heq
  by_cases hother : Intent d'
  · rcases hfrom d hd with ⟨e, he, hown, -, hint, -⟩ | ⟨hnew, -⟩
    · rw [← hown] at heq
      rcases hfrom d' hd' with ⟨e', he', -, hparent, -⟩ | ⟨-, hparent⟩
      · exact h.childless e he (hint hintent) e' he' (hparent.trans heq)
      · rw [heq] at hparent
        rcases hparent with hchain | hreq | ⟨e', he', hevent, hown'⟩
        · exact hchain.1 hother
        · obtain ⟨request, hr, hid⟩ := any_eq_true.mp hreq
          exact hs.queue.disjoint request hr e he (of_decide_eq_true hid)
        · obtain rfl := inj_on_of_nodup_map hs.queue.dependentIds he he' hown'.symm
          exact not_intent_of_isOwnEvent hevent (hint hintent)
    · rcases hfrom d' hd' with ⟨e', he', -, hparent, -⟩ | ⟨-, hparent⟩
      · exact hnew (heq ▸ hparent ▸ (hs.queue.dependentsUsed e' he').2)
      · rw [heq] at hparent
        rcases hparent with hchain | hreq | ⟨e', he', -, hown'⟩
        · exact hchain.1 hother
        · exact hnew (hs.queue.mem_used (mem_ids_of_hasRequest hreq))
        · exact hnew (hown' ▸ (hs.queue.dependentsUsed e' he').1)
  · have hs' := hs.step hstep
    rcases intent_or_follows (hs'.queue.dependent d' hd') with ⟨hyes, -⟩ | ⟨-, x, hfollows⟩
    · exact hother hyes
    · apply own_not_mem_of_intent (hs'.queue.dependent d hd) hintent
      rw [← heq]
      exact mem_mediaIds_of_isUpload hfollows.isUpload_parent

theorem step : Settled s' where
  sending := fun _ htask _ hd => h.step_sending hs hstep htask hd
  sent := fun _ _ hsent => h.step_sent hs hstep hsent
  childless := fun _ hd hintent _ hd' => h.step_childless hs hstep hd hintent hd'

end

end Settled

end MatrixSdk.RequestOrigins

import MatrixSdk.QueueTurns

/-!
What becomes of an event once it is cancelled. A request that is not being sent is removed, and
its id is never stored again. One that is being sent is redacted later: in the storage when it
could not be sent, or by the server.
-/
namespace MatrixSdk.Cancellations

open KeyedRows SendQueue RoomSendQueues CanonicalRequests QueueInvariants QueueTurns Traces
open QueueStorage RoomSendQueue DependentQueuedRequestKind List CanonicalRequests

variable {s s' : RoomSendQueue} {t child : ℕ} {op : Op} {ops : List Op} {answers : Answers}
  {d : DependentQueuedRequest} {reason : Option String}

def isHanding (t : ℕ) : Entry → Bool
  | .handed request => request.transactionId = t
  | _ => false

/-- How often a request was handed to the server. -/
def handedTimes (t : ℕ) (s : RoomSendQueue) : ℕ := s.log.countP (isHanding t)

/-- The request is not stored, neither is it on its way to the server. -/
structure Gone (t : ℕ) (s : RoomSendQueue) : Prop where
  used : t ∈ s.used
  notStored : t ∉ ids s.queue
  notSending : ∀ request, s.task = .sending request → request.transactionId ≠ t

/-- The intent to redact the event is stored. -/
def RedactStored (t : ℕ) (s : RoomSendQueue) : Prop :=
  ∃ d ∈ s.queue.dependents, d.kind.isRedact = true ∧ d.parentTransactionId = t

structure RedactPending (t : ℕ) (s : RoomSendQueue) : Prop where
  used : t ∈ s.used
  stored : RedactStored t s
  notDependent : ∀ d ∈ s.queue.dependents, d.ownTransactionId ≠ t

/-- The event that the server made of the request is redacted. -/
def Redacted (t : ℕ) (s : RoomSendQueue) : Prop :=
  ∃ request key eventId, .sent request key ∈ s.log ∧ request.transactionId = t ∧
    key.intoEventId = some eventId ∧ .redacted eventId ∈ s.log

def Cancelled (t : ℕ) (s : RoomSendQueue) : Prop :=
  Gone t s ∨ RedactPending t s ∨ Redacted t s

theorem Redacted.of_log {entries : List Entry} (h : Redacted t s)
    (hlog : s'.log = s.log ++ entries) : Redacted t s' := by
  obtain ⟨request, key, eventId, hsent, hid, hkey, hredacted⟩ := h
  rw [Redacted, hlog]
  exact ⟨request, key, eventId, mem_append_left _ hsent, hid, hkey, mem_append_left _ hredacted⟩

/-! ### An event that is gone stays gone -/

theorem Gone.step (h : Gone t s) (hs : WellFormed s) (hstep : Step s op s') : Gone t s' where
  used := step_used hstep h.used
  notStored := by
    intro hid
    rcases (step_idsFrom hs hstep).mem_ids hid with hold | hnew
    · exact h.notStored hold
    · exact hnew h.used
  notSending := by
    intro request htask heq
    rcases sending_of_step hstep htask with hold | hr
    · exact h.notSending request hold heq
    · exact h.notStored (heq ▸ mem_ids_of_request hr)

theorem countP_entriesOf (t : ℕ) (answers : Answers) (l : List DependentQueuedRequest) :
    (l.flatMap (entriesOf answers)).countP (isHanding t) = 0 := by
  rw [countP_eq_zero]
  intro entry hentry
  obtain ⟨d, -, hd⟩ := mem_flatMap.mp hentry
  unfold entriesOf at hd
  split at hd
  · split at hd
    · rcases mem_cons.mp hd with rfl | hd
      · simp [isHanding]
      · rw [mem_singleton.mp hd]
        simp [isHanding]
    · rw [mem_singleton.mp hd]
      simp [isHanding]
    · cases hd
  · rw [mem_singleton.mp hd]
    simp [isHanding]
  · cases hd

/-- Only stored requests are handed to the server. -/
theorem handedTimes_step (hstep : Step s op s') (ht : t ∉ ids s.queue) :
    handedTimes t s' = handedTimes t s := by
  have hcancel : ∀ (b : Bool) (t' : ℕ),
      (if b then [Entry.cancelled t'] else []).countP (isHanding t) = 0 := by
    intro b t'
    cases b <;> simp [isHanding]
  unfold handedTimes
  cases hstep with
  | peek _ hpeek =>
    have hne : ¬ _ = t := fun heq => ht (heq ▸ mem_ids_of_request (peekNextToSend_eq hpeek).1)
    simp [RoomSendQueue.note, withTask, isHanding, hne]
  | applyDependentRequests =>
    simp [RoomSendQueue.note, withTask, countP_entriesOf]
  | cancelEvent | removeDependent | abortUpload =>
    simp [withCancelled, RoomSendQueue.note, withQueue, hcancel]
  | dropDuplicate => simp [withCancelled, RoomSendQueue.note, withQueue, withTask, hcancel]
  | _ => simp [RoomSendQueue.note, withQueue, withTask, withMedia, isHanding]

theorem Gone.trace (h : Gone t s) (hs : WellFormed s) (hrun : Trace Step s ops s') :
    Gone t s' ∧ handedTimes t s' = handedTimes t s := by
  induction hrun with
  | nil => exact ⟨h, rfl⟩
  | cons head _ ih =>
    obtain ⟨hgone, hcount⟩ := ih (h.step hs head) (hs.step head)
    exact ⟨hgone, hcount.trans (handedTimes_step head h.notStored)⟩

/-! ### An event that is to be redacted -/

/-- As long as the dependent requests are not applied, the intent stays. -/
theorem redactStored_of_step (hs : WellFormed s) (hstep : Step s op s') (h : RedactStored t s)
    (happly : ∀ parents answers, op ≠ .applyDependentRequests parents answers) :
    RedactStored t s' := by
  obtain ⟨d, hd, hredact, hparent⟩ := h
  obtain ⟨hown, hreact⟩ : d.kind.isOwnEvent = false ∧ d.kind.isReact = false := by
    cases hkind : d.kind <;> simp_all [isRedact, isOwnEvent, isReact]
  have hturn : ∀ {t new q'}, Turn s.media s.queue t new q' → d ∈ q'.dependents :=
    fun hturn => hturn.keepsDependent hs.queue hd hown hreact
  cases hstep with
  | push => exact ⟨d, hd, hredact, hparent⟩
  | @pushMedia event x item =>
    obtain ⟨first, ds, finish, hqueued⟩ := pushMedia_queued s.queue event x item
    refine ⟨d, ?_, hredact, hparent⟩
    simp only [withMedia, hqueued.eq]
    exact mem_append_left _ hd
  | @pushGallery event x items hitems =>
    obtain ⟨first, ds, finish, hqueued⟩ := pushGallery_queued s.queue event x hitems
    refine ⟨d, ?_, hredact, hparent⟩
    simp only [withMedia, hqueued.eq]
    exact mem_append_left _ hd
  | replaceEvent => exact ⟨d, hturn (replaceEvent_turn _), hredact, hparent⟩
  | editMediaCaption => exact ⟨d, hturn (editMediaCaption_turn _), hredact, hparent⟩
  | react => exact ⟨d, hturn (react_turn hs.media hs.queue _), hredact, hparent⟩
  | cancelEvent _ hevent => exact ⟨d, hturn (cancelEvent_turn _ hevent), hredact, hparent⟩
  | removeDependent hall =>
    exact ⟨d, hturn (Turn.dropReaction hall : Turn s.media _ _ [] _), hredact, hparent⟩
  | @abortUpload x handles all hmedia hhandles =>
    exact ⟨d, mem_abortUpload_of_intent hs hmedia hhandles hd (.inr (.inl hredact)), hredact,
      hparent⟩
  | markAsUnwedged => exact ⟨d, hd, hredact, hparent⟩
  | applyDependentRequests => exact absurd rfl (happly _ _)
  | wait => exact ⟨d, hd, hredact, hparent⟩
  | peek _ hpeek =>
    obtain ⟨-, rfl⟩ := peekNextToSend_eq hpeek
    exact ⟨d, hd, hredact, hparent⟩
  | sent =>
    refine ⟨_, mem_map.mpr ⟨d, hd, rfl⟩, ?_⟩
    split <;> exact ⟨hredact, hparent⟩
  | aborted => exact ⟨d, hd, hredact, hparent⟩
  | notSent => exact ⟨d, hd, hredact, hparent⟩
  | wedged => exact ⟨d, hd, hredact, hparent⟩
  | duplicate => exact ⟨d, hd, hredact, hparent⟩
  | dropDuplicate htask =>
    have hold := hs.task
    simp [TaskOk, htask] at hold
    exact ⟨d, hturn (cancelEvent_turn none hold.2.2), hredact, hparent⟩

theorem RedactPending.step (h : RedactPending t s) (hs : WellFormed s) (hstep : Step s op s')
    (happly : ∀ parents answers, op ≠ .applyDependentRequests parents answers) :
    RedactPending t s' where
  used := step_used hstep h.used
  stored := redactStored_of_step hs hstep h.stored happly
  notDependent := by
    intro d' hd' heq
    rcases (step_idsFrom hs hstep).dependent d' hd' with ⟨d, hd, hown⟩ | hnew
    · exact h.notDependent d hd (hown.trans heq)
    · exact hnew (heq ▸ h.used)

/-- What applying the redaction comes to. -/
theorem application_of_redact (answers : Answers) (hredact : d.kind.isRedact = true) :
    applicationOf answers d = .drop ∨
    applicationOf answers d = .retry ∨
    ∃ key eventId, applicationOf answers d = .redact eventId ∧
      d.parentKey = some key ∧ key.intoEventId = some eventId := by
  cases hkind : d.kind with
  | redactEvent reason =>
    cases hkey : d.parentKey with
    | none => simp [applicationOf, hkind, hkey]
    | some key =>
      cases hid : key.intoEventId with
      | none => simp [applicationOf, hkind, hkey, hid]
      | some eventId =>
        cases hanswer : answers.redacts d.ownTransactionId with
        | true =>
          exact .inr (.inr ⟨key, eventId,
            by simp [applicationOf, hkind, hkey, hid, hanswer], rfl, hid⟩)
        | false => simp [applicationOf, hkind, hkey, hid, hanswer]
  | _ => simp [hkind, isRedact] at hredact

theorem cancelled_applyOne (hs : WellFormed s) (htask : s.task = .idle)
    (hd : d ∈ s.queue.dependents) (h : Cancelled t s) : Cancelled t (applyOne answers s d) := by
  have hids : IdsFrom s.used s.queue (s.queue.applySingle answers d) := applySingle_idsFrom hd
  have hidle : ∀ request, (applyOne answers s d).task = .sending request →
      request.transactionId ≠ t := by
    intro request hsending
    rw [applyOne, htask] at hsending
    cases hsending
  rcases h with hgone | hpending | hredacted
  · refine .inl ⟨hgone.used, fun hid => ?_, hidle⟩
    rcases hids.mem_ids hid with hold | hnew
    · exact hgone.notStored hold
    · exact hnew hgone.used
  · obtain ⟨e, he, hredact, hparent⟩ := hpending.stored
    have hdependent : ∀ d' ∈ (s.queue.applySingle answers d).dependents,
        d'.ownTransactionId ≠ t := by
      intro d' hd' heq
      rcases hids.dependent d' hd' with ⟨d₀, hd₀, hown⟩ | hnew
      · exact hpending.notDependent d₀ hd₀ (hown.trans heq)
      · exact hnew (heq ▸ hpending.used)
    by_cases hsame : e = d
    · subst hsame
      rcases application_of_redact answers hredact with
        happ | happ | ⟨key, eventId, happ, hkey, heventId⟩
      · -- The local echo is removed from the queue.
        refine .inl ⟨hpending.used, fun hid => ?_, hidle⟩
        rcases mem_ids.mp hid with ⟨request, hr, heq⟩ | ⟨d', hd', heq⟩
        · simp [applyOne, applySingle_eq, happ] at hr
          exact ne_of_mem_remove hs.queue.requestIds hr (heq.trans hparent.symm)
        · exact hdependent d' hd' heq
      · refine .inr (.inl ⟨hpending.used, ⟨e, ?_, hredact, hparent⟩, hdependent⟩)
        simpa only [applyOne, applySingle_eq, happ] using he
      · obtain ⟨request, answer, hok⟩ := hs.keys e he key hkey
        refine .inr (.inr ⟨request, key, eventId, mem_append_left _ hok.logged,
          hok.parent.trans hparent, heventId, mem_append_right _ ?_⟩)
        simp [entriesOf, happ]
    · refine .inr (.inl ⟨hpending.used, ⟨e, ?_, hredact, hparent⟩, hdependent⟩)
      exact applySingle_dependents_of_ne he fun heq =>
        hsame (inj_on_of_nodup_map hs.queue.dependentIds he hd heq)
  · exact .inr (.inr (hredacted.of_log rfl))

theorem cancelled_step (hs : WellFormed s) (hstep : Step s op s') (h : Cancelled t s) :
    Cancelled t s' := by
  by_cases happly : ∀ parents answers, op ≠ .applyDependentRequests parents answers
  · rcases h with hgone | hpending | hredacted
    · exact .inl (hgone.step hs hstep)
    · exact .inr (.inl (hpending.step hs hstep happly))
    · obtain ⟨entries, hlog⟩ := step_log hstep
      exact .inr (.inr (hredacted.of_log hlog))
  · push Not at happly
    obtain ⟨parents, answers, rfl⟩ := happly
    obtain ⟨htask, hparents⟩ := of_applyDependentRequests hstep
    -- Of the dependent requests of the event, a redaction is kept.
    have hstart : Cancelled t { s with queue := s.queue.canonicalized parents } := by
      have hsub : ∀ d ∈ (s.queue.canonicalized parents).dependents,
          d ∈ s.queue.dependents := fun d hd => mem_of_mem_filter hd
      rcases h with hgone | hpending | hredacted
      · refine .inl ⟨hgone.used, fun hid => hgone.notStored ?_, hgone.notSending⟩
        rcases mem_ids.mp hid with ⟨request, hr, rfl⟩ | ⟨d, hd, rfl⟩
        · exact mem_ids_of_request hr
        · exact mem_ids_of_dependent (hsub d hd)
      · obtain ⟨d, hd, hredact, rfl⟩ := hpending.stored
        refine .inr (.inl ⟨hpending.used, ?_, fun d' hd' =>
          hpending.notDependent d' (hsub d' hd')⟩)
        rcases canonicalOf_cases s.queue.dependents d.parentTransactionId with
          ⟨e, hmem, hparent, hyes, heq⟩ | ⟨hnone, -⟩
        · refine ⟨e, ?_, hyes, hparent⟩
          rw [mem_removeNonCanonical hs.queue.dependentIds, mem_canonicalize, hparent]
          exact ⟨hparents d hd, by simp [heq]⟩
        · simp [hnone d hd rfl] at hredact
      · exact .inr (.inr hredacted)
    obtain ⟨s₁, ⟨-, -, hcancelled⟩, rfl⟩ := applyDependentRequests_induct
      (P := fun s => WellFormed s ∧ s.task = .idle ∧ Cancelled t s) hs.queue.dependentIds hstep
      ⟨hs.removeNonCanonical _, htask, hstart⟩
      fun s d hd hs => ⟨hs.1.applyOne hs.2.1 hd, hs.2.1, cancelled_applyOne hs.1 hs.2.1 hd hs.2.2⟩
    rcases hcancelled with hgone | hpending | hredacted
    · exact .inl ⟨hgone.used, hgone.notStored, by simp⟩
    · exact .inr (.inl ⟨hpending.used, hpending.stored, hpending.notDependent⟩)
    · exact .inr (.inr hredacted)

/-! ### Cancelling an event -/

/-- The cancellation of an event, by a user or by the task for a reaction that the server
already has. -/
def Cancels (s : RoomSendQueue) (op : Op) (t : ℕ) : Prop :=
  (∃ reason child, op = .cancelEvent t reason child ∧
    (s.queue.cancelEvent t reason child).1 = true) ∨
  ∃ child, op = .dropDuplicate child ∧ s.task = .duplicate t ∧
    (s.queue.cancelEvent t none child).1 = true

theorem cancelled_of_cancelEvent {reason : Option String} (hs : WellFormed s)
    (hresult : (s.queue.cancelEvent t reason child).1 = true) (hchild : child ∉ s.used)
    (hqueue : s'.queue = (s.queue.cancelEvent t reason child).2) (hused : s.used ⊆ s'.used)
    (htask : ∀ request, s'.task = .sending request → s.task = .sending request)
    (hevent : ¬ IsUpload s.media t) : Cancelled t s' := by
  unfold cancelEvent at hresult hqueue
  split at hresult
  · next hsent =>
    rw [if_pos hsent] at hqueue
    obtain ⟨request, hr, hid⟩ := any_eq_true.mp (hs.beingSent t hsent)
    have hid' : request.transactionId = t := of_decide_eq_true hid
    have ht : t ∈ s.used := hid' ▸ hs.queue.requestsUsed request hr
    refine .inr (.inl ⟨hused ht, ⟨⟨.redactEvent reason, t, child, none⟩, ?_, rfl, rfl⟩, ?_⟩)
    · rw [hqueue]
      exact mem_append_right _ (by simp)
    · intro d hd heq
      rw [hqueue] at hd
      rcases mem_append.mp hd with hd | hd
      · exact hs.queue.disjoint request hr d hd (hid'.trans heq.symm)
      · rw [mem_singleton.mp hd] at heq
        have hsame : child = t := heq
        exact hchild (hsame ▸ ht)
  · next hsent =>
    rw [if_neg hsent] at hqueue
    obtain ⟨request, hr, hid⟩ := any_eq_true.mp hresult
    have hid' : request.transactionId = t := of_decide_eq_true hid
    refine .inl ⟨hused (hid' ▸ hs.queue.requestsUsed request hr), fun hmem => ?_, ?_⟩
    · rw [hqueue] at hmem
      rcases mem_ids.mp hmem with ⟨other, hother, heq⟩ | ⟨d, hd, heq⟩
      · exact ne_of_mem_remove hs.queue.requestIds hother heq
      · exact hs.queue.disjoint request hr d hd (hid'.trans heq.symm)
    · intro sending hsending heq
      have hold := hs.task
      simp [TaskOk, htask sending hsending] at hold
      have hnot := isUploadRequest_eq_false hold.1 (heq ▸ hevent)
      exact hsent (heq ▸ (hold.2.2 hnot).1)

/-- After an event was cancelled, in every later state it is out of the queue and is never
handed to the server again, or the intent to redact it is stored, or the event of the server is
redacted. -/
theorem cancelled_event_stays_cancelled {opsBefore opsAfter : List Op} {cancelled later :
    RoomSendQueue} (hbefore : Trace Step RoomSendQueue.new opsBefore s)
    (hstep : Step s op cancelled) (hcancels : Cancels s op t)
    (hafter : Trace Step cancelled opsAfter later) :
    (t ∉ ids later.queue ∧ ∀ ops' last, Trace Step later ops' last →
      t ∉ ids last.queue ∧ handedTimes t last = handedTimes t later) ∨
    RedactStored t later ∨ Redacted t later := by
  have hs := wellFormed_of_trace hbefore
  have hcancelled : Cancelled t cancelled := by
    rcases hcancels with ⟨reason, child, rfl, hresult⟩ | ⟨child, rfl, htask, hresult⟩
    · cases hstep with
      | cancelEvent hfresh hevent =>
        exact cancelled_of_cancelEvent hs hresult (hfresh.2 child (by simp)) rfl
          (subset_append_left _ _) (fun _ h => h) hevent
    · cases hstep with
      | dropDuplicate htask' hfresh =>
        obtain rfl : _ = t := Task.duplicate.inj (htask'.symm.trans htask)
        have hold := hs.task
        simp [TaskOk, htask] at hold
        exact cancelled_of_cancelEvent hs hresult (hfresh.2 child (by simp)) rfl
          (subset_append_left _ _) (fun _ h => by cases h) hold.2.2
  have hkeeps : ∀ s op s', WellFormed s ∧ Cancelled t s → Step s op s' →
      WellFormed s' ∧ Cancelled t s' :=
    fun s op s' h hstep => ⟨h.1.step hstep, cancelled_step h.1 hstep h.2⟩
  have hlater := hafter.preserves hkeeps ⟨hs.step hstep, hcancelled⟩
  rcases hlater.2 with hgone | hpending | hredacted
  · refine .inl ⟨hgone.notStored, fun ops' last hrun => ?_⟩
    obtain ⟨hgone', hcount⟩ := hgone.trace hlater.1 hrun
    exact ⟨hgone'.notStored, hcount⟩
  · exact .inr (.inl hpending.stored)
  · exact .inr (.inr hredacted)

theorem event_cancelled_while_sending_is_redacted :
    ∃ sending cancelled later,
      Trace Step RoomSendQueue.new
        [.push 0 (.event ⟨"m.room.message", "hello", .other, none⟩),
          .applyDependentRequests [] ⟨fun _ => true, fun _ => true⟩, .peek] sending ∧
      Step sending (.cancelEvent 0 none 1) cancelled ∧
      Trace Step cancelled
        [.sent "$event", .applyDependentRequests [0] ⟨fun _ => true, fun _ => true⟩] later ∧
      ((0 ∉ ids later.queue ∧ ∀ ops' last, Trace Step later ops' last →
        0 ∉ ids last.queue ∧ handedTimes 0 last = handedTimes 0 later) ∨
      RedactStored 0 later ∨ Redacted 0 later) := by
  refine ⟨_, _, _, and_of_imp (.cons (.push (by decide) rfl) (.cons
      (.applyDependentRequests rfl (by decide) (by decide)) (.cons (.peek rfl rfl) (.nil _))))
    fun hbefore => and_of_imp (.cancelEvent (by decide) (by decide))
    fun hstep => and_of_imp (.cons (.sent rfl)
      (.cons (.applyDependentRequests rfl (by decide) (by decide)) (.nil _)))
    fun hafter => ?_⟩
  exact cancelled_event_stays_cancelled hbefore hstep (.inl ⟨none, 1, rfl, by decide⟩) hafter

end MatrixSdk.Cancellations

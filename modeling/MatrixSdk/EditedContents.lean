import MatrixSdk.ParkedEdits

/-!
What an event shows. It is queued, it waits for its uploads, or it was sent; each step moves it
between these without changing the content it ends up with.
-/
namespace MatrixSdk.EditedContents

open KeyedRows SendQueue RoomSendQueues CanonicalRequests QueueInvariants QueueTurns ParkedEdits
open QueueStorage DependentQueuedRequestKind List

variable {s s' : RoomSendQueue} {q q' : QueueStorage} {t : ℕ} {op : Op} {answers : Answers}
  {d : DependentQueuedRequest} {content : EventContent}

/-! ### The content of an event -/

variable (edits : List DependentQueuedRequest)

/-- The content of the last edit, or the given one. -/
def lastOr (content : EventContent) : EventContent :=
  (edits.getLast?.bind newContent).getD content

/-- The event is queued. -/
def Local (t : ℕ) (content : EventContent) (s : RoomSendQueue) : Prop :=
  ∃ request c, request ∈ s.queue.requests ∧ request.transactionId = t ∧
    request.kind = .event c ∧ (∀ d ∈ parked s.queue t, d.parentKey = none) ∧
    visible (lastOr (parked s.queue t) c) = visible content

/-- The event waits for its uploads. -/
def Waiting (t : ℕ) (content : EventContent) (s : RoomSendQueue) : Prop :=
  ∃ d c, d ∈ s.queue.dependents ∧ d.ownTransactionId = t ∧ localEcho d = some c ∧
    parked s.queue t = [] ∧ visible c = visible content

/-- The event was sent. -/
def Remote (t : ℕ) (content : EventContent) (s : RoomSendQueue) : Prop :=
  t ∉ ids s.queue ∧
    (∀ d ∈ parked s.queue t, ∃ key eventId, d.parentKey = some key ∧
      key.intoEventId = some eventId) ∧
    ∃ c, (versions s.log t).getLast? = some c ∧
      visible (lastOr (parked s.queue t) c) = visible content

structure Shows (t : ℕ) (content : EventContent) (s : RoomSendQueue) : Prop where
  used : t ∈ s.used
  event : ¬ IsUpload s.media t
  notRedacted : NotRedacted t s.queue
  content : Local t content s ∨ Waiting t content s ∨ Remote t content s

theorem isOwnEvent_of_localEcho (h : localEcho d = some content) : d.kind.isOwnEvent = true := by
  unfold localEcho at h
  split at h <;> simp_all [isOwnEvent]

theorem or_eq_lastOr (c : EventContent) :
    (edits.getLast?.bind newContent).or (some c) = some (lastOr edits c) := by
  unfold lastOr
  cases edits.getLast?.bind newContent <;> rfl

theorem queuedContent_of_not_mem (h : t ∉ ids q) : queuedContent q t = none := by
  have hreq : q.requests.find? (·.transactionId = t) = none := by
    rw [find?_eq_none]
    intro request hr hid
    exact h (mem_ids.mpr (.inl ⟨request, hr, by simpa using hid⟩))
  have hdep : q.dependents.find? (·.ownTransactionId = t) = none := by
    rw [find?_eq_none]
    intro d hd hid
    exact h (mem_ids.mpr (.inr ⟨d, hd, by simpa using hid⟩))
  simp [queuedContent, hreq, hdep]

theorem finalContent_of_shows (hs : WellFormed s) (h : Shows t content s) :
    (finalContent s t).map visible = some (visible content) := by
  unfold finalContent
  rcases h.content with ⟨request, c, hr, hid, hkind, -, hvisible⟩ |
    ⟨d, c, hd, hown, hecho, hparked, hvisible⟩ | ⟨hgone, -, c, hlast, hvisible⟩
  · have hfind := find?_of_key hs.queue.requestIds hr hid
    have hqueued : queuedContent s.queue t = some c := by
      simp [queuedContent, hfind, QueuedRequest.asEvent, hkind]
    rw [hqueued, Option.some_or, or_eq_lastOr, Option.map_some, hvisible]
  · have hreq : s.queue.requests.find? (·.transactionId = t) = none := by
      rw [find?_eq_none]
      intro request hr hid
      exact hs.queue.disjoint request hr d hd ((by simpa using hid : _ = t).trans hown.symm)
    have hfind := find?_of_key hs.queue.dependentIds hd hown
    have hqueued : queuedContent s.queue t = some c := by simp [queuedContent, hreq, hfind, hecho]
    simp [hparked, hqueued, hvisible]
  · rw [queuedContent_of_not_mem hgone, Option.none_or, hlast, or_eq_lastOr, Option.map_some,
      hvisible]

theorem shows_of_frame (hs : WellFormed s) (hstep : Step s op s') (hframe : Frame t s s')
    (h : Shows t content s) : Shows t content s' where
  used := step_used hstep h.used
  event := not_isUpload_of_step hstep h.used h.event
  notRedacted := hframe.notRedacted h.notRedacted
  content := by
    rcases h.content with ⟨request, c, hr, hid, hkind, hkeys, hvisible⟩ |
      ⟨d, c, hd, hown, hecho, hparked, hvisible⟩ | ⟨hgone, hkeys, c, hlast, hvisible⟩
    · obtain ⟨request', hr', hid', hkind'⟩ := hframe.request request hr hid
      refine .inl ⟨request', c, hr', hid', hkind'.trans hkind, ?_, ?_⟩
      · rwa [hframe.parked]
      · rwa [hframe.parked]
    · obtain ⟨d', hd', hown', hkind'⟩ :=
        hframe.finish d hd hown (isOwnEvent_of_localEcho hecho)
      refine .inr (.inl ⟨d', c, hd', hown', ?_, ?_, hvisible⟩)
      · unfold localEcho at hecho ⊢
        rwa [hkind']
      · rwa [hframe.parked]
    · refine .inr (.inr ⟨fun hid => ?_, ?_, c, ?_, ?_⟩)
      · rcases (step_idsFrom hs hstep).mem_ids hid with hold | hnew
        · exact hgone hold
        · exact hnew h.used
      · rwa [hframe.parked]
      · rwa [hframe.versions]
      · rwa [hframe.parked]

variable {request : QueuedRequest}

theorem shows_of_sent {answer : String} (hs : WellFormed s) (htask : s.task = .sending request)
    (hid : request.transactionId = t) (h : Shows t content s) :
    Shows t content ((s.withTask (s.queue.markAsSent request.transactionId
      (sentKey request answer)) .idle).note [.sent request (sentKey request answer)]) := by
  set key := sentKey request answer with hkey
  have hold := hs.task
  simp only [TaskOk, htask] at hold
  obtain ⟨hok, -, hevent⟩ := hold
  obtain ⟨-, stored, hstored, hstoredId, hstoredKind⟩ :=
    hevent (isUploadRequest_eq_false hok (hid ▸ h.event))
  have hsame : stored.transactionId = t := hstoredId.trans hid
  -- What is being sent is stored, so the event is local.
  have hlocal : Local t content s := by
    rcases h.content with hlocal | ⟨d, c, hd, hown, -⟩ | ⟨hgone, -⟩
    · exact hlocal
    · exact absurd (hsame.trans hown.symm) (hs.queue.disjoint stored hstored d hd)
    · exact absurd (hsame ▸ mem_ids_of_request hstored) hgone
  obtain ⟨request', c, hr', hid', hkind', -, hvisible⟩ := hlocal
  obtain rfl := inj_on_of_nodup_map hs.queue.requestIds hstored hr' (hsame.trans hid'.symm)
  have hkind : request.kind = .event c := hstoredKind.symm.trans hkind'
  have hparked : parked (s.queue.markAsSent request.transactionId key) t =
      (parked s.queue t).map fun d => { d with parentKey := some key } := by
    have hmap : ∀ l : List DependentQueuedRequest, (l.map fun d =>
        if d.parentTransactionId = request.transactionId then { d with parentKey := some key }
        else d).filter (isEditOf t) =
        (l.filter (isEditOf t)).map fun d => { d with parentKey := some key } := by
      intro l
      induction l with
      | nil => rfl
      | cons d l ih =>
        rw [map_cons, filter_cons, filter_cons, ih]
        by_cases hparent : d.parentTransactionId = request.transactionId
        · have hready : isEditOf t { d with parentKey := some key } = isEditOf t d := rfl
          rw [if_pos hparent, hready]
          split <;> rfl
        · have hnone : isEditOf t d = false := by simp [isEditOf, ← hid, hparent]
          simp [hparent, hnone]
    exact hmap _
  have hlastOr : lastOr (parked (s.queue.markAsSent request.transactionId key) t) c =
      lastOr (parked s.queue t) c := by
    rw [hparked]
    unfold lastOr
    rw [getLast?_map]
    cases (parked s.queue t).getLast? <;> rfl
  refine ⟨h.used, h.event, ?_, .inr (.inr ⟨fun hmem => ?_, ?_, c, ?_, ?_⟩)⟩
  · intro d' hd' hredact
    obtain ⟨d, hd, rfl⟩ := mem_map.mp hd'
    have hd'' := h.notRedacted d hd
    split at hredact
    · next hparent =>
      rw [if_pos hparent]
      exact hd'' hredact
    · next hparent =>
      rw [if_neg hparent]
      exact hd'' hredact
  · rcases mem_ids.mp hmem with ⟨other, hother, heq⟩ | ⟨d', hd', heq⟩
    · exact ne_of_mem_remove hs.queue.requestIds hother (heq.trans hid.symm)
    · obtain ⟨d, hd, rfl⟩ := mem_map.mp hd'
      apply hs.queue.disjoint stored hstored d hd
      rw [hsame, ← heq]
      split <;> rfl
  · intro d hd
    change d ∈ parked (s.queue.markAsSent request.transactionId key) t at hd
    rw [hparked] at hd
    obtain ⟨d₀, -, rfl⟩ := mem_map.mp hd
    exact ⟨key, answer, rfl, by simp [hkey, sentKey, hkind,
      SentRequestKey.intoEventId]⟩
  · simp [versions, RoomSendQueue.note, RoomSendQueue.withTask, version, hid,
      QueuedRequest.asEvent, hkind]
  · exact (congrArg visible hlastOr).trans hvisible

/-! ### Applying the dependent requests -/

variable {parents : List ℕ}

theorem lastOr_getLast? (c : EventContent) : lastOr edits.getLast?.toList c = lastOr edits c := by
  unfold lastOr
  cases edits.getLast? <;> rfl

section

variable (hids : (q.dependents.map (·.ownTransactionId)).Nodup)
include hids

/-- Only the last parked edit is applied. -/
theorem parked_removeNonCanonical (hparents : ∀ d ∈ q.dependents, d.parentTransactionId ∈ parents)
    (h : NotRedacted t q) :
    parked (q.canonicalized parents) t = (parked q t).getLast?.toList := by
  have hedits : (q.dependents.filter (·.parentTransactionId = t)).filter (·.kind.isEdit) =
      parked q t := by
    rw [filter_filter]
    rfl
  have hmem : ∀ d ∈ parked q t, d ∈ (q.canonicalized parents).dependents ↔
      (parked q t).getLast? = some d := by
    intro d hd
    obtain ⟨hd, hedit⟩ := mem_filter.mp hd
    have hsplit : d.kind.isEdit = true ∧ d.parentTransactionId = t := by
      simpa [isEditOf] using hedit
    rw [mem_removeNonCanonical hids, mem_canonicalize, hsplit.2]
    rcases canonicalOf_cases q.dependents t with ⟨e, he, hparent, hredact, -⟩ | ⟨-, heq⟩
    · exact absurd hparent (h e he hredact)
    · rw [heq, hedits, mem_append, Option.mem_toList]
      refine ⟨fun hall => ?_, fun hlast => ⟨hsplit.2 ▸ hparents d hd, .inl hlast⟩⟩
      rcases hall.2 with hlast | hother
      · exact hlast
      · simp [hsplit.1] at hother
  have hfilter : parked (q.canonicalized parents) t =
      (parked q t).filter fun d => (parked q t).getLast? = some d := by
    unfold parked canonicalized removeNonCanonical
    rw [filter_comm]
    apply filter_congr
    intro d hd
    have hiff := hmem d hd
    simp only [removeNonCanonical, mem_filter] at hiff
    rw [Bool.eq_iff_iff, decide_eq_true_eq]
    refine Iff.trans ⟨fun hany => ?_, fun hall => hall.2⟩ hiff
    exact ⟨(mem_filter.mp hd).1, hany⟩
  rw [hfilter]
  rcases eq_nil_or_concat' (parked q t) with hnil | ⟨init, last, hconcat⟩
  · simp [hnil]
  · have hnodup : (parked q t).Nodup := (hids.of_map).filter _
    rw [hconcat] at hnodup ⊢
    have hinit : ∀ d ∈ init, last ≠ d := by
      intro d hd heq
      exact (nodup_append.mp hnodup).2.2 d hd last (by simp) heq.symm
    rw [getLast?_concat, filter_append]
    simpa using hinit

theorem parked_applySingle (hd : d ∈ q.dependents) (hnot : isEditOf t d = false) :
    parked (q.applySingle answers d) t = parked q t := by
  have hremove : parked (q.removeDependentQueuedRequest d.ownTransactionId) t = parked q t := by
    apply filter_remove
    intro e he hown
    rw [inj_on_of_nodup_map hids he hd hown, hnot]
  rw [applySingle_eq]
  split
  all_goals first
    | exact hremove
    | rfl

end

/-- A dependent request of another event leaves the request of this one. -/
theorem request_applySingle (hids : (q.requests.map (·.transactionId)).Nodup)
    (hr : request ∈ q.requests) (hid : request.transactionId = t) (hnot : isEditOf t d = false)
    (hredact : d.kind.isRedact = true → d.parentTransactionId ≠ t) :
    request ∈ (q.applySingle answers d).requests := by
  rw [applySingle_eq]
  split
  · exact mem_append_left _ hr
  · next content happ =>
    have hne : d.parentTransactionId ≠ t := by
      have hkind := (kind_of_edit happ).1
      intro hparent
      simp [isEditOf, hkind, hparent, isEdit] at hnot
    simp only [updateSendQueueRequest, removeDependentQueuedRequest]
    rw [update_eq_map hids]
    exact mem_map.mpr ⟨request, hr, if_neg fun heq => hne (heq.symm.trans hid)⟩
  · next happ =>
    exact mem_remove_of_ne hr fun heq => hredact (kind_of_drop happ).1 (heq.symm.trans hid)
  · exact hr
  · exact hr
  · exact hr

theorem versions_entriesOf (hnot : isEditOf t d = false) (log : List Entry) :
    versions (log ++ entriesOf answers d) t = versions log t := by
  have hnone : (entriesOf answers d).filterMap (version t) = [] := by
    unfold entriesOf
    split
    · split
      · next hkind =>
        have hne : d.parentTransactionId ≠ t := by
          intro hparent
          simp [isEditOf, hkind, hparent, isEdit] at hnot
        simp [version, hne]
      · simp [version]
      · rfl
    · simp [version]
    · rfl
  simp only [versions, filterMap_append, hnone, append_nil]

theorem mem_parked : d ∈ parked q t ↔ d ∈ q.dependents ∧ isEditOf t d = true :=
  mem_filter

/-- Nothing is parked any more once the only parked edit is applied. -/
theorem parked_remove_eq_nil (hone : ∀ e ∈ parked q t, e = d) (q' : QueueStorage)
    (hdep : q'.dependents = remove (·.ownTransactionId) d.ownTransactionId q.dependents)
    (hids : (q.dependents.map (·.ownTransactionId)).Nodup) : parked q' t = [] := by
  unfold parked
  rw [filter_eq_nil_iff, hdep]
  intro e he hedit
  have heq := hone e (mem_parked.mpr ⟨mem_of_mem_remove he, hedit⟩)
  exact ne_of_mem_remove hids he (by rw [heq])

theorem visible_withSource (content : EventContent) (source : List String) :
    visible (withSource content source) = visible content := by
  unfold withSource
  split <;> rfl

/-- Queueing the event once its uploads are done changes no more than its media. -/
theorem application_of_localEcho (answers : Answers) (hecho : localEcho d = some content) :
    applicationOf answers d = .retry ∨
    ∃ final, applicationOf answers d = .queue (.event final) ∧
      visible final = visible content := by
  cases hkey : d.parentKey with
  | none =>
    cases hkind : d.kind <;> simp_all [localEcho, applicationOf]
  | some key =>
    cases hmedia : key.intoMedia with
    | none => cases hkind : d.kind <;> simp_all [localEcho, applicationOf]
    | some sent =>
      cases hkind : d.kind with
      | finishUpload c =>
        obtain rfl : c = content := by simpa [localEcho, hkind] using hecho
        exact .inr ⟨updateMediaEventAfterUpload c sent,
          by simp [applicationOf, hkind, hkey, hmedia], visible_withSource c _⟩
      | finishGallery c items =>
        obtain rfl : c = content := by simpa [localEcho, hkind] using hecho
        exact .inr ⟨updateGalleryEventAfterUpload c items sent,
          by simp [applicationOf, hkind, hkey, hmedia], visible_withSource c _⟩
      | _ => simp [localEcho, hkind] at hecho

section

variable (hs : WellFormed s)
include hs

theorem shows_removeNonCanonical
    (hparents : ∀ d ∈ s.queue.dependents, d.parentTransactionId ∈ parents) (h : Shows t content s) :
    Shows t content { s with queue := s.queue.canonicalized parents } := by
  have hparked := parked_removeNonCanonical hs.queue.dependentIds hparents h.notRedacted
  have hsub : ∀ d ∈ (parked s.queue t).getLast?.toList, d ∈ parked s.queue t := fun d hd =>
    mem_of_getLast? (Option.mem_toList.mp hd)
  refine ⟨h.used, h.event, fun d hd => h.notRedacted d (mem_of_mem_filter hd), ?_⟩
  rcases h.content with ⟨request, c, hr, hid, hkind, hkeys, hvisible⟩ |
    ⟨d, c, hd, hown, hecho, hnone, hvisible⟩ | ⟨hgone, hkeys, c, hlast, hvisible⟩
  · refine .inl ⟨request, c, hr, hid, hkind, ?_, ?_⟩
    · rw [hparked]
      exact fun d hd => hkeys d (hsub d hd)
    · rwa [hparked, lastOr_getLast?]
  · refine .inr (.inl ⟨d, c, ?_, hown, hecho, ?_, hvisible⟩)
    · have hown' := isOwnEvent_of_localEcho hecho
      have hdok := hs.queue.dependent d hd
      refine mem_removeNonCanonical_of_no_redact hs.queue.dependentIds hparents hd ?_ ?_
      · cases hkind : d.kind <;> simp_all [isOwnEvent, isEdit]
      · -- The event waits for an upload, and uploads are not redacted.
        intro e he hparent
        have heok := hs.queue.dependent e he
        have hupload : IsUpload s.media d.parentTransactionId := by
          unfold DependentOk at hdok
          split at hdok
          all_goals first | exact hdok.isUpload_parent | simp_all [isOwnEvent]
        cases hkind : e.kind with
        | redactEvent reason =>
          simp [DependentOk, hkind] at heok
          exact absurd (hparent ▸ hupload) heok.2
        | _ => rfl
    · rw [hparked, hnone]
      rfl
  · refine .inr (.inr ⟨fun hid => hgone ?_, ?_, c, hlast, ?_⟩)
    · rcases mem_ids.mp hid with ⟨request, hr, rfl⟩ | ⟨d, hd, rfl⟩
      · exact mem_ids_of_request hr
      · exact mem_ids_of_dependent (mem_of_mem_filter hd)
    · rw [hparked]
      exact fun d hd => hkeys d (hsub d hd)
    · rwa [hparked, lastOr_getLast?]

/-- The parked edit itself is applied: to the local echo, or as an edit event. -/
theorem shows_applyOne_edit (hd : d ∈ s.queue.dependents) (hedit : isEditOf t d = true)
    (hone : ∀ e ∈ parked s.queue t, e = d) (hanswer : answers.edits d.ownTransactionId = true)
    (heditable : ∀ c, d.kind = .editEvent c → ∀ eventId, (makeEditEvent c eventId).isSome = true)
    (h : Shows t content s) : Shows t content (applyOne answers s d) := by
  obtain ⟨c', hkind⟩ : ∃ c, d.kind = .editEvent c := by
    cases hkind : d.kind with
    | editEvent c => exact ⟨c, rfl⟩
    | _ => simp [isEditOf, hkind, isEdit] at hedit
  have hc' : newContent d = some c' := by simp [newContent, hkind]
  have hparent : d.parentTransactionId = t := by
    simp [isEditOf, Bool.and_eq_true] at hedit
    exact hedit.2
  have hmem := mem_parked.mpr ⟨hd, hedit⟩
  have hlast : (parked s.queue t).getLast? = some d := by
    cases hget : (parked s.queue t).getLast? with
    | none =>
      rw [getLast?_eq_none_iff.mp hget] at hmem
      cases hmem
    | some e => rw [hone e (mem_of_getLast? hget)]
  have hlastOr : ∀ c, lastOr (parked s.queue t) c = c' := by
    intro c
    simp [lastOr, hlast, hc']
  have hnotRedacted : NotRedacted t (s.queue.applySingle answers d) := fun e he =>
    h.notRedacted e (applySingle_dependents_subset he)
  refine ⟨h.used, h.event, hnotRedacted, ?_⟩
  rcases h.content with ⟨request, c, hr, hid, -, hkeys, hvisible⟩ |
    ⟨e, c, -, -, -, hnone, -⟩ | ⟨hgone, hkeys, c, -, hvisible⟩
  · have happ : applicationOf answers d = .edit c' := by simp [applicationOf, hkind, hkeys d hmem]
    have hqueue : s.queue.applySingle answers d =
        (s.queue.removeDependentQueuedRequest d.ownTransactionId).updateSendQueueRequest t
          (.event c') := by
      rw [applySingle_eq, happ, hparent]
    have hnil : parked (applyOne answers s d).queue t = [] :=
      parked_remove_eq_nil hone _ (by simp only [applyOne, hqueue]; rfl) hs.queue.dependentIds
    refine .inl ⟨{ request with kind := .event c', error := none }, c', ?_, hid, rfl, ?_, ?_⟩
    · simp only [applyOne, hqueue, updateSendQueueRequest, removeDependentQueuedRequest]
      rw [update_eq_map hs.queue.requestIds]
      exact mem_map.mpr ⟨request, hr, if_pos hid⟩
    · simp [hnil]
    · rw [hnil, ← hvisible, hlastOr]
      rfl
  · rw [hnone] at hmem
    cases hmem
  · obtain ⟨key, eventId, hkey, heventId⟩ := hkeys d hmem
    obtain ⟨edit, hmade⟩ := Option.isSome_iff_exists.mp (heditable c' hkind eventId)
    have hvisible' : visible edit = visible c' := by
      unfold makeEditEvent at hmade
      split at hmade <;> cases hmade
      rfl
    have happ : applicationOf answers d = .queue (.event edit) := by
      simp [applicationOf, hkind, hkey, heventId, hmade, hanswer]
    have hnil : parked (applyOne answers s d).queue t = [] :=
      parked_remove_eq_nil hone _ (by simp only [applyOne, applySingle_eq, happ]; rfl)
        hs.queue.dependentIds
    refine .inr (.inr ⟨fun hid => ?_, ?_, edit, ?_, ?_⟩)
    · have hids : IdsFrom s.used s.queue (s.queue.applySingle answers d) := applySingle_idsFrom hd
      rcases hids.mem_ids hid with hold | hnew
      · exact hgone hold
      · exact hnew h.used
    · simp [hnil]
    · simp [versions, applyOne, entriesOf, happ, hkind, version, hparent]
    · rw [hnil, ← hvisible, hlastOr]
      exact hvisible'

theorem shows_applyOne_other (hd : d ∈ s.queue.dependents) (hnot : isEditOf t d = false)
    (h : Shows t content s) : Shows t content (applyOne answers s d) := by
  have hparked : parked (applyOne answers s d).queue t = parked s.queue t :=
    parked_applySingle hs.queue.dependentIds hd hnot
  refine ⟨h.used, h.event, fun e he => h.notRedacted e (applySingle_dependents_subset he), ?_⟩
  rcases h.content with ⟨request, c, hr, hid, hkind, hkeys, hvisible⟩ |
    ⟨e, c, he, hown, hecho, hnone, hvisible⟩ | ⟨hgone, hkeys, c, hlast, hvisible⟩
  · refine .inl ⟨request, c, ?_, hid, hkind, ?_, ?_⟩
    · exact request_applySingle hs.queue.requestIds hr hid hnot (h.notRedacted d hd)
    · rwa [hparked]
    · rwa [hparked]
  · by_cases hsame : e = d
    · subst hsame
      rcases application_of_localEcho answers hecho with happ | ⟨final, happ, hfinal⟩
      · refine .inr (.inl ⟨e, c, ?_, hown, hecho, hparked.trans hnone, hvisible⟩)
        simpa only [applyOne, applySingle_eq, happ] using he
      · refine .inl ⟨⟨.event final, e.ownTransactionId, none, highPriority⟩, final, ?_, hown, rfl,
          ?_, ?_⟩
        · simp only [applyOne, applySingle_eq, happ]
          exact mem_append_right _ (by simp)
        · simp [hparked, hnone]
        · rw [hparked, hnone, ← hvisible]
          exact hfinal
    · refine .inr (.inl ⟨e, c, ?_, hown, hecho, hparked.trans hnone, hvisible⟩)
      exact applySingle_dependents_of_ne he fun heq =>
        hsame (inj_on_of_nodup_map hs.queue.dependentIds he hd heq)
  · refine .inr (.inr ⟨fun hid => ?_, ?_, c, ?_, ?_⟩)
    · have hids : IdsFrom s.used s.queue (s.queue.applySingle answers d) := applySingle_idsFrom hd
      rcases hids.mem_ids hid with hold | hnew
      · exact hgone hold
      · exact hnew h.used
    · rwa [hparked]
    · simpa only [applyOne, versions_entriesOf hnot] using hlast
    · rwa [hparked]

theorem shows_of_apply (hstep : Step s (.applyDependentRequests parents answers) s')
    (heditable : Editable s (.applyDependentRequests parents answers) t) (h : Shows t content s) :
    Shows t content s' := by
  obtain ⟨htask, hparents⟩ := of_applyDependentRequests hstep
  have hparked := parked_removeNonCanonical hs.queue.dependentIds hparents h.notRedacted
  -- What is parked is the last edit, and it stays the only one.
  let P : RoomSendQueue → Prop := fun s₁ =>
    WellFormed s₁ ∧ s₁.task = .idle ∧ Shows t content s₁ ∧
      ∀ d ∈ parked s₁.queue t, (parked s.queue t).getLast? = some d
  have hstart : P { s with queue := s.queue.canonicalized parents } := by
    refine ⟨hs.removeNonCanonical _, htask, shows_removeNonCanonical hs hparents h, ?_⟩
    rw [hparked]
    exact fun d hd => Option.mem_toList.mp hd
  have hone : ∀ s₁ d, d ∈ s₁.queue.dependents → P s₁ → P (applyOne answers s₁ d) := by
    rintro s₁ d hd ⟨hs₁, htask₁, hshows, hlast⟩
    refine ⟨hs₁.applyOne htask₁ hd, htask₁, ?_, ?_⟩
    · cases hedit : isEditOf t d with
      | false => exact shows_applyOne_other hs₁ hd hedit hshows
      | true =>
        have hd' := hlast d (mem_parked.mpr ⟨hd, hedit⟩)
        obtain ⟨hanswer, hmade⟩ :=
          heditable parents answers rfl d (mem_of_getLast? hd')
        refine shows_applyOne_edit hs₁ hd hedit (fun e he => ?_) hanswer hmade hshows
        exact Option.some_injective _ ((hlast e he).symm.trans hd')
    · intro e he
      obtain ⟨hmem, hedit⟩ := mem_parked.mp he
      exact hlast e (mem_parked.mpr ⟨applySingle_dependents_subset hmem, hedit⟩)
  obtain ⟨s₁, ⟨-, -, hshows, -⟩, rfl⟩ :=
    applyDependentRequests_induct hs.queue.dependentIds hstep hstart hone
  exact ⟨hshows.used, hshows.event, hshows.notRedacted, hshows.content⟩

theorem shows_step (hstep : Step s op s') (haccepts : ∀ content, ¬ Accepts s op t content)
    (hdrops : ¬ Drops s op t) (heditable : Editable s op t) (h : Shows t content s) :
    Shows t content s' := by
  by_cases happly : ∃ parents answers, op = .applyDependentRequests parents answers
  · obtain ⟨parents, answers, rfl⟩ := happly
    exact shows_of_apply hs hstep heditable h
  · have happly' : ∀ parents answers, op ≠ .applyDependentRequests parents answers :=
      fun parents answers heq => happly ⟨parents, answers, heq⟩
    by_cases hsent : ∃ request answer, s.task = .sending request ∧ op = .sent answer ∧
        request.transactionId = t
    · obtain ⟨request, answer, htask, rfl, hid⟩ := hsent
      cases hstep with
      | sent htask' =>
        obtain rfl := Task.sending.inj (htask'.symm.trans htask)
        exact shows_of_sent hs htask hid h
    · refine shows_of_frame hs hstep (step_frame hs hstep h.event haccepts hdrops happly' ?_) h
      intro request htask answer hop hid
      exact hsent ⟨request, answer, htask, hop, hid⟩

end

end MatrixSdk.EditedContents

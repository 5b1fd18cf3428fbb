import MatrixSdk.QueueInvariants

/-!
The turns of a send queue. What a user does to the storage comes down to a few changes, and
every turn keeps the storage well formed: the request that is being sent is still stored as it
was handed to the server, and a dependent request is ready only when its parent was sent.
-/
namespace MatrixSdk.QueueTurns

open KeyedRows SendQueue RoomSendQueues CanonicalRequests QueueInvariants Traces QueueStorage Option
open RoomSendQueue DependentQueuedRequestKind List

variable {s s' : RoomSendQueue} {media : Media} {used : List ℕ}
  {q q' : QueueStorage} {t child : ℕ} {op : Op} {ops : List Op}

/-- What the operations of users on one id, other than to queue something or to abort an upload,
do to the storage. A new dependent request takes a new id. -/
inductive Turn (media : Media) (q : QueueStorage) (t : ℕ) :
    List ℕ → QueueStorage → Prop
  | same {new : List ℕ} : Turn media q t new q
  | parkEdit {child : ℕ} {content : EventContent} {request : QueuedRequest}
      (hsent : q.beingSent = some t) (hr : request ∈ q.requests)
      (hid : request.transactionId = t) (hevent : request.asEvent.isSome = true) :
      Turn media q t [child] (q.saveDependentQueuedRequest t child (.editEvent content))
  | parkRedact {child : ℕ} {reason : Option String} (hsent : q.beingSent = some t)
      (hevent : ¬ IsUpload media t) :
      Turn media q t [child] (q.saveDependentQueuedRequest t child (.redactEvent reason))
  | parkReact {child : ℕ} {key : String}
      (ht : q.hasRequest t = true ∨
        ∃ d ∈ q.dependents, d.kind.isOwnEvent = true ∧ d.ownTransactionId = t)
      (hevent : ¬ IsUpload media t) :
      Turn media q t [child] (q.saveDependentQueuedRequest t child (.reactEvent key))
  | write {new : List ℕ} {content : EventContent} {request : QueuedRequest}
      (hsent : q.beingSent ≠ some t) (hr : request ∈ q.requests)
      (hid : request.transactionId = t) (hevent : request.asEvent.isSome = true) :
      Turn media q t new (q.updateSendQueueRequest t (.event content))
  | recaption {new : List ℕ} {d : DependentQueuedRequest} {localEcho content : EventContent}
      (hd : d ∈ q.dependents) (hown : d.ownTransactionId = t)
      (hkind : d.kind = .finishUpload localEcho) :
      Turn media q t new (q.updateDependentQueuedRequest t (.finishUpload content))
  | drop {new : List ℕ} (hsent : q.beingSent ≠ some t) (hevent : ¬ IsUpload media t) :
      Turn media q t new (q.removeSendQueueRequest t)
  | dropReaction {new : List ℕ}
      (hreact : ∀ d ∈ q.dependents, d.ownTransactionId = t → d.kind.isReact = true) :
      Turn media q t new (q.removeDependentQueuedRequest t)
  | unwedge {new : List ℕ} : Turn media q t new (q.markAsUnwedged t)

variable {request : QueuedRequest} {d : DependentQueuedRequest} {key : SentRequestKey}
  {uploads : List ℕ}

theorem mem_loadSendQueueRequests : request ∈ q.loadSendQueueRequests ↔ request ∈ q.requests :=
  (perm_insertionSort _ _).mem_iff

theorem peekNextToSend_eq (h : q.peekNextToSend = some (request, q')) :
    request ∈ q.requests ∧ q' = { q with beingSent := some request.transactionId } := by
  unfold peekNextToSend at h
  split at h
  · cases h
  · next head hhead =>
    split at h
    · cases h
    · cases h
      exact ⟨mem_loadSendQueueRequests.mp (mem_of_head? hhead), rfl⟩

section

variable (h : RequestOk media request)
include h

theorem not_isUpload_of_request (hnot : isUploadRequest request = false) :
    ¬ IsUpload media request.transactionId := by
  unfold isUploadRequest at hnot
  unfold RequestOk at h
  split at h <;> simp_all

theorem isUploadRequest_eq_false (hnot : ¬ IsUpload media request.transactionId) :
    isUploadRequest request = false := by
  unfold RequestOk at h
  unfold isUploadRequest
  cases hkind : request.kind with
  | mediaUpload =>
    rw [hkind] at h
    exact absurd h.isUpload hnot
  | event | redaction => rfl

theorem not_isUpload_of_asEvent (hevent : request.asEvent.isSome = true) :
    ¬ IsUpload media request.transactionId := by
  unfold QueuedRequest.asEvent at hevent
  unfold RequestOk at h
  split at hevent <;> simp_all

end

theorem exists_ownEvent (h : ¬ (!q.loadSendQueueRequests.any fun request =>
      request.transactionId = t && isOwnEventRequest request) = true) :
    ∃ request ∈ q.requests, request.transactionId = t ∧
      ∃ content, request.kind = .event content := by
  obtain ⟨request, hr, hid, hown⟩ : ∃ request ∈ q.loadSendQueueRequests,
      request.transactionId = t ∧ isOwnEventRequest request = true := by
    simpa using h
  refine ⟨request, mem_loadSendQueueRequests.mp hr, hid, ?_⟩
  unfold isOwnEventRequest QueuedRequest.asEvent at hown
  cases hkind : request.kind <;> simp_all

theorem replaceEvent_turn (content : EventContent) :
    Turn media q t [child] (q.replaceEvent t content child).2 := by
  unfold replaceEvent
  split
  · exact .same
  · next hany =>
    obtain ⟨request, hr, hid, _, hkind⟩ := exists_ownEvent hany
    have hevent : request.asEvent.isSome = true := by simp [QueuedRequest.asEvent, hkind]
    split
    · next hsent => exact .parkEdit hsent hr hid hevent
    · next hsent => exact .write hsent hr hid hevent

theorem editMediaCaption_turn (caption : String) :
    Turn media q t [child] (q.editMediaCaption t caption child).2 := by
  unfold editMediaCaption
  split
  · next found hfind =>
    have hown : found.ownTransactionId = t := by simpa using find?_some hfind
    have hd := mem_of_find?_eq_some hfind
    split
    · next localEcho hkind =>
      split
      · exact .recaption hd hown hkind
      · exact .same
    · exact .same
  · split
    · exact .same
    · next found hfind =>
      have hid : found.transactionId = t := by simpa using find?_some hfind
      have hr := mem_loadSendQueueRequests.mp (mem_of_find?_eq_some hfind)
      split
      · exact .same
      · next content hcontent =>
        have hevent : found.asEvent.isSome = true := by
          obtain ⟨c, hc, -⟩ := bind_eq_some_iff.mp hcontent
          rw [hc, isSome_some]
        split
        · next hsent => exact .parkEdit hsent hr hid hevent
        · next hsent => exact .write hsent hr hid hevent

theorem not_isUpload_of_isOwnEvent (hm : MediaOk media used) (hd : DependentOk media d)
    (hown : d.kind.isOwnEvent = true) : ¬ IsUpload media d.ownTransactionId := by
  have hfollows : Follows media d.ownTransactionId d.parentTransactionId d.ownTransactionId := by
    unfold DependentOk at hd
    split at hd <;> simp_all [isOwnEvent]
  obtain ⟨handles, hmem, -⟩ := hfollows
  exact hm.not_isUpload hmem

theorem react_turn (hm : MediaOk media used) (hq : QueueOk media used q) (key : String) :
    Turn media q t [child] (q.react t key child).2 := by
  unfold QueueStorage.react
  split
  · exact .same
  · next hany =>
    rw [Bool.and_eq_true, not_and_or] at hany
    rcases hany with hany | hany
    · obtain ⟨request, hmem, rfl, _, hkind⟩ := exists_ownEvent hany
      refine .parkReact (.inl (any_eq_true.mpr ⟨request, hmem, by simp⟩))
        (not_isUpload_of_asEvent (hq.request _ hmem) ?_)
      simp [QueuedRequest.asEvent, hkind]
    · have hfound : ∃ d ∈ q.dependents, d.kind.isOwnEvent = true ∧ d.ownTransactionId = t := by
        simpa using hany
      obtain ⟨d, hd, hown, rfl⟩ := hfound
      exact .parkReact (.inr ⟨d, hd, hown, rfl⟩)
        (not_isUpload_of_isOwnEvent hm (hq.dependent d hd) hown)

theorem cancelEvent_turn (reason : Option String) (hevent : ¬ IsUpload media t) :
    Turn media q t [child] (q.cancelEvent t reason child).2 := by
  unfold cancelEvent
  split
  · next hsent => exact .parkRedact hsent hevent
  · next hsent => exact .drop hsent hevent

/-! ### Well-formed states -/

structure KeyOk (s : RoomSendQueue) (d : DependentQueuedRequest) (key : SentRequestKey)
    (request : QueuedRequest) (answer : String) : Prop where
  logged : .sent request key ∈ s.log
  parent : request.transactionId = d.parentTransactionId
  eq : key = sentKey request answer
  request : RequestOk s.media request

def TaskOk (s : RoomSendQueue) : Prop :=
  match s.task with
  | .idle | .applied => s.queue.beingSent = none
  | .sending request =>
    RequestOk s.media request ∧ request.transactionId ∈ s.used ∧
      (isUploadRequest request = false →
        s.queue.beingSent = some request.transactionId ∧
        ∃ stored ∈ s.queue.requests, stored.transactionId = request.transactionId ∧
          stored.kind = request.kind)
  | .duplicate t => s.queue.beingSent = none ∧ t ∈ s.used ∧ ¬ IsUpload s.media t

structure WellFormed (s : RoomSendQueue) : Prop where
  media : MediaOk s.media s.used
  queue : QueueOk s.media s.used s.queue
  beingSent : ∀ id, s.queue.beingSent = some id → s.queue.hasRequest id = true
  task : TaskOk s
  keys : ∀ d ∈ s.queue.dependents, ∀ key, d.parentKey = some key →
    ∃ request answer, KeyOk s d key request answer

theorem wellFormed_new : WellFormed RoomSendQueue.new where
  media := ⟨by simp [RoomSendQueue.new, mediaIds], by simp [RoomSendQueue.new, mediaIds]⟩
  queue := ⟨by simp [RoomSendQueue.new], by simp [RoomSendQueue.new],
    by simp [RoomSendQueue.new], by simp [RoomSendQueue.new], by simp [RoomSendQueue.new],
    by simp [RoomSendQueue.new], by simp [RoomSendQueue.new]⟩
  beingSent := by simp [RoomSendQueue.new]
  task := rfl
  keys := by simp [RoomSendQueue.new]

variable {d' finish : DependentQueuedRequest} {kind : QueuedRequestKind} {new own : List ℕ}
  {x : ℕ} {first : QueuedRequest} {ds : List DependentQueuedRequest}

namespace Turn

variable {new : List ℕ} (h : Turn media q t new q')
include h

theorem beingSent_eq : q'.beingSent = q.beingSent := by
  cases h <;> rfl

section

variable (hq : QueueOk media used q)
include hq

/-- The request that is being sent is left as it is. -/
theorem keepsSending (hsent : q.beingSent = some request.transactionId)
    (hr : request ∈ q.requests) :
    ∃ stored ∈ q'.requests, stored.transactionId = request.transactionId ∧
      stored.kind = request.kind := by
  cases h with
  | same | parkEdit | parkRedact | parkReact | recaption | dropReaction =>
    exact ⟨request, hr, rfl, rfl⟩
  | write hother =>
    refine ⟨request, ?_, rfl, rfl⟩
    simp only [updateSendQueueRequest]
    rw [update_eq_map hq.requestIds]
    refine mem_map.mpr ⟨request, hr, if_neg ?_⟩
    exact fun heq => hother (heq ▸ hsent)
  | drop hother =>
    exact ⟨request, mem_remove_of_ne hr fun heq => hother (heq ▸ hsent), rfl, rfl⟩
  | unwedge =>
    refine ⟨if request.transactionId = t then { request with error := none } else request, ?_, ?_⟩
    · simp only [markAsUnwedged, updateSendQueueRequestStatus]
      rw [update_eq_map hq.requestIds]
      exact mem_map.mpr ⟨request, hr, rfl⟩
    · split <;> exact ⟨rfl, rfl⟩

theorem parentKey (hd' : d' ∈ q'.dependents) (hkey : d'.parentKey = some key) :
    ∃ d ∈ q.dependents, d.parentTransactionId = d'.parentTransactionId ∧
      d.parentKey = some key := by
  have hpark : ∀ parent child kind,
      d' ∈ (q.saveDependentQueuedRequest parent child kind).dependents → d' ∈ q.dependents := by
    intro parent child kind hd
    rcases mem_append.mp hd with hd | hd
    · exact hd
    · rw [mem_singleton.mp hd] at hkey
      cases hkey
  cases h with
  | same | write | drop | unwedge => exact ⟨d', hd', rfl, hkey⟩
  | parkEdit => exact ⟨d', hpark _ _ _ hd', rfl, hkey⟩
  | parkRedact => exact ⟨d', hpark _ _ _ hd', rfl, hkey⟩
  | parkReact => exact ⟨d', hpark _ _ _ hd', rfl, hkey⟩
  | recaption =>
    simp [updateDependentQueuedRequest] at hd'
    rw [update_eq_map hq.dependentIds] at hd'
    obtain ⟨d, hd, rfl⟩ := mem_map.mp hd'
    refine ⟨d, hd, ?_⟩
    split at hkey
    · next heq => exact ⟨by rw [if_pos heq], hkey⟩
    · next hne => exact ⟨by rw [if_neg hne], hkey⟩
  | dropReaction => exact ⟨d', mem_of_mem_remove hd', rfl, hkey⟩

/-- Edits, redactions and uploads that wait are left as they are. -/
theorem keepsDependent (hd : d ∈ q.dependents) (hown : d.kind.isOwnEvent = false)
    (hreact : d.kind.isReact = false) : d ∈ q'.dependents := by
  cases h with
  | same => exact hd
  | parkEdit | parkRedact | parkReact => exact mem_append_left _ hd
  | write => exact hd
  | @recaption _ e localEcho content he heown hkind =>
    simp only [updateDependentQueuedRequest]
    rw [update_eq_map hq.dependentIds]
    refine mem_map.mpr ⟨d, hd, if_neg fun heq => ?_⟩
    obtain rfl := inj_on_of_nodup_map hq.dependentIds hd he (heq.trans heown.symm)
    simp [hkind, isOwnEvent] at hown
  | drop => exact hd
  | dropReaction hall =>
    refine mem_remove_of_ne hd fun heq => ?_
    simp [hall d hd heq] at hreact
  | unwedge => exact hd

end

theorem queueOk (hm : MediaOk media used) (hq : QueueOk media used q)
    (hsent : ∀ id, q.beingSent = some id → q.hasRequest id = true)
    (hnew : ∀ id ∈ new, id ∉ used) : QueueOk media (used ++ new) q' := by
  cases h with
  | same => exact hq.use new
  | parkEdit _ hr hid hevent =>
    subst hid
    exact hq.park hm (hnew _ (by simp)) (hq.requestsUsed _ hr)
      (not_isUpload_of_asEvent (hq.request _ hr) hevent) (.inl rfl)
  | parkRedact hbeing hevent =>
    obtain ⟨request, hr, hid⟩ := any_eq_true.mp (hsent t hbeing)
    have hused := hq.requestsUsed request hr
    rw [of_decide_eq_true hid] at hused
    exact hq.park hm (hnew _ (by simp)) hused hevent (.inr (.inl rfl))
  | parkReact ht hevent =>
    have hstored : t ∈ ids q := by
      rcases ht with ht | ⟨d, hd, -, hown⟩
      · exact mem_ids_of_hasRequest ht
      · exact hown ▸ mem_ids_of_dependent hd
    exact hq.park hm (hnew _ (by simp)) (hq.mem_used hstored) hevent (.inr (.inr rfl))
  | write _ hr hid hevent =>
    subst hid
    exact (hq.use new).updateRequest (not_isUpload_of_asEvent (hq.request _ hr) hevent) _
  | recaption hd hown hkind => exact (hq.use new).recaption hd hown hkind _
  | drop => exact (hq.use new).sublist remove_sublist (Sublist.refl _)
  | dropReaction => exact (hq.use new).sublist (Sublist.refl _) remove_sublist
  | unwedge => exact (hq.use new).updateStatus none

end Turn

/-! ### What applying a dependent request does -/

theorem applySingle_eq (answers : Answers) :
    q.applySingle answers d =
      match applicationOf answers d with
      | .queue kind =>
        (q.removeDependentQueuedRequest d.ownTransactionId).saveSendQueueRequest
          d.ownTransactionId kind highPriority
      | .edit content =>
        (q.removeDependentQueuedRequest d.ownTransactionId).updateSendQueueRequest
          d.parentTransactionId (.event content)
      | .drop =>
        (q.removeDependentQueuedRequest d.ownTransactionId).removeSendQueueRequest
          d.parentTransactionId
      | .redact _ | .done => q.removeDependentQueuedRequest d.ownTransactionId
      | .retry => q := by
  unfold applySingle
  cases applicationOf answers d <;> rfl

variable {answers : Answers} {d : DependentQueuedRequest}

theorem applySingle_dependents_sublist :
    (q.applySingle answers d).dependents.Sublist q.dependents := by
  rw [applySingle_eq]
  split
  all_goals first
    | exact Sublist.refl _
    | exact remove_sublist

theorem applySingle_dependents_subset :
    (q.applySingle answers d).dependents ⊆ q.dependents :=
  applySingle_dependents_sublist.subset

/-- A dependent request is queued only once its parent was sent, and as what it stands for. -/
theorem requestOk_of_queue {priority : ℕ} (hm : MediaOk media used) (hd : DependentOk media d)
    (h : applicationOf answers d = .queue kind) :
    RequestOk media ⟨kind, d.ownTransactionId, none, priority⟩ := by
  have hintent : d.ownTransactionId ∉ mediaIds media → ¬ IsUpload media d.ownTransactionId :=
    fun hnot hup => hnot (mem_mediaIds_of_isUpload hup)
  have hfinish := not_isUpload_of_isOwnEvent hm hd
  cases hkey : d.parentKey with
  | none => cases hkind : d.kind <;> simp [applicationOf, hkind, hkey] at h
  | some key =>
    cases hkind : d.kind with
    | editEvent newContent =>
      simp [DependentOk, hkind] at hd
      simp [applicationOf, hkind, hkey] at h
      split at h
      · cases h
      · split at h
        · cases h
        · split at h <;> cases h
          exact hintent hd.1
    | redactEvent reason =>
      simp [applicationOf, hkind, hkey] at h
      split at h
      · cases h
      · split at h <;> cases h
    | reactEvent reaction =>
      simp [DependentOk, hkind] at hd
      simp [applicationOf, hkind, hkey] at h
      split at h <;> cases h
      exact hintent hd.1
    | uploadFileOrThumbnail contentType cacheKey relatedTo isThumbnail =>
      simp [DependentOk, hkind] at hd
      simp [applicationOf, hkind, hkey] at h
      split at h <;> cases h
      exact hd.2
    | finishUpload | finishGallery =>
      simp [applicationOf, hkind, hkey] at h
      split at h <;> cases h
      exact hfinish (by rw [hkind]; rfl)

theorem kind_of_edit {content : EventContent} (h : applicationOf answers d = .edit content) :
    d.kind = .editEvent content ∧ d.parentKey = none := by
  unfold applicationOf at h
  split at h
  all_goals first
    | exact ⟨by simp_all, by assumption⟩
    | (repeat' split at h) <;> cases h

theorem kind_of_drop (h : applicationOf answers d = .drop) :
    d.kind.isRedact = true ∧ d.parentKey = none := by
  unfold applicationOf at h
  split at h
  all_goals first
    | exact ⟨by simp_all [isRedact], by assumption⟩
    | (repeat' split at h) <;> cases h

/-! ### Every turn keeps the state well formed -/

namespace WellFormed

section

variable (h : WellFormed s)
include h

theorem keys_of (hmedia : s'.media = s.media) (hlog : s.log ⊆ s'.log)
    (hd : d ∈ s.queue.dependents) (hparent : d.parentTransactionId = d'.parentTransactionId)
    (hkey : d.parentKey = some key) : ∃ request answer, KeyOk s' d' key request answer := by
  obtain ⟨request, answer, hok⟩ := h.keys d hd key hkey
  exact ⟨request, answer, hlog hok.logged, hok.parent.trans hparent, hok.eq,
    hmedia ▸ hok.request⟩

theorem note (entries : List Entry) : WellFormed (s.note entries) where
  media := h.media
  queue := h.queue
  beingSent := h.beingSent
  task := h.task
  keys := fun _ hd _ hkey =>
    h.keys_of rfl (subset_append_left _ _) hd rfl hkey

theorem turn (hturn : Turn s.media s.queue t new q') (hnew : ∀ id ∈ new, id ∉ s.used) :
    WellFormed (s.withQueue q' new) where
  media := ⟨h.media.nodup, fun id hid => mem_append_left _ (h.media.used id hid)⟩
  queue := hturn.queueOk h.media h.queue h.beingSent hnew
  beingSent := by
    intro id hid
    have hid' : s.queue.beingSent = some id := by rw [← hturn.beingSent_eq]; exact hid
    obtain ⟨request, hr, heq⟩ := any_eq_true.mp (h.beingSent id hid')
    have hsame := of_decide_eq_true heq
    obtain ⟨stored, hstored, hstoredId, -⟩ :=
      hturn.keepsSending h.queue (by rw [hid', hsame]) hr
    exact any_eq_true.mpr ⟨stored, hstored, decide_eq_true (hstoredId.trans hsame)⟩
  task := by
    have htask := h.task
    unfold TaskOk at htask ⊢
    change match s.task with
      | .idle | .applied => q'.beingSent = none
      | .sending request => RequestOk s.media request ∧ request.transactionId ∈ s.used ++ new ∧
          (isUploadRequest request = false → q'.beingSent = some request.transactionId ∧
            ∃ stored ∈ q'.requests, stored.transactionId = request.transactionId ∧
              stored.kind = request.kind)
      | .duplicate t => q'.beingSent = none ∧ t ∈ s.used ++ new ∧ ¬ IsUpload s.media t
    rw [hturn.beingSent_eq]
    cases htaskEq : s.task with
    | idle => simpa [htaskEq] using htask
    | applied => simpa [htaskEq] using htask
    | duplicate t =>
      simp [htaskEq] at htask
      exact ⟨htask.1, mem_append_left _ htask.2.1, htask.2.2⟩
    | sending request =>
      simp [htaskEq] at htask
      obtain ⟨hok, hused, hevent⟩ := htask
      refine ⟨hok, mem_append_left _ hused, fun hup => ?_⟩
      obtain ⟨hsent, stored, hstored, hid, hkind⟩ := hevent hup
      obtain ⟨stored', hstored', hid', hkind'⟩ :=
        hturn.keepsSending h.queue (by rw [hsent, hid]) hstored
      exact ⟨hsent, stored', hstored', hid'.trans hid, hkind'.trans hkind⟩
  keys := by
    intro d' hd' key hkey
    obtain ⟨d, hd, hparent, hkey'⟩ := hturn.parentKey h.queue hd' hkey
    exact h.keys_of rfl (List.Subset.refl _) hd hparent hkey'

/-- Something new is queued. -/
theorem grow (hm : MediaOk s'.media s'.used) (hq : QueueOk s'.media s'.used s'.queue)
    (hreq : s.queue.requests ⊆ s'.queue.requests) (hsent : s'.queue.beingSent = s.queue.beingSent)
    (htask : s'.task = s.task) (hused : s.used ⊆ s'.used)
    (hrequest : ∀ request, request.transactionId ∈ s.used → RequestOk s.media request →
      RequestOk s'.media request)
    (hupload : ∀ id ∈ s.used, ¬ IsUpload s.media id → ¬ IsUpload s'.media id)
    (hkeys : ∀ d ∈ s'.queue.dependents, d.parentKey.isSome = true → d ∈ s.queue.dependents)
    (hlog : s.log ⊆ s'.log) : WellFormed s' where
  media := hm
  queue := hq
  beingSent := by
    intro id hid
    obtain ⟨request, hr, heq⟩ := any_eq_true.mp (h.beingSent id (hsent ▸ hid))
    exact any_eq_true.mpr ⟨request, hreq hr, heq⟩
  task := by
    have hold := h.task
    unfold TaskOk at hold ⊢
    rw [htask, hsent]
    cases htaskEq : s.task with
    | idle => simpa [htaskEq] using hold
    | applied => simpa [htaskEq] using hold
    | duplicate t =>
      simp [htaskEq] at hold
      exact ⟨hold.1, hused hold.2.1, hupload t hold.2.1 hold.2.2⟩
    | sending request =>
      simp [htaskEq] at hold
      obtain ⟨hok, hin, hevent⟩ := hold
      refine ⟨hrequest request hin hok, hused hin, fun hup => ?_⟩
      obtain ⟨hbeing, stored, hstored, hsame⟩ := hevent hup
      exact ⟨hbeing, stored, hreq hstored, hsame⟩
  keys := by
    intro d hd key hkey
    have hold := hkeys d hd (by rw [hkey]; rfl)
    obtain ⟨request, answer, hok⟩ := h.keys d hold key hkey
    refine ⟨request, answer, hlog hok.logged, hok.parent, hok.eq, hrequest request ?_ hok.request⟩
    rw [hok.parent]
    exact (h.queue.dependentsUsed d hold).2

theorem push (hfresh : s.Fresh [t]) (hkind : isUploadRequest ⟨kind, t, none, lowPriority⟩ = false) :
    WellFormed (s.withQueue (s.queue.push t kind) [t]) := by
  have ht : t ∉ s.used := hfresh.2 t (by simp)
  have hnot : ¬ IsUpload s.media t := fun hup => ht (h.media.used t (mem_mediaIds_of_isUpload hup))
  refine h.grow ⟨h.media.nodup, fun id hid => mem_append_left _ (h.media.used id hid)⟩ ?_
    (subset_append_left _ _) rfl rfl (subset_append_left _ _) (fun _ _ hok => hok)
    (fun _ _ hok => hok) (fun _ hd _ => hd) (List.Subset.refl _)
  refine (h.queue.use [t]).saveRequest (fun hid => ht (h.queue.mem_used hid)) (by simp) ?_
  unfold RequestOk
  split
  · next hmedia =>
    change kind = _ at hmedia
    simp [isUploadRequest, hmedia] at hkind
  · exact hnot
  · exact hnot

theorem queued {handles : List MediaHandles} (hfresh : s.Fresh (uploadsOf handles ++ [x]))
    (hqueued : Queued s.queue q' x (uploadsOf handles) first ds finish) :
    WellFormed (s.withMedia q' x handles) := by
  have hids : ∀ id ∈ uploadsOf handles ++ [x], id ∉ ids s.queue := fun id hid hmem =>
    hfresh.2 id hid (h.queue.mem_used hmem)
  have hused : ∀ id ∈ s.used, id ∉ uploadsOf handles := fun id hid hmem =>
    hfresh.2 id (mem_append_left _ hmem) hid
  have heq := hqueued.eq
  refine h.grow (h.media.grow hfresh.1 hfresh.2)
    (hqueued.queueOk (h.queue.grow hfresh.2) (mem_append_right _ (by simp)) rfl hfresh.1
      (fun id hid => mem_append_right _ hid) hids)
    ?_ ?_ rfl (subset_append_left _ _) (fun request hr hok => hok.grow (hused _ hr))
    (fun id hid hok => not_isUpload_grow hok (hused id hid)) ?_ (subset_append_left _ _)
  · change s.queue.requests ⊆ q'.requests
    rw [heq]
    exact subset_append_left _ _
  · change q'.beingSent = s.queue.beingSent
    rw [heq]
  · intro d hd hkey
    obtain ⟨key, hkey⟩ := isSome_iff_exists.mp hkey
    exact hqueued.mem_of_parentKey hd hkey

theorem removes (hremoves : Removes uploads own s.queue q')
    (hup : ∀ id ∈ uploads, IsUpload s.media id) : WellFormed (s.withQueue q' []) := by
  refine ⟨by simpa [withQueue] using h.media, by simpa [withQueue] using hremoves.queueOk h.queue,
    fun id hid => hremoves.hasRequest h.beingSent hid, ?_, ?_⟩
  · have hold := h.task
    have hnone : s.queue.beingSent = none → q'.beingSent = none := by
      intro hnone
      cases hsent : q'.beingSent with
      | none => rfl
      | some id =>
        have hold := (hremoves.sending id hsent).1
        rw [hnone] at hold
        cases hold
    unfold TaskOk at hold ⊢
    simp only [withQueue, append_nil]
    cases htaskEq : s.task with
    | idle => exact hnone (by simpa [htaskEq] using hold)
    | applied => exact hnone (by simpa [htaskEq] using hold)
    | duplicate t =>
      simp [htaskEq] at hold
      exact ⟨hnone hold.1, hold.2⟩
    | sending request =>
      simp [htaskEq] at hold
      obtain ⟨hok, hin, hevent⟩ := hold
      refine ⟨hok, hin, fun hnot => ?_⟩
      obtain ⟨hbeing, stored, hstored, hid, hkind⟩ := hevent hnot
      have hkeep : request.transactionId ∉ uploads := fun hmem =>
        not_isUpload_of_request hok hnot (hup _ hmem)
      exact ⟨hremoves.keepsSending _ hkeep hbeing, stored,
        hremoves.keepsRequest stored hstored (hid ▸ hkeep), hid, hkind⟩
  · intro d hd key hkey
    exact h.keys_of rfl (List.Subset.refl _) (hremoves.dependents.subset hd)
      rfl hkey

/-- The task is done with the request it sent. -/
theorem stop {task : Task} (hq : QueueOk s.media s.used q') (hnone : q'.beingSent = none)
    (hdep : q'.dependents = s.queue.dependents)
    (htask : task = .idle ∨ ∃ t, task = .duplicate t ∧ t ∈ s.used ∧ ¬ IsUpload s.media t) :
    WellFormed (s.withTask q' task) where
  media := h.media
  queue := hq
  beingSent := by
    intro id hid
    change q'.beingSent = some id at hid
    rw [hnone] at hid
    cases hid
  task := by
    rcases htask with rfl | ⟨t, rfl, hused, hevent⟩
    · exact hnone
    · exact ⟨hnone, hused, hevent⟩
  keys := by
    intro d hd key hkey
    exact h.keys_of rfl (List.Subset.refl _) (hdep ▸ hd) rfl hkey

theorem peek (hpeek : s.queue.peekNextToSend = some (request, q')) :
    WellFormed (s.withTask q' (.sending request)) := by
  obtain ⟨hr, rfl⟩ := peekNextToSend_eq hpeek
  refine ⟨h.media, h.queue.sublist (Sublist.refl _) (Sublist.refl _), ?_, ?_, ?_⟩
  · intro id hid
    obtain rfl : request.transactionId = id := some_injective _ hid
    exact any_eq_true.mpr ⟨request, hr, by simp⟩
  · exact ⟨h.queue.request request hr, h.queue.requestsUsed request hr,
      fun _ => ⟨rfl, request, hr, rfl, rfl⟩⟩
  · intro d hd key hkey
    exact h.keys_of rfl (List.Subset.refl _) hd rfl hkey

theorem sent {answer : String} (htask : s.task = .sending request) :
    WellFormed ((s.withTask (s.queue.markAsSent request.transactionId (sentKey request answer))
      .idle).note [.sent request (sentKey request answer)]) := by
  have hold := h.task
  simp [TaskOk, htask] at hold
  obtain ⟨hok, -, -⟩ := hold
  have hready : QueueOk s.media s.used
      (s.queue.markAsSent request.transactionId (sentKey request answer)) :=
    (h.queue.markReady (sentKey request answer)).sublist remove_sublist
      (Sublist.refl _)
  refine ⟨h.media, hready, ?_, rfl, ?_⟩
  · intro id hid
    cases hid
  · intro d' hd' key hkey
    obtain ⟨d, hd, rfl⟩ := mem_map.mp hd'
    split at hkey
    · next hparent =>
      cases hkey
      refine ⟨request, answer, mem_append_right _ (by simp), ?_, rfl, hok⟩
      rw [if_pos hparent]
      exact hparent.symm
    · next hparent =>
      rw [if_neg hparent]
      exact h.keys_of rfl (subset_append_left _ _) hd rfl hkey

theorem applyOne {answers : Answers} (htask : s.task = .idle) (hd : d ∈ s.queue.dependents) :
    WellFormed (applyOne answers s d) := by
  have hold := h.task
  simp [TaskOk, htask] at hold
  have hnone : (s.queue.applySingle answers d).beingSent = none := by
    rw [applySingle_eq]
    split <;> exact hold
  have hremoved : QueueOk s.media s.used
      (s.queue.removeDependentQueuedRequest d.ownTransactionId) :=
    h.queue.sublist (Sublist.refl _) remove_sublist
  refine ⟨h.media, ?_, ?_, ?_, ?_⟩
  · change QueueOk s.media s.used (s.queue.applySingle answers d)
    have hdok := h.queue.dependent d hd
    rw [applySingle_eq]
    split
    · next kind happ =>
      refine hremoved.saveRequest ?_ (h.queue.dependentsUsed d hd).1
        (requestOk_of_queue h.media hdok happ)
      intro hid
      rcases mem_ids.mp hid with ⟨request, hr, heq⟩ | ⟨e, he, heq⟩
      · exact h.queue.disjoint request hr d hd heq
      · exact ne_of_mem_remove h.queue.dependentIds he heq
    · next content happ =>
      apply hremoved.updateRequest
      simp [DependentOk, (kind_of_edit happ).1] at hdok
      exact hdok.2
    · exact hremoved.sublist remove_sublist (Sublist.refl _)
    · exact hremoved
    · exact hremoved
    · exact h.queue
  · intro id hid
    change (s.queue.applySingle answers d).beingSent = some id at hid
    rw [hnone] at hid
    cases hid
  · unfold TaskOk
    simp only [CanonicalRequests.applyOne, htask]
    exact hnone
  · intro e he key hkey
    exact h.keys_of rfl (subset_append_left _ _) (applySingle_dependents_subset he) rfl hkey

theorem removeNonCanonical (canonical : List DependentQueuedRequest) :
    WellFormed { s with queue := s.queue.removeNonCanonical canonical } where
  media := h.media
  queue := h.queue.sublist (Sublist.refl _) filter_sublist
  beingSent := h.beingSent
  task := h.task
  keys := fun _ hd _ hkey =>
    h.keys_of rfl (List.Subset.refl _) (mem_of_mem_filter hd) rfl hkey

theorem step (hstep : Step s op s') : WellFormed s' := by
  cases hstep with
  | push hfresh hkind => exact (h.push hfresh hkind).note _
  | pushMedia hfresh =>
    obtain ⟨first, ds, finish, hqueued⟩ := pushMedia_queued s.queue _ _ _
    exact h.queued hfresh hqueued
  | pushGallery hitems hfresh =>
    obtain ⟨first, ds, finish, hqueued⟩ := pushGallery_queued s.queue _ _ hitems
    exact h.queued hfresh hqueued
  | replaceEvent hfresh => exact h.turn (replaceEvent_turn _) hfresh.2
  | editMediaCaption hfresh => exact h.turn (editMediaCaption_turn _) hfresh.2
  | react hfresh => exact h.turn (react_turn h.media h.queue _) hfresh.2
  | cancelEvent hfresh hevent => exact (h.turn (cancelEvent_turn _ hevent) hfresh.2).note _
  | removeDependent hreact => exact (h.turn (.dropReaction hreact) (by simp)).note _
  | abortUpload hmedia hhandles =>
    refine (h.removes abortUpload_removes fun id hid => ⟨_, hmedia, ?_⟩).note _
    simp only [uploadsOf, flatMap_cons, flatMap_nil, append_nil] at hid
    exact mem_flatMap.mpr ⟨_, hhandles, hid⟩
  | markAsUnwedged => exact h.turn .unwedge (by simp)
  | applyDependentRequests htask hnodup hparents =>
    obtain ⟨s₁, ⟨h₁, htask₁⟩, heq⟩ := applyDependentRequests_induct
      (P := fun s => WellFormed s ∧ s.task = .idle) h.queue.dependentIds
      (.applyDependentRequests htask hnodup hparents) ⟨h.removeNonCanonical _, htask⟩
      fun s d hd hs => ⟨hs.1.applyOne hs.2 hd, hs.2⟩
    rw [heq]
    have hold := h₁.task
    simp only [TaskOk, htask₁] at hold
    exact ⟨h₁.media, h₁.queue, h₁.beingSent, hold, fun d hd key hkey =>
      h₁.keys_of rfl (List.Subset.refl _) hd rfl hkey⟩
  | wait htask =>
    have hold := h.task
    simp [TaskOk, htask] at hold
    exact h.stop h.queue hold rfl (.inl rfl)
  | peek htask hpeek => exact (h.peek hpeek).note _
  | sent htask => exact h.sent htask
  | aborted htask hupload hcancelled => exact h.stop h.queue hcancelled rfl (.inl rfl)
  | notSent htask =>
    exact h.stop (h.queue.sublist (Sublist.refl _) (Sublist.refl _)) rfl rfl (.inl rfl)
  | wedged htask =>
    have hq : QueueOk s.media s.used s.queue.markAsNotBeingSent :=
      h.queue.sublist (Sublist.refl _) (Sublist.refl _)
    exact h.stop (hq.updateStatus _) rfl rfl (.inl rfl)
  | duplicate htask hevent =>
    have hold := h.task
    simp [TaskOk, htask] at hold
    exact h.stop (h.queue.sublist (Sublist.refl _) (Sublist.refl _)) rfl rfl
      (.inr ⟨_, rfl, hold.2.1, not_isUpload_of_request hold.1 hevent⟩)
  | @dropDuplicate t child htask hfresh =>
    have hold := h.task
    simp [TaskOk, htask] at hold
    have hturn : Turn s.media s.queue t [child] (s.queue.cancelEvent t none child).2 :=
      cancelEvent_turn none hold.2.2
    have hnext := (h.turn hturn hfresh.2).note
      (if (s.queue.cancelEvent t none child).1 then [.cancelled t] else [])
    exact hnext.stop hnext.queue (hturn.beingSent_eq.trans hold.1) rfl (.inl rfl)

end

end WellFormed

theorem applyDependentRequests_dependents_subset {parents : List ℕ} (h : WellFormed s)
    (hstep : Step s (.applyDependentRequests parents answers) s') :
    s'.queue.dependents ⊆ s.queue.dependents := by
  obtain ⟨s₁, h₁, heq⟩ := applyDependentRequests_induct
    (P := fun s₁ => s₁.queue.dependents ⊆ s.queue.dependents) h.queue.dependentIds hstep
    (fun _ hd => mem_of_mem_filter hd)
    fun s₁ d _ hsub _ hd => hsub (applySingle_dependents_subset hd)
  rw [heq]
  exact h₁

/-! ### Ids and the log only grow -/

theorem step_used (h : Step s op s') : s.used ⊆ s'.used := by
  cases h with
  | applyDependentRequests | wait | peek | sent | aborted | notSent | wedged | duplicate =>
    exact List.Subset.refl _
  | _ => exact subset_append_left _ _

theorem step_log (h : Step s op s') : ∃ entries, s'.log = s.log ++ entries := by
  cases h with
  | replaceEvent | editMediaCaption | react | markAsUnwedged | wait | aborted | notSent | wedged
  | duplicate => exact ⟨[], (append_nil _).symm⟩
  | _ => exact ⟨_, rfl⟩

/-- A stored id was stored before, or is new. -/
structure IdsFrom (used : List ℕ) (q q' : QueueStorage) : Prop where
  dependent : ∀ d' ∈ q'.dependents,
    (∃ d ∈ q.dependents, d.ownTransactionId = d'.ownTransactionId) ∨ d'.ownTransactionId ∉ used
  request : ∀ request ∈ q'.requests,
    request.transactionId ∈ ids q ∨ request.transactionId ∉ used

theorem IdsFrom.mem_ids {id : ℕ} (h : IdsFrom used q q') (hid : id ∈ ids q') :
    id ∈ ids q ∨ id ∉ used := by
  rcases QueueInvariants.mem_ids.mp hid with ⟨request, hr, rfl⟩ | ⟨d', hd', rfl⟩
  · exact h.request request hr
  · rcases h.dependent d' hd' with ⟨d, hd, heq⟩ | hnew
    · exact .inl (heq ▸ mem_ids_of_dependent hd)
    · exact .inr hnew

theorem idsFrom_of_sublist
    (hreq : (q'.requests.map (·.transactionId)).Sublist (q.requests.map (·.transactionId)))
    (hdep : (q'.dependents.map (·.ownTransactionId)).Sublist
      (q.dependents.map (·.ownTransactionId))) : IdsFrom used q q' where
  dependent := by
    intro d' hd'
    obtain ⟨d, hd, heq⟩ := mem_map.mp (hdep.subset (mem_map_of_mem hd'))
    exact .inl ⟨d, hd, heq⟩
  request := by
    intro request hr
    obtain ⟨r, hrmem, heq⟩ := mem_map.mp (hreq.subset (mem_map_of_mem hr))
    have hid : r.transactionId = request.transactionId := heq
    exact .inl (hid ▸ mem_ids_of_request hrmem)

theorem idsFrom_of_append {requests : List QueuedRequest} {dependents : List DependentQueuedRequest}
    (hreq : ∀ request ∈ requests, request.transactionId ∉ used)
    (hdep : ∀ d ∈ dependents, d.ownTransactionId ∉ used) :
    IdsFrom used q { q with
      requests := q.requests ++ requests, dependents := q.dependents ++ dependents } where
  dependent := forall_mem_append.mpr ⟨fun d hd => .inl ⟨d, hd, rfl⟩, fun d hd => .inr (hdep d hd)⟩
  request := forall_mem_append.mpr
    ⟨fun _ hr => .inl (mem_ids_of_request hr), fun request hr => .inr (hreq request hr)⟩

theorem Turn.idsFrom (h : Turn media q t new q') (hnew : ∀ id ∈ new, id ∉ used) :
    IdsFrom used q q' := by
  have hpark : ∀ child, child ∈ new → ∀ parent kind,
      IdsFrom used q (q.saveDependentQueuedRequest parent child kind) := by
    intro child hchild parent kind
    have happend : IdsFrom used q { q with
        requests := q.requests ++ []
        dependents := q.dependents ++ [⟨kind, parent, child, none⟩] } :=
      idsFrom_of_append (by simp) (by simpa using hnew child hchild)
    simpa [saveDependentQueuedRequest] using happend
  cases h with
  | same => exact idsFrom_of_sublist (Sublist.refl _) (Sublist.refl _)
  | parkEdit | parkRedact | parkReact => exact hpark _ (by simp) _ _
  | write => exact idsFrom_of_sublist (by simp) (Sublist.refl _)
  | recaption => exact idsFrom_of_sublist (Sublist.refl _) (by simp)
  | drop => exact idsFrom_of_sublist (remove_sublist.map _) (Sublist.refl _)
  | dropReaction => exact idsFrom_of_sublist (Sublist.refl _) (remove_sublist.map _)
  | unwedge =>
    have hids := q.updateSendQueueRequestStatus_ids t none
    exact idsFrom_of_sublist (hids ▸ Sublist.refl _) (Sublist.refl _)

theorem idsFrom_of_queued (h : Queued q q' x uploads first ds finish)
    (hfresh : ∀ id ∈ uploads ++ [x], id ∉ used) : IdsFrom used q q' := by
  rw [h.eq]
  rw [h.ids_eq] at hfresh
  apply idsFrom_of_append
  · exact forall_mem_singleton.mpr (hfresh _ mem_cons_self)
  · exact fun d hd => hfresh _ (mem_cons_of_mem _ (mem_map_of_mem hd))

/-- Applying a dependent request moves its id from the dependent requests to the requests. -/
theorem applySingle_idsFrom (hd : d ∈ q.dependents) : IdsFrom used q (q.applySingle answers d) := by
  have hremove : ((q.removeDependentQueuedRequest d.ownTransactionId).dependents.map
      (·.ownTransactionId)).Sublist (q.dependents.map (·.ownTransactionId)) :=
    remove_sublist.map _
  rw [applySingle_eq]
  split
  · have hbase : IdsFrom used q (q.removeDependentQueuedRequest d.ownTransactionId) :=
      idsFrom_of_sublist (Sublist.refl _) hremove
    refine ⟨hbase.dependent, forall_mem_append.mpr ⟨fun request hr => ?_, ?_⟩⟩
    · exact .inl (mem_ids_of_request hr)
    · exact forall_mem_singleton.mpr (.inl (mem_ids_of_dependent hd))
  · exact idsFrom_of_sublist (by simp [removeDependentQueuedRequest]) hremove
  · exact idsFrom_of_sublist (remove_sublist.map _) hremove
  · exact idsFrom_of_sublist (Sublist.refl _) hremove
  · exact idsFrom_of_sublist (Sublist.refl _) hremove
  · exact idsFrom_of_sublist (Sublist.refl _) (Sublist.refl _)

theorem IdsFrom.trans {q'' : QueueStorage} (h : IdsFrom used q q') (h' : IdsFrom used q' q'') :
    IdsFrom used q q'' where
  dependent := by
    intro d hd
    rcases h'.dependent d hd with ⟨d', hd', heq⟩ | hnew
    · rcases h.dependent d' hd' with ⟨e, he, heq'⟩ | hnew
      · exact .inl ⟨e, he, heq'.trans heq⟩
      · exact .inr (heq ▸ hnew)
    · exact .inr hnew
  request := by
    intro request hr
    rcases h'.request request hr with hid | hnew
    · exact h.mem_ids hid
    · exact .inr hnew

theorem step_idsFrom (h : WellFormed s) (hstep : Step s op s') :
    IdsFrom s.used s.queue s'.queue := by
  have hsame : ∀ q', (q'.requests.map (·.transactionId)) =
      s.queue.requests.map (·.transactionId) → q'.dependents = s.queue.dependents →
      IdsFrom s.used s.queue q' := fun q' hreq hdep =>
    idsFrom_of_sublist (hreq ▸ Sublist.refl _) (hdep ▸ Sublist.refl _)
  cases hstep with
  | @push t kind hfresh =>
    have happend : IdsFrom s.used s.queue { s.queue with
        requests := s.queue.requests ++ [⟨kind, t, none, lowPriority⟩]
        dependents := s.queue.dependents ++ [] } :=
      idsFrom_of_append (by simpa using hfresh.2 t (by simp)) (by simp)
    simpa [RoomSendQueue.note, withQueue, QueueStorage.push, saveSendQueueRequest] using happend
  | pushMedia hfresh =>
    obtain ⟨first, ds, finish, hqueued⟩ := pushMedia_queued s.queue _ _ _
    exact idsFrom_of_queued hqueued hfresh.2
  | pushGallery hitems hfresh =>
    obtain ⟨first, ds, finish, hqueued⟩ := pushGallery_queued s.queue _ _ hitems
    exact idsFrom_of_queued hqueued hfresh.2
  | replaceEvent hfresh => exact (replaceEvent_turn _ : Turn s.media _ _ _ _).idsFrom hfresh.2
  | editMediaCaption hfresh =>
    exact (editMediaCaption_turn _ : Turn s.media _ _ _ _).idsFrom hfresh.2
  | react hfresh => exact (react_turn h.media h.queue _).idsFrom hfresh.2
  | cancelEvent hfresh hevent => exact (cancelEvent_turn _ hevent).idsFrom hfresh.2
  | removeDependent hreact =>
    exact idsFrom_of_sublist (Sublist.refl _) (remove_sublist.map _)
  | abortUpload =>
    exact idsFrom_of_sublist (abortUpload_removes.requests.map _)
      (abortUpload_removes.dependents.map _)
  | @markAsUnwedged t => exact hsame _ (s.queue.updateSendQueueRequestStatus_ids t none) rfl
  | applyDependentRequests htask hnodup hparents =>
    obtain ⟨s₁, h₁, heq⟩ := applyDependentRequests_induct
      (P := fun s₁ => IdsFrom s.used s.queue s₁.queue) h.queue.dependentIds
      (.applyDependentRequests htask hnodup hparents)
      (idsFrom_of_sublist (Sublist.refl _) (filter_sublist.map _))
      fun s₁ d hd hs => hs.trans (applySingle_idsFrom hd)
    rw [heq]
    exact h₁
  | wait => exact hsame _ rfl rfl
  | peek htask hpeek =>
    obtain ⟨-, rfl⟩ := peekNextToSend_eq hpeek
    exact hsame _ rfl rfl
  | @sent request answer =>
    have hids := s.queue.markDependentQueuedRequestsAsReady_ids request.transactionId
      (sentKey request answer)
    exact idsFrom_of_sublist (remove_sublist.map _) (hids ▸ Sublist.refl _)
  | aborted => exact hsame _ rfl rfl
  | notSent => exact hsame _ rfl rfl
  | @wedged request reason =>
    exact hsame _ (s.queue.updateSendQueueRequestStatus_ids request.transactionId (some reason)) rfl
  | duplicate => exact hsame _ rfl rfl
  | dropDuplicate htask hfresh =>
    have hold := h.task
    simp [TaskOk, htask] at hold
    exact (cancelEvent_turn none hold.2.2).idsFrom hfresh.2

theorem not_isUpload_of_step (hstep : Step s op s') (hused : t ∈ s.used)
    (h : ¬ IsUpload s.media t) : ¬ IsUpload s'.media t := by
  cases hstep with
  | pushMedia hfresh | pushGallery _ hfresh =>
    exact not_isUpload_grow h fun hmem => hfresh.2 t (mem_append_left _ hmem) hused
  | _ => exact h

/-! ### What was sent is not stored -/

theorem sending_of_step (hstep : Step s op s') (htask : s'.task = .sending request) :
    s.task = .sending request ∨ request ∈ s.queue.requests := by
  cases hstep with
  | peek _ hpeek =>
    cases htask
    exact .inr (peekNextToSend_eq hpeek).1
  | applyDependentRequests | wait | sent | aborted | notSent | wedged | duplicate | dropDuplicate =>
    cases htask
  | _ => exact .inl htask

theorem sent_not_mem_entriesOf : .sent request key ∉ entriesOf answers d := by
  unfold entriesOf
  split
  · split <;> simp
  · simp
  · simp

theorem sent_of_step (hstep : Step s op s') (h : .sent request key ∈ s'.log) :
    .sent request key ∈ s.log ∨ s.task = .sending request ∧ ∃ answer, op = .sent answer := by
  have hcancel : ∀ (b : Bool) (t : ℕ),
      .sent request key ∉ (if b then [Entry.cancelled t] else []) := by
    intro b t
    cases b <;> simp
  cases hstep with
  | sent htask =>
    rcases mem_append.mp h with h | h
    · exact .inl h
    · obtain ⟨rfl, -⟩ := Entry.sent.inj (mem_singleton.mp h)
      exact .inr ⟨htask, _, rfl⟩
  | applyDependentRequests =>
    rcases mem_append.mp h with h | h
    · exact .inl h
    · obtain ⟨d, -, hd⟩ := mem_flatMap.mp h
      exact absurd hd sent_not_mem_entriesOf
  | cancelEvent | removeDependent | abortUpload | dropDuplicate =>
    exact .inl ((mem_append.mp h).resolve_right (hcancel _ _))
  | push => exact .inl ((mem_append.mp h).resolve_right (by simp))
  | pushMedia => exact .inl ((mem_append.mp h).resolve_right (by simp))
  | pushGallery => exact .inl ((mem_append.mp h).resolve_right (by simp))
  | peek => exact .inl ((mem_append.mp h).resolve_right (by simp))
  | _ => exact .inl h

/-- The id of an event that was sent is never stored again. -/
def SentGone (s : RoomSendQueue) : Prop :=
  ∀ request key, .sent request key ∈ s.log → request.transactionId ∈ s.used ∧
    (isUploadRequest request = false → request.transactionId ∉ ids s.queue)

theorem SentGone.step (h : SentGone s) (hs : WellFormed s) (hstep : Step s op s') :
    SentGone s' := by
  intro request key hsent
  rcases sent_of_step hstep hsent with hold | ⟨htask, answer, rfl⟩
  · obtain ⟨hused, hgone⟩ := h request key hold
    refine ⟨step_used hstep hused, fun hevent hid => ?_⟩
    rcases (step_idsFrom hs hstep).mem_ids hid with hstored | hnew
    · exact hgone hevent hstored
    · exact hnew hused
  · have htaskOk := hs.task
    simp [TaskOk, htask] at htaskOk
    obtain ⟨-, hused, hstored⟩ := htaskOk
    refine ⟨step_used hstep hused, fun hevent hid => ?_⟩
    obtain ⟨-, stored, hr, hsame, -⟩ := hstored hevent
    cases hstep with
    | sent htask' =>
      obtain rfl := Task.sending.inj (htask'.symm.trans htask)
      rcases mem_ids.mp hid with ⟨other, hother, heq⟩ | ⟨d', hd', heq⟩
      · exact ne_of_mem_remove hs.queue.requestIds hother heq
      · obtain ⟨d, hd, rfl⟩ := mem_map.mp hd'
        apply hs.queue.disjoint stored hr d hd
        rw [hsame, ← heq]
        split <;> rfl

theorem wellFormed_of_trace (h : Trace Step RoomSendQueue.new ops s) : WellFormed s :=
  h.preserves (fun _ _ _ hs hstep => hs.step hstep) wellFormed_new

theorem sentGone_of_trace (h : Trace Step RoomSendQueue.new ops s) : SentGone s := by
  have hkeeps : ∀ s op s', WellFormed s ∧ SentGone s → Step s op s' →
      WellFormed s' ∧ SentGone s' :=
    fun s op s' hs hstep => ⟨hs.1.step hstep, hs.2.step hs.1 hstep⟩
  exact (h.preserves hkeeps ⟨wellFormed_new, by simp [SentGone, RoomSendQueue.new]⟩).2

/-- Something that a user wants done to an event, as opposed to a part of a media event. -/
def Intent (d : DependentQueuedRequest) : Prop :=
  d.kind.isEdit = true ∨ d.kind.isRedact = true ∨ d.kind.isReact = true

theorem intent_or_follows (h : DependentOk media d) :
    (Intent d ∧ d.ownTransactionId ∉ mediaIds media ∧ ¬ IsUpload media d.parentTransactionId) ∨
      (¬ Intent d ∧ ∃ x, Follows media x d.parentTransactionId d.ownTransactionId) := by
  unfold DependentOk at h
  unfold Intent
  cases hkind : d.kind with
  | editEvent _ | redactEvent _ | reactEvent _ =>
    rw [hkind] at h
    exact .inl ⟨by simp [isEdit, isRedact, isReact], h⟩
  | uploadFileOrThumbnail _ _ relatedTo _ =>
    rw [hkind] at h
    exact .inr ⟨by simp [isEdit, isRedact, isReact], relatedTo, h.1⟩
  | finishUpload _ | finishGallery _ _ =>
    rw [hkind] at h
    exact .inr ⟨by simp [isEdit, isRedact, isReact], d.ownTransactionId, h⟩

theorem own_not_mem_of_intent (h : DependentOk media d) (hintent : Intent d) :
    d.ownTransactionId ∉ mediaIds media := by
  rcases intent_or_follows h with ⟨-, hown, -⟩ | ⟨hnot, -⟩
  · exact hown
  · exact absurd hintent hnot

theorem mem_abortUpload_of_intent {handles : MediaHandles} {x : ℕ} {all : List MediaHandles}
    (hs : WellFormed s) (hmedia : (x, all) ∈ s.media) (hhandles : handles ∈ all)
    (hd : d ∈ s.queue.dependents) (hintent : Intent d) :
    d ∈ (s.queue.abortUpload x handles).2.dependents := by
  refine abortUpload_removes.keepsDependent d hd fun hmem => ?_
  apply own_not_mem_of_intent (hs.queue.dependent d hd) hintent
  apply mem_mediaIds.mpr
  refine ⟨(x, all), hmedia, ?_⟩
  rcases mem_pair.mp hmem with heq | heq
  · rw [heq]
    exact mem_append_left _ (mem_flatMap.mpr ⟨handles, hhandles, by simp⟩)
  · simp [heq]

end MatrixSdk.QueueTurns

import MatrixSdk.QueueTurns

/-!
Edits of a local echo. An edit that is accepted while the event is being sent is parked as a
dependent request, any other one is written into what is stored. The content an event ends up
with is that of the last parked edit, then what is stored, then the last version the server was
given. Most steps leave all of this alone.
-/
namespace MatrixSdk.ParkedEdits

open KeyedRows SendQueue RoomSendQueues QueueInvariants QueueTurns
open QueueStorage RoomSendQueue DependentQueuedRequestKind List

variable {s s' : RoomSendQueue} {q q' : QueueStorage} {t t' child : ℕ} {op : Op} {answers : Answers}
  {d : DependentQueuedRequest} {content : EventContent}

/-- What an edit replaces. The media a content points to are those of the uploads, and an edit
event relates to the event it edits. -/
def visible (content : EventContent) : String × String := (content.eventType, content.body)

def isEditOf (t : ℕ) (d : DependentQueuedRequest) : Bool :=
  d.kind.isEdit && d.parentTransactionId = t

/-- The edits of an event that wait for the answer to it. -/
def parked (q : QueueStorage) (t : ℕ) : List DependentQueuedRequest :=
  q.dependents.filter (isEditOf t)

def newContent (d : DependentQueuedRequest) : Option EventContent :=
  match d.kind with
  | .editEvent content => some content
  | _ => none

def localEcho (d : DependentQueuedRequest) : Option EventContent :=
  match d.kind with
  | .finishUpload content | .finishGallery content _ => some content
  | _ => none

/-- The content of an event that is queued, or that waits for its uploads. -/
def queuedContent (q : QueueStorage) (t : ℕ) : Option EventContent :=
  ((q.requests.find? (·.transactionId = t)).bind QueuedRequest.asEvent).or
    ((q.dependents.find? (·.ownTransactionId = t)).bind localEcho)

def version (t : ℕ) : Entry → Option EventContent
  | .sent request _ => if request.transactionId = t then request.asEvent else none
  | .edited t' content => if t' = t then some content else none
  | _ => none

/-- The event as it was sent, and the edit events that were queued for it. -/
def versions (log : List Entry) (t : ℕ) : List EventContent := log.filterMap (version t)

/-- The content an event ends up with. -/
def finalContent (s : RoomSendQueue) (t : ℕ) : Option EventContent :=
  ((parked s.queue t).getLast?.bind newContent).or
    ((queuedContent s.queue t).or (versions s.log t).getLast?)

/-- An edit of the event is accepted, with this new content. -/
def Accepts (s : RoomSendQueue) (op : Op) (t : ℕ) (content : EventContent) : Prop :=
  (∃ child, op = .replaceEvent t content child ∧
    (s.queue.replaceEvent t content child).1 = true) ∨
  ∃ caption child, op = .editMediaCaption t caption child ∧
    (s.queue.editMediaCaption t caption child).1 = .ok (some content)

/-- The event is cancelled or aborted. -/
def Drops (s : RoomSendQueue) (op : Op) (t : ℕ) : Prop :=
  (∃ reason child, op = .cancelEvent t reason child) ∨ op = .removeDependent t ∨
    (∃ handles, op = .abortUpload t handles) ∨
    ∃ child, op = .dropDuplicate child ∧ s.task = .duplicate t

def NotRedacted (t : ℕ) (q : QueueStorage) : Prop :=
  ∀ d ∈ q.dependents, d.kind.isRedact = true → d.parentTransactionId ≠ t

/-- An edit event can be made of each parked edit of an event that was sent. -/
def Editable (s : RoomSendQueue) (op : Op) (t : ℕ) : Prop :=
  ∀ parents answers, op = .applyDependentRequests parents answers →
    ∀ d ∈ parked s.queue t, answers.edits d.ownTransactionId = true ∧
      ∀ content, d.kind = .editEvent content →
        ∀ eventId, (makeEditEvent content eventId).isSome = true

/-- What a step leaves of an event when it does not touch it. -/
structure Frame (t : ℕ) (s s' : RoomSendQueue) : Prop where
  parked : parked s'.queue t = parked s.queue t
  request : ∀ request ∈ s.queue.requests, request.transactionId = t →
    ∃ request' ∈ s'.queue.requests, request'.transactionId = t ∧ request'.kind = request.kind
  finish : ∀ d ∈ s.queue.dependents, d.ownTransactionId = t → d.kind.isOwnEvent = true →
    ∃ d' ∈ s'.queue.dependents, d'.ownTransactionId = t ∧ d'.kind = d.kind
  notRedacted : NotRedacted t s.queue → NotRedacted t s'.queue
  versions : versions s'.log t = versions s.log t

theorem frame_of_same_dependents (hdep : s'.queue.dependents = s.queue.dependents)
    (hrequest : ∀ request ∈ s.queue.requests, request.transactionId = t →
      ∃ request' ∈ s'.queue.requests, request'.transactionId = t ∧ request'.kind = request.kind)
    (hlog : versions s'.log t = versions s.log t) : Frame t s s' where
  parked := by simp [ParkedEdits.parked, hdep]
  request := hrequest
  finish := by
    rw [hdep]
    exact fun d hd hown _ => ⟨d, hd, hown, rfl⟩
  notRedacted := by
    unfold NotRedacted
    rw [hdep]
    exact id
  versions := hlog

variable {ds : List DependentQueuedRequest} {used : List ℕ} {x : ℕ}

theorem frame_of_append (hdep : s'.queue.dependents = s.queue.dependents ++ ds)
    (hds : ∀ d ∈ ds, isEditOf t d = false ∧ (d.kind.isRedact = true → d.parentTransactionId ≠ t))
    (hreq : s.queue.requests ⊆ s'.queue.requests) (hlog : versions s'.log t = versions s.log t) :
    Frame t s s' where
  parked := by
    have hnone : ds.filter (isEditOf t) = [] :=
      filter_eq_nil_iff.mpr fun d hd => by simp [(hds d hd).1]
    simp [ParkedEdits.parked, hdep, hnone]
  request := fun request hr hid => ⟨request, hreq hr, hid, rfl⟩
  finish := by
    rw [hdep]
    exact fun d hd hown _ => ⟨d, mem_append_left _ hd, hown, rfl⟩
  notRedacted hnot := by
    unfold NotRedacted
    rw [hdep]
    exact forall_mem_append.mpr ⟨hnot, fun d hd => (hds d hd).2⟩
  versions := hlog

variable {media : Media}

theorem turn_frame {new : List ℕ} (hq : QueueOk media used s.queue)
    (hturn : Turn media s.queue t' new q') (hne : t' ≠ t) : Frame t s (s.withQueue q' new) := by
  have hpark : ∀ child kind,
      Frame t s (s.withQueue (s.queue.saveDependentQueuedRequest t' child kind) [child]) := by
    intro child kind
    have hdep : (s.queue.saveDependentQueuedRequest t' child kind).dependents =
        s.queue.dependents ++ [⟨kind, t', child, none⟩] := rfl
    refine frame_of_append hdep (fun d hd => ?_) (List.Subset.refl _) rfl
    rw [mem_singleton.mp hd]
    exact ⟨by simp [isEditOf, hne], fun _ => hne⟩
  cases hturn with
  | same =>
    exact frame_of_same_dependents rfl (fun request hr hid => ⟨request, hr, hid, rfl⟩) rfl
  | parkEdit | parkRedact | parkReact => exact hpark _ _
  | write | unwedge =>
    refine frame_of_same_dependents rfl (fun request hr hid => ⟨request, ?_, hid, rfl⟩) rfl
    simp only [withQueue, updateSendQueueRequest, markAsUnwedged, updateSendQueueRequestStatus]
    rw [update_eq_map hq.requestIds]
    exact mem_map.mpr ⟨request, hr, if_neg fun heq => hne (heq.symm.trans hid)⟩
  | @recaption _ e echo content he heown hkind =>
    have hmap := update_eq_map (k := t') hq.dependentIds
      (f := fun d => { d with kind := .finishUpload content })
    have hedit : ∀ d ∈ s.queue.dependents, d.ownTransactionId = t' → d.kind = e.kind := by
      intro d hd hown
      rw [inj_on_of_nodup_map hq.dependentIds hd he (hown.trans heown.symm)]
    refine ⟨?_, fun request hr hid => ⟨request, hr, hid, rfl⟩, ?_, ?_, rfl⟩
    · apply filter_update
      intro d hd hown
      simp [isEditOf, hedit d hd hown, hkind, isEdit]
    · intro d hd hown howner
      refine ⟨d, ?_, hown, rfl⟩
      simp only [withQueue, updateDependentQueuedRequest]
      rw [hmap]
      exact mem_map.mpr ⟨d, hd, if_neg fun heq => hne (heq.symm.trans hown)⟩
    · intro hnot d hd hredact
      simp [withQueue, updateDependentQueuedRequest] at hd
      rw [hmap] at hd
      obtain ⟨d₀, hd₀, rfl⟩ := mem_map.mp hd
      split at hredact
      · cases hredact
      · next hother =>
        rw [if_neg hother]
        exact hnot d₀ hd₀ hredact
  | drop =>
    refine frame_of_same_dependents rfl (fun request hr hid => ⟨request, ?_, hid, rfl⟩) rfl
    exact mem_remove_of_ne hr fun heq => hne (heq.symm.trans hid)
  | dropReaction hreact =>
    refine ⟨?_, fun request hr hid => ⟨request, hr, hid, rfl⟩, ?_, ?_, rfl⟩
    · apply filter_remove
      intro d hd hown
      have hkind := hreact d hd hown
      unfold isEditOf
      cases hd' : d.kind <;> simp_all [isReact, isEdit]
    · intro d hd hown _
      exact ⟨d, mem_remove_of_ne hd fun heq => hne (heq.symm.trans hown), hown, rfl⟩
    · exact fun hnot d hd => hnot d (mem_of_mem_remove hd)

theorem unwedge_frame (hq : QueueOk media used s.queue) :
    Frame t s (s.withQueue (s.queue.markAsUnwedged t') []) := by
  refine frame_of_same_dependents rfl (fun request hr hid => ?_) rfl
  refine ⟨if request.transactionId = t' then { request with error := none } else request, ?_, ?_⟩
  · simp only [withQueue, markAsUnwedged, updateSendQueueRequestStatus]
    rw [update_eq_map hq.requestIds]
    exact mem_map.mpr ⟨request, hr, rfl⟩
  · split <;> exact ⟨hid, rfl⟩

theorem queued_frame {uploads : List ℕ} {handles : List MediaHandles} {first : QueuedRequest}
    {finish : DependentQueuedRequest} (h : Queued s.queue q' x uploads first ds finish) :
    Frame t s (s.withMedia q' x handles) := by
  have hdep : q'.dependents = s.queue.dependents ++ (ds ++ [finish]) := by rw [h.eq]
  refine frame_of_append hdep (fun d hd => ?_) ?_ ?_
  · rcases mem_append.mp hd with hd | hd
    · obtain ⟨-, contentType, cacheKey, isThumbnail, hkind⟩ := h.chain.kind hd
      simp [isEditOf, hkind, isEdit, isRedact]
    · rw [mem_singleton.mp hd]
      have hkind := h.finishKind
      unfold isEditOf
      cases hfinish : finish.kind <;> simp_all [isOwnEvent, isEdit, isRedact]
  · change s.queue.requests ⊆ q'.requests
    rw [h.eq]
    exact subset_append_left _ _
  · simp [versions, withMedia, version]

theorem abort_frame {handles : MediaHandles} {all : List MediaHandles} (hs : WellFormed s)
    (hmedia : (x, all) ∈ s.media) (hhandles : handles ∈ all) (hne : x ≠ t)
    (hevent : ¬ IsUpload s.media t) :
    Frame t s (s.withQueue (s.queue.abortUpload x handles).2 []) := by
  have hremoves : Removes (uploadsOf [handles]) [handles.uploadFileTxn, x] s.queue
      (s.queue.abortUpload x handles).2 := abortUpload_removes
  have hup : ∀ id ∈ uploadsOf [handles], id ∈ uploadsOf all := by
    intro id hid
    simp only [uploadsOf, flatMap_cons, flatMap_nil, append_nil] at hid
    exact mem_flatMap.mpr ⟨handles, hhandles, hid⟩
  have hfile : handles.uploadFileTxn ∈ uploadsOf all := hup _ (by simp [uploadsOf])
  refine ⟨?_, ?_, ?_, ?_, rfl⟩
  · -- what is removed are no edits
    apply (hremoves.dependents.filter _).eq_of_length_le
    apply (subperm_of_subset (hs.queue.dependentIds.of_map.filter _) fun d hd => ?_).length_le
    obtain ⟨hd, hedit⟩ := mem_filter.mp hd
    exact mem_filter.mpr ⟨mem_abortUpload_of_intent hs hmedia hhandles hd
      (.inl (Bool.and_eq_true_iff.mp hedit).1), hedit⟩
  · intro request hr hid
    refine ⟨request, hremoves.keepsRequest request hr fun hmem => ?_, hid, rfl⟩
    exact hevent ⟨(x, all), hmedia, hid ▸ hup _ hmem⟩
  · intro d hd hown _
    refine ⟨d, hremoves.keepsDependent d hd fun hmem => ?_, hown, rfl⟩
    rcases mem_pair.mp hmem with heq | heq
    · apply hevent
      rw [← hown, heq]
      exact ⟨(x, all), hmedia, hfile⟩
    · exact hne (heq.symm.trans hown)
  · exact fun hnot d hd => hnot d (hremoves.dependents.subset hd)

theorem Frame.note {entries : List Entry} (h : Frame t s s')
    (hnone : ∀ entry ∈ entries, version t entry = none) : Frame t s (s'.note entries) where
  parked := h.parked
  request := h.request
  finish := h.finish
  notRedacted := h.notRedacted
  versions := by
    have hnil : entries.filterMap (version t) = [] := filterMap_eq_nil_iff.mpr hnone
    simp only [ParkedEdits.versions, RoomSendQueue.note, filterMap_append, hnil, append_nil]
    exact h.versions

theorem cancelled_note (h : Frame t s s') (b : Bool) (t' : ℕ) :
    Frame t s (s'.note (if b then [.cancelled t'] else [])) := by
  apply h.note
  cases b <;> simp [version]

/-! ### Edits that are not accepted -/

theorem replaceEvent_of_false (h : (q.replaceEvent t content child).1 = false) :
    (q.replaceEvent t content child).2 = q := by
  unfold replaceEvent at h ⊢
  split
  · rfl
  · next hany =>
    rw [if_neg hany] at h
    split at h
    · cases h
    · obtain ⟨request, hr, hid, -⟩ := exists_ownEvent hany
      have hhas : q.hasRequest t = true := any_eq_true.mpr ⟨request, hr, decide_eq_true hid⟩
      simp [hhas] at h

theorem editMediaCaption_of_ne {caption : String}
    (h : ∀ content, (q.editMediaCaption t caption child).1 ≠ .ok (some content)) :
    (q.editMediaCaption t caption child).2 = q := by
  unfold editMediaCaption at h ⊢
  split
  · next found hfind =>
    simp only [hfind] at h
    split
    · next echo hkind =>
      simp [hkind] at h
      split
      · next content hcontent =>
        simp only [hcontent] at h
        exact absurd rfl (h content)
      · rfl
    · rfl
  · next hnone =>
    simp only [hnone] at h
    split
    · rfl
    · next found hfind =>
      simp [hfind] at h
      split
      · rfl
      · next content hcontent =>
        simp [hcontent] at h
        split at h <;> exact absurd rfl (h content)

theorem same_frame (new : List ℕ) : Frame t s (s.withQueue s.queue new) :=
  frame_of_same_dependents rfl (fun request hr hid => ⟨request, hr, hid, rfl⟩) rfl

/-! ### Steps that do not touch the event -/

theorem sent_frame {request : QueuedRequest} {answer : String} (hne : request.transactionId ≠ t) :
    Frame t s ((s.withTask (s.queue.markAsSent request.transactionId (sentKey request answer))
      .idle).note [.sent request (sentKey request answer)]) := by
  refine Frame.note ⟨?_, ?_, ?_, ?_, rfl⟩ (by simp [version, hne])
  · have hmap : ∀ l : List DependentQueuedRequest, (l.map fun d =>
        if d.parentTransactionId = request.transactionId then
          { d with parentKey := some (sentKey request answer) } else d).filter (isEditOf t) =
        l.filter (isEditOf t) := by
      intro l
      induction l with
      | nil => rfl
      | cons d l ih =>
        rw [map_cons, filter_cons, filter_cons, ih]
        split
        · next hparent =>
          have hnot : isEditOf t d = false := by simp [isEditOf, hparent, hne]
          have hnot' : isEditOf t { d with parentKey := some (sentKey request answer) } = false :=
            hnot
          simp [hnot, hnot']
        · rfl
    exact hmap _
  · intro stored hr hid
    exact ⟨stored, mem_remove_of_ne hr fun heq => hne (heq.symm.trans hid), hid, rfl⟩
  · intro d hd hown _
    refine ⟨_, mem_map.mpr ⟨d, hd, rfl⟩, ?_⟩
    split <;> exact ⟨hown, rfl⟩
  · intro hnot d' hd' hredact
    obtain ⟨d, hd, rfl⟩ := mem_map.mp hd'
    have hold := hnot d hd
    split at hredact
    · next hparent =>
      rw [if_pos hparent]
      exact hold hredact
    · next hparent =>
      rw [if_neg hparent]
      exact hold hredact

theorem step_frame (hs : WellFormed s) (hstep : Step s op s') (hevent : ¬ IsUpload s.media t)
    (haccepts : ∀ content, ¬ Accepts s op t content) (hdrops : ¬ Drops s op t)
    (happly : ∀ parents answers, op ≠ .applyDependentRequests parents answers)
    (hsent : ∀ request, s.task = .sending request → ∀ answer, op = .sent answer →
      request.transactionId ≠ t) : Frame t s s' := by
  have hkeep : ∀ request ∈ s.queue.requests, request.transactionId = t →
      ∃ request' ∈ s.queue.requests, request'.transactionId = t ∧ request'.kind = request.kind :=
    fun request hr hid => ⟨request, hr, hid, rfl⟩
  cases hstep with
  | push =>
    refine Frame.note (frame_of_append (append_nil _).symm (by simp) ?_ rfl) (by simp [version])
    exact subset_append_left _ _
  | @pushMedia event x item =>
    obtain ⟨first, ds, finish, hqueued⟩ := pushMedia_queued s.queue event x item
    exact queued_frame hqueued
  | @pushGallery event x items hitems =>
    obtain ⟨first, ds, finish, hqueued⟩ := pushGallery_queued s.queue event x hitems
    exact queued_frame hqueued
  | @replaceEvent t' content child =>
    by_cases hsame : t' = t
    · subst hsame
      have hfalse : (s.queue.replaceEvent t' content child).1 = false := by
        rw [← Bool.not_eq_true]
        exact fun htrue => haccepts content (.inl ⟨child, rfl, htrue⟩)
      rw [replaceEvent_of_false hfalse]
      exact same_frame _
    · exact turn_frame hs.queue (replaceEvent_turn _) hsame
  | @editMediaCaption t' caption child =>
    by_cases hsame : t' = t
    · subst hsame
      rw [editMediaCaption_of_ne fun content hok =>
        haccepts content (.inr ⟨caption, child, rfl, hok⟩)]
      exact same_frame _
    · exact turn_frame hs.queue (editMediaCaption_turn _) hsame
  | @react t' key child =>
    -- a reaction to the event itself is no edit of it
    unfold QueueStorage.react
    split
    · exact frame_of_same_dependents rfl (fun request hr hid => ⟨request, hr, hid, rfl⟩) rfl
    · have hdep : (s.queue.saveDependentQueuedRequest t' child (.reactEvent key)).dependents =
          s.queue.dependents ++ [⟨.reactEvent key, t', child, none⟩] := rfl
      refine frame_of_append hdep (fun d hd => ?_) (List.Subset.refl _) rfl
      rw [mem_singleton.mp hd]
      exact ⟨rfl, by simp [isRedact]⟩
  | @cancelEvent t' reason child _ hevent' =>
    have hne : t' ≠ t := by
      rintro rfl
      exact hdrops (.inl ⟨reason, child, rfl⟩)
    exact cancelled_note (turn_frame hs.queue (cancelEvent_turn _ hevent') hne) _ _
  | @removeDependent t' hreact =>
    have hne : t' ≠ t := by
      rintro rfl
      exact hdrops (.inr (.inl rfl))
    have hturn : Turn s.media s.queue t' [] (s.queue.removeDependentQueuedRequest t') :=
      .dropReaction hreact
    exact cancelled_note (turn_frame hs.queue hturn hne) _ _
  | @abortUpload x handles all hmedia hhandles =>
    have hne : x ≠ t := by
      rintro rfl
      exact hdrops (.inr (.inr (.inl ⟨handles, rfl⟩)))
    exact cancelled_note (abort_frame hs hmedia hhandles hne hevent) _ _
  | markAsUnwedged => exact unwedge_frame hs.queue
  | applyDependentRequests => exact absurd rfl (happly _ _)
  | wait | aborted | notSent | duplicate => exact frame_of_same_dependents rfl hkeep rfl
  | peek _ hpeek =>
    obtain ⟨-, rfl⟩ := peekNextToSend_eq hpeek
    exact Frame.note (frame_of_same_dependents rfl hkeep rfl) (by simp [version])
  | @sent request answer htask => exact sent_frame (hsent request htask answer rfl)
  | @wedged request reason =>
    refine frame_of_same_dependents rfl (fun stored hr hid => ?_) rfl
    refine ⟨if stored.transactionId = request.transactionId then
      { stored with error := some reason } else stored, ?_, ?_⟩
    · simp only [withTask, markAsWedged, updateSendQueueRequestStatus]
      rw [update_eq_map hs.queue.requestIds]
      exact mem_map.mpr ⟨stored, hr, rfl⟩
    · split <;> exact ⟨hid, rfl⟩
  | @dropDuplicate t' child htask =>
    have hne : t' ≠ t := by
      rintro rfl
      exact hdrops (.inr (.inr (.inr ⟨child, rfl, htask⟩)))
    have hold := hs.task
    simp [TaskOk, htask] at hold
    have hturn : Turn s.media s.queue t' [child] (s.queue.cancelEvent t' none child).2 :=
      cancelEvent_turn none hold.2.2
    have hframe := cancelled_note (turn_frame hs.queue hturn hne)
      (s.queue.cancelEvent t' none child).1 t'
    exact ⟨hframe.parked, hframe.request, hframe.finish, hframe.notRedacted, hframe.versions⟩

end MatrixSdk.ParkedEdits

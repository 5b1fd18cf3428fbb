import MatrixSdk.ParentLinks

/-!
Orphans. A dependent request waits for its parent, so when the parent is removed what waits for it
has to go as well. An event is removed alone: as long as nothing waits for it, and as long as no
upload of a media event is left behind, every dependent request keeps a parent, and nothing of
what was queued for an aborted event remains.
-/
namespace MatrixSdk.Orphans

open KeyedRows SendQueue RoomSendQueues QueueInvariants QueueTurns Traces Option
open Cancellations RequestOrigins ParentLinks QueueStorage DependentQueuedRequestKind List

variable {s s' : RoomSendQueue} {media : Media} {used : List ℕ}
  {q q' : QueueStorage} {t x u : ℕ} {op : Op} {ops : List Op} {d : DependentQueuedRequest}
  {handles : List MediaHandles} {h : MediaHandles}

/-- A dependent request is ready, or what it waits for is stored: a request, or another dependent
request. -/
def Attached (q : QueueStorage) : Prop :=
  ∀ d ∈ q.dependents, d.parentKey.isSome = true ∨ q.hasRequest d.parentTransactionId = true ∨
    ∃ d' ∈ q.dependents, d' ≠ d ∧ d'.ownTransactionId = d.parentTransactionId

/-- Something that was queued for an event is stored: the event itself, one of its uploads, or
what is to be done to it. -/
def Remains (q : QueueStorage) (t : ℕ) : Prop :=
  (∃ request ∈ q.requests, eventOf request = t) ∨
    ∃ d ∈ q.dependents, d.ownTransactionId = t ∨ d.parentTransactionId = t ∨
      isUploadFor t d = true

/-- Nothing is left behind when a request is removed. -/
def Tidy (s : RoomSendQueue) : Op → Prop
  | .cancelEvent t _ _ => s.queue.hasRequest t = true →
      s.queue.beingSent = some t ∨ NothingWaitsFor s.queue t
  | .dropDuplicate _ => ∀ t, s.task = .duplicate t → s.queue.hasRequest t = true →
      NothingWaitsFor s.queue t
  | .abortUpload t h => s.queue.hasDependent t = true →
      NothingWaitsFor s.queue t ∧ LastUploads s.queue t h
  | _ => True

/-- An abort of an event returns that it could be aborted. -/
def Aborts (q : QueueStorage) : Op → ℕ → Prop
  | .cancelEvent t reason child, t' => t = t' ∧ (q.cancelEvent t reason child).1 = true
  | .removeDependent t, t' => t = t' ∧ (q.removeDependentSendQueueRequest t).1 = true
  | .abortUpload t h, t' => t = t' ∧ (q.abortUpload t h).1 = true
  | _, _ => False

/-! ### Aborting uploads -/

theorem not_both (hq : QueueOk media used q) (hreq : q.hasRequest u = true)
    (hdep : q.hasDependent u = true) : False := by
  obtain ⟨request, hr, hid⟩ := hasRequest_iff.mp hreq
  obtain ⟨d, hd, hown⟩ := hasDependent_iff.mp hdep
  exact hq.disjoint request hr d hd (hid.trans hown.symm)

section Abort

variable {all : List MediaHandles} (hm : MediaOk media used) (hq : QueueOk media used q)
  (hmem : (t, all) ∈ media)
include hm hq hmem

theorem isUploadFor_of_mem (hd : d ∈ q.dependents) (hown : d.ownTransactionId ∈ uploadsOf all) :
    isUploadFor t d = true := by
  have hok := hq.dependent d hd
  have hup : IsUpload media d.ownTransactionId := ⟨_, hmem, hown⟩
  rcases intent_or_follows hok with ⟨-, hnot, -⟩ | ⟨hnot, -⟩
  · exact absurd (mem_mediaIds_of_isUpload hup) hnot
  · cases hkind : d.kind with
    | uploadFileOrThumbnail _ _ relatedTo _ =>
      simp [DependentOk, hkind] at hok
      obtain ⟨handles, hmem', hown'⟩ := hok.2
      have hsame := hm.unique hmem' hmem (mem_append_left _ hown') (mem_append_left _ hown)
      simp [isUploadFor, hkind, (Prod.mk.inj hsame).1]
    | finishUpload _ | finishGallery _ _ =>
      exact absurd hup (not_isUpload_of_isOwnEvent hm hok (by rw [hkind]; rfl))
    | editEvent _ | redactEvent _ | reactEvent _ =>
      exact absurd (by simp [Intent, hkind, isEdit, isRedact, isReact]) hnot

/-- The uploads that are left are those of the media that is aborted. -/
theorem upload_of_lastUploads (hlast : LastUploads q t h) (hu : u ∈ uploadsOf all)
    (hstored : u ∈ ids q) :
    (q.hasRequest u = true ∧ u ∈ uploadsOf [h]) ∨
      (q.hasDependent u = true ∧ u = h.uploadFileTxn ∧
        (h.uploadThumbnailTxn.filter q.hasRequest).isSome = true) := by
  rcases mem_ids.mp hstored with ⟨request, hr, rfl⟩ | ⟨d, hd, rfl⟩
  · obtain ⟨hup, hevent⟩ := hq.eventOf_of_mem hm hmem hr hu
    exact .inl ⟨hasRequest_iff.mpr ⟨request, hr, rfl⟩, hlast.1 request hr hup hevent⟩
  · obtain ⟨hown, hthumbnail⟩ := hlast.2 d hd (isUploadFor_of_mem hm hq hmem hd hu)
    exact .inr ⟨hasDependent_iff.mpr ⟨d, hd, rfl⟩, hown, hthumbnail⟩

variable {id : ℕ}

/-- Nothing of the event is stored once its last uploads and the event itself are removed. -/
theorem not_mem_ids_of_removed (hdep : q.hasDependent t = true) (hlast : LastUploads q t h)
    (hreqs : ∀ request ∈ q'.requests, request ∈ q.requests ∧ request.transactionId ∉ uploadsOf [h])
    (hdeps : ∀ d ∈ q'.dependents, d ∈ q.dependents ∧ d.ownTransactionId ≠ t ∧
      (d.ownTransactionId = h.uploadFileTxn → h.uploadThumbnailTxn.filter q.hasRequest = none))
    (hid : id ∈ uploadsOf all ++ [t]) : id ∉ ids q' := by
  intro hstored
  rcases mem_ids.mp hstored with ⟨request, hr, rfl⟩ | ⟨d, hd, rfl⟩
  · obtain ⟨hr, hnot⟩ := hreqs request hr
    have hreq := hasRequest_iff.mpr ⟨request, hr, rfl⟩
    rcases mem_append.mp hid with hid | hid
    · rcases upload_of_lastUploads hm hq hmem hlast hid (mem_ids_of_request hr) with
        ⟨-, hlast⟩ | ⟨hwaits, -⟩
      · exact hnot hlast
      · exact not_both hq hreq hwaits
    · rw [mem_singleton.mp hid] at hreq
      exact not_both hq hreq hdep
  · obtain ⟨hd, hne, hfile⟩ := hdeps d hd
    have hwaits := hasDependent_iff.mpr ⟨d, hd, rfl⟩
    rcases mem_append.mp hid with hid | hid
    · rcases upload_of_lastUploads hm hq hmem hlast hid (mem_ids_of_dependent hd) with
        ⟨hreq, -⟩ | ⟨-, hown, hthumbnail⟩
      · exact not_both hq hreq hwaits
      · simp [hfile hown] at hthumbnail
    · exact hne (mem_singleton.mp hid)

variable (hchained : Chained media q) (hh : h ∈ all)
include hchained hh

omit hm hq in
/-- A media event that does not wait any more has no upload left. -/
theorem abortUpload_of_not_waiting (hdep : q.hasDependent t = false) :
    q.abortUpload t h = (false, q) := by
  have hnone : ∀ u ∈ uploadsOf all, q.hasRequest u = false := by
    intro u hu
    refine Bool.eq_false_iff.mpr fun hreq => ?_
    have hwaits := hasDependent_of_upload hchained hmem hu (mem_ids_of_hasRequest hreq)
    rw [hdep] at hwaits
    cases hwaits
  have hsub : ∀ u ∈ uploadsOf [h], u ∈ uploadsOf all := by
    intro u hu
    refine mem_flatMap.mpr ⟨h, hh, ?_⟩
    simpa [uploadsOf] using hu
  have hthumbnail : h.uploadThumbnailTxn.filter q.hasRequest = none := by
    rw [filter_eq_none_iff]
    intro thumbnail hthumbnail
    rw [hnone thumbnail (hsub thumbnail (by simp [uploadsOf, hthumbnail]))]
    simp
  have hfile : q.hasRequest h.uploadFileTxn = false :=
    hnone _ (hsub _ (by simp [uploadsOf]))
  have hsame : q.removeDependentQueuedRequest t = q := by
    unfold removeDependentQueuedRequest
    rw [remove_eq_self]
    intro hmem
    have hwaits : q.hasDependent t = true := by
      rw [hasDependent_iff]
      simpa using hmem
    rw [hdep] at hwaits
    cases hwaits
  simp [abortUpload, abortUpload.abortFileUpload, hthumbnail, hfile, hdep, hsame]

theorem abortUpload_clears (hdep : q.hasDependent t = true) (hlast : LastUploads q t h)
    (hid : id ∈ uploadsOf all ++ [t]) : id ∉ ids (q.abortUpload t h).2 := by
  have hother : ∀ request ∈ q.requests, request.transactionId ≠ h.uploadFileTxn →
      h.uploadThumbnailTxn ≠ some request.transactionId →
      request.transactionId ∉ uploadsOf [h] := by
    intro request _ hfile hthumbnail hmem
    cases hsome : h.uploadThumbnailTxn with
    | none => simp_all [uploadsOf]
    | some thumbnail => simp_all [uploadsOf]
  cases hthumbnail : h.uploadThumbnailTxn.filter q.hasRequest with
  | some thumbnail =>
    -- The thumbnail is stored, so the file waits for it.
    obtain ⟨hsome, hreq⟩ := filter_eq_some_iff.mp hthumbnail
    have hfollows : Follows media t thumbnail h.uploadFileTxn := by
      obtain ⟨l, r, rfl⟩ := append_of_mem hh
      exact ⟨_, hmem, uploadsOf l, uploadsOf r ++ [t], by simp [uploadsOf, hsome]⟩
    have hfile : q.hasDependent h.uploadFileTxn = true :=
      hchained t thumbnail _ hfollows (mem_ids_of_hasRequest hreq)
    have hresult : (q.abortUpload t h).2 =
        (((q.removeSendQueueRequest thumbnail).cancelUpload thumbnail).removeDependentQueuedRequest
          h.uploadFileTxn).removeDependentQueuedRequest t := by
      have hfile' : ((q.removeSendQueueRequest thumbnail).cancelUpload thumbnail).hasDependent
          h.uploadFileTxn = true := by
        unfold hasDependent
        rw [cancelUpload_dependents]
        exact hfile
      simp [abortUpload, hthumbnail, hfile']
    rw [hresult]
    refine not_mem_ids_of_removed hm hq hmem hdep hlast ?_ ?_ hid
    · intro request hr
      simp [removeDependentQueuedRequest, cancelUpload_requests] at hr
      have hmem' : request ∈ q.requests := mem_of_mem_remove hr
      refine ⟨hmem', hother request hmem' (fun heq => ?_) fun heq => ?_⟩
      · exact not_both hq (hasRequest_iff.mpr ⟨request, hmem', heq⟩) hfile
      · rw [hsome] at heq
        exact ne_of_mem_remove hq.requestIds hr (some_injective _ heq).symm
    · intro d hd
      simp [removeDependentQueuedRequest] at hd
      have hd' := mem_of_mem_remove hd
      refine ⟨mem_of_mem_remove hd', ?_, fun heq => ?_⟩
      · exact ne_of_mem_remove (hq.dependentIds.sublist (remove_sublist.map _)) hd
      · exact absurd heq (ne_of_mem_remove hq.dependentIds hd')
  | none =>
    have hnothumbnail : ∀ request ∈ q.requests,
        h.uploadThumbnailTxn ≠ some request.transactionId := by
      intro request hr heq
      have hnone := filter_eq_none_iff.mp hthumbnail _ heq
      exact hnone (hasRequest_iff.mpr ⟨request, hr, rfl⟩)
    have hresult : (q.abortUpload t h).2 =
        if q.hasRequest h.uploadFileTxn then
          ((q.removeSendQueueRequest h.uploadFileTxn).cancelUpload
            h.uploadFileTxn).removeDependentQueuedRequest t
        else q.removeDependentQueuedRequest t := by
      simp only [abortUpload, hthumbnail, abortUpload.abortFileUpload]
      split <;> rfl
    rw [hresult]
    split
    · refine not_mem_ids_of_removed hm hq hmem hdep hlast ?_ ?_ hid
      · intro request hr
        simp [removeDependentQueuedRequest] at hr
        have hmem' : request ∈ q.requests := mem_of_mem_remove hr
        exact ⟨hmem', hother request hmem' (ne_of_mem_remove hq.requestIds hr)
          (hnothumbnail request hmem')⟩
      · intro d hd
        simp [removeDependentQueuedRequest] at hd
        exact ⟨mem_of_mem_remove hd, ne_of_mem_remove hq.dependentIds hd, fun _ => hthumbnail⟩
    · next hnofile =>
      refine not_mem_ids_of_removed hm hq hmem hdep hlast ?_ ?_ hid
      · intro request hr
        refine ⟨hr, hother request hr (fun heq => ?_) (hnothumbnail request hr)⟩
        exact hnofile (hasRequest_iff.mpr ⟨request, hr, heq⟩)
      · intro d hd
        exact ⟨mem_of_mem_remove hd, ne_of_mem_remove hq.dependentIds hd, fun _ => hthumbnail⟩

end Abort

variable {all : List MediaHandles}

theorem follows_within {parent own : ℕ} (hm : MediaOk media used) (hmem : (t, all) ∈ media)
    (hfollows : Follows media x parent own)
    (hin : parent ∈ uploadsOf all ++ [t] ∨ own ∈ uploadsOf all ++ [t]) :
    parent ∈ uploadsOf all ++ [t] ∧ own ∈ uploadsOf all ++ [t] := by
  obtain ⟨handles, hmem', l, r, heq⟩ := hfollows
  have hparent : parent ∈ uploadsOf handles ++ [x] := by simp [heq]
  have hown : own ∈ uploadsOf handles ++ [x] := by simp [heq]
  have hsame : (x, handles) = (t, all) := by
    rcases hin with hin | hin
    · exact hm.unique hmem' hmem hparent hin
    · exact hm.unique hmem' hmem hown hin
  obtain ⟨rfl, rfl⟩ := Prod.mk.inj hsame
  exact ⟨hparent, hown⟩

theorem rooted_abortUpload (hrooted : Rooted media q) (hm : MediaOk media used)
    (hq : QueueOk media used q) (hmem : (t, all) ∈ media) (hh : h ∈ all)
    (htidy : q.hasDependent t = true → NothingWaitsFor q t ∧ LastUploads q t h) :
    Rooted media (q.abortUpload t h).2 := by
  cases hdep : q.hasDependent t with
  | false =>
    rw [abortUpload_of_not_waiting hmem hrooted.chained hh hdep]
    exact hrooted
  | true =>
    obtain ⟨hnone, hlast⟩ := htidy hdep
    have hclear : ∀ id ∈ uploadsOf all ++ [t], id ∉ ids (q.abortUpload t h).2 := fun id hid =>
      abortUpload_clears hm hq hmem hrooted.chained hh hdep hlast hid
    have hremoves : Removes (uploadsOf [h]) [h.uploadFileTxn, t] q (q.abortUpload t h).2 :=
      abortUpload_removes
    have hsub : ∀ id ∈ uploadsOf [h], id ∈ uploadsOf all := by
      intro id hid
      refine mem_flatMap.mpr ⟨h, hh, ?_⟩
      simpa [uploadsOf] using hid
    have hfile : h.uploadFileTxn ∈ uploadsOf all := hsub _ (by simp [uploadsOf])
    constructor
    · intro d hd hkey
      by_contra hgone
      have hd' := hremoves.dependents.subset hd
      have hparent : d.parentTransactionId ∈ uploadsOf all ++ [t] := by
        rcases mem_ids.mp (hrooted.waits d hd' hkey) with ⟨request, hr, hid⟩ | ⟨e, he, hown⟩
        · by_contra hnot
          refine hgone (mem_ids.mpr (.inl ⟨request, hremoves.keepsRequest request hr ?_, hid⟩))
          rw [hid]
          exact fun hup => hnot (mem_append_left _ (hsub _ hup))
        · by_contra hnot
          refine hgone (mem_ids.mpr (.inr ⟨e, hremoves.keepsDependent e he ?_, hown⟩))
          rw [hown]
          intro hin
          rcases mem_cons.mp hin with heq | hin
          · exact hnot (mem_append_left _ (heq ▸ hfile))
          · exact hnone d hd' (mem_singleton.mp hin)
      rcases mem_append.mp hparent with hup | heq
      · rcases intent_or_follows (hq.dependent d hd') with ⟨-, -, hevent⟩ | ⟨-, x, hfollows⟩
        · exact hevent ⟨_, hmem, hup⟩
        · have hown := (follows_within hm hmem hfollows (.inl hparent)).2
          exact hclear _ hown (mem_ids_of_dependent hd)
      · exact hnone d hd' (mem_singleton.mp heq)
    · refine hrooted.chained.of hm hq ?_ ?_
      · intro id hid _
        rcases mem_ids.mp hid with ⟨request, hr, rfl⟩ | ⟨d, hd, rfl⟩
        · exact mem_ids_of_request (hremoves.requests.subset hr)
        · exact mem_ids_of_dependent (hremoves.dependents.subset hd)
      · intro d hd hown
        by_cases hin : d.ownTransactionId ∈ [h.uploadFileTxn, t]
        · right
          rcases intent_or_follows (hq.dependent d hd) with ⟨-, hnot, -⟩ | ⟨-, x, hfollows⟩
          · exact absurd hown hnot
          · apply hclear
            refine (follows_within hm hmem hfollows (.inr ?_)).1
            rcases mem_cons.mp hin with heq | heq
            · exact mem_append_left _ (heq ▸ hfile)
            · exact mem_append_right _ heq
        · exact .inl (hasDependent_iff.mpr ⟨d, hremoves.keepsDependent d hd hin, rfl⟩)

/-! ### Runs -/

def TidyStep (s : RoomSendQueue) (op : Op) (s' : RoomSendQueue) : Prop :=
  Step s op s' ∧ Tidy s op

theorem keeps_or_none_of_cancelEvent {reason : Option String} {child : ℕ}
    (htidy : q.hasRequest t = true → q.beingSent = some t ∨ NothingWaitsFor q t)
    (ht : t ∈ ids q) :
    t ∈ ids (q.cancelEvent t reason child).2 ∨ NothingWaitsFor q t := by
  unfold cancelEvent
  split
  · rw [ids_saveDependent]
    exact .inl (mem_append_left _ ht)
  · next hsent =>
    rcases mem_ids.mp ht with hreq | hdep
    · exact .inr ((htidy (hasRequest_iff.mpr hreq)).resolve_left hsent)
    · exact .inl (mem_ids.mpr (.inr hdep))

theorem rooted_step (hrooted : Rooted s.media s.queue) (hs : WellFormed s) (hsettled : Settled s)
    (hstep : TidyStep s op s') : Rooted s'.media s'.queue := by
  obtain ⟨hstep, htidy⟩ := hstep
  have hturn : ∀ {t new q'}, Turn s.media s.queue t new q' → (∀ id ∈ new, id ∉ s.used) →
      (t ∈ ids s.queue → t ∈ ids q' ∨ NothingWaitsFor s.queue t) → Rooted s.media q' :=
    fun h hnew hkeep => hrooted.turn hs.media hs.queue hs.beingSent h hnew hkeep
  cases hstep with
  | push hfresh =>
    exact hrooted.push fun hmem => hfresh.2 _ (by simp) (hs.media.used _ hmem)
  | pushMedia hfresh =>
    obtain ⟨first, ds, finish, hqueued⟩ := pushMedia_queued s.queue _ _ _
    exact hrooted.queued hs.media hfresh.2 hqueued
  | pushGallery hitems hfresh =>
    obtain ⟨first, ds, finish, hqueued⟩ := pushGallery_queued s.queue _ _ hitems
    exact hrooted.queued hs.media hfresh.2 hqueued
  | replaceEvent hfresh =>
    exact hturn (replaceEvent_turn _) hfresh.2 fun ht => .inl (ids_subset_replaceEvent _ _ ht)
  | editMediaCaption hfresh =>
    exact hturn (editMediaCaption_turn _) hfresh.2 fun ht =>
      .inl (ids_subset_editMediaCaption _ _ ht)
  | react hfresh =>
    exact hturn (react_turn hs.media hs.queue _) hfresh.2 fun ht =>
      .inl (ids_subset_react _ _ ht)
  | cancelEvent hfresh hevent =>
    exact hturn (cancelEvent_turn _ hevent) hfresh.2 (keeps_or_none_of_cancelEvent htidy)
  | @removeDependent t hreact =>
    have hdrop : Turn s.media s.queue t [] (s.queue.removeDependentQueuedRequest t) :=
      .dropReaction hreact
    refine hturn hdrop (by simp) fun ht => ?_
    rcases mem_ids.mp ht with ⟨request, hr, hid⟩ | ⟨d, hd, hown⟩
    · exact .inl (mem_ids.mpr (.inl ⟨request, hr, hid⟩))
    · right
      rw [← hown]
      exact hsettled.childless d hd (.inr (.inr (hreact d hd hown)))
  | abortUpload hmem hh => exact rooted_abortUpload hrooted hs.media hs.queue hmem hh htidy
  | markAsUnwedged => exact hrooted.congr (ids_updateStatus _) rfl
  | applyDependentRequests htask hnodup hparents =>
    exact Rooted.applyDependentRequests hs hsettled hrooted
      (.applyDependentRequests htask hnodup hparents)
  | peek htask hpeek =>
    obtain ⟨-, rfl⟩ := peekNextToSend_eq hpeek
    exact hrooted.congr rfl rfl
  | sent => exact hrooted.sent _
  | wedged => exact hrooted.congr (ids_updateStatus _) rfl
  | dropDuplicate htask hfresh =>
    have hold := hs.task
    simp [TaskOk, htask] at hold
    exact hturn (cancelEvent_turn none hold.2.2) hfresh.2
      (keeps_or_none_of_cancelEvent fun hreq => .inr (htidy _ htask hreq))
  | wait | aborted | notSent | duplicate => exact hrooted.congr rfl rfl

theorem attached_of_waits (hs : WellFormed s) (hsettled : Settled s) (hwaits : Waits s.queue) :
    Attached s.queue := by
  intro d hd
  cases hkey : d.parentKey with
  | some key => exact .inl rfl
  | none =>
    right
    rcases mem_ids.mp (hwaits d hd hkey) with hreq | ⟨d', hd', hown⟩
    · exact .inl (hasRequest_iff.mpr hreq)
    · refine .inr ⟨d', hd', ?_, hown⟩
      rintro rfl
      rcases intent_or_follows (hs.queue.dependent d' hd) with ⟨hintent, -⟩ | ⟨-, x, hfollows⟩
      · exact hsettled.childless d' hd hintent d' hd hown.symm
      · exact hs.media.follows_ne hfollows hown.symm

/-! ### What was aborted does not come back -/

structure Erased (t : ℕ) (s : RoomSendQueue) : Prop where
  used : t ∈ s.used
  event : t ∉ ids s.queue
  uploads : ∀ all, (t, all) ∈ s.media → ∀ u ∈ uploadsOf all, u ∉ ids s.queue
  waits : NothingWaitsFor s.queue t

theorem Erased.step (herased : Erased t s) (hs : WellFormed s) (hstep : Step s op s') :
    Erased t s' := by
  have hids := step_idsFrom hs hstep
  refine ⟨step_used hstep herased.used, ?_, ?_, ?_⟩
  · intro hid
    rcases hids.mem_ids hid with hold | hnew
    · exact herased.event hold
    · exact hnew herased.used
  · intro all hmem u hu hid
    have hmem' := mem_media_of_step hstep hmem (mem_append_right _ (by simp)) herased.used
    rcases hids.mem_ids hid with hold | hnew
    · exact herased.uploads all hmem' u hu hold
    · exact hnew (hs.media.used u (mem_mediaIds_of_isUpload ⟨_, hmem', hu⟩))
  · intro d' hd' heq
    rcases step_dependentsFrom hs hstep d' hd' with ⟨d, hd, -, hparent, -⟩ | ⟨-, hparent⟩
    · exact herased.waits d hd (hparent.trans heq)
    · rw [heq] at hparent
      rcases hparent with ⟨-, hnew⟩ | hreq | ⟨d, hd, -, hown⟩
      · exact hnew herased.used
      · exact herased.event (mem_ids_of_hasRequest hreq)
      · exact herased.event (hown ▸ mem_ids_of_dependent hd)

theorem Erased.not_remains (herased : Erased t s) (hs : WellFormed s) : ¬ Remains s.queue t := by
  intro hremains
  rcases hremains with ⟨request, hr, hevent⟩ | ⟨d, hd, hown | hparent | hup⟩
  · have hok := hs.queue.request request hr
    unfold RequestOk at hok
    unfold eventOf at hevent
    cases hkind : request.kind with
    | mediaUpload _ _ _ relatedTo _ =>
      rw [hkind] at hok hevent
      subst hevent
      obtain ⟨all, hmem, hu⟩ := hok
      exact herased.uploads all hmem _ hu (mem_ids_of_request hr)
    | event _ | redaction _ _ =>
      rw [hkind] at hevent
      exact herased.event (hevent ▸ mem_ids_of_request hr)
  · exact herased.event (hown ▸ mem_ids_of_dependent hd)
  · exact herased.waits d hd hparent
  · have hok := hs.queue.dependent d hd
    unfold isUploadFor at hup
    cases hkind : d.kind with
    | uploadFileOrThumbnail _ _ relatedTo _ =>
      simp [hkind, decide_eq_true_eq] at hup
      simp [DependentOk, hkind, hup] at hok
      obtain ⟨all, hmem, hu⟩ := hok.2
      exact herased.uploads all hmem _ hu (mem_ids_of_dependent hd)
    | _ => simp [hkind] at hup

/-- An event that is not being sent is removed with all that was queued for it. -/
theorem erased_of_aborts (hs : WellFormed s) (hsettled : Settled s)
    (hrooted : Rooted s.media s.queue) (hstep : TidyStep s op s') (haborts : Aborts s.queue op t)
    (hsent : s.queue.beingSent ≠ some t) : Erased t s' := by
  obtain ⟨hstep, htidy⟩ := hstep
  cases hstep with
  | cancelEvent hfresh hevent =>
    obtain ⟨rfl, htrue⟩ := haborts
    simp [cancelEvent, if_neg hsent] at htrue
    have hnone := (htidy htrue).resolve_left hsent
    obtain ⟨request, hr, hid⟩ := hasRequest_iff.mp htrue
    simp only [RoomSendQueue.withCancelled, cancelEvent, if_neg hsent]
    refine ⟨mem_append_left _ (hs.queue.mem_used (mem_ids_of_hasRequest htrue)), ?_, ?_, hnone⟩
    · intro hmem
      rcases mem_ids.mp hmem with ⟨other, hother, heq⟩ | ⟨d, hd, heq⟩
      · exact ne_of_mem_remove hs.queue.requestIds hother heq
      · exact hs.queue.disjoint request hr d hd (hid.trans heq.symm)
    · intro all hmem u hu hid'
      have hdep := hasDependent_of_upload hrooted.chained hmem hu (ids_removeRequest_subset hid')
      exact not_both hs.queue htrue hdep
  | removeDependent hreact =>
    obtain ⟨rfl, htrue⟩ := haborts
    obtain ⟨d, hd, hown⟩ := hasDependent_iff.mp htrue
    have hintent : Intent d := .inr (.inr (hreact d hd hown))
    refine ⟨mem_append_left _ (hown ▸ (hs.queue.dependentsUsed d hd).1), ?_, ?_, ?_⟩
    · intro hmem
      rcases mem_ids.mp hmem with ⟨other, hother, heq⟩ | ⟨e, he, heq⟩
      · exact hs.queue.disjoint other hother d hd (heq.trans hown.symm)
      · exact ne_of_mem_remove hs.queue.dependentIds he heq
    · intro all hmem
      apply absurd (mem_mediaIds.mpr ⟨_, hmem, mem_append_right _ (mem_singleton_self _)⟩)
      rw [← hown]
      exact own_not_mem_of_intent (hs.queue.dependent d hd) hintent
    · intro e he hparent
      exact hsettled.childless d hd hintent e (mem_of_mem_remove he) (hparent.trans hown.symm)
  | @abortUpload t' h all hmem hh =>
    obtain ⟨rfl, htrue⟩ := haborts
    have hdep : s.queue.hasDependent t' = true := by
      by_contra hnot
      rw [abortUpload_of_not_waiting hmem hrooted.chained hh (Bool.eq_false_iff.mpr hnot)] at htrue
      cases htrue
    obtain ⟨hnone, hlast⟩ := htidy hdep
    have hclear : ∀ id ∈ uploadsOf all ++ [t'], id ∉ ids (s.queue.abortUpload t' h).2 :=
      fun id hid => abortUpload_clears hs.media hs.queue hmem hrooted.chained hh hdep hlast hid
    have hevent : t' ∈ uploadsOf all ++ [t'] := by simp
    refine ⟨mem_append_left _ (hs.media.used t' (mem_mediaIds.mpr ⟨_, hmem, hevent⟩)),
      hclear t' hevent, ?_, fun d hd => hnone d (abortUpload_removes.dependents.subset hd)⟩
    intro all' hmem' u hu
    have hsame := hs.media.unique hmem' hmem (mem_append_right _ (mem_singleton_self t'))
      hevent
    obtain rfl : all' = all := (Prod.mk.inj hsame).2
    exact hclear u (mem_append_left _ hu)
  | _ => exact haborts.elim

/-- An event that is being sent stays until it is known whether it was sent, with a redaction
that waits for it. -/
theorem redactStored_of_aborts (hs : WellFormed s) (hrooted : Rooted s.media s.queue)
    (hstep : Step s op s') (haborts : Aborts s.queue op t) (hsent : s.queue.beingSent = some t) :
    s'.queue.hasRequest t = true ∧ RedactStored t s' := by
  have hreq := hs.beingSent t hsent
  cases hstep with
  | cancelEvent hfresh hevent =>
    obtain ⟨rfl, -⟩ := haborts
    simp only [RoomSendQueue.withCancelled, cancelEvent, if_pos hsent]
    exact ⟨hreq, _, mem_append_right _ (mem_singleton_self _), rfl, rfl⟩
  | removeDependent hreact =>
    obtain ⟨rfl, htrue⟩ := haborts
    exact (not_both hs.queue hreq htrue).elim
  | @abortUpload t' h all hmem hh =>
    obtain ⟨rfl, htrue⟩ := haborts
    have hdep : s.queue.hasDependent t' = false :=
      Bool.eq_false_iff.mpr fun hdep => not_both hs.queue hreq hdep
    rw [abortUpload_of_not_waiting hmem hrooted.chained hh hdep] at htrue
    cases htrue
  | _ => exact haborts.elim

theorem rooted_new : Rooted RoomSendQueue.new.media RoomSendQueue.new.queue :=
  ⟨by simp [Waits, RoomSendQueue.new], by simp [Chained, RoomSendQueue.new, ids]⟩

/-- As long as nothing is left behind when a request is removed, no dependent request is an
orphan, and nothing of an event remains once it was aborted. An event that was being sent is
redacted instead. -/
theorem aborts_leave_no_orphan (hrun : Trace TidyStep RoomSendQueue.new ops s) :
    Attached s.queue ∧ ∀ op s' t, TidyStep s op s' → Aborts s.queue op t →
      (s.queue.beingSent = some t → s'.queue.hasRequest t = true ∧ RedactStored t s') ∧
      (s.queue.beingSent ≠ some t → ∀ ops' later, Trace Step s' ops' later →
        ¬ Remains later.queue t) := by
  have hkeeps : ∀ s op s', (WellFormed s ∧ Settled s) ∧ Rooted s.media s.queue →
      TidyStep s op s' → (WellFormed s' ∧ Settled s') ∧ Rooted s'.media s'.queue :=
    fun s op s' h hstep => ⟨⟨h.1.1.step hstep.1, h.1.2.step h.1.1 hstep.1⟩,
      rooted_step h.2 h.1.1 h.1.2 hstep⟩
  have hall := hrun.preserves hkeeps ⟨⟨wellFormed_new, settled_new⟩, rooted_new⟩
  obtain ⟨⟨hs, hsettled⟩, hrooted⟩ := hall
  refine ⟨attached_of_waits hs hsettled hrooted.waits, fun op s' t hstep haborts => ⟨?_, ?_⟩⟩
  · exact redactStored_of_aborts hs hrooted hstep.1 haborts
  · intro hsent ops' later hlater
    have herased := erased_of_aborts hs hsettled hrooted hstep haborts hsent
    have hstays : ∀ s op s', WellFormed s ∧ Erased t s → Step s op s' →
        WellFormed s' ∧ Erased t s' :=
      fun s op s' h hstep => ⟨h.1.step hstep, h.2.step h.1 hstep⟩
    have hend := hlater.preserves hstays ⟨hs.step hstep.1, herased⟩
    exact hend.2.not_remains hend.1

/-- A media event is aborted while its thumbnail is being uploaded. -/
theorem aborted_media_leaves_nothing :
    ∃ sending aborted,
      Trace TidyStep RoomSendQueue.new
        [.pushMedia ⟨"m.room.message", "cat", .media ["local"], none⟩ 2
            ⟨"image/png", 1, "file", some ⟨0, "thumbnail", "image/png"⟩⟩,
          .applyDependentRequests [0, 1] ⟨fun _ => true, fun _ => true⟩, .peek] sending ∧
      TidyStep sending (.abortUpload 2 ⟨some 0, 1⟩) aborted ∧
      ∀ ops' later, Trace Step aborted ops' later → ¬ Remains later.queue 2 := by
  refine ⟨_, _, and_of_imp (.cons ⟨.pushMedia (by decide), trivial⟩
      (.cons ⟨.applyDependentRequests rfl (by decide) (by decide), trivial⟩
        (.cons ⟨.peek rfl rfl, trivial⟩ (.nil _))))
    fun hrun => and_of_imp
      ⟨.abortUpload (mem_singleton_self _) (mem_singleton_self _), fun _ => ?_⟩ fun hstep => ?_⟩
  · unfold NothingWaitsFor LastUploads
    decide
  · exact ((aborts_leave_no_orphan hrun).2 _ _ 2 hstep ⟨rfl, by decide⟩).2 (by decide)

/-- An event that is being sent is still stored once it was aborted. -/
theorem event_being_sent_remains :
    ∃ sending aborted,
      Trace Step RoomSendQueue.new
        [.push 0 (.event ⟨"m.room.message", "hello", .other, none⟩),
          .applyDependentRequests [] ⟨fun _ => true, fun _ => true⟩, .peek] sending ∧
      Step sending (.cancelEvent 0 none 1) aborted ∧
      Aborts sending.queue (.cancelEvent 0 none 1) 0 ∧ Remains aborted.queue 0 :=
  ⟨_, _, .cons (.push (by decide) rfl) (.cons (.applyDependentRequests rfl (by decide) (by decide))
      (.cons (.peek rfl rfl) (.nil _))), .cancelEvent (by decide) (by decide), ⟨rfl, by decide⟩,
    .inl ⟨_, mem_singleton_self _, rfl⟩⟩

end MatrixSdk.Orphans

import MatrixSdk.LostRequests

/-!
Media events that wait. Each of their parts waits for an upload that is stored, so some upload of
the event is queued once the dependent requests have been applied: then nothing is ready that
waited for an upload.
-/
namespace MatrixSdk.WaitingMedia

open KeyedRows SendQueue RoomSendQueues CanonicalRequests QueueInvariants QueueTurns
open RequestOrigins ParentLinks LostRequests QueueStorage DependentQueuedRequestKind List

variable {s s' : RoomSendQueue} {q' : QueueStorage} {t id : ℕ} {op : Op} {answers : Answers}
  {d : DependentQueuedRequest} {request : QueuedRequest}

/-! ### Media events that wait -/

/-- While a media event waits, its parts wait for uploads that are stored. -/
def Closed (s : RoomSendQueue) : Prop :=
  ∀ m ∈ s.media, s.queue.hasDependent m.1 = true → ∀ d ∈ s.queue.dependents,
    d.ownTransactionId ∈ uploadsOf m.2 ++ [m.1] → d.parentKey = none →
    d.parentTransactionId ∈ ids s.queue

variable {m : ℕ × List MediaHandles}

/-- A media event that was queued, or one that was there before. -/
theorem queued_of_step (hstep : Step s op s') (hm : m ∈ s'.media) :
    m ∈ s.media ∨ (∀ id ∈ uploadsOf m.2 ++ [m.1], id ∉ s.used) ∧
      ∃ first ds finish, Queued s.queue s'.queue m.1 (uploadsOf m.2) first ds finish := by
  cases hstep with
  | pushMedia hfresh =>
    rcases mem_append.mp hm with hm | hm
    · exact .inl hm
    · rw [mem_singleton.mp hm]
      exact .inr ⟨hfresh.2, pushMedia_queued s.queue _ _ _⟩
  | pushGallery hitems hfresh =>
    rcases mem_append.mp hm with hm | hm
    · exact .inl hm
    · rw [mem_singleton.mp hm]
      exact .inr ⟨hfresh.2, pushGallery_queued s.queue _ _ hitems⟩
  | _ => exact .inl hm

theorem follows_of_mem (hs : WellFormed s) (hm : m ∈ s.media) (hd : d ∈ s.queue.dependents)
    (hown : d.ownTransactionId ∈ uploadsOf m.2 ++ [m.1]) :
    Follows s.media m.1 d.parentTransactionId d.ownTransactionId := by
  rcases intent_or_follows (hs.queue.dependent d hd) with ⟨-, hnot, -⟩ | ⟨-, x, hfollows⟩
  · exact absurd (mem_mediaIds.mpr ⟨m, hm, hown⟩) hnot
  · obtain ⟨handles, hmem, l, r, heq⟩ := hfollows
    have hin : d.ownTransactionId ∈ uploadsOf handles ++ [x] := by simp [heq]
    have hsame := hs.media.unique hmem hm hin hown
    subst hsame
    exact ⟨handles, hmem, l, r, heq⟩

theorem Closed.step (h : Closed s) (hs : WellFormed s) (hredacts : RedactsCancelled s)
    (hstep : Step s op s') : Closed s' := by
  intro m hm hdep d' hd' hown hkey
  rcases queued_of_step hstep hm with hm | ⟨hnew, first, ds, finish, hqueued⟩
  · rcases step_dependentsFrom hs hstep d' hd' with ⟨d, hd, hown', hparent, -, hkey'⟩ | ⟨hfresh, -⟩
    · have hwaits : s.queue.hasDependent m.1 = true := by
        obtain ⟨e', he', heq⟩ := hasDependent_iff.mp hdep
        rcases (step_idsFrom hs hstep).dependent e' he' with ⟨e, he, hsame⟩ | hfresh
        · exact hasDependent_iff.mpr ⟨e, he, hsame.trans heq⟩
        · rw [heq] at hfresh
          exact absurd (hs.media.used m.1 (mem_mediaIds.mpr ⟨m, hm, by simp⟩)) hfresh
      rw [← hown'] at hown
      have hfollows := follows_of_mem hs hm hd hown
      have hup := hfollows.isUpload_parent
      have hstored := h m hm hwaits d hd hown (hkey' hkey)
      rw [← hparent]
      rcases step_keeps hs hredacts hstep hstored with hkept | hlost
      · exact hkept
      · cases hlost with
        | sent request answer hop htask hid =>
          -- What waited for the upload is ready.
          subst hop
          cases hstep with
          | sent htask' =>
            obtain rfl := Task.sending.inj (htask'.symm.trans htask)
            obtain ⟨e, -, rfl⟩ := mem_map.mp hd'
            split at hkey
            · cases hkey
            · next hne =>
              rw [if_neg hne] at hparent
              exact absurd (hparent.symm.trans hid.symm) hne
        | cancelled hevent => exact absurd hup hevent
        | aborted t all hmem hid hgone =>
          obtain ⟨handles, hmem', l, r, heq⟩ := hfollows
          have hin : d.parentTransactionId ∈ uploadsOf handles ++ [m.1] := by simp [heq]
          have hsame := hs.media.unique hmem' hmem hin (mem_append_left _ hid)
          rw [← (Prod.mk.inj hsame).1, hdep] at hgone
          cases hgone
        | intent e he hintent heq =>
          have hnot := own_not_mem_of_intent (hs.queue.dependent e he) hintent
          rw [heq] at hnot
          exact absurd (mem_mediaIds_of_isUpload hup) hnot
    · exact absurd (hs.media.used _ (mem_mediaIds.mpr ⟨m, hm, hown⟩)) hfresh
  · have hd : d' ∈ ds ++ [finish] := by
      rw [hqueued.eq] at hd'
      rcases mem_append.mp hd' with hd' | hd'
      · exact absurd (hs.queue.dependentsUsed d' hd').1 (hnew _ hown)
      · exact hd'
    exact hqueued.mem_ids (mem_append_left _ (hqueued.parent_mem hd))

/-- No upload was sent that something still waits for. -/
def NothingReady (s : RoomSendQueue) : Prop :=
  ∀ d ∈ s.queue.dependents, IsUpload s.media d.parentTransactionId → d.parentKey = none

/-- A media event that waits has an upload that is queued. -/
theorem exists_upload (hs : WellFormed s) (hclosed : Closed s) (hready : NothingReady s)
    (hm : m ∈ s.media) (hdep : s.queue.hasDependent m.1 = true) :
    ∃ request ∈ s.queue.requests, eventOf request = m.1 := by
  have hnodup := (nodup_flatMap.mp hs.media.nodup).1 m hm
  -- From what waits to what it waits for, the first upload comes closer.
  have hback : ∀ l own r, uploadsOf m.2 ++ [m.1] = l ++ own :: r →
      s.queue.hasDependent own = true → ∃ request ∈ s.queue.requests, eventOf request = m.1 := by
    intro l
    induction l using List.reverseRecOn with
    | nil =>
      intro own r heq hown
      obtain ⟨d, hd, rfl⟩ := hasDependent_iff.mp hown
      obtain ⟨handles, hmem, l, r', heq'⟩ := follows_of_mem hs hm hd (by simp [heq])
      have hhandles : handles = m.2 := by
        have hsame := hs.media.unique hmem hm (mem_append_right _ (mem_singleton_self _))
          (mem_append_right _ (mem_singleton_self _))
        rw [← hsame]
      rw [hhandles, heq] at heq'
      have hin : d.ownTransactionId ∈ r := by
        have htail := congrArg List.tail heq'
        rw [nil_append, tail_cons] at htail
        rw [htail]
        cases l <;> simp
      rw [heq] at hnodup
      exact absurd hin (nodup_cons.mp hnodup).1
    | append_singleton l parent ih =>
      intro own r heq hown
      obtain ⟨d, hd, rfl⟩ := hasDependent_iff.mp hown
      have hfollows := follows_of_mem hs hm hd (by simp [heq])
      have hparent : parent = d.parentTransactionId :=
        (hs.media.follows_unique ⟨m.2, hm, l, r, by simpa using heq⟩ hfollows).2
      subst hparent
      have hup := hfollows.isUpload_parent
      have hstored := hclosed m hm hdep d hd (by simp [heq]) (hready d hd hup)
      rcases mem_ids.mp hstored with ⟨request, hr, hid⟩ | hdepParent
      · refine ⟨request, hr, (hs.queue.eventOf_of_mem hs.media hm hr ?_).2⟩
        have hdrop := congrArg List.dropLast heq
        rw [dropLast_concat, dropLast_append_of_ne_nil (by simp)] at hdrop
        simp [hdrop, hid]
      · exact ih d.parentTransactionId (d.ownTransactionId :: r) (by simpa using heq)
          (hasDependent_iff.mpr hdepParent)
  exact hback (uploadsOf m.2) m.1 [] rfl hdep

/-! ### Uploads that were sent -/

theorem parentKey_of_step {key : SentRequestKey} (hs : WellFormed s) (hstep : Step s op s')
    (hd : d ∈ s'.queue.dependents) (hkey : d.parentKey = some key) :
    (∃ e ∈ s.queue.dependents, e.parentTransactionId = d.parentTransactionId ∧
      e.parentKey = some key) ∨
    ∃ request answer, op = .sent answer ∧ s.task = .sending request ∧
      request.transactionId = d.parentTransactionId := by
  have hturn : ∀ {t new q'}, Turn s.media s.queue t new q' → d ∈ q'.dependents →
      ∃ e ∈ s.queue.dependents, e.parentTransactionId = d.parentTransactionId ∧
        e.parentKey = some key :=
    fun hturn hd => hturn.parentKey hs.queue hd hkey
  cases hstep with
  | pushMedia =>
    obtain ⟨first, ds, finish, hnew⟩ := pushMedia_queued s.queue _ _ _
    exact .inl ⟨d, hnew.mem_of_parentKey hd hkey, rfl, hkey⟩
  | pushGallery hitems =>
    obtain ⟨first, ds, finish, hnew⟩ := pushGallery_queued s.queue _ _ hitems
    exact .inl ⟨d, hnew.mem_of_parentKey hd hkey, rfl, hkey⟩
  | replaceEvent => exact .inl (hturn (replaceEvent_turn _) hd)
  | editMediaCaption => exact .inl (hturn (editMediaCaption_turn _) hd)
  | react => exact .inl (hturn (react_turn hs.media hs.queue _) hd)
  | cancelEvent _ hevent => exact .inl (hturn (cancelEvent_turn _ hevent) hd)
  | removeDependent => exact .inl ⟨d, mem_of_mem_remove hd, rfl, hkey⟩
  | abortUpload => exact .inl ⟨d, abortUpload_removes.dependents.subset hd, rfl, hkey⟩
  | applyDependentRequests htask hnodup hparents =>
    exact .inl ⟨d, applyDependentRequests_dependents_subset hs
      (.applyDependentRequests htask hnodup hparents) hd, rfl, hkey⟩
  | peek htask hpeek =>
    obtain ⟨-, rfl⟩ := peekNextToSend_eq hpeek
    exact .inl ⟨d, hd, rfl, hkey⟩
  | @sent request answer htask =>
    obtain ⟨e, he, rfl⟩ := mem_map.mp hd
    split at hkey
    · next hparent =>
      rw [if_pos hparent]
      exact .inr ⟨request, answer, rfl, htask, hparent.symm⟩
    · next hparent =>
      rw [if_neg hparent]
      exact .inl ⟨e, he, rfl, hkey⟩
  | dropDuplicate htask =>
    have hold := hs.task
    simp only [TaskOk, htask] at hold
    exact .inl (hturn (cancelEvent_turn none hold.2.2) hd)
  | push | markAsUnwedged | wait | aborted | notSent | wedged | duplicate =>
    exact .inl ⟨d, hd, rfl, hkey⟩

/-- A part of a media event is queued as soon as the upload before it was sent. -/
theorem application_of_ready (answers : Answers) (hs : WellFormed s)
    (hd : d ∈ s.queue.dependents) (hup : IsUpload s.media d.parentTransactionId)
    (hkey : d.parentKey ≠ none) :
    ∃ kind, applicationOf answers d = .queue kind := by
  obtain ⟨key, hsome⟩ := Option.ne_none_iff_exists'.mp hkey
  obtain ⟨request, answer, hok⟩ := hs.keys d hd key hsome
  obtain ⟨info, hinfo⟩ : ∃ info, key.intoMedia = some info := by
    have hrequest := hok.request
    unfold RequestOk at hrequest
    rw [hok.eq]
    unfold sentKey
    cases hkind : request.kind with
    | mediaUpload => exact ⟨_, rfl⟩
    | event _ | redaction _ _ =>
      rw [hkind, hok.parent] at hrequest
      exact absurd hup hrequest
  have hpart : ¬ Intent d := by
    intro hintent
    rcases intent_or_follows (hs.queue.dependent d hd) with ⟨-, -, hevent⟩ | ⟨hnot, -⟩
    · exact hevent hup
    · exact hnot hintent
  unfold Intent at hpart
  cases hkind : d.kind with
  | uploadFileOrThumbnail | finishUpload | finishGallery =>
    simp [applicationOf, hkind, hsome, hinfo]
  | editEvent _ | redactEvent _ | reactEvent _ =>
    simp [hkind, isEdit, isRedact, isReact] at hpart

theorem applied_of_step (hstep : Step s op s') (htask : s'.task = .applied) :
    (∃ parents answers, op = .applyDependentRequests parents answers) ∨
      (s.task = .applied ∧ ∀ answer, op ≠ .sent answer) := by
  cases hstep with
  | applyDependentRequests => exact .inl ⟨_, _, rfl⟩
  | wait | peek | sent | aborted | notSent | wedged | duplicate | dropDuplicate => cases htask
  | _ => exact .inr ⟨htask, by simp⟩

theorem foldl_applyOne_sublist (l : List DependentQueuedRequest) (s : RoomSendQueue) :
    (l.foldl (applyOne answers) s).queue.dependents.Sublist s.queue.dependents := by
  induction l generalizing s with
  | nil => exact Sublist.refl _
  | cons d l ih => exact (ih (applyOne answers s d)).trans applySingle_dependents_sublist

theorem not_mem_foldl_applyOne {kind : QueuedRequestKind} {l : List DependentQueuedRequest}
    (hids : (s.queue.dependents.map (·.ownTransactionId)).Nodup) (hd : d ∈ l)
    (happ : applicationOf answers d = .queue kind) :
    d ∉ (l.foldl (applyOne answers) s).queue.dependents := by
  induction l generalizing s with
  | nil => cases hd
  | cons e l ih =>
    rcases mem_cons.mp hd with rfl | hd
    · intro hmem
      have hmem' := (foldl_applyOne_sublist l _).subset hmem
      change d ∈ (s.queue.applySingle answers d).dependents at hmem'
      rw [applySingle_eq, happ] at hmem'
      exact ne_of_mem_remove hids hmem' rfl
    · exact ih (hids.sublist (applySingle_dependents_sublist.map _)) hd

theorem nothingReady_of_apply {parents : List ℕ} (hs : WellFormed s)
    (hstep : Step s (.applyDependentRequests parents answers) s') : NothingReady s' := by
  have hsub := applyDependentRequests_dependents_subset hs hstep
  intro d hd hup
  by_contra hkey
  cases hstep with
  | applyDependentRequests htask hnodup hparents =>
    obtain ⟨kind, happ⟩ := application_of_ready answers hs (hsub hd) hup hkey
    have hfold : d ∈ ((canonicalizeDependentRequests parents
        s.queue.dependents).foldl (applyOne answers) { s with
          queue := s.queue.removeNonCanonical
            (canonicalizeDependentRequests parents
              s.queue.dependents) }).queue.dependents := by
      rw [foldl_applyOne]
      exact hd
    have hmem := (mem_removeNonCanonical hs.queue.dependentIds).mp
      ((foldl_applyOne_sublist _ _).subset hfold)
    refine not_mem_foldl_applyOne ?_ hmem happ hfold
    exact hs.queue.dependentIds.sublist (filter_sublist.map _)

/-- Once the dependent requests are applied, nothing is ready until the next request is sent. -/
theorem nothingReady_step (hs : WellFormed s) (hready : s.task = .applied → NothingReady s)
    (hstep : Step s op s') (htask : s'.task = .applied) : NothingReady s' := by
  rcases applied_of_step hstep htask with ⟨parents, answers, rfl⟩ | ⟨htask, hnosent⟩
  · exact nothingReady_of_apply hs hstep
  · intro d hd hup
    cases hkey : d.parentKey with
    | none => rfl
    | some key =>
      rcases parentKey_of_step hs hstep hd hkey with ⟨e, he, hparent, hkey'⟩ | ⟨_, answer, hop, -⟩
      · have hold : IsUpload s.media d.parentTransactionId := by
          by_contra hnot
          refine not_isUpload_of_step hstep ?_ hnot hup
          rw [← hparent]
          exact (hs.queue.dependentsUsed e he).2
        rw [← hparent] at hold
        rw [hready htask e he hold] at hkey'
        cases hkey'
      · exact absurd hop (hnosent answer)

end MatrixSdk.WaitingMedia

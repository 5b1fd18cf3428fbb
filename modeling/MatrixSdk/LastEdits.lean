import MatrixSdk.EditedContents

/-!
Which edit of a local echo wins: the last one that was accepted, as long as none is written in
place while an earlier one is still parked.
-/
namespace MatrixSdk.LastEdits

open KeyedRows SendQueue RoomSendQueues QueueInvariants QueueTurns ParkedEdits
open DependentQueuedRequestKind
open EditedContents
open Traces QueueStorage RoomSendQueue List

variable {s s' : RoomSendQueue} {t child : ℕ} {op : Op} {answers : Answers}
  {d : DependentQueuedRequest} {content : EventContent}

/-! ### Edits that are accepted -/

/-- No edit is written in place while another one is parked. -/
def InOrder (s : RoomSendQueue) (t : ℕ) : Prop :=
  s.queue.beingSent = some t ∨ parked s.queue t = []

variable {request : QueuedRequest}

theorem parentKey_of_request (hs : WellFormed s) (hgone : SentGone s)
    (hr : request ∈ s.queue.requests) (hid : request.transactionId = t)
    (hevent : ¬ IsUpload s.media t) (hd : d ∈ parked s.queue t) : d.parentKey = none := by
  obtain ⟨hd, hedit⟩ := mem_parked.mp hd
  have hparent : d.parentTransactionId = t := by
    simp [isEditOf] at hedit
    exact hedit.2
  cases hkey : d.parentKey with
  | none => rfl
  | some key =>
    obtain ⟨sent, answer, hok⟩ := hs.keys d hd key hkey
    have hsame : sent.transactionId = t := hok.parent.trans hparent
    have hnot := (hgone sent key hok.logged).2
      (isUploadRequest_eq_false hok.request (hsame ▸ hevent))
    exact absurd (hsame ▸ hid ▸ mem_ids_of_request hr) hnot

variable {c : EventContent}

theorem shows_of_park (hs : WellFormed s) (hgone : SentGone s) (hnot : NotRedacted t s.queue)
    (hr : request ∈ s.queue.requests) (hid : request.transactionId = t)
    (hkind : request.kind = .event c) :
    Shows t content
      (s.withQueue (s.queue.saveDependentQueuedRequest t child (.editEvent content)) [child]) := by
  have hevent : ¬ IsUpload s.media t := by
    have hok := hs.queue.request request hr
    simp [RequestOk, hkind] at hok
    exact hid ▸ hok
  have hparked : parked (s.queue.saveDependentQueuedRequest t child (.editEvent content)) t =
      parked s.queue t ++ [⟨.editEvent content, t, child, none⟩] := by
    simp [parked, saveDependentQueuedRequest, isEditOf, isEdit]
  refine ⟨mem_append_left _ (hid ▸ hs.queue.requestsUsed request hr), hevent, ?_,
    .inl ⟨request, c, hr, hid, hkind, ?_, ?_⟩⟩
  · refine forall_mem_append.mpr ⟨hnot, forall_mem_singleton.mpr fun hredact => ?_⟩
    cases hredact
  · change ∀ d ∈ parked (s.queue.saveDependentQueuedRequest t child (.editEvent content)) t, _
    rw [hparked]
    exact forall_mem_append.mpr ⟨fun d hd => parentKey_of_request hs hgone hr hid hevent hd,
      forall_mem_singleton.mpr rfl⟩
  · change visible (lastOr (parked (s.queue.saveDependentQueuedRequest t child
      (.editEvent content)) t) c) = visible content
    rw [hparked]
    simp [lastOr, newContent]

theorem shows_of_write (hs : WellFormed s) (hnot : NotRedacted t s.queue)
    (hr : request ∈ s.queue.requests) (hid : request.transactionId = t)
    (hkind : request.kind = .event c) (hparked : parked s.queue t = []) (new : List ℕ) :
    Shows t content (s.withQueue (s.queue.updateSendQueueRequest t (.event content)) new) := by
  have hevent : ¬ IsUpload s.media t := by
    have hok := hs.queue.request request hr
    simp [RequestOk, hkind] at hok
    exact hid ▸ hok
  have hparked' : parked (s.withQueue (s.queue.updateSendQueueRequest t (.event content))
      new).queue t = [] := hparked
  refine ⟨mem_append_left _ (hid ▸ hs.queue.requestsUsed request hr), hevent, hnot,
    .inl ⟨{ request with kind := .event content, error := none }, content, ?_, hid, rfl, ?_, ?_⟩⟩
  · simp only [withQueue, updateSendQueueRequest]
    rw [update_eq_map hs.queue.requestIds]
    exact mem_map.mpr ⟨request, hr, if_pos hid⟩
  · rw [hparked']
    simp
  · rw [hparked']
    rfl

section

variable (hs : WellFormed s) (hgone : SentGone s) (hnot : NotRedacted t s.queue)
  (horder : InOrder s t)
include hs hgone hnot horder

theorem shows_of_replaceEvent (haccepts : (s.queue.replaceEvent t content child).1 = true) :
    Shows t content (s.withQueue (s.queue.replaceEvent t content child).2 [child]) := by
  unfold replaceEvent at haccepts ⊢
  split
  · next hany =>
    rw [if_pos hany] at haccepts
    cases haccepts
  · next hany =>
    obtain ⟨request, hmem, hid, c, hkind⟩ := exists_ownEvent hany
    split
    · exact shows_of_park hs hgone hnot hmem hid hkind
    · next hsent => exact shows_of_write hs hnot hmem hid hkind (horder.resolve_left hsent) _

theorem shows_of_editMediaCaption {caption : String}
    (haccepts : (s.queue.editMediaCaption t caption child).1 = .ok (some content)) :
    Shows t content (s.withQueue (s.queue.editMediaCaption t caption child).2 [child]) := by
  unfold editMediaCaption at haccepts ⊢
  split
  · next found hfind =>
    have hown : found.ownTransactionId = t := by simpa using find?_some hfind
    have hd := mem_of_find?_eq_some hfind
    simp [hfind] at haccepts
    split at haccepts
    · next echo hkind =>
      split at haccepts
      · next new hnew =>
        obtain rfl : new = content := by simpa using haccepts
        have hfinish : found.kind.isOwnEvent = true := by rw [hkind]; rfl
        -- An event that waits for its uploads is not being sent.
        have hparked : parked s.queue t = [] := by
          refine horder.resolve_left fun hsent => ?_
          obtain ⟨request, hr, hid⟩ := any_eq_true.mp (hs.beingSent t hsent)
          exact hs.queue.disjoint request hr found hd ((of_decide_eq_true hid).trans hown.symm)
        have hmap := update_eq_map (k := t) hs.queue.dependentIds
          (f := fun d => { d with kind := .finishUpload new })
        have hedit : ∀ d ∈ s.queue.dependents, d.ownTransactionId = t → d.kind = found.kind := by
          intro d hd' hown'
          rw [inj_on_of_nodup_map hs.queue.dependentIds hd' hd (hown'.trans hown.symm)]
        refine ⟨mem_append_left _ (hown ▸ (hs.queue.dependentsUsed found hd).1),
          hown ▸ not_isUpload_of_isOwnEvent hs.media (hs.queue.dependent found hd) hfinish, ?_,
          .inr (.inl ⟨{ found with kind := .finishUpload new }, new, ?_, hown, rfl, ?_, rfl⟩)⟩
        · intro d hd' hredact
          simp [updateDependentQueuedRequest] at hd'
          rw [hmap] at hd'
          obtain ⟨d₀, hd₀, rfl⟩ := mem_map.mp hd'
          split at hredact
          · cases hredact
          · next hother =>
            rw [if_neg hother]
            exact hnot d₀ hd₀ hredact
        · simp only [withQueue, updateDependentQueuedRequest]
          rw [hmap]
          exact mem_map.mpr ⟨found, hd, if_pos hown⟩
        · refine Eq.trans ?_ hparked
          apply filter_update
          intro d hd' hown'
          simp [isEditOf, hedit d hd' hown', hkind, isEdit]
      · cases haccepts
    · cases haccepts
  · next hnone =>
    simp [hnone] at haccepts
    split at haccepts
    · cases haccepts
    · next found hfind =>
      have hid : found.transactionId = t := by simpa using find?_some hfind
      have hr := mem_loadSendQueueRequests.mp (mem_of_find?_eq_some hfind)
      split at haccepts
      · cases haccepts
      · next new hnew =>
        obtain ⟨c, hkind⟩ : ∃ c, found.kind = .event c := by
          obtain ⟨c, hc, -⟩ := Option.bind_eq_some_iff.mp hnew
          unfold QueuedRequest.asEvent at hc
          cases hkind : found.kind <;> simp_all
        split at haccepts
        · next hsent =>
          obtain rfl : new = content := by simpa using haccepts
          rw [if_pos hsent]
          exact shows_of_park hs hgone hnot hr hid hkind
        · next hsent =>
          obtain rfl : new = content := by simpa using haccepts
          rw [if_neg hsent]
          exact shows_of_write hs hnot hr hid hkind (horder.resolve_left hsent) _

end

/-- The steps after an edit of the event: it is not edited again, it is neither cancelled nor
aborted, and an edit event can be made of its parked edits. -/
def StepAfter (t : ℕ) (s : RoomSendQueue) (op : Op) (s' : RoomSendQueue) : Prop :=
  Step s op s' ∧ (∀ content, ¬ Accepts s op t content) ∧ ¬ Drops s op t ∧ Editable s op t

/-- When no edit is written in place while another one is parked, the event ends up with the
content of the last edit that was accepted. -/
theorem last_accepted_edit_wins {opsBefore opsAfter : List Op} {edited later : RoomSendQueue}
    (hbefore : Trace Step RoomSendQueue.new opsBefore s) (hnot : NotRedacted t s.queue)
    (hstep : Step s op edited) (haccepts : Accepts s op t content) (horder : InOrder s t)
    (hafter : Trace (StepAfter t) edited opsAfter later) :
    (finalContent later t).map visible = some (visible content) := by
  have hs := wellFormed_of_trace hbefore
  have hgone := sentGone_of_trace hbefore
  have hshows : Shows t content edited := by
    rcases haccepts with ⟨child, rfl, haccepts⟩ | ⟨caption, child, rfl, haccepts⟩
    · cases hstep with
      | replaceEvent => exact shows_of_replaceEvent hs hgone hnot horder haccepts
    · cases hstep with
      | editMediaCaption => exact shows_of_editMediaCaption hs hgone hnot horder haccepts
  have hkeeps : ∀ s op s', WellFormed s ∧ Shows t content s → StepAfter t s op s' →
      WellFormed s' ∧ Shows t content s' := by
    intro s op s' h hstep
    obtain ⟨hstep, hnone, hdrops, heditable⟩ := hstep
    exact ⟨h.1.step hstep, shows_step h.1 hstep hnone hdrops heditable h.2⟩
  have hlater := hafter.preserves hkeeps ⟨hs.step hstep, hshows⟩
  exact finalContent_of_shows hlater.1 hlater.2

def draft (body : String) : EventContent := ⟨"m.room.message", body, .other, none⟩

def allAnswered : Answers := ⟨fun _ => true, fun _ => true⟩

theorem editable_of_drafts {parents : List ℕ} (bodies : List String)
    (h : (parked s.queue t).map (·.kind) = bodies.map fun body => .editEvent (draft body)) :
    Editable s (.applyDependentRequests parents allAnswered) t := by
  intro parents' answers hop d hd
  cases hop
  refine ⟨rfl, fun content hkind eventId => ?_⟩
  have hmem : d.kind ∈ (parked s.queue t).map (·.kind) := mem_map_of_mem hd
  rw [h, mem_map] at hmem
  obtain ⟨body, -, hbody⟩ := hmem
  obtain rfl : content = draft body := by simpa [← hbody] using hkind.symm
  simp [makeEditEvent, draft, roomMessageType]

/-- An edit is parked while the event is being sent, and a second one after that. -/
theorem second_parked_edit_wins :
    ∃ sending later, Trace Step RoomSendQueue.new
        [.push 0 (.event (draft "a")), .applyDependentRequests [] allAnswered, .peek,
          .replaceEvent 0 (draft "b") 1] sending ∧
      Trace Step sending [.replaceEvent 0 (draft "c") 2, .notSent,
        .applyDependentRequests [0] allAnswered] later ∧
      (finalContent later 0).map visible = some (visible (draft "c")) := by
  refine ⟨_, _, and_of_imp (.cons (.push (by decide) rfl)
      (.cons (.applyDependentRequests rfl (by decide) (by decide))
        (.cons (.peek rfl rfl) (.cons (.replaceEvent (by decide)) (.nil _)))))
    fun hbefore => ⟨.cons (.replaceEvent (by decide)) (.cons (.notSent rfl)
      (.cons (.applyDependentRequests rfl (by decide) (by decide)) (.nil _))), ?_⟩⟩
  refine last_accepted_edit_wins hbefore (by unfold NotRedacted; decide)
    (.replaceEvent (by decide)) (.inl ⟨2, rfl, by decide⟩) (.inl (by decide))
    (.cons ⟨.notSent rfl, ?_, ?_, ?_⟩ (.single
      ⟨show Step _ (.applyDependentRequests [0] allAnswered) _ from
        .applyDependentRequests rfl (by decide) (by decide),
      ?_, ?_, editable_of_drafts ["b", "c"] (by decide)⟩))
  all_goals simp [Accepts, Drops, Editable]

/-- The first edit is parked while the event is being sent. The second one is written in place
once the event could not be sent, and is then overwritten by the parked one. -/
theorem parked_edit_overwrites_later_edit :
    ∃ failed edited later, Trace Step RoomSendQueue.new
        [.push 0 (.event (draft "a")), .applyDependentRequests [] allAnswered, .peek,
          .replaceEvent 0 (draft "b") 1, .notSent] failed ∧
      Step failed (.replaceEvent 0 (draft "c") 2) edited ∧
      Accepts failed (.replaceEvent 0 (draft "c") 2) 0 (draft "c") ∧
      Trace (StepAfter 0) edited [.applyDependentRequests [0] allAnswered] later ∧
      later.queue.requests = [⟨.event (draft "b"), 0, none, lowPriority⟩] ∧
      later.queue.dependents = [] ∧ finalContent later 0 = some (draft "b") := by
  refine ⟨_, _, _, .cons (.push (by decide) rfl)
      (.cons (.applyDependentRequests rfl (by decide) (by decide)) (.cons (.peek rfl rfl)
        (.cons (.replaceEvent (by decide)) (.cons (.notSent rfl) (.nil _))))),
    .replaceEvent (by decide), .inl ⟨2, rfl, by decide⟩,
    .single ⟨.applyDependentRequests rfl (by decide) (by decide), ?_, ?_,
      editable_of_drafts ["b"] (by decide)⟩, by decide, by decide, by decide⟩
  all_goals simp [Accepts, Drops]

end MatrixSdk.LastEdits

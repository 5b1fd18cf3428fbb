import MatrixSdk.WaitingMedia
import MatrixSdk.QueueLines

/-!
First in, first out. Whatever stands at the head of the queue, nothing is stored of the events
that were queued before it with the same priority: they were sent, or they were cancelled. Once an
upload of a media event was handed to the server, nothing is left of the events before it, which is
why what is queued for it with a high priority overtakes nothing.
-/
namespace MatrixSdk.SendOrder

open SendQueue RoomSendQueues CanonicalRequests QueueInvariants QueueTurns Traces List.Nodup
open ParentLinks LostRequests WaitingMedia ListOrders QueueLines QueueStorage List

variable {s s' : RoomSendQueue} {media : Media} {used : List ℕ}
  {q q' : QueueStorage} {t a b p : ℕ} {op : Op} {ops : List Op} {answers : Answers}
  {d : DependentQueuedRequest} {request : QueuedRequest}

/-! ### The head of the queue -/

section

variable (hs : WellFormed s) (hlined : Lined s)
include hs hlined

/-- What is stored of an event of the line: its request, or the media event that waits. -/
theorem stored_of_line (hline : (a, p) ∈ line s.log) (ha : a ∈ ids s.queue) :
    (∃ request ∈ s.queue.requests, eventOf request = a) ∨
      (s.queue.hasDependent a = true ∧ ∃ handles, (a, handles) ∈ s.media) := by
  have hevent := (hlined.used _ hline).2
  rcases mem_ids.mp ha with ⟨request, hr, rfl⟩ | ⟨d, hd, rfl⟩
  · refine .inl ⟨request, hr, ?_⟩
    have hup := isUploadRequest_eq_false (hs.queue.request request hr) hevent
    unfold isUploadRequest at hup
    unfold eventOf
    cases hkind : request.kind <;> simp_all
  · have hpart : ¬ Intent d := fun hintent => hlined.intent d hd hintent p hline
    obtain ⟨handles, hmem, l, r, heq⟩ :=
      mem_media_of_not_intent (hs.queue.dependent d hd) hpart
    have hin : d.ownTransactionId ∈ uploadsOf handles ++ [eventOfDependent d] := by simp [heq]
    rcases mem_append.mp hin with hup | hown
    · exact absurd ⟨_, hmem, hup⟩ hevent
    · rw [← mem_singleton.mp hown] at hmem
      exact .inr ⟨hasDependent_iff.mpr ⟨d, hd, rfl⟩, handles, hmem⟩

theorem high_of_stored (hline : (a, highPriority) ∈ line s.log) (ha : a ∈ ids s.queue) :
    (a, highPriority) ∈ profile s.queue := by
  have hnot : (a, lowPriority) ∉ line s.log := by
    intro hlow
    have heq := hlined.eq_of_mem hlow hline
    simp [lowPriority, highPriority] at heq
  rcases stored_of_line hs hlined hline ha with ⟨request, hr, hevent⟩ | ⟨-, handles, hmem⟩
  · have hplace : placeOfRequest request ∈ profile s.queue := mem_map_of_mem hr
    rcases hlined.high _ hplace with hlow | hhigh
    · have hplaced := hlined.low _ hplace hlow
      have heq : placeOfRequest request = (a, lowPriority) := Prod.ext hevent hlow
      exact absurd (heq ▸ hplaced) hnot
    · have heq : placeOfRequest request = (a, highPriority) := Prod.ext hevent hhigh
      exact heq ▸ hplace
  · exact absurd (hlined.media _ hmem) hnot

/-- No request stands for an event that was queued before the head with the same priority. -/
theorem not_mem_profile_of_head (hhead : s.queue.loadSendQueueRequests.head? = some request)
    (hbefore : Before (line s.log) (a, request.priority) (placeOfRequest request)) :
    (a, request.priority) ∉ profile s.queue := by
  have hnodup : (line s.log).Nodup := of_map _ hlined.nodup
  have hfirst := (head_of_sorted (of_map _ hs.queue.requestIds) hhead).2
  have hr : request ∈ s.queue.requests :=
    mem_loadSendQueueRequests.mp (mem_of_head? hhead)
  intro hmem
  obtain ⟨other, hother, hplace⟩ := mem_map.mp hmem
  have hne : request ≠ other := by
    intro heq
    rw [heq, hplace] at hbefore
    rw [heq] at hbefore
    exact hbefore.asymm hnodup hbefore
  rcases before_or_before hr hother hne with horder | horder
  · have hprofile : Before (profile s.queue) (placeOfRequest request) (placeOfRequest other) :=
      horder.map placeOfRequest
    rw [hplace] at hprofile
    have hsorted := (hprofile.filter (p := fun e => decide (e ∈ line s.log))
      (by simpa using hbefore.right_mem) (by simpa using hbefore.left_mem)).sublist hlined.order
    exact hbefore.asymm hnodup hsorted
  · have hlt := hfirst other horder
    have hpriority : other.priority = request.priority := (Prod.mk.inj hplace).2
    omega

end

/-- An upload of the event was sent or is being sent, or the event itself is. -/
def Started (s : RoomSendQueue) (b : ℕ) : Prop :=
  (b, highPriority) ∈ profile s.queue ∨
    (∃ d ∈ s.queue.dependents, Uploads s.media b d.parentTransactionId ∧ d.parentKey ≠ none) ∨
    ∃ request, s.task = .sending request ∧ eventOf request = b

/-- Nothing is stored of the events that were queued before with the same priority. -/
def NoneBefore (s : RoomSendQueue) (b p : ℕ) : Prop :=
  ∀ a, Before (line s.log) (a, p) (b, p) → a ∉ ids s.queue

theorem noneBefore_head (hs : WellFormed s) (hlined : Lined s) (hclosed : Closed s)
    (hready : NothingReady s) (hstarted : ∀ b, Started s b → NoneBefore s b lowPriority)
    (hhead : s.queue.loadSendQueueRequests.head? = some request) :
    NoneBefore s (eventOf request) p := by
  intro a hbefore ha
  have hr : request ∈ s.queue.requests :=
    mem_loadSendQueueRequests.mp (mem_of_head? hhead)
  have hplace : placeOfRequest request ∈ profile s.queue := mem_map_of_mem hr
  have hmax := (head_of_sorted (of_map _ hs.queue.requestIds) hhead).1
  rcases hlined.priorities _ hbefore.left_mem with hlow | hhigh
  · have hp : p = lowPriority := hlow
    subst hp
    rcases hlined.high _ hplace with hlow | hhigh
    · -- The head has the lowest priority, so everything that is queued has it.
      have hpriority : request.priority = lowPriority := hlow
      have hall : ∀ e ∈ profile s.queue, e.2 = lowPriority := by
        intro e he
        obtain ⟨other, hother, rfl⟩ := mem_map.mp he
        have hle := hmax other hother
        simp only [placeOfRequest, lowPriority] at hle hpriority ⊢
        omega
      have hrequest : ∃ request ∈ s.queue.requests, eventOf request = a := by
        rcases stored_of_line hs hlined hbefore.left_mem ha with hrequest | ⟨hdep, handles, hmem⟩
        · exact hrequest
        · exact exists_upload hs hclosed hready hmem hdep
      obtain ⟨stored, hr, hevent⟩ := hrequest
      have hmem : placeOfRequest stored ∈ profile s.queue := mem_map_of_mem hr
      rw [show placeOfRequest stored = (a, lowPriority) from Prod.ext hevent (hall _ hmem)] at hmem
      refine not_mem_profile_of_head hs hlined hhead ?_ (hpriority ▸ hmem)
      rw [placeOfRequest, hpriority]
      exact hbefore
    · refine hstarted (eventOf request) (.inl ?_) a hbefore ha
      have heq : placeOfRequest request = (eventOf request, highPriority) := Prod.ext rfl hhigh
      exact heq ▸ hplace
  · have hp : p = highPriority := hhigh
    subst hp
    have hpriority : request.priority = highPriority := by
      rcases hlined.high _ hplace with hlow | hhigh
      · have hplaced := hlined.low _ hplace hlow
        have heq : placeOfRequest request = (eventOf request, lowPriority) := Prod.ext rfl hlow
        have hsame := hlined.eq_of_mem (heq ▸ hplaced) hbefore.right_mem
        simp [lowPriority, highPriority] at hsame
      · exact hhigh
    have hmem := high_of_stored hs hlined hbefore.left_mem ha
    refine not_mem_profile_of_head hs hlined hhead ?_ (hpriority ▸ hmem)
    rw [placeOfRequest, hpriority]
    exact hbefore

/-! ### Events that are on their way -/

theorem eventOf_used (hm : MediaOk media used) (hok : RequestOk media request)
    (hused : request.transactionId ∈ used) : eventOf request ∈ used := by
  unfold RequestOk at hok
  unfold eventOf
  cases hkind : request.kind with
  | mediaUpload _ _ _ relatedTo _ =>
    rw [hkind] at hok
    obtain ⟨handles, hmem, -⟩ := hok
    exact hm.used relatedTo (mem_mediaIds.mpr ⟨_, hmem, by simp⟩)
  | event _ | redaction _ _ => exact hused

theorem started_used (h : Started s b) (hs : WellFormed s) : b ∈ s.used := by
  rcases h with hprofile | ⟨d, hd, ⟨handles, hmem, -⟩, -⟩ | ⟨request, htask, rfl⟩
  · obtain ⟨request, hr, heq⟩ := mem_map.mp hprofile
    rw [← (Prod.mk.inj heq).1]
    exact eventOf_used hs.media (hs.queue.request request hr) (hs.queue.requestsUsed request hr)
  · exact hs.media.used b (mem_mediaIds.mpr ⟨_, hmem, by simp⟩)
  · have htaskOk := hs.task
    simp only [TaskOk, htask] at htaskOk
    exact eventOf_used hs.media htaskOk.1 htaskOk.2.1

theorem head_of_peek (hpeek : q.peekNextToSend = some (request, q')) :
    q.loadSendQueueRequests.head? = some request := by
  unfold peekNextToSend at hpeek
  split at hpeek
  · cases hpeek
  · next head hhead =>
    split at hpeek
    · cases hpeek
    · cases hpeek
      exact hhead

variable {e : ℕ × ℕ} {parents : List ℕ}

section

variable (hs : WellFormed s)
include hs

/-- What applying the dependent requests adds to the queue. -/
theorem profile_of_apply (hstep : Step s (.applyDependentRequests parents answers) s')
    (he : e ∈ profile s'.queue) :
    e ∈ profile s.queue ∨
      ∃ d ∈ s.queue.dependents, d.parentKey ≠ none ∧ e = (eventOfDependent d, highPriority) := by
  have hone : ∀ s₁ d, d ∈ s₁.queue.dependents →
      (s₁.queue.dependents ⊆ s.queue.dependents ∧ (WellFormed s₁ ∧ s₁.task = .idle) ∧
        ∀ e ∈ profile s₁.queue, e ∈ profile s.queue ∨ ∃ d ∈ s.queue.dependents,
          d.parentKey ≠ none ∧ e = (eventOfDependent d, highPriority)) →
      ((applyOne answers s₁ d).queue.dependents ⊆ s.queue.dependents ∧
        (WellFormed (applyOne answers s₁ d) ∧ (applyOne answers s₁ d).task = .idle) ∧
        ∀ e ∈ profile (applyOne answers s₁ d).queue, e ∈ profile s.queue ∨
          ∃ d ∈ s.queue.dependents, d.parentKey ≠ none ∧
            e = (eventOfDependent d, highPriority)) := by
    intro s₁ d hd h₁
    obtain ⟨hsub, ⟨hs₁, htask⟩, hprofile⟩ := h₁
    refine ⟨fun _ hd' => hsub (applySingle_dependents_subset hd'),
      ⟨hs₁.applyOne htask hd, htask⟩, fun e he => ?_⟩
    by_cases hqueue : ∃ kind, applicationOf answers d = .queue kind
    · obtain ⟨kind, happ⟩ := hqueue
      change e ∈ profile (s₁.queue.applySingle answers d) at he
      rw [profile_of_queue happ] at he
      rcases mem_append.mp he with he | he
      · exact hprofile e he
      · exact .inr ⟨d, hsub hd, parentKey_of_queue happ, mem_singleton.mp he⟩
    · exact hprofile e ((profile_of_not_queue hs₁.queue hd (not_exists.mp hqueue)).subset he)
  have htask := (of_applyDependentRequests hstep).1
  obtain ⟨s₁, ⟨-, -, h₁⟩, heq⟩ := applyDependentRequests_induct hs.queue.dependentIds hstep
    ⟨fun _ hd => mem_of_mem_filter hd, ⟨hs.removeNonCanonical _, htask⟩, fun e he => .inl he⟩ hone
  rw [heq] at he
  exact h₁ e he

/-- An event is on its way when it is handed to the server, and not before. -/
theorem started_of_step (hstep : Step s op s') (h : Started s' b) :
    Started s b ∨
      (∃ request, s.task = .applied ∧ s.queue.loadSendQueueRequests.head? = some request ∧
        eventOf request = b) ∨
      ∃ d ∈ s.queue.dependents, Intent d ∧ d.ownTransactionId = b := by
  rcases h with hprofile | ⟨d', hd', ⟨handles, hmem, hup⟩, hkey⟩ | ⟨request, htask, hevent⟩
  · rcases lineStep_of_step hs hstep with ⟨parents, answers, rfl⟩ | hline
    · rcases profile_of_apply hs hstep hprofile with hold | ⟨d, hd, hkey, heq⟩
      · exact .inl (.inl hold)
      · obtain ⟨rfl, -⟩ := Prod.mk.inj heq
        by_cases hintent : Intent d
        · refine .inr (.inr ⟨d, hd, hintent, ?_⟩)
          exact (eventOfDependent_of_intent hintent).symm
        · obtain ⟨handles, hmem, l, r, heq⟩ :=
            mem_media_of_not_intent (hs.queue.dependent d hd) hintent
          refine .inl (.inr (.inl ⟨d, hd, ⟨handles, hmem, ?_⟩, hkey⟩))
          have hdrop := congrArg List.dropLast heq
          rw [dropLast_concat, dropLast_append_of_ne_nil (by simp)] at hdrop
          simp [hdrop]
    · cases hline with
      | same _ _ hsub => exact .inl (.inl (hsub.subset hprofile))
      | push t _ _ _ _ _ _ _ hnew =>
        rw [hnew] at hprofile
        rcases mem_append.mp hprofile with hold | hold
        · exact .inl (.inl hold)
        · simp [lowPriority, highPriority] at hold
  · obtain ⟨key, hsome⟩ := Option.ne_none_iff_exists'.mp hkey
    rcases parentKey_of_step hs hstep hd' hsome with
      ⟨d, hd, hparent, hkey'⟩ | ⟨request, answer, -, htask, hid⟩
    · have hused : d'.parentTransactionId ∈ s.used := by
        rw [← hparent]
        exact (hs.queue.dependentsUsed d hd).2
      have hold := mem_media_of_step hstep hmem (mem_append_left _ hup) hused
      refine .inl (.inr (.inl ⟨d, hd, ⟨handles, hold, hparent ▸ hup⟩, ?_⟩))
      rw [hkey']
      simp
    · have htaskOk := hs.task
      simp only [TaskOk, htask] at htaskOk
      obtain ⟨hok, hused, -⟩ := htaskOk
      rw [hid] at hused
      have hold := mem_media_of_step hstep hmem (mem_append_left _ hup) hused
      refine .inl (.inr (.inr ⟨request, htask, ?_⟩))
      unfold RequestOk at hok
      unfold eventOf
      cases hkind : request.kind with
      | mediaUpload _ _ _ relatedTo _ =>
        rw [hkind] at hok
        obtain ⟨handles', hmem', hup'⟩ := hok
        rw [hid] at hup'
        have hsame := hs.media.unique hmem' hold (mem_append_left _ hup') (mem_append_left _ hup)
        exact (Prod.mk.inj hsame).1
      | event _ | redaction _ _ =>
        rw [hkind, hid] at hok
        exact absurd ⟨_, hold, hup⟩ hok
  · cases hstep with
    | peek htask' hpeek =>
      cases htask
      exact .inr (.inl ⟨request, htask', head_of_peek hpeek, hevent⟩)
    | applyDependentRequests | wait | sent | aborted | notSent | wedged | duplicate
      | dropDuplicate => cases htask
    | _ => exact .inl (.inr (.inr ⟨request, htask, hevent⟩))

theorem line_of_step (hstep : Step s op s') :
    ∃ new, line s'.log = line s.log ++ new ∧
      ∀ e ∈ new, e.2 = highPriority ∨ e.1 ∉ s.used := by
  rcases lineStep_of_step hs hstep with ⟨parents, answers, rfl⟩ | hline
  · cases hstep with
    | applyDependentRequests =>
      refine ⟨_, line_append _ _, fun e he => .inl ?_⟩
      obtain ⟨entry, hentry, hplace⟩ := mem_filterMap.mp he
      obtain ⟨d, -, hmem⟩ := mem_flatMap.mp hentry
      exact line_entriesOf_high (mem_filterMap.mpr ⟨entry, hmem, hplace⟩)
  · cases hline with
    | same hline => exact ⟨[], by rw [hline, append_nil], by simp⟩
    | push t ht _ hline => exact ⟨_, hline, by simpa using .inr ht⟩

theorem noneBefore_step (hlined : Lined s) (hclosed : Closed s)
    (hready : s.task = .applied → NothingReady s)
    (hstarted : ∀ b, Started s b → NoneBefore s b lowPriority) (hstep : Step s op s')
    (h : Started s' b) : NoneBefore s' b lowPriority := by
  intro a hbefore
  obtain ⟨new, hline, hnew⟩ := line_of_step hs hstep
  rw [hline] at hbefore
  -- An event that was queued before the turn was queued after the same events.
  have hold : b ∈ s.used → Before (line s.log) (a, lowPriority) (b, lowPriority) := by
    intro hused
    refine before_of_append hbefore fun hmem => ?_
    rcases hnew _ hmem with hhigh | hfresh
    · simp [lowPriority, highPriority] at hhigh
    · exact hfresh hused
  have hgone : a ∉ ids s.queue → Before (line s.log) (a, lowPriority) (b, lowPriority) →
      a ∉ ids s'.queue := by
    intro ha hbefore hid
    rcases (step_idsFrom hs hstep).mem_ids hid with hstored | hfresh
    · exact ha hstored
    · exact hfresh (hlined.used _ hbefore.left_mem).1
  rcases started_of_step hs hstep h with hstart | ⟨request, htask, hhead, rfl⟩ | ⟨d, hd, hint, rfl⟩
  · have horder := hold (started_used hstart hs)
    exact hgone (hstarted b hstart a horder) horder
  · have hr := mem_loadSendQueueRequests.mp (mem_of_head? hhead)
    have horder := hold (eventOf_used hs.media (hs.queue.request _ hr) (hs.queue.requestsUsed _ hr))
    exact hgone (noneBefore_head hs hlined hclosed (hready htask) hstarted hhead a horder) horder
  · have horder := hold (hs.queue.dependentsUsed d hd).1
    exact absurd horder.right_mem (hlined.intent d hd hint lowPriority)

end

/-! ### Every event is accounted for -/

/-- The event is stored, it was sent, or it was cancelled. -/
def Accounted (s : RoomSendQueue) (a : ℕ) : Prop :=
  a ∈ ids s.queue ∨ (∃ request key, .sent request key ∈ s.log ∧ request.transactionId = a) ∨
    .cancelled a ∈ s.log

theorem Accounted.of_log (h : Accounted s a) (hlog : s.log ⊆ s'.log)
    (hids : a ∈ ids s.queue → Accounted s' a) : Accounted s' a := by
  rcases h with hstored | ⟨request, key, hsent, hid⟩ | hcancelled
  · exact hids hstored
  · exact .inr (.inl ⟨request, key, hlog hsent, hid⟩)
  · exact .inr (.inr (hlog hcancelled))

/-- What holds of the line while the dependent requests are applied. -/
structure Applying (s : RoomSendQueue) : Prop where
  wellFormed : WellFormed s
  task : s.task = .idle
  lined : Lined s
  redacts : RedactsCancelled s
  accounted : ∀ e ∈ line s.log, Accounted s e.1

theorem Applying.applyOne (h : Applying s) (hd : d ∈ s.queue.dependents) :
    Applying (applyOne answers s d) := by
  have hlined : Lined (CanonicalRequests.applyOne answers s d) :=
    h.lined.applyOne h.wellFormed hd
  have hlog : s.log ⊆ (CanonicalRequests.applyOne answers s d).log :=
    subset_append_left _ _
  refine ⟨h.wellFormed.applyOne h.task hd, h.task, hlined, ?_, ?_⟩
  · intro e he hredact
    exact hlog (h.redacts e (applySingle_dependents_subset he) hredact)
  · intro e he
    rw [line_applyOne] at he
    rcases mem_append.mp he with he | he
    · refine (h.accounted e he).of_log hlog fun hstored => ?_
      have hkeeps : e.1 ∈ ids (s.queue.applySingle answers d) ∨ _ := applySingle_keeps hd hstored
      rcases hkeeps with hkept | ⟨hintent, hown⟩ | ⟨hredact, hparent⟩
      · exact .inl hkept
      · have hmem : (d.ownTransactionId, e.2) ∈ line s.log := by
          rw [hown]
          exact he
        exact absurd hmem (h.lined.intent d hd hintent e.2)
      · rw [← hparent]
        exact .inr (.inr (hlog (h.redacts d hd hredact)))
    · by_cases hqueue : ∃ kind, applicationOf answers d = .queue kind
      · obtain ⟨kind, happ⟩ := hqueue
        by_cases hintent : Intent d
        · rw [line_entriesOf_of_intent hintent happ, mem_singleton] at he
          subst he
          exact .inl ((mem_ids_applySingle_of_queue hd happ).mpr (mem_ids_of_dependent hd))
        · rw [line_entriesOf_of_not_intent hintent] at he
          cases he
      · rw [line_entriesOf_of_not_queue (not_exists.mp hqueue)] at he
        cases he

section

variable (hs : WellFormed s) (hlined : Lined s) (hredacts : RedactsCancelled s)
  (haccounted : ∀ e ∈ line s.log, Accounted s e.1)
include hs hlined hredacts haccounted

theorem accounted_of_apply (hstep : Step s (.applyDependentRequests parents answers) s')
    (he : e ∈ line s'.log) : Accounted s' e.1 := by
  have hstart : Applying { s with queue := s.queue.canonicalized parents } := by
    cases hstep with
    | applyDependentRequests htask hnodup hparents =>
      refine ⟨hs.removeNonCanonical _, htask, hlined.shrink (List.Subset.refl _)
        (fun d hd hint => .inl ⟨d, mem_of_mem_filter hd, hint, rfl⟩) rfl rfl
        (Sublist.refl _), fun d hd => hredacts d (mem_of_mem_filter hd), ?_⟩
      intro e he
      refine (haccounted e he).of_log (List.Subset.refl _) fun hstored => ?_
      rcases removeNonCanonical_keeps hs.queue hparents hstored with hkept | ⟨d, hd, hint, hown⟩
      · exact .inl hkept
      · have hmem : (d.ownTransactionId, e.2) ∈ line s.log := by
          rw [hown]
          exact he
        exact absurd hmem (hlined.intent d hd hint e.2)
  obtain ⟨s₁, h₁, heq⟩ := applyDependentRequests_induct hs.queue.dependentIds hstep hstart
    fun s d hd h => h.applyOne hd
  rw [heq] at he ⊢
  exact h₁.accounted e he

theorem accounted_step (hstep : Step s op s') (he : e ∈ line s'.log) : Accounted s' e.1 := by
  obtain ⟨entries, hlog⟩ := step_log hstep
  have hold : e ∈ line s.log → Accounted s' e.1 := by
    intro he
    refine (haccounted e he).of_log (hlog ▸ subset_append_left _ _) fun hstored => ?_
    rcases step_keeps hs hredacts hstep hstored with hkept | hlost
    · exact .inl hkept
    · cases hlost with
      | sent request answer hop htask hid =>
        subst hop
        cases hstep with
        | sent htask' =>
          obtain rfl := Task.sending.inj (htask'.symm.trans htask)
          exact .inr (.inl ⟨_, _, mem_append_right _ (mem_singleton_self _), hid⟩)
      | cancelled _ hcancelled => exact .inr (.inr hcancelled)
      | aborted t all hmem hid => exact absurd ⟨_, hmem, hid⟩ (hlined.used e he).2
      | intent d hd hint hown =>
        have hmem : (d.ownTransactionId, e.2) ∈ line s.log := by
          rw [hown]
          exact he
        exact absurd hmem (hlined.intent d hd hint e.2)
  rcases lineStep_of_step hs hstep with ⟨parents, answers, rfl⟩ | hline
  · exact accounted_of_apply hs hlined hredacts haccounted hstep he
  · cases hline with
    | same hline => exact hold (hline ▸ he)
    | push t _ _ hline _ _ hstored =>
      rw [hline] at he
      rcases mem_append.mp he with he | he
      · exact hold he
      · rw [mem_singleton.mp he]
        exact .inl hstored

end

/-! ### Runs -/

structure InLine (s : RoomSendQueue) : Prop where
  wellFormed : WellFormed s
  lined : Lined s
  redacts : RedactsCancelled s
  closed : Closed s
  ready : s.task = .applied → NothingReady s
  started : ∀ b, Started s b → NoneBefore s b lowPriority
  accounted : ∀ e ∈ line s.log, Accounted s e.1

theorem inLine_new : InLine RoomSendQueue.new where
  wellFormed := wellFormed_new
  lined := lined_new
  redacts := by simp [RedactsCancelled, RoomSendQueue.new]
  closed := by simp [Closed, RoomSendQueue.new]
  ready := fun htask => by cases htask
  started := by simp [NoneBefore, RoomSendQueue.new, line, Before]
  accounted := by simp [RoomSendQueue.new, line]

theorem InLine.step (h : InLine s) (hstep : Step s op s') : InLine s' where
  wellFormed := h.wellFormed.step hstep
  lined := h.lined.step h.wellFormed hstep
  redacts := h.redacts.step h.wellFormed hstep
  closed := h.closed.step h.wellFormed h.redacts hstep
  ready := nothingReady_step h.wellFormed h.ready hstep
  started := fun _ => noneBefore_step h.wellFormed h.lined h.closed h.ready h.started hstep
  accounted := fun _ => accounted_step h.wellFormed h.lined h.redacts h.accounted hstep

/-- When a request is handed to the server, be it an event or one of its uploads, nothing is
stored any more of an event that was queued before it with the same priority: that event was
sent, or it was cancelled. -/
theorem first_in_first_out (hrun : Trace Step RoomSendQueue.new ops s) (hstep : Step s .peek s')
    (htask : s'.task = .sending request)
    (hbefore : Before (line s.log) (a, p) (eventOf request, p)) :
    a ∉ ids s.queue ∧
      ((∃ sent key, .sent sent key ∈ s.log ∧ sent.transactionId = a) ∨ .cancelled a ∈ s.log) := by
  have h := hrun.preserves (fun _ _ _ h hstep => h.step hstep) inLine_new
  cases hstep with
  | peek happlied hpeek =>
    cases htask
    have hgone := noneBefore_head h.wellFormed h.lined h.closed (h.ready happlied) h.started
      (head_of_peek hpeek) a hbefore
    exact ⟨hgone, (h.accounted _ hbefore.left_mem).resolve_left hgone⟩

/-- A media event is finished and sent before the event that was queued after it. -/
theorem media_event_keeps_its_place :
    ∃ s s' request,
      Trace Step RoomSendQueue.new
        [.pushMedia ⟨"m.room.message", "cat", .media ["local"], none⟩ 1
            ⟨"image/png", 0, "file", none⟩,
          .push 2 (.event ⟨"m.room.message", "hello", .other, none⟩),
          .applyDependentRequests [0] ⟨fun _ => true, fun _ => true⟩, .peek, .sent "mxc://cat",
          .applyDependentRequests [0] ⟨fun _ => true, fun _ => true⟩, .peek, .sent "$cat",
          .applyDependentRequests [] ⟨fun _ => true, fun _ => true⟩] s ∧
      Step s .peek s' ∧ s'.task = .sending request ∧ request.transactionId = 2 ∧
      1 ∉ ids s.queue ∧
      ((∃ sent key, .sent sent key ∈ s.log ∧ sent.transactionId = 1) ∨ .cancelled 1 ∈ s.log) := by
  refine ⟨_, _, _, and_of_imp (.cons (.pushMedia (by decide)) (.cons (.push (by decide) rfl)
    (.cons (.applyDependentRequests rfl (by decide) (by decide)) (.cons (.peek rfl rfl)
      (.cons (.sent rfl) (.cons (.applyDependentRequests rfl (by decide) (by decide))
        (.cons (.peek rfl rfl) (.cons (.sent rfl)
          (.cons (.applyDependentRequests rfl (by decide) (by decide)) (.nil _))))))))))
    fun hrun => and_of_imp (.peek rfl rfl) fun hstep => ⟨rfl, rfl, ?_⟩⟩
  refine first_in_first_out hrun hstep rfl (p := lowPriority) ?_
  unfold Before
  decide

/-- An event that was marked as sent is not handed to the server again. -/
theorem sent_event_is_not_sent_again {sent : QueuedRequest} {key : SentRequestKey}
    (hrun : Trace Step RoomSendQueue.new ops s) (htask : s.task = .sending request)
    (hevent : isUploadRequest request = false) (hsent : .sent sent key ∈ s.log)
    (hsentEvent : isUploadRequest sent = false) : sent.transactionId ≠ request.transactionId := by
  have htaskOk := (wellFormed_of_trace hrun).task
  simp only [TaskOk, htask] at htaskOk
  obtain ⟨-, stored, hstored, hsame, -⟩ := htaskOk.2.2 hevent
  intro heq
  refine (sentGone_of_trace hrun sent key hsent).2 hsentEvent ?_
  exact (hsame.trans heq.symm) ▸ mem_ids_of_request hstored

/-- The second of two messages is being sent. -/
theorem second_message_is_another_event :
    ∃ s request, Trace Step RoomSendQueue.new
        [.push 1 (.event ⟨"m.room.message", "hi", .other, none⟩),
          .push 2 (.event ⟨"m.room.message", "hi", .other, none⟩),
          .applyDependentRequests [] ⟨fun _ => true, fun _ => true⟩, .peek, .sent "$first",
          .applyDependentRequests [] ⟨fun _ => true, fun _ => true⟩, .peek] s ∧
      s.task = .sending request ∧ 1 ≠ request.transactionId := by
  refine ⟨_, _, and_of_imp (.cons (.push (by decide) rfl) (.cons (.push (by decide) rfl)
    (.cons (.applyDependentRequests rfl (by decide) (by decide)) (.cons (.peek rfl rfl)
      (.cons (.sent rfl) (.cons (.applyDependentRequests rfl (by decide) (by decide))
        (.cons (.peek rfl rfl) (.nil _))))))))
    fun hrun => ⟨rfl, sent_event_is_not_sent_again hrun rfl rfl
      (.tail _ (.tail _ (.tail _ (.head _)))) rfl⟩⟩

end MatrixSdk.SendOrder

import MatrixSdk.ParentLinks
import MatrixSdk.ListOrders

/-!
The line of the events of a room. An event takes its place when it is queued, with its priority.
The requests of the storage stand for events of the line, and those that have the priority their
event was queued with are in the order of the line.
-/
namespace MatrixSdk.QueueLines

open KeyedRows SendQueue RoomSendQueues CanonicalRequests QueueInvariants QueueTurns ParentLinks
open RequestOrigins QueueStorage RoomSendQueue DependentQueuedRequestKind List

variable {s s' : RoomSendQueue} {media : Media} {used : List ℕ}
  {q q' : QueueStorage} {t : ℕ} {op : Op} {answers : Answers} {d : DependentQueuedRequest}

def placeOf : Entry → Option (ℕ × ℕ)
  | .queued transactionId priority => some (transactionId, priority)
  | _ => none

/-- The events that were queued, each with its priority. -/
def line (log : List Entry) : List (ℕ × ℕ) := log.filterMap placeOf

/-- The event a request is sent for, and the priority of the request. -/
def placeOfRequest (request : QueuedRequest) : ℕ × ℕ := (eventOf request, request.priority)

def profile (q : QueueStorage) : List (ℕ × ℕ) := q.requests.map placeOfRequest

structure Lined (s : RoomSendQueue) : Prop where
  used : ∀ e ∈ line s.log, e.1 ∈ s.used ∧ ¬ IsUpload s.media e.1
  nodup : ((line s.log).map Prod.fst).Nodup
  priorities : ∀ e ∈ line s.log, e.2 = lowPriority ∨ e.2 = highPriority
  media : ∀ m ∈ s.media, (m.1, lowPriority) ∈ line s.log
  intent : ∀ d ∈ s.queue.dependents, Intent d → ∀ p, (d.ownTransactionId, p) ∉ line s.log
  low : ∀ e ∈ profile s.queue, e.2 = lowPriority → e ∈ line s.log
  high : ∀ e ∈ profile s.queue, e.2 = lowPriority ∨ e.2 = highPriority
  order : ((profile s.queue).filter (· ∈ line s.log)).Sublist (line s.log)

theorem lined_new : Lined RoomSendQueue.new where
  used := by simp [RoomSendQueue.new, line]
  nodup := by simp [RoomSendQueue.new, line]
  priorities := by simp [RoomSendQueue.new, line]
  media := by simp [RoomSendQueue.new]
  intent := by simp [RoomSendQueue.new]
  low := by simp [RoomSendQueue.new, profile]
  high := by simp [RoomSendQueue.new, profile]
  order := by simp [RoomSendQueue.new, profile]

variable {p : ℕ} {e : ℕ × ℕ}

/-- An event takes one place. -/
theorem Lined.eq_of_mem {p' : ℕ} (h : Lined s) (hp : (t, p) ∈ line s.log)
    (hp' : (t, p') ∈ line s.log) : p = p' := by
  have hsame := inj_on_of_nodup_map h.nodup hp hp' rfl
  exact (Prod.mk.inj hsame).2

theorem line_append (log entries : List Entry) :
    line (log ++ entries) = line log ++ line entries := by
  simp [line]

/-! ### What the storage shows -/

theorem profile_removeRequest :
    (profile (q.removeSendQueueRequest t)).Sublist (profile q) :=
  remove_sublist.map _

section

variable (hq : QueueOk media used q)
include hq

theorem profile_updateStatus (error : Option String) :
    profile (q.updateSendQueueRequestStatus t error) = profile q := by
  unfold profile updateSendQueueRequestStatus
  rw [update_eq_map hq.requestIds, map_map]
  apply map_congr_left
  intro request _
  simp only [Function.comp]
  split <;> rfl

/-- An event stays the event that it is when its content changes. -/
theorem profile_updateRequest (ht : ¬ IsUpload media t) (content : EventContent) :
    profile (q.updateSendQueueRequest t (.event content)) = profile q := by
  unfold profile updateSendQueueRequest
  rw [update_eq_map hq.requestIds, map_map]
  apply map_congr_left
  intro request hr
  simp only [Function.comp]
  split
  · next heq =>
    have hup := isUploadRequest_eq_false (hq.request request hr) (heq ▸ ht)
    unfold placeOfRequest eventOf
    unfold isUploadRequest at hup
    cases hkind : request.kind <;> simp_all
  · rfl

theorem profile_turn {new : List ℕ} (h : Turn media q t new q') :
    (profile q').Sublist (profile q) := by
  cases h with
  | same | parkEdit | parkRedact | parkReact | recaption | dropReaction =>
    exact Sublist.refl _
  | write _ hr hid hevent =>
    subst hid
    rw [profile_updateRequest hq (not_isUpload_of_asEvent (hq.request _ hr) hevent)]
  | drop => exact profile_removeRequest
  | unwedge =>
    unfold markAsUnwedged
    rw [profile_updateStatus hq]

end

/-- Nothing is queued: the line stays, and some requests may be gone. -/
theorem Lined.shrink (h : Lined s) (hused : s.used ⊆ s'.used)
    (hdeps : ∀ d' ∈ s'.queue.dependents, Intent d' → (∃ d ∈ s.queue.dependents, Intent d ∧
      d.ownTransactionId = d'.ownTransactionId) ∨ d'.ownTransactionId ∉ s.used)
    (hline : line s'.log = line s.log) (hmedia : s'.media = s.media)
    (hprofile : (profile s'.queue).Sublist (profile s.queue)) : Lined s' where
  used := by
    intro e he
    rw [hline] at he
    rw [hmedia]
    exact ⟨hused (h.used e he).1, (h.used e he).2⟩
  nodup := hline ▸ h.nodup
  priorities := hline ▸ h.priorities
  media := by
    rw [hmedia, hline]
    exact h.media
  intent := by
    intro d' hd' hintent p hmem
    rw [hline] at hmem
    rcases hdeps d' hd' hintent with ⟨d, hd, hint, hown⟩ | hnew
    · rw [← hown] at hmem
      exact h.intent d hd hint p hmem
    · exact hnew (h.used _ hmem).1
  low := by
    intro e he
    rw [hline]
    exact h.low e (hprofile.subset he)
  high := fun e he => h.high e (hprofile.subset he)
  order := by
    rw [hline]
    exact (hprofile.filter _).trans h.order

/-- A new event takes its place at the end, with its request behind the others. -/
theorem Lined.append (h : Lined s) (hline : line s'.log = line s.log ++ [(t, p)])
    (hprofile : profile s'.queue = profile s.queue ++ [(t, p)])
    (hkept : ∀ e ∈ line s.log, e.1 ∈ s'.used ∧ ¬ IsUpload s'.media e.1)
    (ht : t ∈ s'.used ∧ ¬ IsUpload s'.media t) (hnew : ∀ p, (t, p) ∉ line s.log)
    (hp : p = lowPriority ∨ p = highPriority)
    (hmedia : ∀ m ∈ s'.media, m ∈ s.media ∨ (m.1, lowPriority) = (t, p))
    (hintent : ∀ d ∈ s'.queue.dependents, Intent d → d.ownTransactionId ≠ t ∧
      ∀ p, (d.ownTransactionId, p) ∉ line s.log) (hold : (t, p) ∉ profile s.queue) : Lined s' := by
  refine ⟨?_, ?_, ?_, ?_, ?_, ?_, ?_, ?_⟩
  · rw [hline]
    exact forall_mem_append.mpr ⟨hkept, forall_mem_singleton.mpr ht⟩
  · rw [hline, map_append]
    refine nodup_append.mpr ⟨h.nodup, by simp, ?_⟩
    intro a ha b hb hab
    obtain ⟨e, he, rfl⟩ := mem_map.mp ha
    have hb' : b = t := by simpa using hb
    have hfirst : e = (t, e.2) := Prod.ext (hab.trans hb') rfl
    exact hnew e.2 (hfirst ▸ he)
  · rw [hline]
    exact forall_mem_append.mpr ⟨h.priorities, forall_mem_singleton.mpr hp⟩
  · intro m hm
    rw [hline]
    rcases hmedia m hm with hm | heq
    · exact mem_append_left _ (h.media m hm)
    · exact mem_append_right _ (mem_singleton.mpr heq)
  · intro d hd hint q hmem
    obtain ⟨hne, hnot⟩ := hintent d hd hint
    rw [hline] at hmem
    rcases mem_append.mp hmem with hmem | hmem
    · exact hnot q hmem
    · exact hne (Prod.mk.inj (mem_singleton.mp hmem)).1
  · rw [hprofile, hline]
    exact forall_mem_append.mpr ⟨fun e he hlow => mem_append_left _ (h.low e he hlow),
      fun e he _ => mem_append_right _ he⟩
  · rw [hprofile]
    exact forall_mem_append.mpr ⟨h.high, forall_mem_singleton.mpr hp⟩
  · have hfilter : (profile s.queue).filter (· ∈ line s.log ++ [(t, p)]) =
        (profile s.queue).filter (· ∈ line s.log) := by
      apply filter_congr
      intro e he
      have hne : e ≠ (t, p) := fun heq => hold (heq ▸ he)
      simp [mem_append, hne]
    rw [hline, hprofile, filter_append, hfilter]
    exact h.order.append (by simp)

/-- An event is queued. -/
theorem Lined.push (h : Lined s) (hs : WellFormed s)
    (hstep : Step s op s') (ht : t ∉ s.used) (ht' : t ∈ s'.used)
    (hline : line s'.log = line s.log ++ [(t, lowPriority)])
    (hmedia : ∀ m ∈ s'.media, m ∈ s.media ∨ m.1 = t)
    (hevent : ¬ IsUpload s'.media t)
    (hdeps : ∀ d' ∈ s'.queue.dependents, Intent d' → ∃ d ∈ s.queue.dependents, Intent d ∧
      d.ownTransactionId = d'.ownTransactionId)
    (hprofile : profile s'.queue = profile s.queue ++ [(t, lowPriority)]) : Lined s' := by
  have hnew : ∀ p, (t, p) ∉ line s.log := fun p hmem => ht (h.used _ hmem).1
  refine h.append hline hprofile (fun e he => ?_) ⟨ht', hevent⟩ hnew (.inl rfl)
    (fun m hm => (hmedia m hm).imp_right fun heq => by rw [heq]) (fun d' hd' hintent => ?_) ?_
  · exact ⟨step_used hstep (h.used e he).1,
      not_isUpload_of_step hstep (h.used e he).1 (h.used e he).2⟩
  · obtain ⟨d, hd, hint, hown⟩ := hdeps d' hd' hintent
    rw [← hown]
    exact ⟨fun heq => ht (heq ▸ (hs.queue.dependentsUsed d hd).1), h.intent d hd hint⟩
  -- What is stored stands for events that were queued before.
  · exact fun he => hnew _ (h.low _ he rfl)

/-! ### Applying dependent requests -/

/-- The event that a dependent request is a part of, or the one it becomes. -/
def eventOfDependent (d : DependentQueuedRequest) : ℕ :=
  match d.kind with
  | .uploadFileOrThumbnail _ _ relatedTo _ => relatedTo
  | _ => d.ownTransactionId

variable {kind : QueuedRequestKind}

theorem line_entriesOf_of_intent (hintent : Intent d)
    (happ : applicationOf answers d = .queue kind) :
    line (entriesOf answers d) = [(d.ownTransactionId, highPriority)] := by
  cases hkey : d.parentKey with
  | none => exact absurd hkey (parentKey_of_queue happ)
  | some key =>
    have hentries := happ
    unfold entriesOf
    rw [happ]
    cases hkind : d.kind <;> simp only [applicationOf, hkind, hkey] at hentries
    all_goals repeat' split at hentries
    all_goals cases hentries
    all_goals simp_all [line, placeOf, Intent, isEdit, isRedact, isReact]

theorem line_entriesOf_of_not_intent (hnot : ¬ Intent d) : line (entriesOf answers d) = [] := by
  unfold entriesOf
  unfold Intent at hnot
  split
  · split <;> simp_all [line, placeOf, isEdit, isReact]
  · rfl
  · rfl

theorem line_entriesOf_high (he : e ∈ line (entriesOf answers d)) : e.2 = highPriority := by
  unfold entriesOf at he
  split at he
  · split at he <;> simp_all [line, placeOf]
  · simp [line, placeOf] at he
  · cases he

theorem line_entriesOf_of_not_queue (hnot : ∀ kind, applicationOf answers d ≠ .queue kind) :
    line (entriesOf answers d) = [] := by
  unfold entriesOf
  split
  · next happ => exact absurd happ (hnot _)
  · rfl
  · rfl

/-- A part of a media event is made for an event that was queued. -/
theorem mem_media_of_not_intent (hok : DependentOk media d) (hnot : ¬ Intent d) :
    ∃ handles, (eventOfDependent d, handles) ∈ media ∧
      ∃ l r, uploadsOf handles ++ [eventOfDependent d] =
        l ++ d.parentTransactionId :: d.ownTransactionId :: r := by
  unfold DependentOk at hok
  unfold eventOfDependent
  unfold Intent at hnot
  cases hkind : d.kind with
  | uploadFileOrThumbnail _ _ relatedTo _ =>
    rw [hkind] at hok
    exact hok.1
  | finishUpload _ | finishGallery _ _ =>
    rw [hkind] at hok
    exact hok
  | editEvent _ | redactEvent _ | reactEvent _ =>
    simp [hkind, isEdit, isRedact, isReact] at hnot

theorem profile_of_queue (happ : applicationOf answers d = .queue kind) :
    profile (q.applySingle answers d) = profile q ++ [(eventOfDependent d, highPriority)] := by
  rw [applySingle_eq, happ]
  have hevent : eventOf ⟨kind, d.ownTransactionId, none, highPriority⟩ = eventOfDependent d := by
    cases hkey : d.parentKey with
    | none => exact absurd hkey (parentKey_of_queue happ)
    | some key =>
      unfold eventOfDependent
      cases hkind : d.kind <;> simp only [applicationOf, hkind, hkey] at happ
      all_goals repeat' split at happ
      all_goals cases happ
      all_goals rfl
  rw [← hevent]
  exact map_append

theorem line_applyOne : line (applyOne answers s d).log =
    line s.log ++ line (entriesOf answers d) :=
  line_append _ _

section

variable (hq : QueueOk media used q) (hd : d ∈ q.dependents)
include hq hd

/-- No request stands for what a user wants done, as long as it waits. -/
theorem eventOf_ne_of_intent {request : QueuedRequest} (hintent : Intent d)
    (hr : request ∈ q.requests) : eventOf request ≠ d.ownTransactionId := by
  have hok := hq.request request hr
  have hnot := own_not_mem_of_intent (hq.dependent d hd) hintent
  unfold RequestOk at hok
  unfold eventOf
  cases hkind : request.kind with
  | mediaUpload _ _ _ relatedTo _ =>
    rw [hkind] at hok
    obtain ⟨handles, hmem, -⟩ := hok
    intro heq
    apply hnot
    rw [← heq]
    exact mem_mediaIds.mpr ⟨_, hmem, mem_append_right _ (mem_singleton_self _)⟩
  | event _ | redaction _ _ => exact hq.disjoint request hr d hd

theorem profile_of_not_queue (hnot : ∀ kind, applicationOf answers d ≠ .queue kind) :
    (profile (q.applySingle answers d)).Sublist (profile q) := by
  cases happ : applicationOf answers d with
  | queue kind => exact absurd happ (hnot kind)
  | edit content =>
    have hremoved : QueueOk media used (q.removeDependentQueuedRequest d.ownTransactionId) :=
      hq.sublist (Sublist.refl _) remove_sublist
    have hok := hq.dependent d hd
    simp only [DependentOk, (kind_of_edit happ).1] at hok
    rw [applySingle_eq, happ]
    rw [profile_updateRequest hremoved hok.2]
    exact Sublist.refl _
  | drop =>
    rw [applySingle_eq, happ]
    exact profile_removeRequest
  | redact _ | done =>
    rw [applySingle_eq, happ]
    exact Sublist.refl _
  | retry => rw [applySingle_eq, happ]

end

theorem eventOfDependent_of_intent (hintent : Intent d) :
    eventOfDependent d = d.ownTransactionId := by
  unfold eventOfDependent
  unfold Intent at hintent
  cases hkind : d.kind <;> simp_all [isEdit, isRedact, isReact]

section ApplyOne

variable (h : Lined s) (hs : WellFormed s) (hd : d ∈ s.queue.dependents)
include h hs hd

/-- An edit event or a reaction takes its place once its parent was sent. -/
theorem Lined.queueIntent (hintent : Intent d)
    (happ : applicationOf answers d = .queue kind) : Lined (applyOne answers s d) := by
  have hline : line (applyOne answers s d).log =
      line s.log ++ [(d.ownTransactionId, highPriority)] := by
    rw [line_applyOne, line_entriesOf_of_intent hintent happ]
  have hown := eventOfDependent_of_intent hintent
  have hprofile : profile (applyOne answers s d).queue =
      profile s.queue ++ [(d.ownTransactionId, highPriority)] := by
    rw [← hown]
    exact profile_of_queue happ
  have hmedia := own_not_mem_of_intent (hs.queue.dependent d hd) hintent
  refine h.append hline hprofile h.used
    ⟨(hs.queue.dependentsUsed d hd).1, fun hup => hmedia (mem_mediaIds_of_isUpload hup)⟩
    (h.intent d hd hintent) (.inr rfl) (fun _ => .inl) (fun e he hint => ?_) fun hmem => ?_
  · refine ⟨fun heq => ?_, h.intent e (applySingle_dependents_subset he) hint⟩
    have hremoved : e ∈ remove (·.ownTransactionId) d.ownTransactionId s.queue.dependents := by
      change e ∈ (s.queue.applySingle answers d).dependents at he
      rw [applySingle_eq, happ] at he
      exact he
    exact ne_of_mem_remove hs.queue.dependentIds hremoved heq
  · obtain ⟨request, hr, heq⟩ := mem_map.mp hmem
    exact eventOf_ne_of_intent hs.queue hd hintent hr (congrArg Prod.fst heq)

/-- A part of a media event keeps the place of the event. -/
theorem Lined.queuePart (hnot : ¬ Intent d)
    (happ : applicationOf answers d = .queue kind) : Lined (applyOne answers s d) := by
  have hline : line (applyOne answers s d).log = line s.log := by
    rw [line_applyOne, line_entriesOf_of_not_intent hnot, append_nil]
  have hprofile : profile (applyOne answers s d).queue =
      profile s.queue ++ [(eventOfDependent d, highPriority)] := profile_of_queue happ
  obtain ⟨handles, hmem, -⟩ := mem_media_of_not_intent (hs.queue.dependent d hd) hnot
  have hplace : (eventOfDependent d, highPriority) ∉ line s.log := by
    intro hhigh
    have heq := h.eq_of_mem (h.media _ hmem) hhigh
    simp [lowPriority, highPriority] at heq
  refine ⟨hline ▸ h.used, hline ▸ h.nodup, hline ▸ h.priorities, ?_, ?_, ?_, ?_, ?_⟩
  · rw [hline]
    exact h.media
  · intro e he hint p
    rw [hline]
    exact h.intent e (applySingle_dependents_subset he) hint p
  · rw [hprofile, hline]
    refine forall_mem_append.mpr ⟨h.low, forall_mem_singleton.mpr fun hlow => ?_⟩
    simp [lowPriority, highPriority] at hlow
  · rw [hprofile]
    exact forall_mem_append.mpr ⟨h.high, forall_mem_singleton.mpr (.inr rfl)⟩
  · rw [hline, hprofile, filter_append]
    simpa [hplace] using h.order

theorem Lined.applyOne : Lined (applyOne answers s d) := by
  by_cases hqueue : ∃ kind, applicationOf answers d = .queue kind
  · obtain ⟨kind, happ⟩ := hqueue
    by_cases hintent : Intent d
    · exact h.queueIntent hs hd hintent happ
    · exact h.queuePart hs hd hintent happ
  · have hnot := not_exists.mp hqueue
    have hline : line (CanonicalRequests.applyOne answers s d).log = line s.log := by
      rw [line_applyOne, line_entriesOf_of_not_queue hnot, append_nil]
    refine h.shrink (List.Subset.refl _) ?_ hline rfl (profile_of_not_queue hs.queue hd hnot)
    intro e he hint
    exact .inl ⟨e, applySingle_dependents_subset he, hint, rfl⟩

end ApplyOne

/-! ### Every turn keeps the line -/

theorem line_cancelled (b : Bool) (t : ℕ) : line (if b then [Entry.cancelled t] else []) = [] := by
  cases b <;> rfl

/-- What a turn does to the line. Nothing is queued, or one event takes the last place. -/
inductive LineStep (s s' : RoomSendQueue) : Prop
  | same (hline : line s'.log = line s.log) (hmedia : s'.media = s.media)
      (hprofile : (profile s'.queue).Sublist (profile s.queue))
  | push (t : ℕ) (ht : t ∉ s.used) (ht' : t ∈ s'.used)
      (hline : line s'.log = line s.log ++ [(t, lowPriority)])
      (hmedia : ∀ m ∈ s'.media, m ∈ s.media ∨ m.1 = t) (hevent : ¬ IsUpload s'.media t)
      (hstored : t ∈ ids s'.queue)
      (hdeps : ∀ d' ∈ s'.queue.dependents, Intent d' → d' ∈ s.queue.dependents)
      (hprofile : profile s'.queue = profile s.queue ++ [(t, lowPriority)])

theorem lineStep_of_queued {x : ℕ} {handles : List MediaHandles} {first : QueuedRequest}
    {ds : List DependentQueuedRequest} {finish : DependentQueuedRequest} (hs : WellFormed s)
    (hfresh : s.Fresh (uploadsOf handles ++ [x]))
    (hqueued : Queued s.queue q' x (uploadsOf handles) first ds finish) :
    LineStep s (s.withMedia q' x handles) := by
  have hs' := hs.queued hfresh hqueued
  have hmem : (x, handles) ∈ (s.withMedia q' x handles).media :=
    mem_append_right _ (mem_singleton_self _)
  refine .push x (hfresh.2 x (by simp)) ?_ (line_append _ _) ?_ (hs'.media.not_isUpload hmem)
    ?_ ?_ ?_
  · simp [withMedia]
  · exact forall_mem_append.mpr ⟨fun _ => .inl, forall_mem_singleton.mpr (.inr rfl)⟩
  · change x ∈ ids q'
    rw [hqueued.eq, ← hqueued.finishOwn]
    exact mem_ids.mpr (.inr ⟨finish, by simp, rfl⟩)
  · intro d' hd' hintent
    rw [hqueued.eq] at hd'
    rcases mem_append.mp hd' with hd' | hd'
    · exact hd'
    · exact absurd hintent (not_intent_of_queued hqueued hd')
  · obtain ⟨contentType, cacheKey, hkind, -, hpriority⟩ := hqueued.firstUpload
    have hplace : placeOfRequest first = (x, lowPriority) := by
      simp [placeOfRequest, eventOf, hkind, hpriority]
    rw [hqueued.eq, ← hplace]
    exact map_append

theorem lineStep_of_step (hs : WellFormed s) (hstep : Step s op s') :
    (∃ parents answers, op = .applyDependentRequests parents answers) ∨ LineStep s s' := by
  have hnote : ∀ entries, line entries = [] → line (s.log ++ entries) = line s.log := by
    intro entries hnone
    rw [line_append, hnone, append_nil]
  cases hstep with
  | applyDependentRequests => exact .inl ⟨_, _, rfl⟩
  | @push t kind hfresh hkind =>
    have ht : t ∉ s.used := hfresh.2 t (by simp)
    refine .inr (.push t ht ?_ (line_append _ _) (fun m hm => .inl hm) ?_ ?_
      (fun d hd _ => hd) ?_)
    · simp [note, withQueue]
    · exact fun hup => ht (hs.media.used t (mem_mediaIds_of_isUpload hup))
    · exact mem_ids.mpr (.inl ⟨_, mem_append_right _ (mem_singleton_self _), rfl⟩)
    · have hplace : placeOfRequest ⟨kind, t, none, lowPriority⟩ = (t, lowPriority) := by
        unfold placeOfRequest eventOf
        unfold isUploadRequest at hkind
        cases kind <;> simp_all
      rw [← hplace]
      exact map_append
  | pushMedia hfresh =>
    obtain ⟨first, ds, finish, hqueued⟩ := pushMedia_queued s.queue _ _ _
    exact .inr (lineStep_of_queued hs hfresh hqueued)
  | pushGallery hitems hfresh =>
    obtain ⟨first, ds, finish, hqueued⟩ := pushGallery_queued s.queue _ _ hitems
    exact .inr (lineStep_of_queued hs hfresh hqueued)
  | replaceEvent =>
    exact .inr (.same rfl rfl
      (profile_turn hs.queue (replaceEvent_turn _ : Turn s.media _ _ _ _)))
  | editMediaCaption =>
    exact .inr (.same rfl rfl
      (profile_turn hs.queue (editMediaCaption_turn _ : Turn s.media _ _ _ _)))
  | react =>
    exact .inr (.same rfl rfl (profile_turn hs.queue (react_turn hs.media hs.queue _)))
  | cancelEvent hfresh hevent =>
    exact .inr (.same (hnote _ (line_cancelled _ _)) rfl
      (profile_turn hs.queue (cancelEvent_turn _ hevent)))
  | removeDependent =>
    exact .inr (.same (hnote _ (line_cancelled _ _)) rfl (Sublist.refl _))
  | abortUpload =>
    exact .inr (.same (hnote _ (line_cancelled _ _)) rfl (abortUpload_removes.requests.map _))
  | markAsUnwedged =>
    exact .inr (.same rfl rfl (profile_turn hs.queue (.unwedge : Turn s.media _ _ [] _)))
  | peek htask hpeek =>
    obtain ⟨-, rfl⟩ := peekNextToSend_eq hpeek
    exact .inr (.same (hnote _ rfl) rfl (Sublist.refl _))
  | sent => exact .inr (.same (hnote _ rfl) rfl profile_removeRequest)
  | wedged =>
    have hq : QueueOk s.media s.used s.queue.markAsNotBeingSent :=
      hs.queue.sublist (Sublist.refl _) (Sublist.refl _)
    refine .inr (.same rfl rfl ?_)
    exact (profile_updateStatus hq _) ▸ Sublist.refl _
  | dropDuplicate htask hfresh =>
    have hold := hs.task
    simp only [TaskOk, htask] at hold
    exact .inr (.same (hnote _ (line_cancelled _ _)) rfl
      (profile_turn hs.queue (cancelEvent_turn none hold.2.2)))
  | wait | aborted | notSent | duplicate => exact .inr (.same rfl rfl (Sublist.refl _))

theorem Lined.step (h : Lined s) (hs : WellFormed s) (hstep : Step s op s') : Lined s' := by
  rcases lineStep_of_step hs hstep with ⟨parents, answers, rfl⟩ | hstep'
  · have htask := (of_applyDependentRequests hstep).1
    obtain ⟨s₁, ⟨-, h₁, -⟩, heq⟩ := applyDependentRequests_induct
      (P := fun s => WellFormed s ∧ Lined s ∧ s.task = .idle) hs.queue.dependentIds hstep
      ⟨hs.removeNonCanonical _, h.shrink (List.Subset.refl _)
        (fun d hd hint => .inl ⟨d, mem_of_mem_filter hd, hint, rfl⟩) rfl rfl
        (Sublist.refl _), htask⟩
      fun s d hd hs => ⟨hs.1.applyOne hs.2.2 hd, hs.2.1.applyOne hs.1 hd, hs.2.2⟩
    rw [heq]
    exact ⟨h₁.used, h₁.nodup, h₁.priorities, h₁.media, h₁.intent, h₁.low, h₁.high, h₁.order⟩
  · cases hstep' with
    | same hline hmedia hprofile =>
      refine h.shrink (step_used hstep) ?_ hline hmedia hprofile
      intro d' hd' hintent
      rcases step_dependentsFrom hs hstep d' hd' with ⟨d, hd, hown, -, hint, -⟩ | ⟨hnew, -⟩
      · exact .inl ⟨d, hd, hint hintent, hown⟩
      · exact .inr hnew
    | push t ht ht' hline hmedia hevent hstored hdeps hprofile =>
      exact h.push hs hstep ht ht' hline hmedia hevent
        (fun d' hd' hintent => ⟨d', hdeps d' hd' hintent, hintent, rfl⟩) hprofile

end MatrixSdk.QueueLines

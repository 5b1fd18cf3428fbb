import MatrixSdk.RequestOrigins

/-!
The parents of dependent requests. A dependent request waits for its parent, and the uploads of a
media event wait for one another. As long as what is removed is what nothing waits for, every turn
keeps these links.
-/
namespace MatrixSdk.ParentLinks

open KeyedRows SendQueue RoomSendQueues CanonicalRequests QueueInvariants QueueTurns
open RequestOrigins QueueStorage DependentQueuedRequestKind List

variable {s s' : RoomSendQueue} {media : Media} {used : List ℕ}
  {q q' : QueueStorage} {t x u v : ℕ} {op : Op} {answers : Answers} {d : DependentQueuedRequest}
  {handles : List MediaHandles} {h : MediaHandles}

def isUploadFor (t : ℕ) (d : DependentQueuedRequest) : Bool :=
  match d.kind with
  | .uploadFileOrThumbnail _ _ relatedTo _ => relatedTo = t
  | _ => false

def NothingWaitsFor (q : QueueStorage) (t : ℕ) : Prop :=
  ∀ d ∈ q.dependents, d.parentTransactionId ≠ t

/-- What is stored of the uploads of an event is the file of one media, or its thumbnail and the
file that waits for it. -/
def LastUploads (q : QueueStorage) (t : ℕ) (h : MediaHandles) : Prop :=
  (∀ request ∈ q.requests, isUploadRequest request = true → eventOf request = t →
    request.transactionId ∈ uploadsOf [h]) ∧
  ∀ d ∈ q.dependents, isUploadFor t d = true →
    d.ownTransactionId = h.uploadFileTxn ∧
      (h.uploadThumbnailTxn.filter q.hasRequest).isSome = true

/-! ### Chains of uploads -/

/-- What waits has something to wait for. -/
def Waits (q : QueueStorage) : Prop :=
  ∀ d ∈ q.dependents, d.parentKey = none → d.parentTransactionId ∈ ids q

/-- After an upload that is stored, the next one waits, or the event. -/
def Chained (media : Media) (q : QueueStorage) : Prop :=
  ∀ x u v, Follows media x u v → u ∈ ids q → q.hasDependent v = true

theorem hasDependent_iff : q.hasDependent t = true ↔
    ∃ d ∈ q.dependents, d.ownTransactionId = t := by
  simp [hasDependent]

theorem hasRequest_iff : q.hasRequest t = true ↔
    ∃ request ∈ q.requests, request.transactionId = t := by
  simp [hasRequest]

/-- A part of a media event is queued once the upload before it is gone. -/
theorem Chained.of (hchained : Chained media q) (hm : MediaOk media used)
    (hq : QueueOk media used q) (hids : ∀ id ∈ ids q', id ∈ mediaIds media → id ∈ ids q)
    (hdeps : ∀ d ∈ q.dependents, d.ownTransactionId ∈ mediaIds media →
      q'.hasDependent d.ownTransactionId = true ∨ d.parentTransactionId ∉ ids q') :
    Chained media q' := by
  intro x u v hfollows hu
  have hmem : u ∈ mediaIds media := mem_mediaIds_of_isUpload hfollows.isUpload_parent
  obtain ⟨d, hd, hown⟩ := hasDependent_iff.mp (hchained x u v hfollows (hids u hu hmem))
  subst hown
  rcases hdeps d hd hfollows.mem with hstored | hgone
  · exact hstored
  · rcases intent_or_follows (hq.dependent d hd) with ⟨hintent, -⟩ | ⟨-, x', hfollows'⟩
    · exact absurd hfollows.mem (own_not_mem_of_intent (hq.dependent d hd) hintent)
    · rw [(hm.follows_unique hfollows' hfollows).2] at hgone
      exact absurd hu hgone

/-- As long as an upload of a media event is stored, the event waits. -/
theorem hasDependent_of_upload (hchained : Chained media q) (hmem : (x, handles) ∈ media)
    (hu : u ∈ uploadsOf handles) (hstored : u ∈ ids q) : q.hasDependent x = true := by
  have hrest : ∀ r l u, uploadsOf handles = l ++ u :: r → u ∈ ids q → q.hasDependent x = true := by
    intro r
    induction r with
    | nil =>
      intro l u heq hstored
      exact hchained x u x ⟨handles, hmem, l, [], by simp [heq]⟩ hstored
    | cons v r ih =>
      intro l u heq hstored
      have hnext := hchained x u v ⟨handles, hmem, l, r ++ [x], by simp [heq]⟩ hstored
      obtain ⟨d, hd, hown⟩ := hasDependent_iff.mp hnext
      exact ih (l ++ [u]) v (by simp [heq]) (hown ▸ mem_ids_of_dependent hd)
  obtain ⟨l, r, heq⟩ := append_of_mem hu
  exact hrest r l u heq hstored

/-! ### Small changes -/

theorem ids_saveDependent (parent child : ℕ) (kind : DependentQueuedRequestKind) :
    ids (q.saveDependentQueuedRequest parent child kind) = ids q ++ [child] := by
  simp [ids, saveDependentQueuedRequest]

theorem mem_ids_removeRequest (hid : v ∈ ids q) (hne : v ≠ t) :
    v ∈ ids (q.removeSendQueueRequest t) := by
  rcases mem_ids.mp hid with ⟨request, hr, rfl⟩ | ⟨d, hd, rfl⟩
  · exact mem_ids.mpr (.inl ⟨request, mem_remove_of_ne hr hne, rfl⟩)
  · exact mem_ids.mpr (.inr ⟨d, hd, rfl⟩)

theorem mem_ids_removeDependent (hid : v ∈ ids q) (hne : v ≠ t) :
    v ∈ ids (q.removeDependentQueuedRequest t) := by
  rcases mem_ids.mp hid with ⟨request, hr, rfl⟩ | ⟨d, hd, rfl⟩
  · exact mem_ids.mpr (.inl ⟨request, hr, rfl⟩)
  · exact mem_ids.mpr (.inr ⟨d, mem_remove_of_ne hd hne, rfl⟩)

section

variable (hwaits : Waits q)
include hwaits

theorem Waits.removeRequest
    (hnone : ∀ d ∈ q.dependents, d.parentKey = none → d.parentTransactionId ≠ t) :
    Waits (q.removeSendQueueRequest t) := by
  intro d hd hkey
  exact mem_ids_removeRequest (hwaits d hd hkey) (hnone d hd hkey)

theorem Waits.removeDependent (hnone : ∀ d ∈ q.dependents, d.parentTransactionId ≠ t) :
    Waits (q.removeDependentQueuedRequest t) := by
  intro d hd hkey
  have hmem : d ∈ q.dependents := mem_of_mem_remove hd
  exact mem_ids_removeDependent (hwaits d hmem hkey) (hnone d hmem)

theorem Waits.saveDependent {child : ℕ} {kind : DependentQueuedRequestKind} (ht : t ∈ ids q) :
    Waits (q.saveDependentQueuedRequest t child kind) := by
  intro d hd hkey
  rw [ids_saveDependent]
  apply mem_append_left
  rcases mem_append.mp hd with hd | hd
  · exact hwaits d hd hkey
  · rw [mem_singleton.mp hd]
    exact ht

theorem Waits.congr (hids : ids q' = ids q) (hdeps : q'.dependents = q.dependents) : Waits q' := by
  intro d hd hkey
  rw [hids]
  rw [hdeps] at hd
  exact hwaits d hd hkey

end

theorem ids_removeRequest_subset : ids (q.removeSendQueueRequest t) ⊆ ids q := by
  intro id hid
  rcases mem_ids.mp hid with ⟨request, hr, rfl⟩ | ⟨d, hd, rfl⟩
  · exact mem_ids_of_request (mem_of_mem_remove hr)
  · exact mem_ids_of_dependent hd

theorem ids_removeDependent_subset : ids (q.removeDependentQueuedRequest t) ⊆ ids q := by
  intro id hid
  rcases mem_ids.mp hid with ⟨request, hr, rfl⟩ | ⟨d, hd, rfl⟩
  · exact mem_ids_of_request hr
  · exact mem_ids_of_dependent (mem_of_mem_remove hd)

section

variable (hchained : Chained media q)
include hchained

theorem Chained.congr (hids : ids q' = ids q) (hdeps : q'.dependents = q.dependents) :
    Chained media q' := by
  intro x u v hfollows hu
  rw [hids] at hu
  unfold hasDependent
  rw [hdeps]
  exact hchained x u v hfollows hu

/-- Removing anything but a part of a media event that waits. -/
theorem Chained.shrink (hids : ids q' ⊆ ids q)
    (hdeps : ∀ d ∈ q.dependents, d.ownTransactionId ∈ mediaIds media → d ∈ q'.dependents) :
    Chained media q' := by
  intro x u v hfollows hu
  obtain ⟨d, hd, hown⟩ := hasDependent_iff.mp (hchained x u v hfollows (hids hu))
  subst hown
  exact hasDependent_iff.mpr ⟨d, hdeps d hd hfollows.mem, rfl⟩

theorem Chained.removeRequest : Chained media (q.removeSendQueueRequest t) :=
  hchained.shrink ids_removeRequest_subset fun _ hd _ => hd

theorem Chained.removeDependent (ht : t ∉ mediaIds media) :
    Chained media (q.removeDependentQueuedRequest t) := by
  refine hchained.shrink ids_removeDependent_subset fun d hd hmem => ?_
  exact mem_remove_of_ne hd fun heq => ht (heq ▸ hmem)

theorem Chained.saveDependent {parent child : ℕ} {kind : DependentQueuedRequestKind}
    (hchild : child ∉ mediaIds media) :
    Chained media (q.saveDependentQueuedRequest parent child kind) := by
  intro x u v hfollows hu
  rw [ids_saveDependent] at hu
  have hstored : u ∈ ids q := by
    rcases mem_append.mp hu with hu | hu
    · exact hu
    · rw [mem_singleton.mp hu] at hfollows
      exact absurd (mem_mediaIds_of_isUpload hfollows.isUpload_parent) hchild
  obtain ⟨d, hd, hown⟩ := hasDependent_iff.mp (hchained x u v hfollows hstored)
  exact hasDependent_iff.mpr ⟨d, mem_append_left _ hd, hown⟩

end

theorem ids_updateRequest (kind : QueuedRequestKind) :
    ids (q.updateSendQueueRequest t kind) = ids q := by
  unfold ids
  rw [updateSendQueueRequest_ids]
  rfl

theorem ids_updateStatus (error : Option String) :
    ids (q.updateSendQueueRequestStatus t error) = ids q := by
  unfold ids
  rw [updateSendQueueRequestStatus_ids]
  rfl

theorem ids_updateDependent (kind : DependentQueuedRequestKind) :
    ids (q.updateDependentQueuedRequest t kind) = ids q := by
  unfold ids
  rw [updateDependentQueuedRequest_ids]
  rfl

theorem ids_subset_replaceEvent (content : EventContent) (child : ℕ) :
    ids q ⊆ ids (q.replaceEvent t content child).2 := by
  unfold replaceEvent
  split
  · exact List.Subset.refl _
  · split
    · rw [ids_saveDependent]
      exact subset_append_left _ _
    · rw [ids_updateRequest]
      exact List.Subset.refl _

theorem ids_subset_editMediaCaption (caption : String) (child : ℕ) :
    ids q ⊆ ids (q.editMediaCaption t caption child).2 := by
  unfold editMediaCaption
  split
  · split
    · split
      · rw [ids_updateDependent]
        exact List.Subset.refl _
      · exact List.Subset.refl _
    · exact List.Subset.refl _
  · split
    · exact List.Subset.refl _
    · split
      · exact List.Subset.refl _
      · split
        · rw [ids_saveDependent]
          exact subset_append_left _ _
        · rw [ids_updateRequest]
          exact List.Subset.refl _

theorem ids_subset_react (key : String) (child : ℕ) : ids q ⊆ ids (q.react t key child).2 := by
  unfold QueueStorage.react
  split
  · exact List.Subset.refl _
  · rw [ids_saveDependent]
    exact subset_append_left _ _

/-- The ids of a media event that was just queued are new. -/
theorem mem_media_of_step {m : ℕ × List MediaHandles} (hstep : Step s op s') (hm : m ∈ s'.media)
    (hid : u ∈ uploadsOf m.2 ++ [m.1]) (hused : u ∈ s.used) : m ∈ s.media := by
  have hnew : ∀ {x handles}, s.Fresh (uploadsOf handles ++ [x]) →
      m ∈ s.media ++ [(x, handles)] → m ∈ s.media := by
    intro x handles hfresh hmem
    rcases mem_append.mp hmem with hmem | hmem
    · exact hmem
    · rw [mem_singleton.mp hmem] at hid
      exact absurd hused (hfresh.2 u hid)
  cases hstep with
  | pushMedia hfresh => exact hnew hfresh hm
  | pushGallery _ hfresh => exact hnew hfresh hm
  | _ => exact hm

/-! ### Every turn keeps the parents -/

structure Rooted (media : Media) (q : QueueStorage) : Prop where
  waits : Waits q
  chained : Chained media q

section

variable (hrooted : Rooted media q)
include hrooted

theorem Rooted.congr (hids : ids q' = ids q) (hdeps : q'.dependents = q.dependents) :
    Rooted media q' :=
  ⟨hrooted.waits.congr hids hdeps, hrooted.chained.congr hids hdeps⟩

theorem Rooted.recaption (hq : QueueOk media used q) (content : EventContent) :
    Rooted media (q.updateDependentQueuedRequest t (.finishUpload content)) := by
  have hmap := update_eq_map (k := t)
    (f := fun d : DependentQueuedRequest => { d with kind := .finishUpload content })
    hq.dependentIds
  constructor
  · intro d' hd' hkey
    rw [ids_updateDependent]
    simp only [updateDependentQueuedRequest, hmap] at hd'
    obtain ⟨d, hd, rfl⟩ := mem_map.mp hd'
    have hwait := hrooted.waits d hd
    split at hkey
    · next heq => simpa [heq] using hwait hkey
    · next hne => simpa [hne] using hwait hkey
  · intro x u v hfollows hu
    rw [ids_updateDependent] at hu
    obtain ⟨d, hd, hown⟩ := hasDependent_iff.mp (hrooted.chained x u v hfollows hu)
    rw [hasDependent_iff]
    simp only [updateDependentQueuedRequest, hmap]
    refine ⟨_, mem_map.mpr ⟨d, hd, rfl⟩, ?_⟩
    split <;> exact hown

/-- What a turn removes has to be what nothing waits for. -/
theorem Rooted.turn {new : List ℕ} (hm : MediaOk media used) (hq : QueueOk media used q)
    (hsent : ∀ id, q.beingSent = some id → q.hasRequest id = true) (hturn : Turn media q t new q')
    (hnew : ∀ id ∈ new, id ∉ used) (hkeep : t ∈ ids q → t ∈ ids q' ∨ NothingWaitsFor q t) :
    Rooted media q' := by
  have hfresh : ∀ id ∈ new, id ∉ mediaIds media := fun id hid hmem =>
    hnew id hid (hm.used id hmem)
  cases hturn with
  | same => exact hrooted
  | parkEdit hbeing | parkRedact hbeing =>
    exact ⟨hrooted.waits.saveDependent (mem_ids_of_hasRequest (hsent t hbeing)),
      hrooted.chained.saveDependent (hfresh _ (by simp))⟩
  | parkReact ht =>
    have hstored : t ∈ ids q := by
      rcases ht with ht | ⟨d, hd, -, hown⟩
      · exact mem_ids_of_hasRequest ht
      · exact hown ▸ mem_ids_of_dependent hd
    exact ⟨hrooted.waits.saveDependent hstored,
      hrooted.chained.saveDependent (hfresh _ (by simp))⟩
  | write => exact hrooted.congr (ids_updateRequest _) rfl
  | recaption => exact hrooted.recaption hq _
  | drop =>
    refine ⟨fun d hd hkey => ?_, hrooted.chained.removeRequest⟩
    have hstored := hrooted.waits d hd hkey
    by_cases heq : d.parentTransactionId = t
    · rcases hkeep (heq ▸ hstored) with hkept | hnone
      · exact heq ▸ hkept
      · exact absurd heq (hnone d hd)
    · exact mem_ids_removeRequest hstored heq
  | dropReaction hreact =>
    constructor
    · intro d hd hkey
      have hmem : d ∈ q.dependents := mem_of_mem_remove hd
      have hstored := hrooted.waits d hmem hkey
      by_cases heq : d.parentTransactionId = t
      · rcases hkeep (heq ▸ hstored) with hkept | hnone
        · exact heq ▸ hkept
        · exact absurd heq (hnone d hmem)
      · exact mem_ids_removeDependent hstored heq
    · refine hrooted.chained.shrink ids_removeDependent_subset fun d hd hmem => ?_
      refine mem_remove_of_ne hd fun heq => ?_
      exact own_not_mem_of_intent (hq.dependent d hd) (.inr (.inr (hreact d hd heq))) hmem
  | unwedge => exact hrooted.congr (ids_updateStatus _) rfl

theorem Rooted.push {kind : QueuedRequestKind} (ht : t ∉ mediaIds media) :
    Rooted media (q.push t kind) := by
  have hids : ∀ id, id ∈ ids (q.push t kind) ↔ id ∈ ids q ∨ id = t := by
    simp only [ids, QueueStorage.push, saveSendQueueRequest, map_append,
      mem_append, map_cons, map_nil, mem_singleton]
    tauto
  constructor
  · intro d hd hkey
    exact (hids _).mpr (.inl (hrooted.waits d hd hkey))
  · intro x u v hfollows hu
    rcases (hids u).mp hu with hu | rfl
    · exact hrooted.chained x u v hfollows hu
    · exact absurd (mem_mediaIds_of_isUpload hfollows.isUpload_parent) ht

theorem Rooted.queued {first : QueuedRequest} {ds : List DependentQueuedRequest}
    {finish : DependentQueuedRequest} (hm : MediaOk media used)
    (hfresh : ∀ id ∈ uploadsOf handles ++ [x], id ∉ used)
    (hqueued : Queued q q' x (uploadsOf handles) first ds finish) :
    Rooted (media ++ [(x, handles)]) q' := by
  have hids : ∀ id, id ∈ ids q' ↔ id ∈ ids q ∨ id ∈ uploadsOf handles ++ [x] := by
    rw [hqueued.ids_eq, hqueued.eq]
    simp only [ids, map_append, mem_append, map_cons, map_nil, mem_cons]
    tauto
  constructor
  · intro d hd hkey
    rw [hqueued.eq] at hd
    rcases mem_append.mp hd with hd | hd
    · exact (hids _).mpr (.inl (hrooted.waits d hd hkey))
    · exact (hids _).mpr (.inr (mem_append_left _ (hqueued.parent_mem hd)))
  · intro y u v hfollows hu
    obtain ⟨handles', hmem, l, r, heq⟩ := hfollows
    rcases mem_append.mp hmem with hmem | hmem
    · have hold : Follows media y u v := ⟨handles', hmem, l, r, heq⟩
      have hstored : u ∈ ids q := by
        rcases (hids u).mp hu with hu | hu
        · exact hu
        · exact absurd (hm.used u (mem_mediaIds_of_isUpload hold.isUpload_parent)) (hfresh u hu)
      obtain ⟨d, hd, hown⟩ := hasDependent_iff.mp (hrooted.chained y u v hold hstored)
      rw [hasDependent_iff, hqueued.eq]
      exact ⟨d, mem_append_left _ hd, hown⟩
    · obtain ⟨rfl, rfl⟩ := Prod.mk.inj (mem_singleton.mp hmem)
      rw [hqueued.ids_eq] at heq
      have htail := congrArg List.tail heq
      have hv : v ∈ (ds ++ [finish]).map (·.ownTransactionId) := by
        rw [tail_cons] at htail
        rw [htail]
        cases l <;> simp
      obtain ⟨d, hd, hown⟩ := mem_map.mp hv
      rw [hasDependent_iff, hqueued.eq]
      exact ⟨d, mem_append_right _ hd, hown⟩

theorem Rooted.sent (key : SentRequestKey) : Rooted media (q.markAsSent t key) := by
  have hown : ∀ d ∈ q.dependents, ∃ d' ∈ (q.markAsSent t key).dependents,
      d'.ownTransactionId = d.ownTransactionId := by
    intro d hd
    refine ⟨_, mem_map.mpr ⟨d, hd, rfl⟩, ?_⟩
    split <;> rfl
  constructor
  · intro d' hd' hkey
    obtain ⟨d, hd, rfl⟩ := mem_map.mp hd'
    split at hkey
    · cases hkey
    · next hne =>
      rw [if_neg hne]
      rcases mem_ids.mp (hrooted.waits d hd hkey) with ⟨request, hr, hid⟩ | ⟨e, he, hid⟩
      · exact mem_ids.mpr (.inl ⟨request, mem_remove_of_ne hr (hid ▸ hne), hid⟩)
      · obtain ⟨e', he', hown'⟩ := hown e he
        exact mem_ids.mpr (.inr ⟨e', he', hown'.trans hid⟩)
  · intro x u v hfollows hu
    have hstored : u ∈ ids q := by
      rcases mem_ids.mp hu with ⟨request, hr, rfl⟩ | ⟨d', hd', rfl⟩
      · exact mem_ids_of_request (mem_of_mem_remove hr)
      · obtain ⟨d, hd, rfl⟩ := mem_map.mp hd'
        refine mem_ids.mpr (.inr ⟨d, hd, ?_⟩)
        split <;> rfl
    obtain ⟨d, hd, hv⟩ := hasDependent_iff.mp (hrooted.chained x u v hfollows hstored)
    obtain ⟨d', hd', hown'⟩ := hown d hd
    exact hasDependent_iff.mpr ⟨d', hd', hown'.trans hv⟩

end

/-! ### Applying dependent requests -/

theorem parentKey_of_queue {kind : QueuedRequestKind}
    (happ : applicationOf answers d = .queue kind) : d.parentKey ≠ none := by
  intro hkey
  cases hkind : d.kind <;> simp [applicationOf, hkind, hkey] at happ

/-- A part of a media event is queued or waits on, it is never dropped. -/
theorem intent_of_application {application : Application}
    (happ : applicationOf answers d = application)
    (hqueue : ∀ kind, application ≠ .queue kind) (hretry : application ≠ .retry) : Intent d := by
  subst happ
  by_contra hnot
  unfold Intent at hnot
  cases hkey : d.parentKey with
  | none =>
    cases hkind : d.kind <;> simp [applicationOf, hkind, hkey, isEdit, isRedact,
      isReact] at hnot hretry
  | some key =>
    cases hmedia : key.intoMedia with
    | none =>
      cases hkind : d.kind <;> simp [applicationOf, hkind, hkey, hmedia, isEdit, isRedact,
        isReact] at hnot hretry
    | some sent =>
      cases hkind : d.kind <;> simp [applicationOf, hkind, hkey, hmedia, isEdit, isRedact,
        isReact] at hnot hqueue

variable {parents : List ℕ}

/-- A part of a media event waits for an upload, and nobody redacts an upload. -/
theorem mem_removeNonCanonical_of_not_intent (hq : QueueOk media used q)
    (hparents : ∀ d ∈ q.dependents, d.parentTransactionId ∈ parents) (hd : d ∈ q.dependents)
    (hnot : ¬ Intent d) : d ∈ (q.canonicalized parents).dependents := by
  refine mem_removeNonCanonical_of_no_redact hq.dependentIds hparents hd ?_ ?_
  · exact Bool.eq_false_iff.mpr fun hedit => hnot (.inl hedit)
  · intro e he hparent
    rcases intent_or_follows (hq.dependent d hd) with ⟨hyes, -⟩ | ⟨-, x, hfollows⟩
    · exact absurd hyes hnot
    · refine Bool.eq_false_iff.mpr fun hredact => ?_
      rcases intent_or_follows (hq.dependent e he) with ⟨-, -, hevent⟩ | ⟨hother, -⟩
      · exact hevent (hparent ▸ hfollows.isUpload_parent)
      · exact hother (.inr (.inl hredact))

/-- What holds while the dependent requests are applied. -/
structure Applying (s : RoomSendQueue) : Prop where
  wellFormed : WellFormed s
  task : s.task = .idle
  childless : ∀ d ∈ s.queue.dependents, Intent d → NothingWaitsFor s.queue d.ownTransactionId
  sent : ∀ d ∈ s.queue.dependents, d.parentKey ≠ none → d.parentTransactionId ∉ ids s.queue
  canonical : Canonical s.queue.dependents
  rooted : Rooted s.media s.queue

theorem mem_ids_applySingle_of_queue {kind : QueuedRequestKind} {id : ℕ} (hd : d ∈ q.dependents)
    (happ : applicationOf answers d = .queue kind) :
    id ∈ ids (q.applySingle answers d) ↔ id ∈ ids q := by
  rw [applySingle_eq, happ]
  constructor
  · intro hid
    rcases mem_ids.mp hid with ⟨request, hr, rfl⟩ | ⟨e, he, rfl⟩
    · rcases mem_append.mp hr with hr | hr
      · exact mem_ids_of_request hr
      · rw [mem_singleton.mp hr]
        exact mem_ids_of_dependent hd
    · exact mem_ids_of_dependent (mem_of_mem_remove he)
  · intro hid
    rcases mem_ids.mp hid with ⟨request, hr, rfl⟩ | ⟨e, he, rfl⟩
    · exact mem_ids.mpr (.inl ⟨request, mem_append_left _ hr, rfl⟩)
    · by_cases heq : e.ownTransactionId = d.ownTransactionId
      · exact mem_ids.mpr (.inl ⟨_, mem_append_right _ (mem_singleton_self _), heq.symm⟩)
      · exact mem_ids.mpr (.inr ⟨e, mem_remove_of_ne he heq, rfl⟩)

theorem Applying.rooted_applySingle (hs : Applying s) (hd : d ∈ s.queue.dependents) :
    Rooted s.media (s.queue.applySingle answers d) := by
  have hremove : Intent d →
      Rooted s.media (s.queue.removeDependentQueuedRequest d.ownTransactionId) :=
    fun hintent => ⟨hs.rooted.waits.removeDependent (hs.childless d hd hintent),
      hs.rooted.chained.removeDependent
        (own_not_mem_of_intent (hs.wellFormed.queue.dependent d hd) hintent)⟩
  cases happ : applicationOf answers d with
  | queue kind =>
    constructor
    · intro e he hkey
      rw [mem_ids_applySingle_of_queue hd happ]
      exact hs.rooted.waits e (applySingle_dependents_subset he) hkey
    · refine hs.rooted.chained.of hs.wellFormed.media hs.wellFormed.queue
        (fun id hid _ => (mem_ids_applySingle_of_queue hd happ).mp hid) fun e he _ => ?_
      by_cases heq : e.ownTransactionId = d.ownTransactionId
      · obtain rfl := inj_on_of_nodup_map hs.wellFormed.queue.dependentIds he hd heq
        rw [mem_ids_applySingle_of_queue hd happ]
        exact .inr (hs.sent e he (parentKey_of_queue happ))
      · exact .inl (hasDependent_iff.mpr ⟨e, applySingle_dependents_of_ne he heq, rfl⟩)
  | edit content =>
    rw [applySingle_eq, happ]
    have hintent := intent_of_application happ (by simp) (by simp)
    exact (hremove hintent).congr (ids_updateRequest _) rfl
  | drop =>
    rw [applySingle_eq, happ]
    have hredact := (kind_of_drop happ).1
    have hrooted := hremove (.inr (.inl hredact))
    refine ⟨hrooted.waits.removeRequest fun e he _ hparent => ?_, hrooted.chained.removeRequest⟩
    -- A redaction is the only one of its parent.
    have heq := hs.canonical.redact d hd hredact e (mem_of_mem_remove he) hparent
    exact ne_of_mem_remove hs.wellFormed.queue.dependentIds he (heq ▸ rfl)
  | redact | done =>
    rw [applySingle_eq, happ]
    exact hremove (intent_of_application happ (by simp) (by simp))
  | retry =>
    rw [applySingle_eq, happ]
    exact hs.rooted

theorem Applying.applyOne (hs : Applying s) (hd : d ∈ s.queue.dependents) :
    Applying (applyOne answers s d) := by
  have hsub : (s.queue.applySingle answers d).dependents ⊆ s.queue.dependents :=
    applySingle_dependents_subset
  refine ⟨hs.wellFormed.applyOne hs.task hd, hs.task, ?_, ?_, hs.canonical.subset hsub,
    hs.rooted_applySingle hd⟩
  · intro e he hintent e' he'
    exact hs.childless e (hsub he) hintent e' (hsub he')
  · intro e he hkey hid
    have hfrom : IdsFrom s.used s.queue (s.queue.applySingle answers d) := applySingle_idsFrom hd
    rcases hfrom.mem_ids hid with hold | hnew
    · exact hs.sent e (hsub he) hkey hold
    · exact hnew (hs.wellFormed.queue.dependentsUsed e (hsub he)).2

section

variable (hs : WellFormed s) (hsettled : Settled s) (hrooted : Rooted s.media s.queue)
include hs hsettled hrooted

theorem applying_start (htask : s.task = .idle)
    (hparents : ∀ d ∈ s.queue.dependents, d.parentTransactionId ∈ parents) :
    Applying { s with queue := s.queue.canonicalized parents } := by
  have hkept : ∀ d ∈ s.queue.dependents, ¬ Intent d →
      d ∈ (s.queue.canonicalized parents).dependents :=
    fun d hd hnot => mem_removeNonCanonical_of_not_intent hs.queue hparents hd hnot
  have hids : ids (s.queue.canonicalized parents) ⊆ ids s.queue := by
    intro id hid
    rcases mem_ids.mp hid with ⟨request, hr, rfl⟩ | ⟨d, hd, rfl⟩
    · exact mem_ids_of_request hr
    · exact mem_ids_of_dependent (mem_of_mem_filter hd)
  refine ⟨hs.removeNonCanonical _, htask, ?_, ?_, ?_, ?_, ?_⟩
  · intro d hd hintent d' hd'
    exact hsettled.childless d (mem_of_mem_filter hd) hintent d' (mem_of_mem_filter hd')
  · intro d hd hkey hid
    obtain ⟨key, hsome⟩ := Option.ne_none_iff_exists'.mp hkey
    obtain ⟨request, answer, hok⟩ := hs.keys d (mem_of_mem_filter hd) key hsome
    apply (hsettled.sent request key hok.logged).2
    rw [hok.parent]
    exact hids hid
  · exact canonical_removeNonCanonical hs.queue.dependentIds
  · intro d hd hkey
    have hmem := mem_of_mem_filter hd
    rcases mem_ids.mp (hrooted.waits d hmem hkey) with ⟨request, hr, hid⟩ | ⟨e, he, hown⟩
    · exact mem_ids.mpr (.inl ⟨request, hr, hid⟩)
    · refine mem_ids.mpr (.inr ⟨e, hkept e he fun hintent => ?_, hown⟩)
      exact hsettled.childless e he hintent d hmem hown.symm
  · refine hrooted.chained.shrink hids fun d hd hmem => hkept d hd fun hintent => ?_
    exact own_not_mem_of_intent (hs.queue.dependent d hd) hintent hmem

theorem Rooted.applyDependentRequests
    (hstep : Step s (.applyDependentRequests parents answers) s') : Rooted s'.media s'.queue := by
  have hstart : Applying { s with queue := s.queue.canonicalized parents } := by
    cases hstep with
    | applyDependentRequests htask hnodup hparents =>
      exact applying_start hs hsettled hrooted htask hparents
  obtain ⟨s₁, h₁, heq⟩ := applyDependentRequests_induct hs.queue.dependentIds hstep hstart
    fun s d hd hs => hs.applyOne hd
  rw [heq]
  exact h₁.rooted

end

end MatrixSdk.ParentLinks

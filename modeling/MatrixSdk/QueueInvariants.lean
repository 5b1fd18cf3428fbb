import MatrixSdk.CanonicalRequests

/-!
What holds of the storage of a send queue in every state of a run: transaction ids name one
request each, uploads and their dependent requests belong to a media event that was queued,
and the request that is being sent is still stored.
-/
namespace MatrixSdk.QueueInvariants

open KeyedRows SendQueue RoomSendQueues QueueStorage
open DependentQueuedRequestKind List ItemQueueInfo

variable {media : Media} {used : List ℕ} {q : QueueStorage}
  {x id : ℕ} {handles : List MediaHandles} {request : QueuedRequest}
  {d : DependentQueuedRequest}

/-- The ids of what is stored. -/
def ids (q : QueueStorage) : List ℕ :=
  q.requests.map (·.transactionId) ++ q.dependents.map (·.ownTransactionId)

def Uploads (media : Media) (x upload : ℕ) : Prop :=
  ∃ handles, (x, handles) ∈ media ∧ upload ∈ uploadsOf handles

/-- One of the uploads of a media event, and what follows it: the next one, or the event. -/
def Follows (media : Media) (x parent own : ℕ) : Prop :=
  ∃ handles, (x, handles) ∈ media ∧
    ∃ l r, uploadsOf handles ++ [x] = l ++ parent :: own :: r

def RequestOk (media : Media) (request : QueuedRequest) : Prop :=
  match request.kind with
  | .mediaUpload _ _ _ relatedTo _ => Uploads media relatedTo request.transactionId
  | .event _ | .redaction .. => ¬ IsUpload media request.transactionId

def DependentOk (media : Media) (d : DependentQueuedRequest) : Prop :=
  match d.kind with
  | .uploadFileOrThumbnail _ _ relatedTo _ =>
    Follows media relatedTo d.parentTransactionId d.ownTransactionId ∧
      Uploads media relatedTo d.ownTransactionId
  | .finishUpload _ | .finishGallery .. =>
    Follows media d.ownTransactionId d.parentTransactionId d.ownTransactionId
  | .editEvent _ | .redactEvent _ | .reactEvent _ =>
    d.ownTransactionId ∉ mediaIds media ∧ ¬ IsUpload media d.parentTransactionId

structure MediaOk (media : Media) (used : List ℕ) : Prop where
  nodup : (mediaIds media).Nodup
  used : ∀ id ∈ mediaIds media, id ∈ used

structure QueueOk (media : Media) (used : List ℕ) (q : QueueStorage) :
    Prop where
  requestIds : (q.requests.map (·.transactionId)).Nodup
  dependentIds : (q.dependents.map (·.ownTransactionId)).Nodup
  disjoint : ∀ request ∈ q.requests, ∀ d ∈ q.dependents,
    request.transactionId ≠ d.ownTransactionId
  requestsUsed : ∀ request ∈ q.requests, request.transactionId ∈ used
  dependentsUsed : ∀ d ∈ q.dependents, d.ownTransactionId ∈ used ∧ d.parentTransactionId ∈ used
  request : ∀ request ∈ q.requests, RequestOk media request
  dependent : ∀ d ∈ q.dependents, DependentOk media d

theorem mem_ids : id ∈ ids q ↔ (∃ request ∈ q.requests, request.transactionId = id) ∨
    ∃ d ∈ q.dependents, d.ownTransactionId = id := by
  simp [ids]

theorem mem_ids_of_request (hr : request ∈ q.requests) : request.transactionId ∈ ids q :=
  mem_ids.mpr (.inl ⟨request, hr, rfl⟩)

theorem mem_ids_of_dependent (hd : d ∈ q.dependents) : d.ownTransactionId ∈ ids q :=
  mem_ids.mpr (.inr ⟨d, hd, rfl⟩)

theorem mem_ids_of_hasRequest (h : q.hasRequest id = true) : id ∈ ids q := by
  obtain ⟨request, hr, hid⟩ := any_eq_true.mp h
  exact mem_ids.mpr (.inl ⟨request, hr, of_decide_eq_true hid⟩)

/-! ### Media events -/

theorem mem_mediaIds : id ∈ mediaIds media ↔
    ∃ m ∈ media, id ∈ uploadsOf m.2 ++ [m.1] := by
  simp [mediaIds]

theorem mediaIds_append : mediaIds (media ++ [(x, handles)]) =
    mediaIds media ++ (uploadsOf handles ++ [x]) := by
  simp [mediaIds]

theorem Uploads.isUpload (h : Uploads media x id) : IsUpload media id := by
  obtain ⟨handles, hmem, hid⟩ := h
  exact ⟨(x, handles), hmem, hid⟩

theorem mem_mediaIds_of_isUpload (h : IsUpload media id) : id ∈ mediaIds media := by
  obtain ⟨m, hm, hid⟩ := h
  exact mem_mediaIds.mpr ⟨m, hm, mem_append_left _ hid⟩

variable {parent x last : ℕ} {ds : List DependentQueuedRequest}

theorem Follows.mem (h : Follows media x parent id) : id ∈ mediaIds media := by
  obtain ⟨handles, hmem, l, r, heq⟩ := h
  apply mem_mediaIds.mpr
  refine ⟨(x, handles), hmem, ?_⟩
  simp [heq]

/-- Media that are queued under new ids leave what was said of the others. -/
theorem Uploads.grow (h : Uploads media x id) (m : ℕ × List MediaHandles) :
    Uploads (media ++ [m]) x id := by
  obtain ⟨handles, hmem, hid⟩ := h
  exact ⟨handles, mem_append_left _ hmem, hid⟩

theorem Follows.grow (h : Follows media x parent id) (m : ℕ × List MediaHandles) :
    Follows (media ++ [m]) x parent id := by
  obtain ⟨handles, hmem, hrest⟩ := h
  exact ⟨handles, mem_append_left _ hmem, hrest⟩

theorem not_isUpload_grow (h : ¬ IsUpload media id) (hid : id ∉ uploadsOf handles) :
    ¬ IsUpload (media ++ [(x, handles)]) id := by
  rintro ⟨m, hm, hmid⟩
  rcases mem_append.mp hm with hm | hm
  · exact h ⟨m, hm, hmid⟩
  · obtain rfl : m = (x, handles) := by simpa using hm
    exact hid hmid

theorem MediaOk.grow (h : MediaOk media used) (hnodup : (uploadsOf handles ++ [x]).Nodup)
    (hfresh : ∀ id ∈ uploadsOf handles ++ [x], id ∉ used) :
    MediaOk (media ++ [(x, handles)]) (used ++ (uploadsOf handles ++ [x])) := by
  constructor
  · rw [mediaIds_append]
    refine nodup_append.mpr ⟨h.nodup, hnodup, ?_⟩
    intro a ha b hb hab
    exact hfresh b hb (hab ▸ h.used a ha)
  · intro id hid
    rw [mediaIds_append] at hid
    rcases mem_append.mp hid with hid | hid
    · exact mem_append_left _ (h.used id hid)
    · exact mem_append_right _ hid

theorem RequestOk.grow (h : RequestOk media request)
    (hnot : request.transactionId ∉ uploadsOf handles) :
    RequestOk (media ++ [(x, handles)]) request := by
  revert h
  unfold RequestOk
  split
  · exact fun h => h.grow _
  · exact fun h => not_isUpload_grow h hnot
  · exact fun h => not_isUpload_grow h hnot

/-- Ids of media belong to one event. -/
theorem MediaOk.unique {m m' : ℕ × List MediaHandles} (h : MediaOk media used) (hm : m ∈ media)
    (hm' : m' ∈ media) (hid : id ∈ uploadsOf m.2 ++ [m.1]) (hid' : id ∈ uploadsOf m'.2 ++ [m'.1]) :
    m = m' := by
  obtain ⟨-, hpairwise⟩ := nodup_flatMap.mp h.nodup
  by_contra hne
  have hsymm : Std.Symm (Function.onFun List.Disjoint
      fun m : ℕ × List MediaHandles => uploadsOf m.2 ++ [m.1]) :=
    ⟨fun _ _ hab => List.Disjoint.symm hab⟩
  exact hpairwise.forall hm hm' hne hid hid'

theorem MediaOk.not_isUpload (h : MediaOk media used) (hmem : (x, handles) ∈ media) :
    ¬ IsUpload media x := by
  rintro ⟨m, hm, hx⟩
  obtain rfl := h.unique hmem hm (mem_append_right _ (by simp)) (mem_append_left _ hx)
  have hnodup := (nodup_flatMap.mp h.nodup).1 _ hmem
  exact (nodup_append.mp hnodup).2.2 x hx x (by simp) rfl

theorem Follows.isUpload_parent {own : ℕ} (h : Follows media x parent own) :
    IsUpload media parent := by
  obtain ⟨handles, hmem, l, r, heq⟩ := h
  have hdrop := congrArg List.dropLast heq
  rw [dropLast_concat, dropLast_append_of_ne_nil (by simp)] at hdrop
  exact ⟨(x, handles), hmem, by simp [hdrop]⟩

section

variable (h : MediaOk media used) (hfollows : Follows media x parent id)
include h hfollows

/-- A part of a media event follows one upload only. -/
theorem MediaOk.follows_unique {x' parent' : ℕ} (hfollows' : Follows media x' parent' id) :
    x = x' ∧ parent = parent' := by
  obtain ⟨handles, hmem, l, r, heq⟩ := hfollows
  obtain ⟨handles', hmem', l', r', heq'⟩ := hfollows'
  have hid : id ∈ uploadsOf handles ++ [x] := by simp [heq]
  have hid' : id ∈ uploadsOf handles' ++ [x'] := by simp [heq']
  have hsame : (x, handles) = (x', handles') := h.unique hmem hmem' hid hid'
  obtain ⟨rfl, rfl⟩ := Prod.mk.inj hsame
  have hnodup := (nodup_flatMap.mp h.nodup).1 _ hmem
  have hsplit : uploadsOf handles ++ [x] = (l ++ [parent]) ++ id :: r := by simp [heq]
  have hsplit' : uploadsOf handles ++ [x] = (l' ++ [parent']) ++ id :: r' := by simp [heq']
  have hleft : id ∉ l ++ [parent] ∧ id ∉ r := by
    rw [hsplit] at hnodup
    obtain ⟨-, hright, hdisjoint⟩ := nodup_append.mp hnodup
    exact ⟨fun hid => hdisjoint id hid id (by simp) rfl, (nodup_cons.mp hright).1⟩
  have hparts := (append_cons_inj_of_notMem hleft.1 hleft.2).mp (hsplit.symm.trans hsplit')
  exact ⟨rfl, by simpa using congrArg List.getLast? hparts.1⟩

theorem MediaOk.follows_ne : parent ≠ id := by
  obtain ⟨handles, hmem, l, r, heq⟩ := hfollows
  have hnodup := (nodup_flatMap.mp h.nodup).1 _ hmem
  rw [heq] at hnodup
  have hright := (nodup_append.mp hnodup).2.1
  intro hsame
  exact (nodup_cons.mp hright).1 (by simp [hsame])

end

/-! ### Changes to the storage -/

namespace QueueOk

variable (h : QueueOk media used q)
include h

theorem use (ids : List ℕ) : QueueOk media (used ++ ids) q where
  requestIds := h.requestIds
  dependentIds := h.dependentIds
  disjoint := h.disjoint
  requestsUsed := fun request hr => mem_append_left _ (h.requestsUsed request hr)
  dependentsUsed := fun d hd => ⟨mem_append_left _ (h.dependentsUsed d hd).1,
    mem_append_left _ (h.dependentsUsed d hd).2⟩
  request := h.request
  dependent := h.dependent

theorem saveRequest {kind : QueuedRequestKind} {priority : ℕ}
    (hid : id ∉ ids q) (hused : id ∈ used) (hok : RequestOk media ⟨kind, id, none, priority⟩) :
    QueueOk media used (q.saveSendQueueRequest id kind priority) where
  requestIds := by
    simp only [saveSendQueueRequest, map_append, map_cons, map_nil]
    refine nodup_append.mpr ⟨h.requestIds, by simp, ?_⟩
    intro a ha b hb
    obtain ⟨request, hr, rfl⟩ := mem_map.mp ha
    rw [mem_singleton.mp hb]
    exact fun heq => hid (heq ▸ mem_ids_of_request hr)
  dependentIds := h.dependentIds
  disjoint := forall_mem_append.mpr ⟨h.disjoint, forall_mem_singleton.mpr fun d hd
    (heq : id = d.ownTransactionId) => hid (heq ▸ mem_ids_of_dependent hd)⟩
  requestsUsed := forall_mem_append.mpr ⟨h.requestsUsed, forall_mem_singleton.mpr hused⟩
  dependentsUsed := h.dependentsUsed
  request := forall_mem_append.mpr ⟨h.request, forall_mem_singleton.mpr hok⟩
  dependent := h.dependent

theorem saveDependent {kind : DependentQueuedRequestKind} (hid : id ∉ ids q) (hused : id ∈ used)
    (hparent : parent ∈ used) (hok : DependentOk media ⟨kind, parent, id, none⟩) :
    QueueOk media used (q.saveDependentQueuedRequest parent id kind) where
  requestIds := h.requestIds
  dependentIds := by
    simp only [saveDependentQueuedRequest, map_append, map_cons, map_nil]
    refine nodup_append.mpr ⟨h.dependentIds, by simp, ?_⟩
    intro a ha b hb
    obtain ⟨d, hd, rfl⟩ := mem_map.mp ha
    rw [mem_singleton.mp hb]
    exact fun heq => hid (heq ▸ mem_ids_of_dependent hd)
  disjoint request hr := forall_mem_append.mpr ⟨h.disjoint request hr,
    forall_mem_singleton.mpr fun (heq : _ = id) => hid (heq ▸ mem_ids_of_request hr)⟩
  requestsUsed := h.requestsUsed
  dependentsUsed :=
    forall_mem_append.mpr ⟨h.dependentsUsed, forall_mem_singleton.mpr ⟨hused, hparent⟩⟩
  request := h.request
  dependent := forall_mem_append.mpr ⟨h.dependent, forall_mem_singleton.mpr hok⟩

variable {q' : QueueStorage}

/-- Requests can be removed, and changed in place as long as they stay what they are. -/
theorem shrink
    (hreq : (q'.requests.map (·.transactionId)).Sublist (q.requests.map (·.transactionId)))
    (hdep : (q'.dependents.map (·.ownTransactionId)).Sublist
      (q.dependents.map (·.ownTransactionId)))
    (hrequest : ∀ request ∈ q'.requests, RequestOk media request)
    (hdependent : ∀ d' ∈ q'.dependents, ∃ d ∈ q.dependents,
      d.ownTransactionId = d'.ownTransactionId ∧ d.parentTransactionId = d'.parentTransactionId ∧
      (DependentOk media d → DependentOk media d')) : QueueOk media used q' where
  requestIds := h.requestIds.sublist hreq
  dependentIds := h.dependentIds.sublist hdep
  disjoint := by
    intro request hr d' hd'
    obtain ⟨r, hrmem, hrid⟩ := mem_map.mp (hreq.subset (mem_map_of_mem hr))
    obtain ⟨d, hd, hown, -, -⟩ := hdependent d' hd'
    rw [← hrid, ← hown]
    exact h.disjoint r hrmem d hd
  requestsUsed := by
    intro request hr
    obtain ⟨r, hrmem, hrid⟩ := mem_map.mp (hreq.subset (mem_map_of_mem hr))
    rw [← hrid]
    exact h.requestsUsed r hrmem
  dependentsUsed := by
    intro d' hd'
    obtain ⟨d, hd, hown, hparent, -⟩ := hdependent d' hd'
    rw [← hown, ← hparent]
    exact h.dependentsUsed d hd
  request := hrequest
  dependent := by
    intro d' hd'
    obtain ⟨d, hd, -, -, hok⟩ := hdependent d' hd'
    exact hok (h.dependent d hd)

theorem sublist (hreq : q'.requests.Sublist q.requests)
    (hdep : q'.dependents.Sublist q.dependents) : QueueOk media used q' :=
  h.shrink (hreq.map _) (hdep.map _) (fun request hr => h.request request (hreq.subset hr))
    fun d hd => ⟨d, hdep.subset hd, rfl, rfl, fun hok => hok⟩

theorem updateRequest (hid : ¬ IsUpload media id) (content : EventContent) :
    QueueOk media used (q.updateSendQueueRequest id (.event content)) := by
  refine h.shrink ?_ (Sublist.refl _) ?_ fun d hd => ⟨d, hd, rfl, rfl, fun hok => hok⟩
  · simp
  · intro request hr
    simp [updateSendQueueRequest] at hr
    rw [update_eq_map h.requestIds] at hr
    obtain ⟨r, hrmem, rfl⟩ := mem_map.mp hr
    split
    · next heq => exact (heq ▸ hid : ¬ IsUpload media r.transactionId)
    · exact h.request r hrmem

theorem updateStatus (error : Option String) :
    QueueOk media used (q.updateSendQueueRequestStatus id error) := by
  refine h.shrink ?_ (Sublist.refl _) ?_ fun d hd => ⟨d, hd, rfl, rfl, fun hok => hok⟩
  · simp
  · intro request hr
    simp [updateSendQueueRequestStatus] at hr
    rw [update_eq_map h.requestIds] at hr
    obtain ⟨r, hrmem, rfl⟩ := mem_map.mp hr
    split
    · exact h.request r hrmem
    · exact h.request r hrmem

theorem markReady (key : SentRequestKey) :
    QueueOk media used (q.markDependentQueuedRequestsAsReady parent key) := by
  refine h.shrink (Sublist.refl _) ?_ h.request ?_
  · simp
  · intro d' hd'
    obtain ⟨d, hd, rfl⟩ := mem_map.mp hd'
    refine ⟨d, hd, ?_⟩
    split
    · exact ⟨rfl, rfl, fun hok => hok⟩
    · exact ⟨rfl, rfl, fun hok => hok⟩

theorem recaption {d : DependentQueuedRequest} {localEcho : EventContent} (hd : d ∈ q.dependents)
    (hown : d.ownTransactionId = id) (hkind : d.kind = .finishUpload localEcho)
    (content : EventContent) :
    QueueOk media used (q.updateDependentQueuedRequest id (.finishUpload content)) := by
  refine h.shrink (Sublist.refl _) ?_ h.request ?_
  · simp
  · intro d' hd'
    simp [updateDependentQueuedRequest] at hd'
    rw [update_eq_map h.dependentIds] at hd'
    obtain ⟨d₀, hd₀, rfl⟩ := mem_map.mp hd'
    refine ⟨d₀, hd₀, ?_⟩
    split
    · next heq =>
      obtain rfl : d₀ = d :=
        inj_on_of_nodup_map h.dependentIds hd₀ hd (by rw [heq, hown])
      refine ⟨rfl, rfl, fun hok => ?_⟩
      simpa only [DependentOk, hkind] using hok
    · exact ⟨rfl, rfl, fun hok => hok⟩

theorem grow (hfresh : ∀ id ∈ uploadsOf handles ++ [x], id ∉ used) :
    QueueOk (media ++ [(x, handles)]) (used ++ (uploadsOf handles ++ [x])) q := by
  have hold := h.use (uploadsOf handles ++ [x])
  refine ⟨hold.requestIds, hold.dependentIds, hold.disjoint, hold.requestsUsed,
    hold.dependentsUsed, ?_, ?_⟩
  · intro request hr
    exact (h.request request hr).grow fun hid =>
      hfresh _ (mem_append_left _ hid) (h.requestsUsed request hr)
  · intro d hd
    have hok := h.dependent d hd
    obtain ⟨hown, hparent⟩ := h.dependentsUsed d hd
    have hnew : ∀ id ∈ used, id ∉ uploadsOf handles ++ [x] := fun id hid hmem =>
      hfresh id hmem hid
    have hintent : d.ownTransactionId ∉ mediaIds media ∧
        ¬ IsUpload media d.parentTransactionId →
        d.ownTransactionId ∉ mediaIds (media ++ [(x, handles)]) ∧
          ¬ IsUpload (media ++ [(x, handles)]) d.parentTransactionId := by
      intro hok
      refine ⟨?_, not_isUpload_grow hok.2 fun hmem =>
        hnew _ hparent (mem_append_left _ hmem)⟩
      rw [mediaIds_append]
      intro hmem
      rcases mem_append.mp hmem with hmem | hmem
      · exact hok.1 hmem
      · exact hnew _ hown hmem
    revert hok
    unfold DependentOk
    split
    · exact fun hok => ⟨hok.1.grow _, hok.2.grow _⟩
    · exact fun hok => hok.grow _
    · exact fun hok => hok.grow _
    · exact hintent
    · exact hintent
    · exact hintent

theorem mem_used (hid : id ∈ ids q) : id ∈ used := by
  rcases mem_ids.mp hid with ⟨request, hr, rfl⟩ | ⟨d, hd, rfl⟩
  · exact h.requestsUsed request hr
  · exact (h.dependentsUsed d hd).1

/-- A request under the id of an upload is that upload. -/
theorem eventOf_of_mem (hm : MediaOk media used) (hmem : (x, handles) ∈ media)
    (hr : request ∈ q.requests) (hid : request.transactionId ∈ uploadsOf handles) :
    isUploadRequest request = true ∧ eventOf request = x := by
  have hok := h.request request hr
  have hup : IsUpload media request.transactionId := ⟨_, hmem, hid⟩
  unfold RequestOk at hok
  cases hkind : request.kind with
  | mediaUpload _ _ _ relatedTo _ =>
    rw [hkind] at hok
    obtain ⟨handles', hmem', hid'⟩ := hok
    have hsame := hm.unique hmem' hmem (mem_append_left _ hid') (mem_append_left _ hid)
    exact ⟨by rw [isUploadRequest, hkind], by simp [eventOf, hkind, (Prod.mk.inj hsame).1]⟩
  | event _ | redaction _ _ =>
    rw [hkind] at hok
    exact absurd hup hok

/-- A new dependent request that is not part of an upload. -/
theorem park {kind : DependentQueuedRequestKind} {child : ℕ} (hm : MediaOk media used)
    (hchild : child ∉ used) (hparent : parent ∈ used) (hevent : ¬ IsUpload media parent)
    (hkind : kind.isEdit = true ∨ kind.isRedact = true ∨ kind.isReact = true) :
    QueueOk media (used ++ [child]) (q.saveDependentQueuedRequest parent child kind) := by
  refine (h.use [child]).saveDependent (fun hid => hchild (h.mem_used hid)) (by simp)
    (by simp [hparent]) ?_
  have hown : child ∉ mediaIds media := fun hmem => hchild (hm.used child hmem)
  cases kind with
  | editEvent | redactEvent | reactEvent => exact ⟨hown, hevent⟩
  | uploadFileOrThumbnail _ _ _ _ => simp [isEdit, isRedact, isReact] at hkind
  | finishUpload _ => simp [isEdit, isRedact, isReact] at hkind
  | finishGallery _ _ => simp [isEdit, isRedact, isReact] at hkind

end QueueOk

/-! ### Removals -/

@[simp]
theorem cancelUpload_requests : (q.cancelUpload id).requests = q.requests := by
  unfold cancelUpload
  split <;> rfl

@[simp]
theorem cancelUpload_dependents : (q.cancelUpload id).dependents = q.dependents := by
  unfold cancelUpload
  split <;> rfl

/-- Some of these requests and some of these dependent requests are removed, and a request that
is removed is not being sent any more. -/
structure Removes (uploads own : List ℕ) (q q' : QueueStorage) : Prop where
  requests : q'.requests.Sublist q.requests
  dependents : q'.dependents.Sublist q.dependents
  keepsRequest : ∀ request ∈ q.requests, request.transactionId ∉ uploads →
    request ∈ q'.requests
  keepsDependent : ∀ d ∈ q.dependents, d.ownTransactionId ∉ own → d ∈ q'.dependents
  keepsSending : ∀ id, id ∉ uploads → q.beingSent = some id → q'.beingSent = some id
  sending : ∀ id, q'.beingSent = some id → q.beingSent = some id ∧
    ∀ request ∈ q.requests, request.transactionId = id → request ∈ q'.requests

namespace Removes

variable {q' q'' : QueueStorage} {uploads own : List ℕ}

theorem refl : Removes uploads own q q where
  requests := Sublist.refl _
  dependents := Sublist.refl _
  keepsRequest := fun _ hr _ => hr
  keepsDependent := fun _ hd _ => hd
  keepsSending := fun _ _ h => h
  sending := fun _ h => ⟨h, fun _ hr _ => hr⟩

theorem upload (hid : id ∈ uploads) :
    Removes uploads own q ((q.removeSendQueueRequest id).cancelUpload id) := by
  have hreq : ((q.removeSendQueueRequest id).cancelUpload id).requests =
      remove (·.transactionId) id q.requests := cancelUpload_requests
  have hdep : ((q.removeSendQueueRequest id).cancelUpload id).dependents = q.dependents :=
    cancelUpload_dependents
  refine ⟨hreq ▸ remove_sublist, hdep ▸ Sublist.refl _, ?_, fun d hd _ => hdep ▸ hd, ?_, ?_⟩
  · intro request hr hne
    rw [hreq]
    exact mem_remove_of_ne hr fun heq => hne (heq ▸ hid)
  · intro other hother hsent
    have hne : other ≠ id := fun heq => hother (heq ▸ hid)
    simp [cancelUpload, removeSendQueueRequest, hsent, hne]
  · intro other hsent
    by_cases hsame : q.beingSent = some id
    · simp [cancelUpload, removeSendQueueRequest, hsame] at hsent
    · have hother : q.beingSent = some other := by
        simpa [cancelUpload, removeSendQueueRequest, hsame] using hsent
      refine ⟨hother, fun request hr heq => ?_⟩
      rw [hreq]
      exact mem_remove_of_ne hr fun hid' => hsame (by rw [hother, ← heq, hid'])

theorem dependent (hid : id ∈ own) :
    Removes uploads own q (q.removeDependentQueuedRequest id) where
  requests := Sublist.refl _
  dependents := remove_sublist
  keepsRequest := fun _ hr _ => hr
  keepsDependent := fun _ hd hne => mem_remove_of_ne hd fun heq => hne (heq ▸ hid)
  keepsSending := fun _ _ h => h
  sending := fun _ h => ⟨h, fun _ hr _ => hr⟩

section

variable (h : Removes uploads own q q')
include h

theorem trans (h' : Removes uploads own q' q'') : Removes uploads own q q'' where
  requests := h'.requests.trans h.requests
  dependents := h'.dependents.trans h.dependents
  keepsRequest := fun request hr hid =>
    h'.keepsRequest request (h.keepsRequest request hr hid) hid
  keepsDependent := fun d hd hown => h'.keepsDependent d (h.keepsDependent d hd hown) hown
  keepsSending := fun id hid hsent => h'.keepsSending id hid (h.keepsSending id hid hsent)
  sending := by
    intro id hsent
    obtain ⟨hsent', hkeep'⟩ := h'.sending id hsent
    obtain ⟨hsent'', hkeep⟩ := h.sending id hsent'
    exact ⟨hsent'', fun request hr heq => hkeep' request (hkeep request hr heq) heq⟩

theorem hasRequest (hsent : ∀ id, q.beingSent = some id → q.hasRequest id = true)
    (hid : q'.beingSent = some id) : q'.hasRequest id = true := by
  obtain ⟨hid', hkeep⟩ := h.sending id hid
  obtain ⟨request, hr, heq⟩ := any_eq_true.mp (hsent id hid')
  have heq' : request.transactionId = id := by simpa using heq
  exact any_eq_true.mpr ⟨request, hkeep request hr heq', heq⟩

theorem queueOk (hq : QueueOk media used q) : QueueOk media used q' :=
  hq.sublist h.requests h.dependents

end

end Removes

variable {eventTxn : ℕ}

theorem abortFileUpload_removes {uploads own : List ℕ} {file : ℕ} {removed : Bool}
    (hfile : file ∈ uploads) (hevent : eventTxn ∈ own) :
    Removes uploads own q (abortUpload.abortFileUpload q eventTxn file removed).2 := by
  unfold abortUpload.abortFileUpload
  split
  · exact (Removes.upload hfile).trans (Removes.dependent hevent)
  · split
    · exact Removes.refl
    · exact Removes.dependent hevent

theorem abortUpload_removes {h : MediaHandles} :
    Removes (uploadsOf [h]) [h.uploadFileTxn, eventTxn] q (q.abortUpload eventTxn h).2 := by
  have hfile : h.uploadFileTxn ∈ uploadsOf [h] := by simp [uploadsOf]
  have hevent : eventTxn ∈ [h.uploadFileTxn, eventTxn] := by simp
  unfold abortUpload
  split
  · next thumbnailTxn hthumbnail =>
    have hmem : thumbnailTxn ∈ uploadsOf [h] := by
      have hsome := (Option.filter_eq_some_iff.mp hthumbnail).1
      simp [uploadsOf, hsome]
    have hfirst := ((Removes.upload (q := q) hmem).trans (Removes.dependent
      (show h.uploadFileTxn ∈ [h.uploadFileTxn, eventTxn] by simp))).trans
        (Removes.dependent hevent)
    dsimp only
    split
    · exact hfirst
    · exact hfirst.trans (abortFileUpload_removes hfile hevent)
  · exact abortFileUpload_removes hfile hevent

/-! ### Media events that are queued -/

/-- Uploads that wait for one another, the first one for `last`. -/
def UploadChain (x : ℕ) : ℕ → List DependentQueuedRequest → Prop
  | _, [] => True
  | last, d :: ds => d.parentTransactionId = last ∧ d.parentKey = none ∧
      (∃ contentType cacheKey isThumbnail,
        d.kind = .uploadFileOrThumbnail contentType cacheKey x isThumbnail) ∧
      UploadChain x d.ownTransactionId ds

def lastUpload (last : ℕ) : List DependentQueuedRequest → ℕ
  | [] => last
  | d :: ds => lastUpload d.ownTransactionId ds

/-- What queueing a media event adds: its first upload, the other ones and the event. -/
structure Queued (q q' : QueueStorage) (x : ℕ) (uploads : List ℕ) (first : QueuedRequest)
    (ds : List DependentQueuedRequest) (finish : DependentQueuedRequest) : Prop where
  eq : q' = { q with
    requests := q.requests ++ [first]
    dependents := q.dependents ++ (ds ++ [finish]) }
  firstUpload : ∃ contentType cacheKey,
    first.kind = .mediaUpload contentType cacheKey none x [] ∧ first.error = none ∧
      first.priority = lowPriority
  chain : UploadChain x first.transactionId ds
  finishParent : finish.parentTransactionId = lastUpload first.transactionId ds
  finishOwn : finish.ownTransactionId = x
  finishKey : finish.parentKey = none
  finishKind : finish.kind.isOwnEvent = true
  uploads : first.transactionId :: ds.map (·.ownTransactionId) = uploads

theorem pushThumbnailAndMediaUploads_eq (item : ItemQueueInfo) :
    ∃ first ds, q.pushThumbnailAndMediaUploads x item =
        { q with requests := q.requests ++ [first], dependents := q.dependents ++ ds } ∧
      (∃ contentType cacheKey, first.kind = .mediaUpload contentType cacheKey none x [] ∧
        first.error = none ∧ first.priority = lowPriority) ∧
      UploadChain x first.transactionId ds ∧
      lastUpload first.transactionId ds = item.uploadFileTxn ∧
      first.transactionId :: ds.map (·.ownTransactionId) = uploadsOf [item.handles] := by
  unfold pushThumbnailAndMediaUploads
  cases hthumbnail : item.thumbnail with
  | none =>
    exact ⟨⟨.mediaUpload item.contentType item.fileMediaRequest none x [], item.uploadFileTxn,
        none, lowPriority⟩, [], by simp [saveSendQueueRequest], ⟨_, _, rfl, rfl, rfl⟩, trivial, rfl,
      by simp [uploadsOf, handles, hthumbnail]⟩
  | some thumbnail =>
    exact ⟨⟨.mediaUpload thumbnail.contentType thumbnail.mediaRequest none x [], thumbnail.txn,
        none, lowPriority⟩,
      [⟨.uploadFileOrThumbnail item.contentType item.fileMediaRequest x true, thumbnail.txn,
        item.uploadFileTxn, none⟩], rfl, ⟨_, _, rfl, rfl, rfl⟩,
      ⟨rfl, rfl, ⟨_, _, _, rfl⟩, trivial⟩, rfl, by simp [uploadsOf, handles, hthumbnail]⟩

theorem UploadChain.append {ds' : List DependentQueuedRequest} (h : UploadChain x last ds)
    (h' : UploadChain x (lastUpload last ds) ds') :
    UploadChain x last (ds ++ ds') ∧
      lastUpload last (ds ++ ds') = lastUpload (lastUpload last ds) ds' := by
  induction ds generalizing last with
  | nil => exact ⟨h', rfl⟩
  | cons d ds ih =>
    obtain ⟨hparent, hkey, hkind, hrest⟩ := h
    obtain ⟨hchain, hlast⟩ := ih hrest h'
    exact ⟨⟨hparent, hkey, hkind, hchain⟩, hlast⟩

theorem pushGalleryItem_eq (item : ItemQueueInfo) :
    ∃ ds, q.pushGalleryItem x last item = { q with dependents := q.dependents ++ ds } ∧
      UploadChain x last ds ∧ lastUpload last ds = item.uploadFileTxn ∧
      ds.map (·.ownTransactionId) = uploadsOf [item.handles] := by
  unfold pushGalleryItem
  cases hthumbnail : item.thumbnail with
  | none =>
    exact ⟨[⟨.uploadFileOrThumbnail item.contentType item.fileMediaRequest x false, last,
        item.uploadFileTxn, none⟩], rfl, ⟨rfl, rfl, ⟨_, _, _, rfl⟩, trivial⟩, rfl,
      by simp [uploadsOf, handles, hthumbnail]⟩
  | some thumbnail =>
    exact ⟨[⟨.uploadFileOrThumbnail thumbnail.contentType thumbnail.mediaRequest x false, last,
        thumbnail.txn, none⟩,
      ⟨.uploadFileOrThumbnail item.contentType item.fileMediaRequest x true, thumbnail.txn,
        item.uploadFileTxn, none⟩], by simp [saveDependentQueuedRequest],
      ⟨rfl, rfl, ⟨_, _, _, rfl⟩, rfl, rfl, ⟨_, _, _, rfl⟩, trivial⟩, rfl,
      by simp [uploadsOf, handles, hthumbnail]⟩

theorem pushGalleryItems_eq (items : List ItemQueueInfo) :
    ∀ (q : QueueStorage) (last : ℕ), ∃ ds, pushGalleryItems x q last items =
        ({ q with dependents := q.dependents ++ ds }, lastUpload last ds) ∧
      UploadChain x last ds ∧
      ds.map (·.ownTransactionId) = uploadsOf (items.map (·.handles)) := by
  induction items with
  | nil => exact fun q last => ⟨[], by simp [pushGalleryItems, lastUpload], trivial, rfl⟩
  | cons item items ih =>
    intro q last
    obtain ⟨ds, heq, hchain, hlast, hids⟩ := pushGalleryItem_eq item
    obtain ⟨ds', heq', hchain', hids'⟩ :=
      ih (q.pushGalleryItem x last item) item.uploadFileTxn
    rw [← hlast] at hchain' heq'
    obtain ⟨happend, hlast'⟩ := hchain.append hchain'
    refine ⟨ds ++ ds', ?_, happend, ?_⟩
    · unfold pushGalleryItems
      rw [← hlast, heq', heq, hlast']
      simp
    · rw [map_append, hids, hids', map_cons]
      simp [uploadsOf]

theorem pushMedia_queued (q : QueueStorage) (event : EventContent) (x : ℕ) (item : ItemQueueInfo) :
    ∃ first ds finish,
      Queued q (q.pushMedia event x item) x (uploadsOf [item.handles]) first ds finish := by
  obtain ⟨first, ds, heq, hfirst, hchain, hlast, hids⟩ :=
    pushThumbnailAndMediaUploads_eq item
  refine ⟨first, ds, ⟨.finishUpload event, item.uploadFileTxn, x, none⟩, ?_, hfirst, hchain,
    hlast.symm, rfl, rfl, rfl, hids⟩
  unfold pushMedia
  rw [heq]
  simp [saveDependentQueuedRequest]

theorem pushGallery_queued (q : QueueStorage) (event : EventContent) (x : ℕ)
    {items : List ItemQueueInfo} (hitems : items ≠ []) :
    ∃ first ds finish,
      Queued q (q.pushGallery event x items) x (uploadsOf (items.map (·.handles))) first ds
        finish := by
  obtain ⟨item, rest, rfl⟩ := exists_cons_of_ne_nil hitems
  obtain ⟨first, ds, heq, hfirst, hchain, hlast, hids⟩ :=
    pushThumbnailAndMediaUploads_eq item
  obtain ⟨ds', heq', hchain', hids'⟩ := pushGalleryItems_eq rest
    (q.pushThumbnailAndMediaUploads x item) item.uploadFileTxn
  rw [← hlast] at hchain'
  obtain ⟨happend, hlast'⟩ := hchain.append hchain'
  refine ⟨first, ds ++ ds', ⟨.finishGallery event ((item :: rest).map (·.uploadFileTxn)),
    lastUpload item.uploadFileTxn ds', x, none⟩, ?_, hfirst, happend, ?_, rfl, rfl, rfl, ?_⟩
  · unfold pushGallery
    dsimp only
    rw [heq', heq]
    simp [saveDependentQueuedRequest]
  · rw [hlast', hlast]
  · rw [map_append, ← cons_append, hids, hids', map_cons]
    simp [uploadsOf]

theorem UploadChain.follows {all rest : List ℕ} (h : UploadChain x last ds) :
    ∀ l, all = l ++ last :: (ds.map (·.ownTransactionId) ++ rest) →
      (∀ d ∈ ds, ∃ l r, all = l ++ d.parentTransactionId :: d.ownTransactionId :: r) ∧
      ∃ l, all = l ++ lastUpload last ds :: rest := by
  induction ds generalizing last with
  | nil => exact fun l hl => ⟨by simp, l, by simpa [lastUpload] using hl⟩
  | cons d ds ih =>
    intro l hl
    obtain ⟨hparent, -, -, hrest⟩ := h
    obtain ⟨hds, hlast⟩ := ih hrest (l ++ [last]) (by simpa using hl)
    exact ⟨forall_mem_cons.mpr ⟨⟨l, _, by rw [hparent]; simpa using hl⟩, hds⟩, hlast⟩

theorem UploadChain.kind (h : UploadChain x last ds) (hd : d ∈ ds) : d.parentKey = none ∧
      ∃ contentType cacheKey isThumbnail,
        d.kind = .uploadFileOrThumbnail contentType cacheKey x isThumbnail := by
  induction ds generalizing last with
  | nil => simp at hd
  | cons e ds ih =>
    obtain ⟨-, hkey, hkind, hrest⟩ := h
    rcases mem_cons.mp hd with rfl | hd
    · exact ⟨hkey, hkind⟩
    · exact ih hrest hd

namespace Queued

variable {q' : QueueStorage} {first : QueuedRequest} {finish : DependentQueuedRequest}
  {ds : List DependentQueuedRequest} {uploads : List ℕ} (h : Queued q q' x uploads first ds finish)
include h

theorem ids_eq : uploads ++ [x] =
    first.transactionId :: (ds ++ [finish]).map (·.ownTransactionId) := by
  rw [← h.uploads]
  simp [h.finishOwn]

theorem follows :
    (∀ d ∈ ds, ∃ l r, uploads ++ [x] = l ++ d.parentTransactionId :: d.ownTransactionId :: r) ∧
      ∃ l, uploads ++ [x] = l ++ [finish.parentTransactionId, x] := by
  rw [h.finishParent]
  have hsplit : uploads ++ [x] =
      [] ++ first.transactionId :: (ds.map (·.ownTransactionId) ++ [x]) := by
    simp [← h.uploads]
  exact h.chain.follows [] hsplit

theorem dependentOk (hmem : (x, handles) ∈ media) (hhandles : uploads = uploadsOf handles)
    (hd : d ∈ ds ++ [finish]) : DependentOk media d := by
  rcases mem_append.mp hd with hd | hd
  · obtain ⟨-, contentType, cacheKey, isThumbnail, hkind⟩ := h.chain.kind hd
    obtain ⟨l, r, heq⟩ := h.follows.1 d hd
    simp only [DependentOk, hkind]
    refine ⟨⟨handles, hmem, l, r, hhandles ▸ heq⟩, handles, hmem, ?_⟩
    rw [← hhandles, ← h.uploads]
    exact mem_cons_of_mem _ (mem_map_of_mem hd)
  · rw [mem_singleton.mp hd]
    obtain ⟨l, heq⟩ := h.follows.2
    have hfollows : Follows media finish.ownTransactionId finish.parentTransactionId
        finish.ownTransactionId := by
      rw [h.finishOwn]
      exact ⟨handles, hmem, l, [], hhandles ▸ heq⟩
    have hkind := h.finishKind
    unfold DependentOk
    split <;> first | exact hfollows | simp_all [isOwnEvent]

/-- What was just queued waits for its parents. -/
theorem mem_of_parentKey {key : SentRequestKey} (hd : d ∈ q'.dependents)
    (hkey : d.parentKey = some key) : d ∈ q.dependents := by
  have hnew : ∀ d ∈ ds ++ [finish], d.parentKey = none :=
    forall_mem_append.mpr ⟨fun d hd => (h.chain.kind hd).1, forall_mem_singleton.mpr h.finishKey⟩
  rw [h.eq] at hd
  refine (mem_append.mp hd).resolve_right fun hd => ?_
  rw [hnew d hd] at hkey
  cases hkey

theorem parent_mem (hd : d ∈ ds ++ [finish]) : d.parentTransactionId ∈ uploads := by
  have hall : d.parentTransactionId ∈ uploads ++ [x] ∧
      ∃ l r, uploads ++ [x] = l ++ d.parentTransactionId :: d.ownTransactionId :: r := by
    rcases mem_append.mp hd with hd | hd
    · obtain ⟨l, r, heq⟩ := h.follows.1 d hd
      exact ⟨by simp [heq], l, r, heq⟩
    · rw [mem_singleton.mp hd]
      obtain ⟨l, heq⟩ := h.follows.2
      exact ⟨by simp [heq], l, [], by simpa [h.finishOwn] using heq⟩
  obtain ⟨-, l, r, heq⟩ := hall
  have hdrop := congrArg List.dropLast heq
  rw [dropLast_concat] at hdrop
  rw [hdrop, dropLast_append_of_ne_nil (by simp)]
  simp

theorem mem_ids (hid : id ∈ uploads ++ [x]) : id ∈ ids q' := by
  rw [h.ids_eq] at hid
  rw [h.eq]
  rcases mem_cons.mp hid with rfl | hid
  · exact QueueInvariants.mem_ids.mpr (.inl ⟨first, by simp, rfl⟩)
  · obtain ⟨d, hd, rfl⟩ := mem_map.mp hid
    exact QueueInvariants.mem_ids.mpr (.inr ⟨d, mem_append_right _ hd, rfl⟩)

theorem queueOk (hq : QueueOk media used q) (hmem : (x, handles) ∈ media)
    (hhandles : uploads = uploadsOf handles) (hnodup : (uploads ++ [x]).Nodup)
    (hused : ∀ id ∈ uploads ++ [x], id ∈ used) (hfresh : ∀ id ∈ uploads ++ [x], id ∉ ids q) :
    QueueOk media used q' := by
  obtain ⟨contentType, cacheKey, hkind, -, -⟩ := h.firstUpload
  rw [h.ids_eq] at hnodup
  obtain ⟨hfirst, hds⟩ := nodup_cons.mp hnodup
  have hnew : ∀ d ∈ ds ++ [finish], d.ownTransactionId ∈ uploads ++ [x] := by
    intro d hd
    rw [h.ids_eq]
    exact mem_cons_of_mem _ (mem_map_of_mem hd)
  have hfirstNew : first.transactionId ∈ uploads ++ [x] := by
    rw [h.ids_eq]
    exact mem_cons_self
  rw [h.eq]
  refine ⟨?_, ?_, ?_, ?_, ?_, ?_, ?_⟩
  · rw [map_append]
    refine nodup_append.mpr ⟨hq.requestIds, by simp, ?_⟩
    intro a ha b hb
    obtain ⟨request, hr, rfl⟩ := mem_map.mp ha
    rw [mem_singleton.mp hb]
    exact fun (heq : request.transactionId = first.transactionId) =>
      hfresh _ hfirstNew (heq ▸ mem_ids_of_request hr)
  · rw [map_append]
    refine nodup_append.mpr ⟨hq.dependentIds, hds, ?_⟩
    intro a ha b hb
    obtain ⟨d, hd, rfl⟩ := mem_map.mp ha
    obtain ⟨e, he, rfl⟩ := mem_map.mp hb
    exact fun (heq : d.ownTransactionId = e.ownTransactionId) =>
      hfresh _ (hnew e he) (heq ▸ mem_ids_of_dependent hd)
  · refine forall_mem_append.mpr ⟨fun request hr => forall_mem_append.mpr
      ⟨hq.disjoint request hr, ?_⟩, forall_mem_singleton.mpr (forall_mem_append.mpr ⟨?_, ?_⟩)⟩
    · exact fun d hd heq => hfresh _ (hnew d hd) (heq ▸ mem_ids_of_request hr)
    · exact fun d hd heq => hfresh _ hfirstNew (heq ▸ mem_ids_of_dependent hd)
    · exact fun d hd heq => hfirst (heq ▸ mem_map_of_mem hd)
  · exact forall_mem_append.mpr ⟨hq.requestsUsed, forall_mem_singleton.mpr (hused _ hfirstNew)⟩
  · refine forall_mem_append.mpr ⟨hq.dependentsUsed, fun d hd => ?_⟩
    exact ⟨hused _ (hnew d hd), hused _ (mem_append_left _ (h.parent_mem hd))⟩
  · refine forall_mem_append.mpr ⟨hq.request, forall_mem_singleton.mpr ?_⟩
    simp only [RequestOk, hkind]
    exact ⟨handles, hmem, by rw [← hhandles, ← h.uploads]; simp⟩
  · exact forall_mem_append.mpr ⟨hq.dependent, fun d hd => h.dependentOk hmem hhandles hd⟩

end Queued

end MatrixSdk.QueueInvariants

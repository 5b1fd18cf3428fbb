import MatrixSdk.KeyedRows
import Mathlib.Data.List.Sort

/-!
The storage of a room's send queue: the queued requests, the dependent requests that wait for
one of them, and the one request that is being sent. Each operation holds the lock of the
store from its first read to its last write.
-/
namespace MatrixSdk.SendQueue

open KeyedRows

/-- A message that points to media (an audio, a file, an image, a video or a gallery), or another
content. -/
inductive ContentKind where
  | media (source : List String)
  | other
deriving DecidableEq

/-- What is read and written of the content of an event: its type, the text an edit replaces,
the media it points to, and the event it relates to. -/
structure EventContent where
  eventType : String
  body : String
  kind : ContentKind
  relatesTo : Option String
deriving DecidableEq

structure AccumulatedSentMediaInfo where
  file : String
  thumbnail : Option String
deriving DecidableEq

structure SentMediaInfo where
  file : String
  thumbnail : Option String
  accumulated : List AccumulatedSentMediaInfo
deriving DecidableEq

inductive SentRequestKey where
  | event (eventId : String)
  | media (info : SentMediaInfo)
  | redaction (eventId : String)
deriving DecidableEq

namespace SentRequestKey

def intoEventId : SentRequestKey → Option String
  | event eventId | redaction eventId => some eventId
  | media _ => none

def intoMedia : SentRequestKey → Option SentMediaInfo
  | media info => some info
  | event _ | redaction _ => none

end SentRequestKey

inductive QueuedRequestKind where
  | event (content : EventContent)
  | mediaUpload (contentType cacheKey : String) (thumbnailSource : Option String)
      (relatedTo : ℕ) (accumulated : List AccumulatedSentMediaInfo)
  | redaction (redacts : String) (reason : Option String)
deriving DecidableEq

structure QueuedRequest where
  kind : QueuedRequestKind
  transactionId : ℕ
  error : Option String
  priority : ℕ
deriving DecidableEq

namespace QueuedRequest

def isWedged (request : QueuedRequest) : Bool := request.error.isSome

def asEvent (request : QueuedRequest) : Option EventContent :=
  match request.kind with
  | .event content => some content
  | .mediaUpload .. | .redaction .. => none

end QueuedRequest

def reactionType : String := "m.reaction"

/-- Only an event the user composed can be edited or reacted to. -/
def isOwnEventRequest (request : QueuedRequest) : Bool :=
  request.asEvent.any fun content => content.eventType ≠ reactionType

inductive DependentQueuedRequestKind where
  | editEvent (newContent : EventContent)
  | redactEvent (reason : Option String)
  | reactEvent (key : String)
  | uploadFileOrThumbnail (contentType cacheKey : String) (relatedTo : ℕ)
      (parentIsThumbnailUpload : Bool)
  | finishUpload (localEcho : EventContent)
  | finishGallery (localEcho : EventContent) (items : List ℕ)
deriving DecidableEq

namespace DependentQueuedRequestKind

def isEdit : DependentQueuedRequestKind → Bool
  | editEvent _ => true
  | _ => false

def isRedact : DependentQueuedRequestKind → Bool
  | redactEvent _ => true
  | _ => false

def isReact : DependentQueuedRequestKind → Bool
  | reactEvent _ => true
  | _ => false

/-- The event itself, waiting for its media to be uploaded. -/
def isOwnEvent : DependentQueuedRequestKind → Bool
  | finishUpload _ | finishGallery .. => true
  | _ => false

end DependentQueuedRequestKind

structure DependentQueuedRequest where
  kind : DependentQueuedRequestKind
  parentTransactionId : ℕ
  ownTransactionId : ℕ
  parentKey : Option SentRequestKey
deriving DecidableEq

structure MediaHandles where
  uploadThumbnailTxn : Option ℕ
  uploadFileTxn : ℕ
deriving DecidableEq

structure QueueThumbnailInfo where
  txn : ℕ
  mediaRequest : String
  contentType : String

/-- What is queued for one media: a single one, or one of a gallery. -/
structure ItemQueueInfo where
  contentType : String
  uploadFileTxn : ℕ
  fileMediaRequest : String
  thumbnail : Option QueueThumbnailInfo

def ItemQueueInfo.handles (item : ItemQueueInfo) : MediaHandles :=
  ⟨item.thumbnail.map (·.txn), item.uploadFileTxn⟩

/-- The answers of the outside world while dependent requests are applied, by the transaction
id of the dependent request: whether an edit event could be made, and whether a redaction was
sent. -/
structure Answers where
  edits : ℕ → Bool
  redacts : ℕ → Bool

def lowPriority : ℕ := 0

def highPriority : ℕ := 10

structure QueueStorage where
  requests : List QueuedRequest
  dependents : List DependentQueuedRequest
  beingSent : Option ℕ
deriving DecidableEq

namespace QueueStorage

variable (s : QueueStorage)

/-! ### The state store -/

def loadSendQueueRequests : List QueuedRequest :=
  s.requests.insertionSort fun a b => b.priority ≤ a.priority

variable (transactionId : ℕ) (kind : QueuedRequestKind)

def saveSendQueueRequest (priority : ℕ) : QueueStorage :=
  { s with requests := s.requests ++ [⟨kind, transactionId, none, priority⟩] }

def updateSendQueueRequest : QueueStorage :=
  { s with
    requests := update (·.transactionId) transactionId
      (fun request => { request with kind := kind, error := none }) s.requests }

def updateSendQueueRequestStatus (error : Option String) : QueueStorage :=
  { s with
    requests := update (·.transactionId) transactionId
      (fun request => { request with error := error }) s.requests }

@[simp]
theorem updateSendQueueRequest_ids :
    (s.updateSendQueueRequest transactionId kind).requests.map (·.transactionId) =
      s.requests.map (·.transactionId) :=
  map_key_update fun _ => rfl

@[simp]
theorem updateSendQueueRequestStatus_ids (error : Option String) :
    (s.updateSendQueueRequestStatus transactionId error).requests.map (·.transactionId) =
      s.requests.map (·.transactionId) :=
  map_key_update fun _ => rfl

def hasRequest : Bool :=
  s.requests.any (·.transactionId = transactionId)

def removeSendQueueRequest : QueueStorage :=
  { s with requests := remove (·.transactionId) transactionId s.requests }

def saveDependentQueuedRequest (parent own : ℕ) (kind : DependentQueuedRequestKind) :
    QueueStorage :=
  { s with dependents := s.dependents ++ [⟨kind, parent, own, none⟩] }

variable (own : ℕ)

def updateDependentQueuedRequest (kind : DependentQueuedRequestKind) : QueueStorage :=
  { s with
    dependents := update (·.ownTransactionId) own (fun d => { d with kind := kind })
      s.dependents }

@[simp]
theorem updateDependentQueuedRequest_ids (kind : DependentQueuedRequestKind) :
    (s.updateDependentQueuedRequest own kind).dependents.map (·.ownTransactionId) =
      s.dependents.map (·.ownTransactionId) :=
  map_key_update fun _ => rfl

def hasDependent : Bool := s.dependents.any (·.ownTransactionId = own)

def removeDependentQueuedRequest : QueueStorage :=
  { s with dependents := remove (·.ownTransactionId) own s.dependents }

def markDependentQueuedRequestsAsReady (parent : ℕ) (key : SentRequestKey) : QueueStorage :=
  { s with
    dependents := s.dependents.map fun d =>
      if d.parentTransactionId = parent then { d with parentKey := some key } else d }

@[simp]
theorem markDependentQueuedRequestsAsReady_ids (parent : ℕ) (key : SentRequestKey) :
    (s.markDependentQueuedRequestsAsReady parent key).dependents.map (·.ownTransactionId) =
      s.dependents.map (·.ownTransactionId) := by
  simp only [markDependentQueuedRequestsAsReady, List.map_map]
  refine List.map_congr_left fun d _ => ?_
  simp only [Function.comp]
  split <;> rfl

/-! ### Sending -/

def push (request : QueuedRequestKind) : QueueStorage :=
  s.saveSendQueueRequest transactionId request lowPriority

/-- Only the head of the queue is considered: a wedged one blocks what follows. -/
def peekNextToSend : Option (QueuedRequest × QueueStorage) :=
  match s.loadSendQueueRequests.head? with
  | none => none
  | some request =>
    if request.isWedged then none
    else some (request, { s with beingSent := some request.transactionId })

def markAsNotBeingSent : QueueStorage := { s with beingSent := none }

def markAsWedged (reason : String) : QueueStorage :=
  { s with beingSent := none }.updateSendQueueRequestStatus transactionId (some reason)

def markAsUnwedged : QueueStorage :=
  s.updateSendQueueRequestStatus transactionId none

def markAsSent (parentKey : SentRequestKey) : QueueStorage :=
  ({ s with beingSent := none }.markDependentQueuedRequestsAsReady transactionId
    parentKey).removeSendQueueRequest transactionId

/-! ### Changes to what is queued

A new dependent request is saved under the child transaction id that is given. -/

def cancelEvent (reason : Option String) (child : ℕ) : Bool × QueueStorage :=
  if s.beingSent = some transactionId then
    -- Save the intent to redact the event.
    (true, s.saveDependentQueuedRequest transactionId child (.redactEvent reason))
  else
    (s.hasRequest transactionId, s.removeSendQueueRequest transactionId)

def replaceEvent (content : EventContent) (child : ℕ) : Bool × QueueStorage :=
  if !s.loadSendQueueRequests.any
      (fun request => request.transactionId = transactionId && isOwnEventRequest request) then
    (false, s)
  else if s.beingSent = some transactionId then
    -- Save the intent to edit the associated event.
    (true, s.saveDependentQueuedRequest transactionId child (.editEvent content))
  else
    (s.hasRequest transactionId, s.updateSendQueueRequest transactionId (.event content))

def react (key : String) (child : ℕ) : Bool × QueueStorage :=
  if !s.loadSendQueueRequests.any
        (fun request => request.transactionId = transactionId && isOwnEventRequest request) &&
      !s.dependents.any
        (fun d => d.kind.isOwnEvent && d.ownTransactionId = transactionId) then
    (false, s)
  else
    (true, s.saveDependentQueuedRequest transactionId child (.reactEvent key))

def removeDependentSendQueueRequest : Bool × QueueStorage :=
  (s.hasDependent own, s.removeDependentQueuedRequest own)

/-! ### Uploads -/

/-- With a thumbnail, the file waits for it; otherwise the file is uploaded directly. -/
def pushThumbnailAndMediaUploads (sendEventTxn : ℕ) (item : ItemQueueInfo) : QueueStorage :=
  match item.thumbnail with
  | some thumbnail =>
    (s.saveSendQueueRequest thumbnail.txn
      (.mediaUpload thumbnail.contentType thumbnail.mediaRequest none sendEventTxn [])
      lowPriority).saveDependentQueuedRequest thumbnail.txn item.uploadFileTxn
        (.uploadFileOrThumbnail item.contentType item.fileMediaRequest sendEventTxn true)
  | none =>
    s.saveSendQueueRequest item.uploadFileTxn
      (.mediaUpload item.contentType item.fileMediaRequest none sendEventTxn []) lowPriority

def pushMedia (event : EventContent) (sendEventTxn : ℕ) (item : ItemQueueInfo) : QueueStorage :=
  (s.pushThumbnailAndMediaUploads sendEventTxn item).saveDependentQueuedRequest
    item.uploadFileTxn sendEventTxn (.finishUpload event)

/-- One further item of a gallery: its thumbnail waits for the last upload, and its file for
the thumbnail. -/
def pushGalleryItem (sendEventTxn lastUploadFileTxn : ℕ) (item : ItemQueueInfo) : QueueStorage :=
  match item.thumbnail with
  | some thumbnail =>
    (s.saveDependentQueuedRequest lastUploadFileTxn thumbnail.txn
      (.uploadFileOrThumbnail thumbnail.contentType thumbnail.mediaRequest sendEventTxn
        false)).saveDependentQueuedRequest thumbnail.txn item.uploadFileTxn
          (.uploadFileOrThumbnail item.contentType item.fileMediaRequest sendEventTxn true)
  | none =>
    s.saveDependentQueuedRequest lastUploadFileTxn item.uploadFileTxn
      (.uploadFileOrThumbnail item.contentType item.fileMediaRequest sendEventTxn false)

def pushGalleryItems (sendEventTxn : ℕ) :
    QueueStorage → ℕ → List ItemQueueInfo → QueueStorage × ℕ
  | s, last, [] => (s, last)
  | s, last, item :: items =>
    pushGalleryItems sendEventTxn (s.pushGalleryItem sendEventTxn last item)
      item.uploadFileTxn items

def pushGallery (event : EventContent) (sendEventTxn : ℕ) (items : List ItemQueueInfo) :
    QueueStorage :=
  match items with
  | [] => s
  | first :: rest =>
    let pushed := pushGalleryItems sendEventTxn
      (s.pushThumbnailAndMediaUploads sendEventTxn first) first.uploadFileTxn rest
    pushed.1.saveDependentQueuedRequest pushed.2 sendEventTxn
      (.finishGallery event ((first :: rest).map (·.uploadFileTxn)))

/-- A removed upload is not being sent any more. -/
def cancelUpload : QueueStorage :=
  if s.beingSent = some transactionId then { s with beingSent := none } else s

def abortUpload (eventTxn : ℕ) (handles : MediaHandles) : Bool × QueueStorage :=
  match handles.uploadThumbnailTxn.filter s.hasRequest with
  | some thumbnailTxn =>
    -- The thumbnail was pending: two dependent requests wait for it.
    let s := (s.removeSendQueueRequest thumbnailTxn).cancelUpload thumbnailTxn
    let removedDependentUpload := s.hasDependent handles.uploadFileTxn
    let s := s.removeDependentQueuedRequest handles.uploadFileTxn
    let removedDependentEvent := s.hasDependent eventTxn
    let s := s.removeDependentQueuedRequest eventTxn
    if removedDependentUpload then (true, s)
    else abortFileUpload s eventTxn handles.uploadFileTxn removedDependentEvent
  | none => abortFileUpload s eventTxn handles.uploadFileTxn false
where
  abortFileUpload (s : QueueStorage) (eventTxn uploadFileTxn : ℕ)
      (removedDependentEvent : Bool) : Bool × QueueStorage :=
    if s.hasRequest uploadFileTxn then
      let s := (s.removeSendQueueRequest uploadFileTxn).cancelUpload uploadFileTxn
      (true, s.removeDependentQueuedRequest eventTxn)
    else if removedDependentEvent then (true, s)
    else (s.hasDependent eventTxn, s.removeDependentQueuedRequest eventTxn)

/-- Only a media event has a caption. -/
def updateMediaCaption (content : EventContent) (caption : String) : Option EventContent :=
  match content.kind with
  | .media _ => some { content with body := caption }
  | .other => none

/-- The new content, `none` when the event is not there any more; an error when it has no
caption. -/
def editMediaCaption (txn : ℕ) (caption : String) (child : ℕ) :
    Except Unit (Option EventContent) × QueueStorage :=
  match s.dependents.find? (·.ownTransactionId = txn) with
  | some found =>
    match found.kind with
    | .finishUpload localEcho =>
      match updateMediaCaption localEcho caption with
      | some content =>
        (.ok (some content), s.updateDependentQueuedRequest txn (.finishUpload content))
      | none => (.error (), s)
    | _ => (.error (), s)
  | none =>
    match s.loadSendQueueRequests.find? (·.transactionId = txn) with
    | none => (.ok none, s)
    | some found =>
      match found.asEvent.bind (updateMediaCaption · caption) with
      | none => (.error (), s)
      | some content =>
        if s.beingSent = some txn then
          (.ok (some content), s.saveDependentQueuedRequest txn child (.editEvent content))
        else (.ok (some content), s.updateSendQueueRequest txn (.event content))

/-! ### Applying dependent requests -/

def roomMessageType : String := "m.room.message"

def unstablePollStartType : String := "org.matrix.msc3381.poll.start"

/-- The edit event for a sent event. Only messages and polls can be edited that way. -/
def makeEditEvent (newContent : EventContent) (eventId : String) : Option EventContent :=
  if newContent.eventType = roomMessageType ∨ newContent.eventType = unstablePollStartType then
    some { newContent with relatesTo := some eventId }
  else none

def reactionContent (eventId key : String) : EventContent :=
  ⟨reactionType, key, .other, some eventId⟩

/-- A content that is no media is left as it is. -/
def withSource (content : EventContent) (source : List String) : EventContent :=
  match content.kind with
  | .media _ => { content with kind := .media source }
  | .other => content

def updateMediaEventAfterUpload (localEcho : EventContent) (sent : SentMediaInfo) :
    EventContent :=
  withSource localEcho (sent.file :: sent.thumbnail.toList)

def updateGalleryEventAfterUpload (localEcho : EventContent) (items : List ℕ)
    (sent : SentMediaInfo) : EventContent :=
  withSource localEcho ((items.zip (sent.accumulated ++ [⟨sent.file, sent.thumbnail⟩])).flatMap
    fun item => item.2.file :: item.2.thumbnail.toList)

/-- The next upload of a chain. A thumbnail is not accumulated before its file is uploaded. -/
def nextUpload (contentType cacheKey : String) (relatedTo : ℕ) (parentIsThumbnailUpload : Bool)
    (sent : SentMediaInfo) : QueuedRequestKind :=
  .mediaUpload contentType cacheKey (if parentIsThumbnailUpload then some sent.file else none)
    relatedTo
    (if parentIsThumbnailUpload then sent.accumulated
      else sent.accumulated ++ [⟨sent.file, sent.thumbnail⟩])

/-- What applying one dependent request does: queue a request under its own id, write an edit
into its parent, remove its parent, redact an event of the server, nothing more than being
done, or nothing yet. -/
inductive Application where
  | queue (kind : QueuedRequestKind)
  | edit (content : EventContent)
  | drop
  | redact (eventId : String)
  | done
  | retry
deriving DecidableEq

def applicationOf (answers : Answers) (d : DependentQueuedRequest) : Application :=
  match d.kind, d.parentKey with
  | .editEvent newContent, some key =>
    match key.intoEventId with
    | none => .retry
    | some eventId =>
      match makeEditEvent newContent eventId with
      | none => .done
      | some content => if answers.edits d.ownTransactionId then .queue (.event content) else .done
  | .editEvent newContent, none => .edit newContent
  | .redactEvent _, some key =>
    match key.intoEventId with
    | none => .retry
    | some eventId => if answers.redacts d.ownTransactionId then .redact eventId else .retry
  | .redactEvent _, none => .drop
  | .reactEvent key, some parentKey =>
    match parentKey.intoEventId with
    | none => .retry
    | some eventId => .queue (.event (reactionContent eventId key))
  | .uploadFileOrThumbnail contentType cacheKey relatedTo isThumbnail, some key =>
    match key.intoMedia with
    | none => .retry
    | some sent => .queue (nextUpload contentType cacheKey relatedTo isThumbnail sent)
  | .finishUpload localEcho, some key =>
    match key.intoMedia with
    | none => .retry
    | some sent => .queue (.event (updateMediaEventAfterUpload localEcho sent))
  | .finishGallery localEcho items, some key =>
    match key.intoMedia with
    | none => .retry
    | some sent => .queue (.event (updateGalleryEventAfterUpload localEcho items sent))
  | _, none => .retry

def tryApplySingleDependentRequest (d : DependentQueuedRequest) : Application → Bool × QueueStorage
  | .queue kind => (true, s.saveSendQueueRequest d.ownTransactionId kind highPriority)
  | .edit content => (true, s.updateSendQueueRequest d.parentTransactionId (.event content))
  | .drop => (true, s.removeSendQueueRequest d.parentTransactionId)
  | .redact _ | .done => (true, s)
  | .retry => (false, s)

/-- One dependent request, and what is kept of those of the same parent before it. -/
def canonicalStep (prevs : List DependentQueuedRequest) (d : DependentQueuedRequest) :
    List DependentQueuedRequest :=
  if prevs.any (·.kind.isRedact) then prevs
  else if d.kind.isEdit then
    if prevs.any (·.kind.isEdit) then
      update (·.kind.isEdit) true (fun _ => d) prevs
    else d :: prevs
  else if d.kind.isRedact then [d]
  else prevs ++ [d]

def canonicalOf (dependents : List DependentQueuedRequest) (parent : ℕ) :
    List DependentQueuedRequest :=
  (dependents.filter (·.parentTransactionId = parent)).foldl canonicalStep []

/-- The parents come in the order of a hash map. -/
def canonicalizeDependentRequests (parents : List ℕ)
    (dependents : List DependentQueuedRequest) : List DependentQueuedRequest :=
  parents.flatMap (canonicalOf dependents)

def removeNonCanonical (canonical : List DependentQueuedRequest) : QueueStorage :=
  { s with
    dependents := s.dependents.filter fun original =>
      canonical.any (·.ownTransactionId = original.ownTransactionId) }

/-- The storage that the dependent requests are applied to. -/
@[reducible] def canonicalized (parents : List ℕ) : QueueStorage :=
  s.removeNonCanonical (canonicalizeDependentRequests parents s.dependents)

/-- Apply one dependent request, and forget it when it has been applied. -/
def applySingle (answers : Answers) (d : DependentQueuedRequest) : QueueStorage :=
  let applied := s.tryApplySingleDependentRequest d (applicationOf answers d)
  if applied.1 then applied.2.removeDependentQueuedRequest d.ownTransactionId else applied.2

def applyDependentRequests (parents : List ℕ) (answers : Answers) : QueueStorage :=
  let canonical := canonicalizeDependentRequests parents s.dependents
  canonical.foldl (applySingle · answers) (s.removeNonCanonical canonical)

end QueueStorage

end MatrixSdk.SendQueue

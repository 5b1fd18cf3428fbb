import MatrixSdk.SendQueue
import MatrixSdk.Traces

/-!
A room's send queue at work: the sending task and the users of the queue take turns at its
storage. The task applies the dependent requests each time before it looks for a request to
send, and it sends one request at a time. Next to the storage, the state holds what a run has
done so far: the transaction ids in use, the media that were queued, and a log.
-/
namespace MatrixSdk.RoomSendQueues

open SendQueue

/-- Where the sending task is: at the top of its loop, past the dependent requests, waiting
for the answer to a request, or dropping a reaction that the server already has. -/
inductive Task where
  | idle
  | applied
  | sending (request : QueuedRequest)
  | duplicate (transactionId : ℕ)
deriving DecidableEq

inductive Entry where
  | queued (transactionId priority : ℕ)
  | handed (request : QueuedRequest)
  | sent (request : QueuedRequest) (key : SentRequestKey)
  | cancelled (transactionId : ℕ)
  | edited (transactionId : ℕ) (content : EventContent)
  | redacted (eventId : String)
deriving DecidableEq

/-- The media events that were queued, with their uploads. -/
abbrev Media := List (ℕ × List MediaHandles)

structure RoomSendQueue where
  queue : QueueStorage
  task : Task
  used : List ℕ
  media : Media
  log : List Entry
deriving DecidableEq

def RoomSendQueue.new : RoomSendQueue := ⟨⟨[], [], none⟩, .idle, [], [], []⟩

/-- The uploads of a media event, in the order in which they are made. -/
def uploadsOf (handles : List MediaHandles) : List ℕ :=
  handles.flatMap fun h => h.uploadThumbnailTxn.toList ++ [h.uploadFileTxn]

variable (media : Media)

def mediaIds : List ℕ :=
  media.flatMap fun m => uploadsOf m.2 ++ [m.1]

def IsUpload (id : ℕ) : Prop :=
  ∃ m ∈ media, id ∈ uploadsOf m.2

instance (media : Media) (id : ℕ) : Decidable (IsUpload media id) :=
  inferInstanceAs (Decidable (∃ m ∈ media, id ∈ uploadsOf m.2))

variable (request : QueuedRequest)

/-- The transaction id that an upload is made for, or the one of the event itself. -/
def eventOf : ℕ :=
  match request.kind with
  | .mediaUpload _ _ _ relatedTo _ => relatedTo
  | .event _ | .redaction .. => request.transactionId

def isUploadRequest : Bool :=
  match request.kind with
  | .mediaUpload .. => true
  | .event _ | .redaction .. => false

/-- What the server answers to a request: the id of the event, or where the media is. -/
def sentKey (answer : String) : SentRequestKey :=
  match request.kind with
  | .event _ => .event answer
  | .mediaUpload _ _ thumbnailSource _ accumulated =>
    .media ⟨answer, thumbnailSource, accumulated⟩
  | .redaction .. => .redaction answer

/-- What is logged when a dependent request is applied. -/
def entriesOf (answers : Answers) (d : DependentQueuedRequest) : List Entry :=
  match QueueStorage.applicationOf answers d with
  | .queue (.event content) =>
    match d.kind with
    | .editEvent _ =>
      [.queued d.ownTransactionId highPriority, .edited d.parentTransactionId content]
    | .reactEvent _ => [.queued d.ownTransactionId highPriority]
    | _ => []
  | .redact eventId => [.redacted eventId]
  | _ => []

inductive Op where
  | push (transactionId : ℕ) (kind : QueuedRequestKind)
  | pushMedia (event : EventContent) (transactionId : ℕ) (item : ItemQueueInfo)
  | pushGallery (event : EventContent) (transactionId : ℕ) (items : List ItemQueueInfo)
  | replaceEvent (transactionId : ℕ) (content : EventContent) (child : ℕ)
  | editMediaCaption (transactionId : ℕ) (caption : String) (child : ℕ)
  | react (transactionId : ℕ) (key : String) (child : ℕ)
  | cancelEvent (transactionId : ℕ) (reason : Option String) (child : ℕ)
  | removeDependent (transactionId : ℕ)
  | abortUpload (transactionId : ℕ) (handles : MediaHandles)
  | markAsUnwedged (transactionId : ℕ)
  | applyDependentRequests (parents : List ℕ) (answers : Answers)
  | wait
  | peek
  | sent (answer : String)
  | aborted
  | notSent
  | wedged (reason : String)
  | duplicate
  | dropDuplicate (child : ℕ)

namespace RoomSendQueue

variable (s : RoomSendQueue)

def Fresh (ids : List ℕ) : Prop := ids.Nodup ∧ ∀ id ∈ ids, id ∉ s.used

instance (ids : List ℕ) : Decidable (s.Fresh ids) :=
  inferInstanceAs (Decidable (ids.Nodup ∧ ∀ id ∈ ids, id ∉ s.used))

def note (entries : List Entry) : RoomSendQueue := { s with log := s.log ++ entries }

variable (queue : QueueStorage)

/-- The storage after an operation of a user that may have taken a new transaction id. -/
def withQueue (ids : List ℕ) : RoomSendQueue :=
  { s with queue := queue, used := s.used ++ ids }

/-- The storage after a media event was queued. -/
def withMedia (transactionId : ℕ) (handles : List MediaHandles) : RoomSendQueue :=
  { s with
    queue := queue
    used := s.used ++ (uploadsOf handles ++ [transactionId])
    media := s.media ++ [(transactionId, handles)]
    log := s.log ++ [.queued transactionId lowPriority] }

/-- The storage once an abort or a cancellation has returned. -/
def withCancelled (result : Bool × QueueStorage) (transactionId : ℕ) (ids : List ℕ) :
    RoomSendQueue :=
  (s.withQueue result.2 ids).note (if result.1 then [.cancelled transactionId] else [])

/-- The storage once the task has heard of the request it sends. -/
def withTask (task : Task) : RoomSendQueue :=
  { s with queue := queue, task := task }

end RoomSendQueue

/-- One turn. Handles are given out for events, media, galleries and reactions only, so no
upload is cancelled as an event, and what a handle removes by the id of a dependent request is a
reaction: a media event is looked for by `abortUpload` first. -/
inductive Step : RoomSendQueue → Op → RoomSendQueue → Prop
  | push {s : RoomSendQueue} {transactionId kind}
      (hfresh : s.Fresh [transactionId])
      (hkind : isUploadRequest ⟨kind, transactionId, none, lowPriority⟩ = false) :
      Step s (.push transactionId kind)
        ((s.withQueue (s.queue.push transactionId kind) [transactionId]).note
          [.queued transactionId lowPriority])
  | pushMedia {s : RoomSendQueue} {event transactionId item}
      (hfresh : s.Fresh (uploadsOf [item.handles] ++ [transactionId])) :
      Step s (.pushMedia event transactionId item)
        (s.withMedia (s.queue.pushMedia event transactionId item) transactionId [item.handles])
  | pushGallery {s : RoomSendQueue} {event transactionId items}
      (hitems : items ≠ [])
      (hfresh : s.Fresh (uploadsOf (items.map (·.handles)) ++ [transactionId])) :
      Step s (.pushGallery event transactionId items)
        (s.withMedia (s.queue.pushGallery event transactionId items) transactionId
          (items.map (·.handles)))
  | replaceEvent {s : RoomSendQueue} {transactionId content child}
      (hfresh : s.Fresh [child]) :
      Step s (.replaceEvent transactionId content child)
        (s.withQueue (s.queue.replaceEvent transactionId content child).2 [child])
  | editMediaCaption {s : RoomSendQueue} {transactionId caption child}
      (hfresh : s.Fresh [child]) :
      Step s (.editMediaCaption transactionId caption child)
        (s.withQueue (s.queue.editMediaCaption transactionId caption child).2 [child])
  | react {s : RoomSendQueue} {transactionId key child}
      (hfresh : s.Fresh [child]) :
      Step s (.react transactionId key child)
        (s.withQueue (s.queue.react transactionId key child).2 [child])
  | cancelEvent {s : RoomSendQueue} {transactionId reason child}
      (hfresh : s.Fresh [child]) (hevent : ¬ IsUpload s.media transactionId) :
      Step s (.cancelEvent transactionId reason child)
        (s.withCancelled (s.queue.cancelEvent transactionId reason child) transactionId [child])
  | removeDependent {s : RoomSendQueue} {transactionId}
      (hreact : ∀ d ∈ s.queue.dependents, d.ownTransactionId = transactionId →
        d.kind.isReact = true) :
      Step s (.removeDependent transactionId)
        (s.withCancelled (s.queue.removeDependentSendQueueRequest transactionId)
          transactionId [])
  | abortUpload {s : RoomSendQueue} {transactionId handles all}
      (hmedia : (transactionId, all) ∈ s.media) (hhandles : handles ∈ all) :
      Step s (.abortUpload transactionId handles)
        (s.withCancelled (s.queue.abortUpload transactionId handles) transactionId [])
  | markAsUnwedged {s : RoomSendQueue} {transactionId} :
      Step s (.markAsUnwedged transactionId)
        (s.withQueue (s.queue.markAsUnwedged transactionId) [])
  | applyDependentRequests {s : RoomSendQueue} {parents answers}
      (htask : s.task = .idle) (hnodup : parents.Nodup)
      (hparents : ∀ d ∈ s.queue.dependents, d.parentTransactionId ∈ parents) :
      Step s (.applyDependentRequests parents answers)
        ((s.withTask (s.queue.applyDependentRequests parents answers) .applied).note
          ((QueueStorage.canonicalizeDependentRequests parents s.queue.dependents).flatMap
            (entriesOf answers)))
  | wait {s : RoomSendQueue} (htask : s.task = .applied) :
      Step s .wait (s.withTask s.queue .idle)
  | peek {s : RoomSendQueue} {request queue}
      (htask : s.task = .applied) (hpeek : s.queue.peekNextToSend = some (request, queue)) :
      Step s .peek ((s.withTask queue (.sending request)).note [.handed request])
  | sent {s : RoomSendQueue} {request answer} (htask : s.task = .sending request) :
      Step s (.sent answer)
        ((s.withTask (s.queue.markAsSent request.transactionId (sentKey request answer))
          .idle).note [.sent request (sentKey request answer)])
  | aborted {s : RoomSendQueue} {request} (htask : s.task = .sending request)
      (hupload : isUploadRequest request = true) (hcancelled : s.queue.beingSent = none) :
      Step s .aborted (s.withTask s.queue .idle)
  | notSent {s : RoomSendQueue} {request} (htask : s.task = .sending request) :
      Step s .notSent (s.withTask s.queue.markAsNotBeingSent .idle)
  | wedged {s : RoomSendQueue} {request reason} (htask : s.task = .sending request) :
      Step s (.wedged reason)
        (s.withTask (s.queue.markAsWedged request.transactionId reason) .idle)
  | duplicate {s : RoomSendQueue} {request} (htask : s.task = .sending request)
      (hevent : isUploadRequest request = false) :
      Step s .duplicate
        (s.withTask s.queue.markAsNotBeingSent (.duplicate request.transactionId))
  | dropDuplicate {s : RoomSendQueue} {transactionId child}
      (htask : s.task = .duplicate transactionId) (hfresh : s.Fresh [child]) :
      Step s (.dropDuplicate child)
        ((s.withCancelled (s.queue.cancelEvent transactionId none child) transactionId
          [child]).withTask (s.queue.cancelEvent transactionId none child).2 .idle)

end MatrixSdk.RoomSendQueues

import Mathlib.Data.Prod.Lex
import Mathlib.Data.String.Basic
import Mathlib.Order.WithBot
import MatrixSdk.EventItems
import MatrixSdk.KeyedMaps

/-!
The aggregations of a timeline: events that are shown on the item of another event. They are
kept for as long as the timeline, under the item they relate to, so that they can be applied
when that item shows up. A second map finds the related item from an aggregation.
-/
namespace MatrixSdk.TimelineAggregations

open IndexMaps KeyedMaps EventItems

section Edits

inductive PendingEditKind where
  | roomMessage (newContent : MessageContent)
  | poll (newContent : PollContent)
deriving DecidableEq

structure PendingEdit where
  kind : PendingEditKind
  editJson : Option RawEvent
  encryptionInfo : Option String
deriving DecidableEq

inductive EditValidityError where
  | invalidJson
  | invalidSender
  | notReplacement
  | mismatchContentType (contentType replacementType : String)
  | stateKeyPresent
  | originalEventIsReplacement
  | missingNewContent
  | replacementNotEncrypted
deriving DecidableEq

/-- The relation type of a replacement event. -/
def replacement : String := "m.replace"

def checkValidityOfReplacementEvents (originalJson : RawEvent)
    (originalEncryptionInfo : Option String) (replacementJson : RawEvent)
    (replacementEncryptionInfo : Option String) : Except EditValidityError Unit :=
  match originalJson.minimal, replacementJson.minimal with
  | some original, some edit =>
    if original.sender ≠ edit.sender then .error .invalidSender
    else if edit.relatesTo ≠ some (some replacement, some original.eventId) then
      .error .notReplacement
    else if original.eventType ≠ edit.eventType then
      .error (.mismatchContentType original.eventType edit.eventType)
    else if original.stateKey.isSome ∨ edit.stateKey.isSome then .error .stateKeyPresent
    else if original.relatesTo.any (·.1 = some replacement) then .error .originalEventIsReplacement
    else if replacementEncryptionInfo.isSome ∧ edit.newContent = false then
      .error .missingNewContent
    else if originalEncryptionInfo.isSome ∧ replacementEncryptionInfo.isNone then
      .error .replacementNotEncrypted
    else .ok ()
  | _, _ => .error .invalidJson

/-- Edits are ordered by their timestamp and then by their identifier. -/
abbrev EditKey := WithBot ℕ ×ₗ String

def editKey (editJson : RawEvent) (eventId : String) : EditKey :=
  toLex ((editJson.originServerTs : WithBot ℕ), eventId)

end Edits

section Aggregation

inductive AggregationKind where
  | pollResponse (sender : String) (timestamp : ℕ) (answers : List String)
  | pollEnd (endDate : ℕ)
  | reaction (key sender : String) (timestamp : ℕ)
  | redaction (reason : Option String)
  | edit (edit : PendingEdit)
  | beaconUpdate (location : BeaconInfo)
  | beaconStop (content : BeaconInfoContent)
  | callDeclined (sender : String)
deriving DecidableEq

def AggregationKind.isRedaction : AggregationKind → Bool
  | .redaction _ => true
  | _ => false

def AggregationKind.isEdit : AggregationKind → Bool
  | .edit _ => true
  | _ => false

structure Aggregation where
  kind : AggregationKind
  ownId : TimelineEventItemId
  sendState : Option EventSendState
deriving DecidableEq

inductive AggregationError where
  | pollAlreadyEnded
  | cantUndoPollEnd
  | cantUndoRedaction
  | cantUndoBeaconStop
  | cantUndoRtcDecline
  | invalidType (expected actual : String)
deriving DecidableEq

inductive ApplyAggregationResult where
  | updatedItem
  | edit
  | leftItemIntact
  | error (err : AggregationError)
deriving DecidableEq

variable (event : EventTimelineItem)

/-- The state of a poll, and how to put another one in its place. -/
def pollStateFromItem : Except AggregationError (PollState × (PollState → EventTimelineItem)) :=
  match event.content with
  | .msgLike ⟨.poll state, inReplyTo, threadRoot, threadSummary⟩ =>
    .ok (state, fun state =>
      { event with content := .msgLike ⟨.poll state, inReplyTo, threadRoot, threadSummary⟩ })
  | content => .error (.invalidType "a poll" content.debugString)

def liveLocationStateFromItem :
    Except AggregationError (LiveLocationState × (LiveLocationState → EventTimelineItem)) :=
  match event.content with
  | .msgLike ⟨.liveLocation state, inReplyTo, threadRoot, threadSummary⟩ =>
    .ok (state, fun state =>
      { event with
          content := .msgLike ⟨.liveLocation state, inReplyTo, threadRoot, threadSummary⟩ })
  | content => .error (.invalidType "a live location" content.debugString)

def rtcNotificationDeclinationsFromItem :
    Except AggregationError (List String × (List String → EventTimelineItem)) :=
  match event.content with
  | .rtcNotification callIntent declinedBy activeCallInfo =>
    .ok (declinedBy, fun declinedBy =>
      { event with content := .rtcNotification callIntent declinedBy activeCallInfo })
  | content => .error (.invalidType "an rtc notification" content.debugString)

/-- Whether two send states are of the same kind, whatever they carry. -/
def sameSendStateKind : Option EventSendState → Option EventSendState → Bool
  | none, none => true
  | some .notSentYet, some .notSentYet => true
  | some (.sendingFailed _), some (.sendingFailed _) => true
  | some (.sent _), some (.sent _) => true
  | _, _ => false

def reactionEventId : TimelineEventItemId → Option String
  | .eventId eventId => some eventId
  | .transactionId _ => none

variable (reactions : ReactionsByKeyBySender) (key sender : String)

/-- The reaction of a sender with a key. -/
def reactionOf : Option ReactionInfo :=
  (IndexMap.get reactions key).bind fun bySender => IndexMap.get bySender sender

def insertReaction (info : ReactionInfo) : ReactionsByKeyBySender :=
  IndexMap.insert key
    (IndexMap.insert sender info ((IndexMap.get reactions key).getD [])) reactions

/-- The entry of a key goes with its last reaction. -/
def removeReaction : ReactionsByKeyBySender :=
  match IndexMap.get reactions key with
  | none => reactions
  | some bySender =>
    let bySender := IndexMap.swapRemove bySender sender
    if bySender.isEmpty then IndexMap.swapRemove reactions key
    else IndexMap.insert key bySender reactions

namespace Aggregation

def new (ownId : TimelineEventItemId) (kind : AggregationKind) : Aggregation := ⟨kind, ownId, none⟩

def newLocal (ownId : TimelineEventItemId) (kind : AggregationKind) : Aggregation :=
  ⟨kind, ownId, some .notSentYet⟩

def isLocal (aggregation : Aggregation) : Bool :=
  match aggregation.sendState with
  | none => false
  | some (.sent _) => false
  | some _ => true

def apply (rules : RoomVersionRules) (aggregation : Aggregation) (event : EventTimelineItem) :
    ApplyAggregationResult × EventTimelineItem :=
  match aggregation.kind with
  | .pollResponse sender timestamp answers =>
    match pollStateFromItem event with
    | .ok (state, put) => (.updatedItem, put (state.addResponse sender timestamp answers))
    | .error err => (.error err, event)
  | .redaction reason =>
    let isLocal := aggregation.isLocal
    let isLocalRedacted := event.content.isRedacted && event.unredactedItem.isSome
    let isRemoteRedacted := event.content.isRedacted && event.unredactedItem.isNone
    if (isLocal && isLocalRedacted) || (!isLocal && isRemoteRedacted) then
      if event.redactionSendState.isSome && aggregation.sendState.isNone then
        (.updatedItem, { event with redactionSendState := none })
      else (.leftItemIntact, event)
    else
      (.updatedItem, { event.redact rules isLocal with
        redactionSendState := aggregation.sendState
        redactionReason := reason })
  | .pollEnd endDate =>
    match pollStateFromItem event with
    | .ok (state, put) =>
      match state.finish endDate with
      | some state => (.updatedItem, put state)
      | none => (.error .pollAlreadyEnded, event)
    | .error err => (.error err, event)
  | .reaction key sender timestamp =>
    let eventId := reactionEventId aggregation.ownId
    let isSame := (reactionOf event.reactions key sender).any fun previous =>
      previous.timestamp == timestamp &&
        sameSendStateKind previous.sendState aggregation.sendState && previous.eventId == eventId
    if isSame then (.leftItemIntact, event)
    else
      (.updatedItem, { event with
        reactions := insertReaction event.reactions key sender
          ⟨timestamp, aggregation.sendState, eventId⟩ })
  | .edit _ => (.edit, event)
  | .beaconUpdate location =>
    match liveLocationStateFromItem event with
    | .ok (state, put) => (.updatedItem, put (state.addLocation location))
    | .error err => (.error err, event)
  | .beaconStop content =>
    match liveLocationStateFromItem event with
    | .ok (state, put) => (.updatedItem, put (state.stop content))
    | .error err => (.error err, event)
  | .callDeclined sender =>
    match rtcNotificationDeclinationsFromItem event with
    | .ok (declinations, put) =>
      if declinations.contains sender then (.leftItemIntact, event)
      else (.updatedItem, put (declinations ++ [sender]))
    | .error err => (.error err, event)

def unapply (aggregation : Aggregation) (event : EventTimelineItem) :
    ApplyAggregationResult × EventTimelineItem :=
  match aggregation.kind with
  | .pollResponse sender timestamp _ =>
    match pollStateFromItem event with
    | .ok (state, put) => (.updatedItem, put (state.removeResponse sender timestamp))
    | .error err => (.error err, event)
  | .pollEnd _ => (.error .cantUndoPollEnd, event)
  | .redaction _ =>
    if aggregation.isLocal then
      if event.unredactedItem.isSome then (.updatedItem, event.unredact)
      else (.leftItemIntact, event)
    else (.error .cantUndoRedaction, event)
  | .reaction key sender _ =>
    if (reactionOf event.reactions key sender).isSome then
      (.updatedItem, { event with reactions := removeReaction event.reactions key sender })
    else (.leftItemIntact, event)
  | .edit _ => (.edit, event)
  | .beaconUpdate location =>
    match liveLocationStateFromItem event with
    | .ok (state, put) => (.updatedItem, put (state.removeLocation location.ts))
    | .error err => (.error err, event)
  | .beaconStop _ => (.error .cantUndoBeaconStop, event)
  | .callDeclined _ => (.error .cantUndoRtcDecline, event)

end Aggregation

end Aggregation

section ResolveEdits

def sendStateRank : EventSendState → ℕ
  | .sendingFailed _ => 2
  | .notSentYet => 1
  | .sent _ => 0

/-- The last of the send states of greatest rank. -/
def maxByRank : Option EventSendState → List EventSendState → Option EventSendState
  | best, [] => best
  | none, state :: rest => maxByRank (some state) rest
  | some best, state :: rest =>
    if sendStateRank best ≤ sendStateRank state then maxByRank (some state) rest
    else maxByRank (some best) rest

def editSendState (aggregations : List Aggregation) : Option EventSendState :=
  maxByRank none ((aggregations.filter (·.kind.isEdit)).filterMap (·.sendState))

variable (event : EventTimelineItem)

/-- The key of an edit that can replace the event. -/
def validEditKey (edit : PendingEdit) (eventId : String) : Option EditKey :=
  match event.originalJson, edit.editJson with
  | some originalJson, some editJson =>
    match checkValidityOfReplacementEvents originalJson event.encryptionInfo editJson
        edit.encryptionInfo with
    | .ok () => some (editKey editJson eventId)
    | .error _ => none
  | _, _ => none

/-- The first edit of ours, or else the valid one with the greatest key. -/
def selectEdit (event : EventTimelineItem) (best : Option (PendingEdit × EditKey)) :
    List Aggregation → Option (PendingEdit × Bool)
  | [] => best.map fun edit => (edit.1, false)
  | aggregation :: rest =>
    match aggregation.kind with
    | .edit edit =>
      if aggregation.sendState.isSome then some (edit, true)
      else
        match aggregation.ownId with
        | .transactionId _ => some (edit, true)
        | .eventId eventId =>
          match validEditKey event edit eventId with
          | none => selectEdit event best rest
          | some key =>
            if best.all fun current => current.2 < key then selectEdit event (some (edit, key)) rest
            else selectEdit event best rest
    | _ => selectEdit event best rest

variable (rules : RoomVersionRules)

/-- `none` when the content does not fit the edit, or is that of a poll that has ended. -/
def editContent (kind : PendingEditKind) (content : MsgLikeContent) : Option MsgLikeKind :=
  match kind, content.kind with
  | .roomMessage newContent, .message message =>
    some (.message (message.applyEdit rules newContent))
  | .poll newContent, .poll state => (state.edit newContent).map .poll
  | _, _ => none

def isValidEdit (edit : PendingEdit) : Bool :=
  match event.originalJson, edit.editJson with
  | some originalJson, some editJson =>
    (checkValidityOfReplacementEvents originalJson event.encryptionInfo editJson
      edit.encryptionInfo).isOk
  | _, _ => false

/-- `none` when the edit is not applied. -/
def editItem (event : EventTimelineItem) (edit : PendingEdit) (isLocalEcho : Bool) :
    Option EventTimelineItem :=
  if !isLocalEcho && !isValidEdit event edit then none
  else
    match event.content with
    | .msgLike content => do
      let kind ← editContent rules edit.kind content
      let newItem := event.withContentAndLatestEdit (.msgLike { content with kind }) edit.editJson
      let newItem :=
        if isLocalEcho && event.editSendState.isNone then
          { newItem with uneditedKind := some content.kind }
        else newItem
      match edit.encryptionInfo with
      | none => some newItem
      | some encryptionInfo => some (newItem.withEncryptionInfo (some encryptionInfo))
    | _ => none

def resolveEdits (aggregations : List Aggregation) (event : EventTimelineItem) :
    Option EventTimelineItem := do
  let (edit, isLocalEcho) ← selectEdit event none aggregations
  let item ← editItem rules event edit isLocalEcho
  let sendState := editSendState aggregations
  some { item with
    uneditedKind := if sendState.isNone then none else item.uneditedKind
    editSendState := sendState }

end ResolveEdits

structure Aggregations where
  relatedEvents : KeyedMap TimelineEventItemId (List Aggregation)
  invertedMap : KeyedMap TimelineEventItemId TimelineEventItemId
  pendingBeaconStops : KeyedMap String Aggregation

/-- Apply an aggregation to the item it relates to, if it is there. -/
def findItemAndApplyAggregation (rules : RoomVersionRules) (aggregations : Aggregations)
    (items : List TimelineItem) (target : TimelineEventItemId) (aggregation : Aggregation) :
    List TimelineItem :=
  match rfindEventByItemId items target with
  | none => items
  | some (index, event, internalId) =>
    match aggregation.apply rules event with
    | (.updatedItem, event) => items.set index ⟨.event event, internalId⟩
    | (.edit, event) =>
      match (aggregations.relatedEvents.lookup target).bind
          fun aggregations => resolveEdits rules aggregations event with
      | some event => items.set index ⟨.event event, internalId⟩
      | none => items
    | (.leftItemIntact, _) => items
    | (.error _, _) => items

def latestReaction (aggregations : List Aggregation) (key sender : String) : Option Aggregation :=
  aggregations.reverse.find? fun aggregation =>
    match aggregation.kind with
    | .reaction key' sender' _ => key' == key && sender' == sender
    | _ => false

namespace Aggregations

def empty : Aggregations := ⟨∅, ∅, ∅⟩

def clear (_ : Aggregations) : Aggregations := empty

variable (s : Aggregations)

def addPendingBeaconStop (sender : String) (aggregation : Aggregation) : Aggregations :=
  { s with pendingBeaconStops := s.pendingBeaconStops.insert sender aggregation }

/-- A redaction takes the place of all the other aggregations, and none is added after it. -/
def add (relatedTo : TimelineEventItemId) (aggregation : Aggregation) : Aggregations :=
  let s : Aggregations :=
    if aggregation.kind.isRedaction then
      { s with
        relatedEvents := s.relatedEvents.erase relatedTo
        invertedMap := ((s.relatedEvents.lookup relatedTo).getD []).foldl
          (fun map agg => map.erase agg.ownId) s.invertedMap }
    else s
  let previous := (s.relatedEvents.lookup relatedTo).getD []
  if previous.any (·.kind.isRedaction) then s
  else
    { s with
      invertedMap := s.invertedMap.insert aggregation.ownId relatedTo
      relatedEvents := s.relatedEvents.insert relatedTo
        (previous.eraseP (·.ownId == aggregation.ownId) ++ [aggregation]) }

def promotePendingBeaconStop (sender targetEventId : String) (startContent : BeaconInfoContent) :
    Aggregations :=
  if startContent.live then
    match s.pendingBeaconStops.lookup sender with
    | none => s
    | some stop =>
      let s := { s with pendingBeaconStops := s.pendingBeaconStops.erase sender }
      match stop.kind with
      | .beaconStop stopContent =>
        if beaconInfoMatches startContent stopContent then s.add (.eventId targetEventId) stop
        else s
      | _ => s
  else s

/-- Apply a list of aggregations; `none` when one of them fails, and then the rest is not
applied. -/
def applyEach (rules : RoomVersionRules) (event : EventTimelineItem) (hasEdits : Bool) :
    List Aggregation → EventTimelineItem × Option Bool
  | [] => (event, some hasEdits)
  | aggregation :: rest =>
    match aggregation.apply rules event with
    | (.edit, event) => applyEach rules event true rest
    | (.updatedItem, event) => applyEach rules event hasEdits rest
    | (.leftItemIntact, event) => applyEach rules event hasEdits rest
    | (.error _, event) => (event, none)

/-- The start of a session promotes the stop that was received before it. -/
def promoteFor (itemId : TimelineEventItemId) (sender : String) (event : EventTimelineItem) :
    Aggregations :=
  match itemId, event.content.asLiveLocationState with
  | .eventId eventId, some state => s.promotePendingBeaconStop sender eventId state.beaconInfo
  | _, _ => s

variable (rules : RoomVersionRules) (s : Aggregations)

/-- The item that is shown: its caller only logs the error. -/
def applyAll (itemId : TimelineEventItemId) (sender : String) (event : EventTimelineItem) :
    EventTimelineItem × Aggregations :=
  let s := s.promoteFor itemId sender event
  match s.relatedEvents.lookup itemId with
  | none => (event, s)
  | some aggregations =>
    match applyEach rules event false aggregations with
    | (event, some true) => ((resolveEdits rules aggregations event).getD event, s)
    | (event, _) => (event, s)

def markTargetAsSent (txnId eventId : String) : Aggregations :=
  let source := TimelineEventItemId.transactionId txnId
  let sent := TimelineEventItemId.eventId eventId
  match s.relatedEvents.lookup source with
  | none => s
  | some aggregations =>
    let relatedEvents := s.relatedEvents.erase source
    { s with
      invertedMap := aggregations.foldl
        (fun map agg => if (map.lookup agg.ownId).isSome then map.insert agg.ownId sent else map)
        s.invertedMap
      relatedEvents := relatedEvents.insert sent
        ((relatedEvents.lookup sent).getD [] ++ aggregations) }

/-- Take an aggregation out of a list. A reaction is hidden when the same sender has sent the
same one after it. -/
def takeAggregation (aggregations : List Aggregation) (id : TimelineEventItemId) :
    Option (Aggregation × Bool × List Aggregation) := do
  let index ← aggregations.findIdx? (·.ownId == id)
  let removed ← aggregations[index]?
  let rest := aggregations.eraseIdx index
  let hidden :=
    match removed.kind with
    | .reaction key sender _ => (latestReaction (rest.drop index) key sender).isSome
    | _ => false
  some (removed, hidden, rest)

/-- The item without the edits of ours; `none` when there was none. -/
def unedit (event : EventTimelineItem) : Option EventTimelineItem :=
  if event.uneditedKind.isNone && event.editSendState.isNone then none
  else
    let content : TimelineItemContent :=
      match event.uneditedKind, event.content with
      | some kind, .msgLike content =>
        let kind : MsgLikeKind :=
          match kind, content.kind with
          | .poll unedited, .poll current => .poll (current.unedit unedited)
          | kind, _ => kind
        .msgLike { content with kind }
      | _, content => content
    some { event with content, uneditedKind := none, editSendState := none }

/-- The item after an aggregation was taken away from it; `none` when it does not change. -/
def unapplyFrom (related : Option (List Aggregation)) (aggregation : Aggregation)
    (event : EventTimelineItem) : Option EventTimelineItem :=
  match aggregation.unapply event with
  | (.updatedItem, event) =>
    -- the same reaction may still be there, hidden by the one just removed
    match aggregation.kind with
    | .reaction key sender _ =>
      match related.bind fun aggregations => latestReaction aggregations key sender with
      | some ⟨.reaction _ _ timestamp, ownId, sendState⟩ =>
        some { event with
          reactions := insertReaction event.reactions key sender
            ⟨timestamp, sendState, reactionEventId ownId⟩ }
      | _ => some event
    | _ => some event
  | (.leftItemIntact, _) => none
  | (.error _, _) => none
  | (.edit, event) =>
    match related.bind fun aggregations => resolveEdits rules aggregations event with
    | some event => some event
    | none => unedit event

/-- The inverted map is left as it is. -/
def tryRemoveAggregation (aggregationId : TimelineEventItemId) (items : List TimelineItem) :
    Bool × Aggregations × List TimelineItem :=
  match s.invertedMap.lookup aggregationId with
  | none => (false, s, items)
  | some found =>
    match (s.relatedEvents.lookup found).bind fun aggregations =>
        takeAggregation aggregations aggregationId with
    | none =>
      -- the entry of a target without aggregations is removed even so
      let relatedEvents :=
        if s.relatedEvents.lookup found = some [] then s.relatedEvents.erase found
        else s.relatedEvents
      (false, { s with relatedEvents }, items)
    | some (aggregation, hidden, rest) =>
      let relatedEvents :=
        if rest.isEmpty then s.relatedEvents.erase found else s.relatedEvents.insert found rest
      let s := { s with relatedEvents }
      if hidden then (true, s, items)
      else
        match rfindEventByItemId items found with
        | none => (true, s, items)
        | some (index, event, internalId) =>
          match unapplyFrom rules (s.relatedEvents.lookup found) aggregation event with
          | none => (true, s, items)
          | some event => (true, s, items.set index ⟨.event event, internalId⟩)

/-- Show the send state of an aggregation on its item; `none` when the item does not change. -/
def applySendState (aggregation : Aggregation) (siblings : List Aggregation)
    (event : EventTimelineItem) : Option EventTimelineItem :=
  match aggregation.kind with
  | .reaction key sender _ =>
    match reactionOf event.reactions key sender with
    | some info =>
      if info.sendState.isSome then
        some { event with
          reactions := insertReaction event.reactions key sender
            { info with sendState := aggregation.sendState } }
      else none
    | none => none
  | .edit _ => some { event with editSendState := editSendState siblings }
  | .redaction _ => some { event with redactionSendState := aggregation.sendState }
  | _ => none

/-- Change the first aggregation with an identifier. -/
def modifyAggregation (id : TimelineEventItemId) (f : Aggregation → Aggregation) :
    List Aggregation → Option (Aggregation × List Aggregation)
  | [] => none
  | aggregation :: rest =>
    if aggregation.ownId = id then some (f aggregation, f aggregation :: rest)
    else (modifyAggregation id f rest).map fun r => (r.1, aggregation :: r.2)

/-- Where the remote echo of a local one is known, the local one is forgotten. -/
def forgetLocalEcho (echo remoteEcho target : TimelineEventItemId) (related : List Aggregation)
    (items : List TimelineItem) : Aggregations × List TimelineItem :=
  let kept := related.filter (·.ownId != echo)
  let s : Aggregations := { s with
    relatedEvents := s.relatedEvents.insert target kept
    invertedMap := s.invertedMap.erase echo }
  match kept.find? (·.ownId == remoteEcho) with
  | none => (s, items)
  | some remote => (s, findItemAndApplyAggregation rules s items target remote)

/-- The identifier of an aggregation that has been sent. -/
def sentIdentifier : EventSendState → Option TimelineEventItemId
  | .sent eventId => some (.eventId eventId)
  | _ => none

/-- An aggregation is known by its new identifier once it has been sent. -/
def renameEcho (map : KeyedMap TimelineEventItemId TimelineEventItemId)
    (echo target : TimelineEventItemId) :
    Option TimelineEventItemId → KeyedMap TimelineEventItemId TimelineEventItemId
  | some remoteEcho => (map.erase echo).insert remoteEcho target
  | none => map

def updateSendState (txnId : String) (sendState : EventSendState) (items : List TimelineItem) :
    Bool × Aggregations × List TimelineItem :=
  let echo := TimelineEventItemId.transactionId txnId
  match s.invertedMap.lookup echo with
  | none => (false, s, items)
  | some target =>
    let related := (s.relatedEvents.lookup target).getD []
    let sentId := sentIdentifier sendState
    if sentId.any fun remoteEcho => related.any (·.ownId == remoteEcho) then
      (true, forgetLocalEcho rules s echo (sentId.getD echo) target related items)
    else
      match modifyAggregation echo (fun found =>
          { found with sendState := some sendState, ownId := sentId.getD found.ownId }) related with
      | none => (false, s, items)
      | some (updated, related) =>
        let s : Aggregations := { s with
          relatedEvents := s.relatedEvents.insert target related
          invertedMap := renameEcho s.invertedMap echo target sentId }
        if updated.kind.isRedaction && sentId.isSome then
          (true, s, findItemAndApplyAggregation rules s items target updated)
        else
          match rfindEventByItemId items target with
          | none => (true, s, items)
          | some (index, event, internalId) =>
            match applySendState updated related event with
            | none => (true, s, items)
            | some event => (true, s, items.set index ⟨.event event, internalId⟩)

/-- Replace the new content of a message edit of ours that is pending. -/
def replaceLocalEdit (txnId : String) (newContent : MessageContent) (items : List TimelineItem) :
    Bool × Aggregations × List TimelineItem :=
  let echo := TimelineEventItemId.transactionId txnId
  match s.invertedMap.lookup echo with
  | none => (false, s, items)
  | some target =>
    let related := (s.relatedEvents.lookup target).getD []
    match related.find? (·.ownId == echo) with
    | some ⟨.edit ⟨.roomMessage _, editJson, encryptionInfo⟩, _, _⟩ =>
      match modifyAggregation echo (fun found =>
          { found with kind := .edit ⟨.roomMessage newContent, editJson, encryptionInfo⟩ })
          related with
      | none => (false, s, items)
      | some (updated, related) =>
        let s := { s with relatedEvents := s.relatedEvents.insert target related }
        (true, s, findItemAndApplyAggregation rules s items target updated)
    | _ => (false, s, items)

def isAggregationOf (id : TimelineEventItemId) : Option TimelineEventItemId :=
  s.invertedMap.lookup id

end Aggregations

end MatrixSdk.TimelineAggregations

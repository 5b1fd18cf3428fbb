import MatrixSdk.IndexMaps

/-!
The items of a timeline that stand for an event, with what other events have added to them:
reactions, poll responses, location updates, declined calls, edits and redactions. Contents
that are only carried around are kept as text.
-/
namespace MatrixSdk.EventItems

open IndexMaps

inductive TimelineEventItemId where
  | transactionId (id : String)
  | eventId (id : String)
deriving DecidableEq

inductive EventSendState where
  | notSentYet
  | sendingFailed (isRecoverable : Bool)
  | sent (eventId : String)
deriving DecidableEq

/-- What redacting and sanitizing contents does, by the version of the room. -/
structure RoomVersionRules where
  sanitize : String → String
  redactState : String → String

section Contents

structure Message where
  msgtype : String
  mentions : Option String
  edited : Bool
deriving DecidableEq

/-- The new content of an edited message. -/
structure MessageContent where
  msgtype : String
  mentions : Option String
deriving DecidableEq

def Message.applyEdit (rules : RoomVersionRules) (message : Message) (newContent : MessageContent) :
    Message :=
  { message with
    msgtype := rules.sanitize newContent.msgtype
    mentions := newContent.mentions
    edited := true }

structure ResponseData where
  sender : String
  timestamp : ℕ
  answers : List String
deriving DecidableEq

structure PollState where
  fallbackText : Option String
  pollStart : String
  responseData : List ResponseData
  endEventTimestamp : Option ℕ
  hasBeenEdited : Bool
deriving DecidableEq

/-- The new content of an edited poll. -/
structure PollContent where
  pollStart : String
  text : Option String
deriving DecidableEq

namespace PollState

variable (state : PollState)

def edit (replacement : PollContent) : Option PollState :=
  if state.endEventTimestamp.isNone then
    some { state with
      pollStart := replacement.pollStart
      fallbackText := replacement.text
      hasBeenEdited := true }
  else none

def unedit (state unedited : PollState) : PollState :=
  { state with
    pollStart := unedited.pollStart
    fallbackText := unedited.fallbackText
    hasBeenEdited := unedited.hasBeenEdited }

def addResponse (sender : String) (timestamp : ℕ) (answers : List String) : PollState :=
  { state with responseData := state.responseData ++ [⟨sender, timestamp, answers⟩] }

def removeResponse (sender : String) (timestamp : ℕ) : PollState :=
  { state with responseData :=
      state.responseData.eraseP fun response =>
        response.sender == sender && response.timestamp == timestamp }

/-- `none` when the poll was already ended. -/
def finish (timestamp : ℕ) : Option PollState :=
  if state.endEventTimestamp.isNone then some { state with endEventTimestamp := some timestamp }
  else none

end PollState

/-- The content of a `beacon_info` event. -/
structure BeaconInfoContent where
  live : Bool
  ts : ℕ
  timeout : ℕ
  description : Option String
  asset : String
deriving DecidableEq

/-- Two contents of the same sharing session. -/
def beaconInfoMatches (a b : BeaconInfoContent) : Bool :=
  a.ts == b.ts && a.timeout == b.timeout && a.description == b.description && a.asset == b.asset

/-- One location update. -/
structure BeaconInfo where
  geoUri : String
  ts : ℕ
  description : Option String
  encryptionInfo : Option String
deriving DecidableEq

structure LiveLocationState where
  beaconInfo : BeaconInfoContent
  locations : List BeaconInfo
deriving DecidableEq

namespace LiveLocationState

/-- Insert into a list sorted by timestamp; a timestamp that is there is left alone. -/
def insertLocation (location : BeaconInfo) : List BeaconInfo → List BeaconInfo
  | [] => [location]
  | first :: rest =>
    if first.ts = location.ts then first :: rest
    else if location.ts < first.ts then location :: first :: rest
    else first :: insertLocation location rest

variable (state : LiveLocationState)

def addLocation (location : BeaconInfo) : LiveLocationState :=
  { state with locations := insertLocation location state.locations }

def removeLocation (ts : ℕ) : LiveLocationState :=
  { state with locations := state.locations.filter fun location => location.ts != ts }

def stop (beaconInfo : BeaconInfoContent) : LiveLocationState :=
  { state with beaconInfo }

end LiveLocationState

inductive MsgLikeKind where
  | message (message : Message)
  | sticker (sticker : String)
  | poll (state : PollState)
  | redacted
  | unableToDecrypt (message : String)
  | other (other : String)
  | liveLocation (state : LiveLocationState)
deriving DecidableEq

structure MsgLikeContent where
  kind : MsgLikeKind
  inReplyTo : Option String
  threadRoot : Option String
  threadSummary : Option String
deriving DecidableEq

def MsgLikeContent.redacted : MsgLikeContent := ⟨.redacted, none, none, none⟩

inductive TimelineItemContent where
  | msgLike (content : MsgLikeContent)
  | membershipChange (change : String)
  | profileChange (userId : String) (displaynameChange avatarUrlChange : Option String)
  | otherState (state : String)
  | failedToParseMessageLike (eventType : String)
  | failedToParseState (eventType stateKey : String)
  | callInvite
  | rtcNotification (callIntent : Option String) (declinedBy : List String)
      (activeCallInfo : Option String)
deriving DecidableEq

namespace TimelineItemContent

def debugString : TimelineItemContent → String
  | .msgLike ⟨.message _, _, _, _⟩ => "a message"
  | .msgLike ⟨.sticker _, _, _, _⟩ => "a sticker"
  | .msgLike ⟨.poll _, _, _, _⟩ => "a poll"
  | .msgLike ⟨.redacted, _, _, _⟩ => "a redacted message"
  | .msgLike ⟨.unableToDecrypt _, _, _, _⟩ => "an encrypted message we couldn't decrypt"
  | .msgLike ⟨.other _, _, _, _⟩ => "a custom message-like event"
  | .msgLike ⟨.liveLocation _, _, _, _⟩ => "a live location share"
  | .membershipChange _ => "a membership change"
  | .profileChange .. => "a profile change"
  | .otherState _ => "a state event"
  | .failedToParseMessageLike _ => "an event that couldn't be parsed"
  | .failedToParseState .. => "an event that couldn't be parsed"
  | .callInvite => "a call invite"
  | .rtcNotification .. => "a call notification"

def isRedacted : TimelineItemContent → Bool
  | .msgLike ⟨.redacted, _, _, _⟩ => true
  | _ => false

def asLiveLocationState : TimelineItemContent → Option LiveLocationState
  | .msgLike ⟨.liveLocation state, _, _, _⟩ => some state
  | _ => none

def redact (rules : RoomVersionRules) : TimelineItemContent → TimelineItemContent
  | .msgLike content => .msgLike { content with kind := .redacted, inReplyTo := none }
  | .callInvite => .msgLike .redacted
  | .rtcNotification .. => .msgLike .redacted
  | .membershipChange change => .membershipChange (rules.redactState change)
  | .profileChange userId _ _ => .profileChange userId none none
  | .otherState state => .otherState (rules.redactState state)
  | .failedToParseMessageLike eventType => .failedToParseMessageLike eventType
  | .failedToParseState eventType stateKey => .failedToParseState eventType stateKey

end TimelineItemContent

end Contents

section Items

/-- What is read of the JSON of an event when an edit is validated. -/
structure MinimalEvent where
  sender : String
  eventId : String
  eventType : String
  stateKey : Option String
  relatesTo : Option (Option String × Option String)
  newContent : Bool
deriving DecidableEq

/-- The JSON of an event; `minimal` is `none` when it does not deserialize. -/
structure RawEvent where
  minimal : Option MinimalEvent
  originServerTs : Option ℕ
deriving DecidableEq

structure ReactionInfo where
  timestamp : ℕ
  sendState : Option EventSendState
  eventId : Option String
deriving DecidableEq

abbrev ReactionsByKeyBySender := IndexMap String (IndexMap String ReactionInfo)

structure LocalEventTimelineItem where
  sendState : EventSendState
  transactionId : String
deriving DecidableEq

structure RemoteEventTimelineItem where
  eventId : String
  transactionId : Option String
  encryptionInfo : Option String
  originalJson : Option RawEvent
  latestEditJson : Option RawEvent
deriving DecidableEq

def RemoteEventTimelineItem.redact (remote : RemoteEventTimelineItem) : RemoteEventTimelineItem :=
  { remote with originalJson := none, latestEditJson := none }

inductive EventTimelineItemKind where
  | localEcho (item : LocalEventTimelineItem)
  | remote (item : RemoteEventTimelineItem)
deriving DecidableEq

structure UnredactedEventTimelineItem where
  content : TimelineItemContent
  reactions : ReactionsByKeyBySender
  originalJson : Option RawEvent
  latestEditJson : Option RawEvent
deriving DecidableEq

structure EventTimelineItem where
  sender : String
  timestamp : ℕ
  content : TimelineItemContent
  unredactedItem : Option UnredactedEventTimelineItem
  redactionSendState : Option EventSendState
  redactionReason : Option String
  editSendState : Option EventSendState
  reactions : ReactionsByKeyBySender
  uneditedKind : Option MsgLikeKind
  kind : EventTimelineItemKind
deriving DecidableEq

namespace EventTimelineItem

def new (sender : String) (timestamp : ℕ) (content : TimelineItemContent)
    (kind : EventTimelineItemKind) : EventTimelineItem :=
  ⟨sender, timestamp, content, none, none, none, none, [], none, kind⟩

variable (item : EventTimelineItem)

def encryptionInfo : Option String :=
  match item.kind with
  | .localEcho _ => none
  | .remote remote => remote.encryptionInfo

def originalJson : Option RawEvent :=
  match item.kind with
  | .localEcho _ => none
  | .remote remote => remote.originalJson

def latestEditJson : Option RawEvent :=
  match item.kind with
  | .localEcho _ => none
  | .remote remote => remote.latestEditJson

def eventId : Option String :=
  match item.kind with
  | .localEcho ⟨.sent eventId, _⟩ => some eventId
  | .localEcho _ => none
  | .remote remote => some remote.eventId

/-- Whether this is the item with the given identifier. -/
def hasIdentifier (id : TimelineEventItemId) (item : EventTimelineItem) : Bool :=
  match id with
  | .transactionId txnId =>
    match item.kind with
    | .localEcho echo => echo.transactionId == txnId
    | .remote remote => remote.transactionId == some txnId
  | .eventId eventId => item.eventId == some eventId

def withContentAndLatestEdit (newContent : TimelineItemContent) (editJson : Option RawEvent) :
    EventTimelineItem :=
  { item with
    content := newContent
    kind :=
      match item.kind with
      | .localEcho echo => .localEcho echo
      | .remote remote => .remote { remote with latestEditJson := editJson } }

def withEncryptionInfo (encryptionInfo : Option String) : EventTimelineItem :=
  { item with
    kind :=
      match item.kind with
      | .localEcho echo => .localEcho echo
      | .remote remote => .remote { remote with encryptionInfo } }

def redact (rules : RoomVersionRules) (isLocal : Bool) (item : EventTimelineItem) :
    EventTimelineItem :=
  let unredactedItem : Option UnredactedEventTimelineItem :=
    if isLocal then some ⟨item.content, item.reactions, item.originalJson, item.latestEditJson⟩
    else none
  let kind : EventTimelineItemKind :=
    match item.kind with
    | .localEcho echo => .localEcho echo
    | .remote remote => .remote remote.redact
  ⟨item.sender, item.timestamp, item.content.redact rules, unredactedItem, none, none, none, [],
    none, kind⟩

def unredact : EventTimelineItem :=
  match item.unredactedItem with
  | none => item
  | some unredacted =>
    let kind : EventTimelineItemKind :=
      match item.kind with
      | .localEcho echo => .localEcho echo
      | .remote remote => .remote { remote with
          originalJson := unredacted.originalJson
          latestEditJson := unredacted.latestEditJson }
    ⟨item.sender, item.timestamp, unredacted.content, none, none, none, none,
      unredacted.reactions, none, kind⟩

end EventTimelineItem

inductive VirtualTimelineItem where
  | dateDivider (timestamp : ℕ)
  | readMarker
  | timelineStart
deriving DecidableEq

inductive TimelineItemKind where
  | event (item : EventTimelineItem)
  | virtual (item : VirtualTimelineItem)
deriving DecidableEq

structure TimelineItem where
  kind : TimelineItemKind
  internalId : String
deriving DecidableEq

/-- The last event item with the property, with its index. -/
def rfindEventItem (f : EventTimelineItem → Bool) :
    List TimelineItem → Option (ℕ × EventTimelineItem × String)
  | [] => none
  | item :: rest =>
    match rfindEventItem f rest with
    | some (index, found) => some (index + 1, found)
    | none =>
      match item.kind with
      | .virtual _ => none
      | .event event => if f event then some (0, event, item.internalId) else none

def rfindEventByItemId (items : List TimelineItem) (id : TimelineEventItemId) :
    Option (ℕ × EventTimelineItem × String) :=
  rfindEventItem (·.hasIdentifier id) items

end Items

end MatrixSdk.EventItems

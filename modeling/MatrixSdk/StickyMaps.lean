import Mathlib.Data.List.Sort
import MatrixSdk.KeyedMaps

/-!
The sticky events of a room. For each key the map has the event that wins over the others with
this key. An event is in the map until it expires; one that takes away a value stays as a
tombstone, which nobody sees.

The hash map is an association list, and the expiry heap is the list of its nodes in order.
-/
namespace MatrixSdk.StickyMaps

open KeyedMaps

def maxEntries : ℕ := 5000

structure StickyKey where
  sender : String
  eventType : String
  stickyKey : String
deriving DecidableEq

/-- An event that can be put in the map. `orderTs` decides between two events with one key. -/
structure Candidate where
  key : StickyKey
  eventId : String
  orderTs : ℕ
  expiresAt : ℕ
  isTombstone : Bool
  kind : String
deriving DecidableEq

/-- A value of the map, with the number of its insertion. -/
structure StickyValue where
  eventId : String
  orderTs : ℕ
  expiresAt : ℕ
  isTombstone : Bool
  kind : String
  seq : ℕ
deriving DecidableEq

def StickyValue.isLive (now : ℕ) (value : StickyValue) : Bool :=
  !value.isTombstone && decide (now < value.expiresAt)

structure StickyEvent where
  key : StickyKey
  eventId : String
  kind : String
  expiresAt : ℕ
deriving DecidableEq

inductive RemovalReason where
  | expired
  | replaced
  | roomLeft
deriving DecidableEq

structure StickyEventsUpdate where
  added : List StickyEvent
  updated : List StickyEvent
  removed : List (StickyKey × RemovalReason)
deriving DecidableEq

def StickyEventsUpdate.empty : StickyEventsUpdate := ⟨[], [], []⟩

def StickyEventsUpdate.ofRemoved (reason : RemovalReason) (keys : List StickyKey) :
    StickyEventsUpdate :=
  ⟨[], [], keys.map fun key => (key, reason)⟩

inductive Change where
  | added (event : StickyEvent)
  | updated (event : StickyEvent)
  | removed (key : StickyKey)
deriving DecidableEq

def StickyEventsUpdate.push (update : StickyEventsUpdate) : Option Change → StickyEventsUpdate
  | some (.added event) => { update with added := update.added ++ [event] }
  | some (.updated event) => { update with updated := update.updated ++ [event] }
  | some (.removed key) => { update with removed := update.removed ++ [(key, .replaced)] }
  | none => update

structure ExpiryNode where
  expiresAt : ℕ
  seq : ℕ
  key : StickyKey
deriving DecidableEq

def ExpiryNode.Le (first second : ExpiryNode) : Prop :=
  first.expiresAt < second.expiresAt ∨
    first.expiresAt = second.expiresAt ∧ first.seq ≤ second.seq

instance : DecidableRel ExpiryNode.Le := fun _ _ => inferInstanceAs (Decidable (_ ∨ _))

/-- Whether a candidate does not win over a value: it is the first to expire, or it has the lower
event id of two that expire at once. -/
def rankLe (candidate : Candidate) (value : StickyValue) : Bool :=
  decide (candidate.orderTs < value.orderTs) ||
    (decide (candidate.orderTs = value.orderTs) && !decide (value.eventId < candidate.eventId))

structure EphemeralMap where
  entries : KeyedMap StickyKey StickyValue
  expiryHeap : List ExpiryNode
  nextSeq : ℕ

/-- The largest integer that a timestamp of an event can hold. -/
def maxSafeUint : ℕ := 2 ^ 53 - 1

def eventFromEntry (key : StickyKey) (value : StickyValue) : StickyEvent :=
  ⟨key, value.eventId, value.kind, min value.expiresAt maxSafeUint⟩

/-- The loop of `evict_expired`. A node whose entry was replaced since is passed over. -/
def evict (now : ℕ) : List ExpiryNode → KeyedMap StickyKey StickyValue →
    List StickyKey × List ExpiryNode × KeyedMap StickyKey StickyValue
  | [], entries => ([], [], entries)
  | node :: heap, entries =>
    if now < node.expiresAt then ([], node :: heap, entries)
    else match entries.lookup node.key with
    | none => evict now heap entries
    | some value =>
      if value.seq = node.seq then
        let rest := evict now heap (entries.erase node.key)
        (if value.isTombstone then rest.1 else node.key :: rest.1, rest.2)
      else evict now heap entries

namespace EphemeralMap

def new : EphemeralMap := ⟨∅, [], 0⟩

variable (map : EphemeralMap) (now : ℕ)

def evictExpired : List StickyKey × EphemeralMap :=
  let evicted := evict now map.expiryHeap map.entries
  (evicted.1, { map with expiryHeap := evicted.2.1, entries := evicted.2.2 })

def event (key : StickyKey) : Option StickyEvent :=
  (map.entries.lookup key).map (eventFromEntry key)

/-- The end of `insert`: put the candidate in the map, in the place of a value that was or was
not live. -/
def put (candidate : Candidate) (wasLive : Bool) : Option Change × EphemeralMap :=
  let next : EphemeralMap :=
    { entries := map.entries.insert candidate.key
        ⟨candidate.eventId, candidate.orderTs, candidate.expiresAt, candidate.isTombstone,
          candidate.kind, map.nextSeq⟩
      expiryHeap := map.expiryHeap.orderedInsert ExpiryNode.Le
        ⟨candidate.expiresAt, map.nextSeq, candidate.key⟩
      nextSeq := map.nextSeq + 1 }
  (match wasLive, candidate.isTombstone with
    | true, true => some (.removed candidate.key)
    | true, false => (next.event candidate.key).map .updated
    | false, false => (next.event candidate.key).map .added
    | false, true => none, next)

def insert (candidate : Candidate) : Option Change × EphemeralMap :=
  if candidate.expiresAt ≤ now then (none, map)
  else match map.entries.lookup candidate.key with
  | some current =>
    if current.eventId = candidate.eventId then (none, map)
    else if rankLe candidate current then (none, map)
    else map.put candidate (current.isLive now)
  | none =>
    if maxEntries ≤ map.entries.keys.length then
      -- what has expired makes room; nobody is told
      let evicted := (map.evictExpired now).2
      if maxEntries ≤ evicted.entries.keys.length then (none, evicted)
      else evicted.put candidate false
    else map.put candidate false

def apply (candidates : List Candidate) : StickyEventsUpdate × EphemeralMap :=
  candidates.foldl (fun state candidate =>
    let inserted := state.2.insert now candidate
    (state.1.push inserted.1, inserted.2)) (.empty, map)

def live : List StickyEvent :=
  (map.entries.entries.filter fun entry => entry.2.isLive now).map fun entry =>
    eventFromEntry entry.1 entry.2

def nextExpiry : Option ℕ := map.expiryHeap.head?.map ExpiryNode.expiresAt

/-- Drop every entry. The keys that were live are those of which the subscribers are told. -/
def clear : List StickyKey × EphemeralMap :=
  ((map.entries.entries.filter fun entry => entry.2.isLive now).map Sigma.fst, .new)

end EphemeralMap

def maxPending : ℕ := 5000

/-- An encrypted sticky event whose room key has not come yet. -/
structure PendingEvent where
  eventId : String
  sessionId : Option String
  expiresAt : ℕ
deriving DecidableEq

structure StickyEvents where
  map : EphemeralMap
  pending : List PendingEvent

namespace StickyEvents

def new : StickyEvents := ⟨.new, []⟩

variable (events : StickyEvents) (now : ℕ)

def ingest (candidates : List Candidate) : StickyEventsUpdate × StickyEvents :=
  if candidates = [] then (.empty, events)
  else
    let applied := events.map.apply now candidates
    (applied.1, { events with map := applied.2 })

/-- Keep encrypted events aside. The oldest ones make way. -/
def park (parked : List PendingEvent) : StickyEvents :=
  let pending := events.pending ++ parked.filter fun event => event.sessionId.isSome
  { events with pending := pending.drop (pending.length - maxPending) }

def takePending (sessionIds : Option (List String)) : List PendingEvent × StickyEvents :=
  match sessionIds with
  | none => (events.pending, { events with pending := [] })
  | some sessionIds =>
    let isTaken (event : PendingEvent) : Bool := event.sessionId.any (· ∈ sessionIds)
    (events.pending.filter isTaken,
      { events with pending := events.pending.filter fun event => !isTaken event })

def clear : StickyEventsUpdate × StickyEvents :=
  let cleared := events.map.clear now
  (.ofRemoved .roomLeft cleared.1, ⟨cleared.2, []⟩)

/-- Drop what has expired. The last part is when something will expire next. -/
def expire : StickyEventsUpdate × StickyEvents × Option ℕ :=
  let evicted := events.map.evictExpired now
  let pending := events.pending.filter fun event => now < event.expiresAt
  let nextPending := (pending.map PendingEvent.expiresAt).min?
  let next := match evicted.2.nextExpiry, nextPending with
    | some first, some second => some (min first second)
    | first, second => first.or second
  (.ofRemoved .expired evicted.1, ⟨evicted.2, pending⟩, next)

end StickyEvents

/-- A subscriber with the events that it was told of. `strays` are the keys that it was told to
be removed while it did not have them. -/
structure Subscriber where
  seen : KeyedMap StickyKey StickyEvent
  strays : List StickyKey

namespace Subscriber

variable (subscriber : Subscriber)

def hold (event : StickyEvent) : Subscriber :=
  { subscriber with seen := subscriber.seen.insert event.key event }

def drop (key : StickyKey) : Subscriber :=
  if key ∈ subscriber.seen then { subscriber with seen := subscriber.seen.erase key }
  else { subscriber with strays := key :: subscriber.strays }

/-- Take in an update: what was added, then what was updated, then what was removed. -/
def receive (update : StickyEventsUpdate) : Subscriber :=
  (update.removed.map Prod.fst).foldl drop ((update.added ++ update.updated).foldl hold subscriber)

end Subscriber

/-- The sticky events of a room with a subscriber, at a time. -/
structure World where
  now : ℕ
  events : StickyEvents
  subscriber : Subscriber

/-- What happens to the events, each after some time has passed. -/
inductive Action where
  | ingest (elapsed : ℕ) (candidates : List Candidate)
  | park (parked : List PendingEvent)
  | takePending (sessionIds : Option (List String))
  | expire (elapsed : ℕ)
  | clear (elapsed : ℕ)

namespace World

def new : World := ⟨0, .new, ⟨∅, []⟩⟩

variable (world : World)

/-- An update that says nothing is not sent; taking it in would change nothing. -/
def publish (elapsed : ℕ) (update : StickyEventsUpdate) (events : StickyEvents) : World :=
  ⟨world.now + elapsed, events, world.subscriber.receive update⟩

def act : Action → World
  | .ingest elapsed candidates =>
    let ingested := world.events.ingest (world.now + elapsed) candidates
    world.publish elapsed ingested.1 ingested.2
  | .park parked => { world with events := world.events.park parked }
  | .takePending sessionIds => { world with events := (world.events.takePending sessionIds).2 }
  | .expire elapsed =>
    let expired := world.events.expire (world.now + elapsed)
    world.publish elapsed expired.1 expired.2.1
  | .clear elapsed =>
    let cleared := world.events.clear (world.now + elapsed)
    world.publish elapsed cleared.1 cleared.2

end World

end MatrixSdk.StickyMaps

import MatrixSdk.KeyedMaps

/-!
What a widget may read and send. The filters borrow what they look at from the text of an event,
and a string with an escape cannot be borrowed.
-/
namespace MatrixSdk.WidgetFilters

open KeyedMaps

/-- A string as it stands in a text. -/
structure Spelling where
  value : String
  escaped : Bool

inductive Json (Field : Type) where
  | null
  | string (spelling : Spelling)
  | object (fields : KeyedMap String Field)
  | array (items : List Field)
  | other

abbrev Content := Json (Json Empty)

abbrev Event := KeyedMap String Content

def Json.borrow {Field : Type} : Json Field → Option String
  | .string spelling => if spelling.escaped then none else some spelling.value
  | _ => none

def readKind : Option (Json Empty) → Option (Option String)
  | none | some .null => some none
  | some field => field.borrow.map some

/-- The derived deserialisation also reads an array that holds the one field. -/
def msgtype : Content → Option (Option String)
  | .object fields => readKind (fields.lookup "msgtype")
  | .array [field] => readKind (some field)
  | _ => none

inductive FilterInput where
  | state (eventType stateKey : String)
  | messageLike (eventType : String) (msgtype : Option String)
  | toDevice (eventType : String)

/-- The first alternative that can be read. -/
def filterInput (event : Event) : Option FilterInput := do
  let eventType ← (event.lookup "type").bind Json.borrow
  ((event.lookup "state_key").bind Json.borrow).map (.state eventType) <|>
    ((event.lookup "content").bind msgtype).map (.messageLike eventType) <|>
    some (.toDevice eventType)

structure SendEventRequest where
  eventType : String
  stateKey : Option String
  content : Content

def SendEventRequest.filterInput (request : SendEventRequest) : FilterInput :=
  match request.stateKey with
  | none =>
    if request.eventType = "m.room.message" then
      .messageLike "m.room.message" ((msgtype request.content).getD none)
    else .messageLike request.eventType none
  | some stateKey => .state request.eventType stateKey

inductive Filter where
  | messageLike (eventType : String)
  | roomMessageWithMsgtype (msgtype : String)
  | state (eventType : String)
  | stateWithStateKey (eventType stateKey : String)
  | toDevice (eventType : String)

def Filter.matches : Filter → FilterInput → Bool
  | .messageLike wanted, .messageLike eventType _ => eventType = wanted
  | .roomMessageWithMsgtype wanted, .messageLike eventType msgtype =>
    eventType = "m.room.message" && msgtype = some wanted
  | .state wanted, .state eventType _ => eventType = wanted
  | .stateWithStateKey wanted key, .state eventType stateKey =>
    eventType = wanted && stateKey = key
  | .toDevice wanted, .toDevice eventType => eventType = wanted
  | _, _ => false

def allowReading (read : List Filter) (event : Event) : Bool :=
  (filterInput event).any fun input => read.any (·.matches input)

def allowSending (send : List Filter) (request : SendEventRequest) : Bool :=
  send.any (·.matches request.filterInput)

/-- What a filter is for. -/
def Filter.covers (eventType : String) (stateKey msgtype : Option String) : Filter → Bool
  | .messageLike wanted => stateKey = none && eventType = wanted
  | .roomMessageWithMsgtype wanted =>
    stateKey = none && eventType = "m.room.message" && msgtype = some wanted
  | .state wanted => stateKey ≠ none && eventType = wanted
  | .stateWithStateKey wanted key => eventType = wanted && stateKey = some key
  | .toDevice _ => false

/-! What the texts denote. -/

def Json.text {Field : Type} : Json Field → Option String
  | .string spelling => some spelling.value
  | _ => none

def stateKeyOf (event : Event) : Option String := (event.lookup "state_key").bind Json.text

def kindOf : Content → Option String
  | .object fields => (fields.lookup "msgtype").bind Json.text
  | _ => none

/-- Reading the msgtype gives nothing else than what is denoted. -/
def PlainKind : Content → Prop
  | .object fields => ∀ spelling, fields.lookup "msgtype" = some (.string spelling) →
    spelling.escaped = false
  | .array [.string spelling] => spelling.escaped = true
  | _ => True

/-- The type and a state key are spelled without escapes; without a state key, the msgtype can be
read, and plainly so if there are filters that look at it. -/
structure PlainEvent (event : Event) (type : Spelling) : Prop where
  plainType : type.escaped = false
  plainKey : ∀ spelling, event.lookup "state_key" = some (.string spelling) →
    spelling.escaped = false
  readable : stateKeyOf event = none → ∃ content, event.lookup "content" = some content ∧
    (msgtype content).isSome ∧ (type.value = "m.room.message" → PlainKind content)

section Denotation

variable {event : Event} {content : Content} {type : Spelling} {eventType : String}
  {stateKey kind : Option String} {input : FilterInput}

theorem plainKind_iff : PlainKind content ↔ (msgtype content).getD none = kindOf content := by
  rcases content with _ | spelling | fields | items | _
  · simp [PlainKind, msgtype, kindOf]
  · simp [PlainKind, msgtype, kindOf]
  · rcases hfield : fields.lookup "msgtype" with _ | _ | ⟨_, _ | _⟩ | _ | _ | _ <;>
      simp [PlainKind, msgtype, kindOf, hfield, readKind, Json.borrow, Json.text]
  · rcases items with _ | ⟨_ | ⟨_, _ | _⟩ | _ | _ | _, _ | _⟩ <;>
      simp [PlainKind, msgtype, kindOf, readKind, Json.borrow]
  · simp [PlainKind, msgtype, kindOf]

/-- The filters see in the input what the event denotes. -/
def Shows (eventType : String) (stateKey kind : Option String) : FilterInput → Prop
  | .state type key => type = eventType ∧ stateKey = some key
  | .messageLike type msgtype =>
    type = eventType ∧ stateKey = none ∧ (eventType = "m.room.message" → msgtype = kind)
  | .toDevice _ => False

theorem shows_iff : Shows eventType stateKey kind input ↔
    ∀ filters : List Filter, filters.any (·.matches input) =
      filters.any (·.covers eventType stateKey kind) := by
  constructor
  · intro h filters
    congr 1
    funext filter
    rcases input with ⟨type, key⟩ | ⟨type, msgtype⟩ | type
    · obtain ⟨rfl, rfl⟩ := h
      cases filter <;> simp [Filter.matches, Filter.covers]
    · obtain ⟨rfl, rfl, hkind⟩ := h
      cases filter with
      | roomMessageWithMsgtype wanted =>
        by_cases htype : type = "m.room.message" <;>
          simp_all [Filter.matches, Filter.covers]
      | _ => simp [Filter.matches, Filter.covers]
    · cases h
  · intro h
    -- each filter that covers the event tells one of the fields of the input
    have hstate := h [.state eventType]
    have hlike := h [.messageLike eventType]
    rcases input with ⟨type, key⟩ | ⟨type, msgtype⟩ | type
    · cases stateKey with
      | none => simp [Filter.matches, Filter.covers] at hlike
      | some stateKey =>
        have hkey := h [.stateWithStateKey eventType stateKey]
        simp [Filter.matches, Filter.covers] at hkey
        exact ⟨hkey.1, hkey.2 ▸ rfl⟩
    · cases stateKey with
      | some stateKey => simp [Filter.matches, Filter.covers] at hstate
      | none =>
        simp [Filter.matches, Filter.covers] at hlike
        subst hlike
        refine ⟨rfl, rfl, fun htype => Option.ext fun wanted => ?_⟩
        have hkind := h [.roomMessageWithMsgtype wanted]
        simpa [Filter.matches, Filter.covers, htype, eq_iff_iff] using hkind
    · cases stateKey <;> simp [Filter.matches, Filter.covers] at hstate hlike

theorem exists_spelling_of_stateKeyOf {key : String} (h : stateKeyOf event = some key) :
    ∃ escaped, event.lookup "state_key" = some (.string ⟨key, escaped⟩) := by
  unfold stateKeyOf at h
  rcases hkey : event.lookup "state_key" with _ | _ | ⟨_, escaped⟩ | _ | _ | _ <;>
    simp [hkey, Json.text] at h
  exact ⟨escaped, h ▸ rfl⟩

theorem borrow_of_stateKeyOf_none (h : stateKeyOf event = none) :
    (event.lookup "state_key").bind Json.borrow = none := by
  unfold stateKeyOf at h
  rcases hkey : event.lookup "state_key" with _ | _ | _ | _ | _ | _ <;>
    simp_all [Json.text, Json.borrow]

/-- Without a state key an event is shown by its content. -/
theorem readable_iff (htype : event.lookup "type" = some (.string ⟨eventType, false⟩))
    (hkey : stateKeyOf event = none) :
    (∃ content, event.lookup "content" = some content ∧ (msgtype content).isSome ∧
      (eventType = "m.room.message" → PlainKind content)) ↔
    ∃ input, filterInput event = some input ∧
      Shows eventType none ((event.lookup "content").bind kindOf) input := by
  simp only [filterInput, htype, borrow_of_stateKeyOf_none hkey]
  cases hcontent : event.lookup "content" with
  | none => simp [Json.borrow, Shows]
  | some content =>
    cases hkind : msgtype content <;> simp [Json.borrow, Shows, plainKind_iff, hkind]

theorem plainEvent_iff (htype : event.lookup "type" = some (.string type)) :
    PlainEvent event type ↔ ∃ input, filterInput event = some input ∧
      Shows type.value (stateKeyOf event) ((event.lookup "content").bind kindOf) input := by
  obtain ⟨eventType, _ | _⟩ := type
  · cases hdenoted : stateKeyOf event with
    | none =>
      rw [← readable_iff htype hdenoted]
      refine ⟨fun h => h.readable hdenoted, fun h => ⟨rfl, fun spelling hkey => ?_, fun _ => h⟩⟩
      simp [stateKeyOf, hkey, Json.text] at hdenoted
    | some key =>
      obtain ⟨_ | _, hkey⟩ := exists_spelling_of_stateKeyOf hdenoted
      · refine ⟨fun _ => ⟨.state eventType key, ?_, rfl, rfl⟩,
          fun _ => ⟨rfl, fun spelling hspelling => ?_, fun hnone => by simp [hdenoted] at hnone⟩⟩
        · simp [filterInput, htype, hkey, Json.borrow]
        · cases hkey.symm.trans hspelling
          rfl
      · -- the state alternative fails, and the others show no state key
        refine ⟨fun h => absurd (h.plainKey _ hkey) (by simp), fun ⟨input, hinput, hshows⟩ => ?_⟩
        cases hkind : (event.lookup "content").bind msgtype <;>
          simp [filterInput, htype, hkey, hkind, Json.borrow] at hinput <;>
          subst hinput <;> simp [Shows] at hshows
  · have hnone : filterInput event = none := by simp [filterInput, htype, Json.borrow]
    simp only [hnone, reduceCtorEq, false_and, exists_false, iff_false]
    exact fun h => absurd h.plainType (by simp)

/-- Reading shows to the filters exactly the events that are plain. -/
theorem reads_alike_iff (htype : event.lookup "type" = some (.string type)) :
    (∀ filters, allowReading filters event = filters.any
      (·.covers type.value (stateKeyOf event) ((event.lookup "content").bind kindOf))) ↔
      PlainEvent event type := by
  rw [plainEvent_iff htype]
  unfold allowReading
  cases filterInput event with
  | some input => simp [shows_iff]
  | none =>
    simp only [reduceCtorEq, false_and, exists_false, iff_false]
    intro h
    have hstate := h [.state type.value]
    have hlike := h [.messageLike type.value]
    cases hkey : stateKeyOf event <;> simp [hkey, Filter.covers] at hstate hlike

end Denotation

/-- A text is filtered by what it denotes exactly if it is plain, whatever the filters; then so is
every other plain text of the same event. A send request is filtered by what it denotes exactly if
its msgtype is plain, where the filters look at it. -/
theorem filtered_alike_iff_plain {event : Event} {type : Spelling}
    (htype : event.lookup "type" = some (.string type)) (request : SendEventRequest) :
    ((∀ filters, allowReading filters event = filters.any
        (·.covers type.value (stateKeyOf event) ((event.lookup "content").bind kindOf))) ↔
      PlainEvent event type) ∧
    (PlainEvent event type → ∀ (other : Event) (type' : Spelling),
      other.lookup "type" = some (.string type') → type'.value = type.value →
      stateKeyOf other = stateKeyOf event →
      (other.lookup "content").bind kindOf = (event.lookup "content").bind kindOf →
      PlainEvent other type' → ∀ filters, allowReading filters event = allowReading filters other) ∧
    ((∀ filters, allowSending filters request = filters.any
        (·.covers request.eventType request.stateKey (kindOf request.content))) ↔
      (request.stateKey = none → request.eventType = "m.room.message" →
        PlainKind request.content)) := by
  refine ⟨reads_alike_iff htype,
    fun hplain other type' htype' hvalue hkey hkind hother filters => ?_, ?_⟩
  · rw [(reads_alike_iff htype).mpr hplain, (reads_alike_iff htype').mpr hother, hvalue, hkey,
      hkind]
  · obtain ⟨eventType, stateKey, content⟩ := request
    unfold allowSending
    rw [← shows_iff, plainKind_iff]
    unfold SendEventRequest.filterInput
    cases stateKey with
    | some => simp [Shows]
    | none => by_cases hmessage : eventType = "m.room.message" <;> simp [Shows, hmessage]

def topic (escaped : Bool) : Event :=
  ((AList.singleton "type" (.string ⟨"m.room.topic", false⟩)).insert "state_key"
    (.string ⟨"a", escaped⟩)).insert "content" (.object ∅)

theorem plain_topic_is_state : allowReading [.state "m.room.topic"] (topic false) = true :=
  (@filtered_alike_iff_plain (topic false) ⟨"m.room.topic", false⟩ rfl
    ⟨"m.room.topic", some "a", .object ∅⟩).1.mpr
      ⟨rfl, fun _ h => by cases h; rfl, fun h => by cases h⟩ _

theorem escaped_topic_is_message_like :
    allowReading [.state "m.room.topic"] (topic true) = false ∧
    allowReading [.messageLike "m.room.topic"] (topic true) = true := by
  decide

end MatrixSdk.WidgetFilters

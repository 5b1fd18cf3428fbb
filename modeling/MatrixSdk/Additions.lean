import MatrixSdk.TimelineAggregations

/-!
Aggregations that only add to an item: reactions, responses and ends of polls, declined calls,
location updates, and edits, which change nothing by themselves. What one of them has added is
never taken back by another one.
-/
namespace MatrixSdk.Additions

open IndexMaps EventItems TimelineAggregations LiveLocationState Or PollState List

/-- A related event of the server that is neither a redaction nor the end of a session. -/
structure IsAddition (a : Aggregation) : Prop where
  remote : ∃ id, a.ownId = .eventId id
  sent : a.sendState = none
  notRedaction : a.kind.isRedaction = false
  notStop : ∀ content, a.kind ≠ .beaconStop content

variable {rules : RoomVersionRules} {a : Aggregation} {item : EventTimelineItem}
  {l l' : List Aggregation} {sender key : String} {timestamp : ℕ}

section Growth

/-- What an addition can do to a content. -/
inductive Grows : TimelineItemContent → TimelineItemContent → Prop where
  | response {state : PollState} {inReplyTo threadRoot threadSummary : Option String}
      (sender : String) (timestamp : ℕ) (answers : List String) :
      Grows (.msgLike ⟨.poll state, inReplyTo, threadRoot, threadSummary⟩)
        (.msgLike ⟨.poll (state.addResponse sender timestamp answers), inReplyTo, threadRoot,
          threadSummary⟩)
  | finish {state : PollState} {inReplyTo threadRoot threadSummary : Option String}
      (timestamp : ℕ) (h : state.endEventTimestamp = none) :
      Grows (.msgLike ⟨.poll state, inReplyTo, threadRoot, threadSummary⟩)
        (.msgLike ⟨.poll { state with endEventTimestamp := some timestamp }, inReplyTo, threadRoot,
          threadSummary⟩)
  | location {state : LiveLocationState} {inReplyTo threadRoot threadSummary : Option String}
      (location : BeaconInfo) :
      Grows (.msgLike ⟨.liveLocation state, inReplyTo, threadRoot, threadSummary⟩)
        (.msgLike ⟨.liveLocation (state.addLocation location), inReplyTo, threadRoot,
          threadSummary⟩)
  | decline {callIntent activeCallInfo : Option String} {declinedBy : List String}
      (sender : String) :
      Grows (.rtcNotification callIntent declinedBy activeCallInfo)
        (.rtcNotification callIntent (declinedBy ++ [sender]) activeCallInfo)

/-- An addition leaves the item alone, sets a reaction, or lets the content grow. -/
inductive Applied (a : Aggregation) (item : EventTimelineItem) :
    ApplyAggregationResult × EventTimelineItem → Prop where
  | edit {edit : PendingEdit} (h : a.kind = .edit edit) : Applied a item (.edit, item)
  | error (err : AggregationError) (h : a.kind.isEdit = false) : Applied a item (.error err, item)
  | intact (h : a.kind.isEdit = false) (hkind : ∀ key sender timestamp,
      a.kind ≠ .reaction key sender timestamp) : Applied a item (.leftItemIntact, item)
  | sameReaction {key sender : String} {timestamp : ℕ} {info : ReactionInfo}
      (h : a.kind = .reaction key sender timestamp)
      (hinfo : reactionOf item.reactions key sender = some info)
      (hid : info.eventId = reactionEventId a.ownId) : Applied a item (.leftItemIntact, item)
  | reaction {key sender : String} {timestamp : ℕ} (h : a.kind = .reaction key sender timestamp) :
      Applied a item (.updatedItem, { item with
        reactions := insertReaction item.reactions key sender
          ⟨timestamp, a.sendState, reactionEventId a.ownId⟩ })
  | content {content : TimelineItemContent} (h : a.kind.isEdit = false)
      (hkind : ∀ key sender timestamp, a.kind ≠ .reaction key sender timestamp)
      (hgrows : Grows item.content content) : Applied a item (.updatedItem, { item with content })

theorem applied_pollResponse {answers : List String}
    (h : a.kind = .pollResponse sender timestamp answers) :
    Applied a item (a.apply rules item) := by
  have hedit : a.kind.isEdit = false := by
    rw [h]
    rfl
  unfold Aggregation.apply pollStateFromItem
  rw [h]
  cases hcontent : item.content with
  | msgLike content =>
    obtain ⟨kind, inReplyTo, threadRoot, threadSummary⟩ := content
    cases kind with
    | poll state =>
      apply Applied.content hedit (by simp [h])
      rw [hcontent]
      exact .response sender timestamp answers
    | _ => exact .error _ hedit
  | _ => exact .error _ hedit

theorem applied_pollEnd {endDate : ℕ} (h : a.kind = .pollEnd endDate) :
    Applied a item (a.apply rules item) := by
  have hedit : a.kind.isEdit = false := by
    rw [h]
    rfl
  unfold Aggregation.apply pollStateFromItem
  rw [h]
  cases hcontent : item.content with
  | msgLike content =>
    obtain ⟨kind, inReplyTo, threadRoot, threadSummary⟩ := content
    cases kind with
    | poll state =>
      cases hend : state.endEventTimestamp with
      | none =>
        simp only [finish, hend, Option.isNone_none, if_true]
        apply Applied.content hedit (by simp [h])
        rw [hcontent]
        exact .finish endDate hend
      | some timestamp =>
        simp only [finish, hend]
        exact .error _ hedit
    | _ => exact .error _ hedit
  | _ => exact .error _ hedit

theorem applied_beaconUpdate {location : BeaconInfo} (h : a.kind = .beaconUpdate location) :
    Applied a item (a.apply rules item) := by
  have hedit : a.kind.isEdit = false := by
    rw [h]
    rfl
  unfold Aggregation.apply liveLocationStateFromItem
  rw [h]
  cases hcontent : item.content with
  | msgLike content =>
    obtain ⟨kind, inReplyTo, threadRoot, threadSummary⟩ := content
    cases kind with
    | liveLocation state =>
      apply Applied.content hedit (by simp [h])
      rw [hcontent]
      exact .location location
    | _ => exact .error _ hedit
  | _ => exact .error _ hedit

theorem applied_callDeclined (h : a.kind = .callDeclined sender) :
    Applied a item (a.apply rules item) := by
  have hedit : a.kind.isEdit = false := by
    rw [h]
    rfl
  unfold Aggregation.apply rtcNotificationDeclinationsFromItem
  rw [h]
  cases hcontent : item.content with
  | rtcNotification callIntent declinedBy activeCallInfo =>
    dsimp only
    split
    · exact .intact hedit (by simp [h])
    · apply Applied.content hedit (by simp [h])
      rw [hcontent]
      exact .decline sender
  | _ => exact .error _ hedit

theorem applied_reaction (h : a.kind = .reaction key sender timestamp) :
    Applied a item (a.apply rules item) := by
  unfold Aggregation.apply
  rw [h]
  dsimp only
  split
  · next hsame =>
    cases hinfo : reactionOf item.reactions key sender with
    | none => simp [hinfo] at hsame
    | some info =>
      simp only [hinfo, Option.any_some, Bool.and_eq_true, beq_iff_eq] at hsame
      exact .sameReaction h hinfo hsame.2
  · exact .reaction h

/-- What applying an addition does. -/
theorem IsAddition.applied (h : IsAddition a) (rules : RoomVersionRules)
    (item : EventTimelineItem) : Applied a item (a.apply rules item) := by
  cases hkind : a.kind with
  | pollResponse sender timestamp answers => exact applied_pollResponse hkind
  | pollEnd endDate => exact applied_pollEnd hkind
  | reaction key sender timestamp => exact applied_reaction hkind
  | redaction reason =>
    have hnot := h.notRedaction
    rw [hkind] at hnot
    cases hnot
  | edit edit =>
    unfold Aggregation.apply
    rw [hkind]
    exact .edit hkind
  | beaconUpdate location => exact applied_beaconUpdate hkind
  | beaconStop content => exact absurd hkind (h.notStop content)
  | callDeclined sender => exact applied_callDeclined hkind

end Growth

section Settling

/-- The item once the additions have been applied one after the other, without the edits. -/
def settle (rules : RoomVersionRules) (item : EventTimelineItem) (l : List Aggregation) :
    EventTimelineItem :=
  l.foldl (fun item a => (a.apply rules item).2) item

@[simp]
theorem settle_nil : settle rules item [] = item := rfl

@[simp]
theorem settle_cons : settle rules item (a :: l) = settle rules (a.apply rules item).2 l := rfl

@[simp]
theorem settle_append : settle rules item (l ++ l') = settle rules (settle rules item l) l' := by
  unfold settle
  rw [foldl_append]

/-- A relation that every addition keeps holds after any number of them. -/
theorem settle_induction {P : EventTimelineItem → Prop}
    (hstep : ∀ a ∈ l, ∀ item, P item → P (a.apply rules item).2) (h : P item) :
    P (settle rules item l) := by
  induction l generalizing item with
  | nil => exact h
  | cons a l ih =>
    apply ih
    · intro b hb
      exact hstep b (by simp [hb])
    · exact hstep a (by simp) item h

variable {r : ApplyAggregationResult × EventTimelineItem}

theorem Applied.kind_eq (h : Applied a item r) : r.2.kind = item.kind := by
  cases h <;> rfl

theorem settle_kind (h : ∀ a ∈ l, IsAddition a) : (settle rules item l).kind = item.kind := by
  apply settle_induction (P := fun e => e.kind = item.kind)
  · intro a ha e he
    rw [((h a ha).applied rules e).kind_eq, he]
  · rfl

theorem apply_of_isEdit (h : a.kind.isEdit = true) : a.apply rules item = (.edit, item) := by
  unfold Aggregation.apply
  cases hkind : a.kind with
  | edit edit => rfl
  | _ =>
    rw [hkind] at h
    cases h

theorem Applied.isEdit_iff (h : Applied a item r) : r.1 = .edit ↔ a.kind.isEdit = true := by
  cases h with
  | edit hkind | sameReaction hkind | reaction hkind => simp [hkind, AggregationKind.isEdit]
  | error err hkind => simp [hkind]
  | intact hkind => simp [hkind]
  | content hkind => simp [hkind]

/-- An addition changes the item only where it says so. -/
theorem Applied.eq_or_updated (h : Applied a item r) : r.2 = item ∨ r.1 = .updatedItem := by
  cases h with
  | reaction hkind => exact inr rfl
  | content hkind => exact inr rfl
  | _ => exact inl rfl

end Settling

section NothingIsTakenBack

/-- How much has been added to a content. -/
def contentSize : TimelineItemContent → ℕ
  | .msgLike ⟨.poll state, _, _, _⟩ =>
    state.responseData.length + state.endEventTimestamp.toList.length
  | .msgLike ⟨.liveLocation state, _, _, _⟩ => state.locations.length
  | .rtcNotification _ declinedBy _ => declinedBy.length
  | _ => 0

theorem insertLocation_eq_or_length (location : BeaconInfo) (locations : List BeaconInfo) :
    insertLocation location locations = locations ∨
      (insertLocation location locations).length = locations.length + 1 := by
  induction locations with
  | nil => exact inr rfl
  | cons first rest ih =>
    unfold insertLocation
    split
    · exact inl rfl
    · split
      · exact inr rfl
      · rcases ih with h | h
        · exact inl (by rw [h])
        · exact inr (by simp [h])

theorem Grows.eq_or_size_lt {content content' : TimelineItemContent} (h : Grows content content') :
    content' = content ∨ contentSize content < contentSize content' := by
  cases h with
  | response sender timestamp answers =>
    right
    simp [contentSize, addResponse]
  | finish timestamp hend =>
    right
    simp [contentSize, hend]
  | @location state _ _ _ location =>
    rcases insertLocation_eq_or_length location state.locations with heq | hlength
    · left
      unfold addLocation
      rw [heq]
    · right
      simp [contentSize, addLocation, hlength]
  | decline sender =>
    right
    simp [contentSize]

theorem reactionOf_insertReaction (reactions : ReactionsByKeyBySender) (key' sender' : String)
    (info : ReactionInfo) :
    reactionOf (insertReaction reactions key sender info) key' sender' =
      if key' = key ∧ sender' = sender then some info else reactionOf reactions key' sender' := by
  unfold reactionOf insertReaction
  rw [IndexMap.get_insert]
  by_cases hkey : key' = key
  · subst hkey
    rw [if_pos rfl, Option.bind_some, IndexMap.get_insert]
    by_cases hsender : sender' = sender
    · simp [hsender]
    · rw [if_neg hsender, if_neg (by simp [hsender])]
      cases IndexMap.get reactions key' with
      | none => rfl
      | some bySender => rfl
  · rw [if_neg hkey, if_neg (by simp [hkey])]

/-- The reactions of an item are all from the given events. -/
def ReactionsFrom (ids : List TimelineEventItemId) (item : EventTimelineItem) : Prop :=
  ∀ key sender info, reactionOf item.reactions key sender = some info →
    ∃ id ∈ ids, info.eventId = reactionEventId id

/-- The reaction of a sender is from one of the given events. -/
def ReactedFrom (ids : List TimelineEventItemId) (key sender : String) (item : EventTimelineItem) :
    Prop :=
  ∃ info, reactionOf item.reactions key sender = some info ∧
    ∃ id ∈ ids, info.eventId = reactionEventId id

section Steps

variable {ids : List TimelineEventItemId} {r : ApplyAggregationResult × EventTimelineItem}

section

variable (h : Applied a item r)
include h

theorem Applied.reactionsFrom (hid : a.ownId ∈ ids) (hitem : ReactionsFrom ids item) :
    ReactionsFrom ids r.2 := by
  cases h with
  | reaction hkind =>
    intro key sender info hinfo
    rw [reactionOf_insertReaction] at hinfo
    split at hinfo
    · cases hinfo
      exact ⟨a.ownId, hid, rfl⟩
    · exact hitem key sender info hinfo
  | _ => exact hitem

theorem Applied.reactedFrom (hid : a.ownId ∈ ids) (hitem : ReactedFrom ids key sender item) :
    ReactedFrom ids key sender r.2 := by
  cases h with
  | reaction hkind =>
    unfold ReactedFrom
    rw [reactionOf_insertReaction]
    split
    · exact ⟨_, rfl, a.ownId, hid, rfl⟩
    · exact hitem
  | _ => exact hitem

theorem Applied.reacted (hid : a.ownId ∈ ids) (hkind : a.kind = .reaction key sender timestamp)
    (herr : ∀ err, r.1 ≠ .error err) : ReactedFrom ids key sender r.2 := by
  cases h with
  | edit hedit => simp [hkind] at hedit
  | error err hedit => exact absurd rfl (herr err)
  | intact hedit hreaction => exact absurd hkind (hreaction _ _ _)
  | sameReaction hsame hinfo heq =>
    rw [hkind] at hsame
    cases hsame
    exact ⟨_, hinfo, a.ownId, hid, heq⟩
  | reaction hsame =>
    rw [hkind] at hsame
    cases hsame
    unfold ReactedFrom
    rw [reactionOf_insertReaction, if_pos ⟨rfl, rfl⟩]
    exact ⟨_, rfl, a.ownId, hid, rfl⟩
  | content hedit hreaction => exact absurd hkind (hreaction _ _ _)

theorem Applied.size_le : contentSize item.content ≤ contentSize r.2.content := by
  cases h with
  | content hedit hreaction hgrows =>
    rcases hgrows.eq_or_size_lt with heq | hlt
    · rw [heq]
    · exact hlt.le
  | _ => exact le_rfl

/-- What is not a reaction leaves the item alone, or its content gets larger. -/
theorem Applied.eq_or_size_lt
    (hkind : ∀ key sender timestamp, a.kind ≠ .reaction key sender timestamp) :
    r.2 = item ∨ contentSize item.content < contentSize r.2.content := by
  cases h with
  | reaction hreaction => exact absurd hreaction (hkind _ _ _)
  | content hedit hreaction hgrows =>
    rcases hgrows.eq_or_size_lt with heq | hlt
    · left
      rw [heq]
    · exact inr hlt
  | _ => exact inl rfl

end

end Steps

theorem reaction_ne_error (h : a.kind = .reaction key sender timestamp) (err : AggregationError) :
    (a.apply rules item).1 ≠ .error err := by
  unfold Aggregation.apply
  rw [h]
  dsimp only
  split
  · simp
  · simp

variable {ids : List TimelineEventItemId}

theorem ReactionsFrom.settle (h : ReactionsFrom ids item) (hadd : ∀ a ∈ l, IsAddition a)
    (hids : ∀ a ∈ l, a.ownId ∈ ids) : ReactionsFrom ids (settle rules item l) := by
  apply settle_induction _ h
  intro a ha e he
  exact ((hadd a ha).applied rules e).reactionsFrom (hids a ha) he

theorem ReactedFrom.settle (h : ReactedFrom ids key sender item) (hadd : ∀ a ∈ l, IsAddition a)
    (hids : ∀ a ∈ l, a.ownId ∈ ids) : ReactedFrom ids key sender (settle rules item l) := by
  apply settle_induction _ h
  intro a ha e he
  exact ((hadd a ha).applied rules e).reactedFrom (hids a ha) he

theorem not_reactedFrom {new : List TimelineEventItemId} (hfrom : ReactionsFrom ids item)
    (hnew : ∀ id ∈ new, id ∉ ids) (hremote : ∀ id ∈ new, ∃ eventId, id = .eventId eventId) :
    ¬ReactedFrom new key sender item := by
  intro hreacted
  obtain ⟨info, hinfo, id, hid, hevent⟩ := hreacted
  obtain ⟨id', hid', hevent'⟩ := hfrom key sender info hinfo
  obtain ⟨eventId, rfl⟩ := hremote id hid
  rw [hevent] at hevent'
  cases id' with
  | transactionId txnId => cases hevent'
  | eventId eventId' =>
    cases hevent'
    exact hnew _ hid hid'

/-- Additions that leave an item as it was have each left it alone: a reaction would show, and a
content that has grown stays so. -/
theorem apply_eq_of_settle_eq (hadd : ∀ a ∈ l, IsAddition a) (hfrom : ReactionsFrom ids item)
    (hnew : ∀ a ∈ l, a.ownId ∉ ids) (h : settle rules item l = item) :
    ∀ a ∈ l, (a.apply rules item).2 = item := by
  induction l with
  | nil => simp
  | cons b l ih =>
    have happlied := (hadd b (by simp)).applied rules item
    have hrest : ∀ a ∈ l, IsAddition a := fun a ha => hadd a (by simp [ha])
    have hids : ∀ a ∈ l, a.ownId ∈ (b :: l).map (·.ownId) := fun a ha =>
      mem_map_of_mem (by simp [ha])
    rw [settle_cons] at h
    have hb : (b.apply rules item).2 = item := by
      by_cases hkind : ∃ key sender timestamp, b.kind = .reaction key sender timestamp
      · obtain ⟨key, sender, timestamp, hkind⟩ := hkind
        have hreacted : ReactedFrom ((b :: l).map (·.ownId)) key sender (b.apply rules item).2 :=
          happlied.reacted (by simp) hkind (reaction_ne_error hkind)
        have hshown : ReactedFrom ((b :: l).map (·.ownId)) key sender item := by
          rw [← h]
          exact hreacted.settle hrest hids
        exfalso
        apply not_reactedFrom hfrom _ _ hshown
        · intro id hid
          obtain ⟨a, ha, rfl⟩ := mem_map.mp hid
          exact hnew a ha
        · intro id hid
          obtain ⟨a, ha, rfl⟩ := mem_map.mp hid
          exact (hadd a ha).remote
      · push Not at hkind
        rcases happlied.eq_or_size_lt hkind with heq | hlt
        · exact heq
        · have hle : contentSize (b.apply rules item).2.content ≤
              contentSize (settle rules (b.apply rules item).2 l).content :=
            settle_induction (P := fun e => contentSize _ ≤ contentSize e.content)
              (fun a ha e he => he.trans ((hrest a ha).applied rules e).size_le) le_rfl
          rw [h] at hle
          omega
    intro a ha
    rcases mem_cons.mp ha with rfl | ha
    · exact hb
    · rw [hb] at h
      exact ih hrest (fun a ha => hnew a (by simp [ha])) h a ha

end NothingIsTakenBack

end MatrixSdk.Additions

import MatrixSdk.WornEdits

/-!
An item and the events that relate to it, in whatever order they arrive. The aggregations that
come before the item are kept until it is there and are then applied all at once; those that
come after it are applied one by one.
-/
namespace MatrixSdk.Arrivals

open EventItems TimelineAggregations Additions WornEdits Aggregations
open EventTimelineItem List

variable {rules : RoomVersionRules} {a : Aggregation} {item event : EventTimelineItem}
  {l seen : List Aggregation} {s : Aggregations} {target : TimelineEventItemId}
  {items : List TimelineItem}

section Timelines

/-- What is known of an event of the server when its item is made; the reason is the one of the
redaction that its JSON tells of. -/
structure RemoteContext where
  sender : String
  timestamp : ℕ
  eventId : String
  transactionId : Option String
  rawEvent : RawEvent
  encryptionInfo : Option String
  redactionReason : Option String
deriving DecidableEq

/-- The item of an event of the server, before anything is aggregated onto it. -/
def newRemoteItem (ctx : RemoteContext) (content : TimelineItemContent) : EventTimelineItem :=
  let item := EventTimelineItem.new ctx.sender ctx.timestamp content (.remote
    ⟨ctx.eventId, ctx.transactionId, ctx.encryptionInfo, some ctx.rawEvent, none⟩)
  if content.isRedacted then { item with redactionReason := ctx.redactionReason } else item

structure Timeline where
  aggregations : Aggregations
  items : List TimelineItem

variable (rules : RoomVersionRules) (target : TimelineEventItemId)

/-- A related event arrives. -/
def handleAggregation (t : Timeline) (a : Aggregation) : Timeline :=
  let aggregations := t.aggregations.add target a
  ⟨aggregations, findItemAndApplyAggregation rules aggregations t.items target a⟩

/-- The event itself arrives, and is shown at an index. -/
def addItem (item : EventTimelineItem) (index : ℕ) (internalId : String) (t : Timeline) :
    Timeline :=
  let applied := t.aggregations.applyAll rules target item.sender item
  ⟨applied.2, t.items.take index ++ ⟨.event applied.1, internalId⟩ :: t.items.drop index⟩

/-- The first `cut` related events arrive before the event itself, the others after it. -/
def arrive (item : EventTimelineItem) (index : ℕ) (internalId : String) (l : List Aggregation)
    (cut : ℕ) (t : Timeline) : Timeline :=
  (l.drop cut).foldl (handleAggregation rules target)
    (addItem rules target item index internalId
      ((l.take cut).foldl (handleAggregation rules target) t))

def rendered (t : Timeline) (target : TimelineEventItemId) : Option EventTimelineItem :=
  (rfindEventByItemId t.items target).map (·.2.1)

end Timelines

section NewItems

variable (ctx : RemoteContext) (content : TimelineItemContent)

@[simp]
theorem newRemoteItem_sender : (newRemoteItem ctx content).sender = ctx.sender := by
  unfold newRemoteItem
  split <;> rfl

@[simp]
theorem newRemoteItem_reactions : (newRemoteItem ctx content).reactions = [] := by
  unfold newRemoteItem
  split <;> rfl

@[simp]
theorem newRemoteItem_kind : (newRemoteItem ctx content).kind = .remote
    ⟨ctx.eventId, ctx.transactionId, ctx.encryptionInfo, some ctx.rawEvent, none⟩ := by
  unfold newRemoteItem
  split <;> rfl

end NewItems

section Items

variable (rules : RoomVersionRules)

/-- The item with some aggregations applied all at once. -/
def allAtOnce (item : EventTimelineItem) (l : List Aggregation) : EventTimelineItem :=
  match applyEach rules item false l with
  | (item, some true) => (resolveEdits rules l item).getD item
  | (item, _) => item

/-- The item with one more aggregation, the last one of those that were seen. -/
def applyNext (seen : List Aggregation) (item : EventTimelineItem) (a : Aggregation) :
    EventTimelineItem :=
  match a.apply rules item with
  | (.edit, item) => (resolveEdits rules seen item).getD item
  | (.updatedItem, item) => item
  | (.leftItemIntact, _) => item
  | (.error _, _) => item

def oneByOne (rules : RoomVersionRules) (seen : List Aggregation) (item : EventTimelineItem) :
    List Aggregation → EventTimelineItem
  | [] => item
  | a :: rest => oneByOne rules (seen ++ [a]) (applyNext rules (seen ++ [a]) item a) rest

end Items

variable {before after : List TimelineItem} {internalId : String}

section Lookups

variable {f : EventTimelineItem → Bool}

theorem rfindEventItem_append (hafter : rfindEventItem f after = none) (h : f item = true) :
    rfindEventItem f (before ++ ⟨.event item, internalId⟩ :: after) =
      some (before.length, item, internalId) := by
  induction before with
  | nil => simp [rfindEventItem, hafter, h]
  | cons other before ih => simp [rfindEventItem, ih]

theorem rfindEventItem_drop (n : ℕ) (h : rfindEventItem f items = none) :
    rfindEventItem f (items.drop n) = none := by
  induction items generalizing n with
  | nil => simpa using h
  | cons first rest ih =>
    cases n with
    | zero => exact h
    | succ n =>
      apply ih
      unfold rfindEventItem at h
      split at h
      · cases h
      · next hrest => exact hrest

theorem add_related (ha : IsAddition a) (hadd : ∀ b ∈ seen, IsAddition b)
    (hseen : (s.relatedEvents.lookup target).getD [] = seen)
    (hnew : a.ownId ∉ seen.map (·.ownId)) :
    (s.add target a).relatedEvents.lookup target = some (seen ++ [a]) ∧
      (s.add target a).pendingBeaconStops = s.pendingBeaconStops := by
  have hredaction : seen.any (·.kind.isRedaction) = false := by
    rw [any_eq_false]
    intro b hb
    rw [(hadd b hb).notRedaction]
    simp
  have herase : seen.eraseP (·.ownId == a.ownId) = seen := by
    apply eraseP_of_forall_not
    intro b hb heq
    rw [beq_iff_eq] at heq
    exact hnew (heq ▸ mem_map_of_mem hb)
  unfold Aggregations.add
  simp [ha.notRedaction, hseen, hredaction, herase]

end Lookups

section Reduction

theorem eventId_of_kind (h : event.kind = item.kind) : event.eventId = item.eventId := by
  unfold eventId
  rw [h]

theorem eventId_resolveEdits (hadd : ∀ b ∈ seen, IsAddition b) :
    ((resolveEdits rules seen item).getD item).eventId = item.eventId := by
  rw [resolveEdits_eq hadd]
  cases hshown : (latestEdit item seen).filter fun edit => fits rules edit item.content with
  | none => rfl
  | some edit =>
    simp only [Option.map_some, Option.getD_some]
    unfold eventId wear
    cases item.kind with
    | localEcho echo => rfl
    | remote remote => rfl

theorem eventId_applyNext (ha : IsAddition a) (hadd : ∀ b ∈ seen, IsAddition b) :
    (applyNext rules seen item a).eventId = item.eventId := by
  have hkind := (ha.applied rules item).kind_eq
  unfold applyNext
  split
  · next event heq =>
    rw [heq] at hkind
    rw [eventId_resolveEdits hadd, eventId_of_kind hkind]
  · next event heq =>
    rw [heq] at hkind
    exact eventId_of_kind hkind
  · rfl
  · rfl

theorem applyEach_kind (hadd : ∀ b ∈ l, IsAddition b) (hasEdits : Bool) :
    (applyEach rules item hasEdits l).1.kind = item.kind := by
  induction l generalizing item hasEdits with
  | nil => rfl
  | cons a l ih =>
    have hkind := ((hadd a (by simp)).applied rules item).kind_eq
    have hrest : ∀ b ∈ l, IsAddition b := fun b hb => hadd b (by simp [hb])
    rw [applyEach]
    split
    · next event heq => rw [ih hrest, ← hkind, heq]
    · next event heq => rw [ih hrest, ← hkind, heq]
    · next event heq => rw [ih hrest, ← hkind, heq]
    · next event heq => rw [← hkind, heq]

theorem eventId_allAtOnce (hadd : ∀ b ∈ l, IsAddition b) :
    (allAtOnce rules item l).eventId = item.eventId := by
  have hkind : (applyEach rules item false l).1.kind = item.kind :=
    applyEach_kind hadd false
  unfold allAtOnce
  split
  · next event heq =>
    rw [heq] at hkind
    rw [eventId_resolveEdits hadd, eventId_of_kind hkind]
  · next event _ _ heq =>
    rw [heq] at hkind
    exact eventId_of_kind hkind

/-- Applying an aggregation changes the item it relates to and nothing else. -/
theorem findItemAndApply_eq (ha : IsAddition a)
    (hrelated : s.relatedEvents.lookup target = some seen)
    (hafter : rfindEventByItemId after target = none) (hitem : item.hasIdentifier target = true) :
    findItemAndApplyAggregation rules s (before ++ ⟨.event item, internalId⟩ :: after) target a =
      before ++ ⟨.event (applyNext rules seen item a), internalId⟩ :: after := by
  have hset : ∀ e : EventTimelineItem,
      (before ++ ⟨.event item, internalId⟩ :: after).set before.length ⟨.event e, internalId⟩ =
        before ++ ⟨.event e, internalId⟩ :: after := by
    intro e
    rw [set_append_right _ _ le_rfl, Nat.sub_self, set_cons_zero]
  have hfind : rfindEventByItemId (before ++ ⟨.event item, internalId⟩ :: after) target =
      some (before.length, item, internalId) := rfindEventItem_append hafter hitem
  have happlied := ha.applied rules item
  unfold findItemAndApplyAggregation applyNext
  simp only [hfind, hrelated, Option.bind_some]
  cases hresult : a.apply rules item with
  | mk result event =>
    rw [hresult] at happlied
    cases happlied with
    | edit hkind =>
      cases hresolved : resolveEdits rules seen item with
      | none => simp [hresolved]
      | some edited => simp [hresolved, hset]
    | error err hkind => rfl
    | intact hkind => rfl
    | sameReaction hkind => rfl
    | reaction hkind => exact hset _
    | content hkind => exact hset _

/-- The aggregations that have arrived, and no end of a session among them. -/
structure Kept (target : TimelineEventItemId) (sender : String) (seen : List Aggregation)
    (s : Aggregations) : Prop where
  related : (s.relatedEvents.lookup target).getD [] = seen
  noStop : s.pendingBeaconStops.lookup sender = none

variable {sender : String}

section

variable (h : Kept target sender seen s)
include h

theorem Kept.add (ha : IsAddition a) (hadd : ∀ b ∈ seen, IsAddition b)
    (hnew : a.ownId ∉ seen.map (·.ownId)) : Kept target sender (seen ++ [a]) (s.add target a) := by
  obtain ⟨hrelated, hstops⟩ := add_related ha hadd h.related hnew
  constructor
  · rw [hrelated]
    rfl
  · rw [hstops]
    exact h.noStop

/-- Before the item is there nothing that is shown changes. -/
theorem stash (hadd : ∀ b ∈ seen ++ l, IsAddition b) (hids : ((seen ++ l).map (·.ownId)).Nodup)
    (habsent : rfindEventByItemId items target = none) :
    ∃ s', l.foldl (handleAggregation rules target) ⟨s, items⟩ = ⟨s', items⟩ ∧
      Kept target sender (seen ++ l) s' := by
  induction l generalizing seen s with
  | nil => exact ⟨s, rfl, by simpa using h⟩
  | cons a l ih =>
    have hadd' : ∀ b ∈ (seen ++ [a]) ++ l, IsAddition b := by simpa using hadd
    have hids' : (((seen ++ [a]) ++ l).map (·.ownId)).Nodup := by simpa using hids
    have hnew : a.ownId ∉ seen.map (·.ownId) := by
      intro hmem
      rw [map_append, nodup_append] at hids
      exact hids.2.2 _ hmem _ (by simp) rfl
    have hkept := h.add (hadd a (by simp)) (fun b hb => hadd b (by simp [hb])) hnew
    obtain ⟨s', hrun, hs'⟩ := ih hkept hadd' hids'
    refine ⟨s', ?_, by simpa using hs'⟩
    rw [foldl_cons, ← hrun]
    unfold handleAggregation findItemAndApplyAggregation
    rw [habsent]

theorem applyAll_eq : s.applyAll rules target sender item = (allAtOnce rules item seen, s) := by
  have hpromote : s.promoteFor target sender item = s := by
    unfold promoteFor promotePendingBeaconStop
    split
    · split
      · rw [h.noStop]
      · rfl
    · rfl
  unfold applyAll allAtOnce
  rw [hpromote, ← h.related]
  cases hlookup : s.relatedEvents.lookup target with
  | none =>
    simp only [hlookup]
    rfl
  | some related =>
    simp only [hlookup, Option.getD_some]
    cases applyEach rules item false related with
    | mk event edited =>
      cases edited with
      | none => rfl
      | some edited => cases edited <;> rfl

end

variable {eventId : String}

/-- Once the item is there the aggregations are applied to it one by one. -/
theorem show_rest (h : Kept (.eventId eventId) sender seen s)
    (hadd : ∀ b ∈ seen ++ l, IsAddition b) (hids : ((seen ++ l).map (·.ownId)).Nodup)
    (hafter : rfindEventByItemId after (.eventId eventId) = none)
    (hitem : item.eventId = some eventId) :
    rendered (l.foldl (handleAggregation rules (.eventId eventId))
      ⟨s, before ++ ⟨.event item, internalId⟩ :: after⟩) (.eventId eventId) =
        some (oneByOne rules seen item l) := by
  have hhas : ∀ e : EventTimelineItem, e.eventId = some eventId →
      e.hasIdentifier (.eventId eventId) = true := by
    intro e he
    unfold hasIdentifier
    simp [he]
  induction l generalizing seen s item with
  | nil =>
    have hfind : rfindEventByItemId (before ++ ⟨.event item, internalId⟩ :: after)
        (.eventId eventId) = some (before.length, item, internalId) :=
      rfindEventItem_append hafter (hhas item hitem)
    unfold rendered
    rw [foldl_nil, hfind]
    rfl
  | cons a l ih =>
    have hadd' : ∀ b ∈ (seen ++ [a]) ++ l, IsAddition b := by simpa using hadd
    have hids' : (((seen ++ [a]) ++ l).map (·.ownId)).Nodup := by simpa using hids
    have ha : IsAddition a := hadd a (by simp)
    have hseen : ∀ b ∈ seen, IsAddition b := fun b hb => hadd b (by simp [hb])
    have hnew : a.ownId ∉ seen.map (·.ownId) := by
      intro hmem
      rw [map_append, nodup_append] at hids
      exact hids.2.2 _ hmem _ (by simp) rfl
    rw [foldl_cons]
    unfold handleAggregation
    simp only [findItemAndApply_eq ha (add_related ha hseen h.related hnew).1 hafter
      (hhas item hitem)]
    apply ih (h.add ha hseen hnew) hadd' hids'
    rw [eventId_applyNext ha (fun b hb => hadd' b (by simp at hb ⊢; tauto)), hitem]

/-- What is shown in the end, as a function of the item and of the aggregations. -/
theorem rendered_arrive (h : Kept (.eventId eventId) item.sender [] s)
    (hadd : ∀ b ∈ l, IsAddition b) (hids : (l.map (·.ownId)).Nodup)
    (habsent : rfindEventByItemId items (.eventId eventId) = none)
    (hitem : item.eventId = some eventId) (index : ℕ) (internalId : String) (cut : ℕ) :
    rendered (arrive rules (.eventId eventId) item index internalId l cut ⟨s, items⟩)
      (.eventId eventId) =
        some (oneByOne rules (l.take cut) (allAtOnce rules item (l.take cut)) (l.drop cut)) := by
  have htake : ∀ b ∈ l.take cut, IsAddition b := fun b hb => hadd b (mem_of_mem_take hb)
  have hids' : ((l.take cut).map (·.ownId)).Nodup := by
    rw [map_take]
    exact hids.sublist (take_sublist _ _)
  have hrun : ∃ s', (l.take cut).foldl (handleAggregation rules (.eventId eventId)) ⟨s, items⟩ =
      ⟨s', items⟩ ∧ Kept (.eventId eventId) item.sender (l.take cut) s' := by
    simpa using stash h (by simpa using htake) (by simpa using hids') habsent
  obtain ⟨s', hstash, hkept⟩ := hrun
  unfold arrive addItem
  rw [hstash]
  rw [applyAll_eq hkept]
  apply show_rest hkept
  · rwa [take_append_drop]
  · rwa [take_append_drop]
  · exact rfindEventItem_drop _ habsent
  · rw [eventId_allAtOnce htake, hitem]

end Reduction

end MatrixSdk.Arrivals

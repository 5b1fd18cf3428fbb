import MatrixSdk.InverseIndexes
import MatrixSdk.TimelineAggregations
import MatrixSdk.Traces

/-!
The two maps of the aggregations. Each operation is described by what it does to the index and
to the identifiers filed under each target; the only one that never keeps the two together is
the removal of an aggregation that is known.
-/
namespace MatrixSdk.AggregationIndexes

open KeyedMaps EventItems TimelineAggregations InverseIndexes Traces Aggregations List Bool
open EventTimelineItem
open AList

variable {s s' : Aggregations} {rules : RoomVersionRules} {target : TimelineEventItemId}
  {aggregation : Aggregation}

/-- The identifiers of the aggregations of a target. -/
def ownIds (s : Aggregations) (target : TimelineEventItemId) : List TimelineEventItemId :=
  ((s.relatedEvents.lookup target).getD []).map (·.ownId)

/-- An aggregation is known to relate to a target when it is stored once there, and nowhere
else. -/
def Inverse (s : Aggregations) : Prop :=
  ∀ id target, s.invertedMap.lookup id = some target ↔
    (ownIds s target).count id = 1 ∧ ∀ other, other ≠ target → id ∉ ownIds s other

inductive Op where
  | add (relatedTo : TimelineEventItemId) (aggregation : Aggregation)
  | tryRemoveAggregation (id : TimelineEventItemId) (items : List TimelineItem)
  | markTargetAsSent (txnId eventId : String)
  | updateSendState (txnId : String) (sendState : EventSendState) (items : List TimelineItem)
  | replaceLocalEdit (txnId : String) (newContent : MessageContent) (items : List TimelineItem)
  | addPendingBeaconStop (sender : String) (aggregation : Aggregation)
  | applyAll (itemId : TimelineEventItemId) (sender : String) (event : EventTimelineItem)
  | clear

def step (rules : RoomVersionRules) (s : Aggregations) : Op → Aggregations
  | .add relatedTo aggregation => s.add relatedTo aggregation
  | .tryRemoveAggregation id items => (s.tryRemoveAggregation rules id items).2.1
  | .markTargetAsSent txnId eventId => s.markTargetAsSent txnId eventId
  | .updateSendState txnId sendState items => (s.updateSendState rules txnId sendState items).2.1
  | .replaceLocalEdit txnId newContent items =>
    (s.replaceLocalEdit rules txnId newContent items).2.1
  | .addPendingBeaconStop sender aggregation => s.addPendingBeaconStop sender aggregation
  | .applyAll itemId sender event => (s.applyAll rules itemId sender event).2
  | .clear => s.clear

/-- The identifier is not in use for another target, or nothing can be added after a
redaction. -/
def Addable (s : Aggregations) (relatedTo : TimelineEventItemId) (aggregation : Aggregation) :
    Prop :=
  (aggregation.kind.isRedaction = false ∧
    ((s.relatedEvents.lookup relatedTo).getD []).any (·.kind.isRedaction)) ∨
  ∀ other, s.invertedMap.lookup aggregation.ownId = some other → other = relatedTo

/-- The stop that starting a session promotes. -/
def promotedStop (s : Aggregations) (itemId : TimelineEventItemId) (sender : String)
    (event : EventTimelineItem) : Option Aggregation :=
  match itemId, event.content.asLiveLocationState, s.pendingBeaconStops.lookup sender with
  | .eventId _, some state, some ⟨.beaconStop content, ownId, sendState⟩ =>
    if state.beaconInfo.live && beaconInfoMatches state.beaconInfo content then
      some ⟨.beaconStop content, ownId, sendState⟩
    else none
  | _, _, _ => none

/-- No known aggregation is removed, and no identifier comes into use for a second target. -/
def Keeps (s : Aggregations) : Op → Prop
  | .add relatedTo aggregation => Addable s relatedTo aggregation
  | .tryRemoveAggregation id _ => s.invertedMap.lookup id = none
  | .updateSendState txnId (.sent eventId) _ =>
    ∀ target other, s.invertedMap.lookup (.transactionId txnId) = some target →
      s.invertedMap.lookup (.eventId eventId) = some other → other = target
  | .applyAll itemId sender event =>
    ∀ stop, promotedStop s itemId sender event = some stop → Addable s itemId stop
  | _ => True

variable {f : Aggregation → Aggregation} {updated : Aggregation}

section Lists

variable {related rest : List Aggregation} {id : TimelineEventItemId}

theorem map_eraseP_ownId :
    (related.eraseP (·.ownId == id)).map (·.ownId) = (related.map (·.ownId)).erase id := by
  induction related with
  | nil => rfl
  | cons a related ih =>
    by_cases h : a.ownId = id
    · simp [h]
    · have hne : (a.ownId == id) = false := beq_false_of_ne h
      rw [eraseP_cons_of_neg (by simp [h]), map_cons, map_cons, ih, erase_cons_tail (by simp [h])]

theorem map_filter_ownId :
    (related.filter (·.ownId != id)).map (·.ownId) =
      (related.map (·.ownId)).filter (· ≠ id) := by
  induction related with
  | nil => rfl
  | cons a related ih =>
    by_cases h : a.ownId = id
    · simpa [h] using ih
    · simpa [h] using ih

section

variable (map : KeyedMap TimelineEventItemId TimelineEventItemId)
include map

theorem lookup_foldl_erase :
    (related.foldl (fun map agg => map.erase agg.ownId) map).lookup id =
      if id ∈ related.map (·.ownId) then none else map.lookup id := by
  induction related generalizing map with
  | nil => simp
  | cons a related ih =>
    rw [foldl_cons, ih, map_cons]
    by_cases h : id = a.ownId
    · subst h
      simp
    · simp [h, lookup_erase_ne h]

/-- Keys that are all known get a new target. -/
theorem lookup_foldl_insert (hknown : ∀ a ∈ related, (map.lookup a.ownId).isSome) :
    (related.foldl (fun map agg =>
        if (map.lookup agg.ownId).isSome then map.insert agg.ownId target else map) map).lookup id =
      if id ∈ related.map (·.ownId) then some target else map.lookup id := by
  induction related generalizing map with
  | nil => simp
  | cons a related ih =>
    have ha := hknown a (by simp)
    rw [foldl_cons, if_pos ha, ih, map_cons]
    · by_cases h : id = a.ownId
      · subst h
        simp
      · simp [h, lookup_insert_ne h]
    · intro b hb
      by_cases h : b.ownId = a.ownId
      · rw [h, lookup_insert]
        rfl
      · rw [lookup_insert_ne h]
        exact hknown b (by simp [hb])

end

theorem modifyAggregation_eq_some (h : modifyAggregation id f related = some (updated, rest)) :
    ∃ l a r, related = l ++ a :: r ∧ a.ownId = id ∧ updated = f a ∧ rest = l ++ f a :: r := by
  induction related generalizing updated rest with
  | nil => cases h
  | cons a related ih =>
    unfold modifyAggregation at h
    by_cases ha : a.ownId = id
    · rw [if_pos ha] at h
      cases h
      exact ⟨[], a, related, rfl, ha, rfl, rfl⟩
    · rw [if_neg ha] at h
      obtain ⟨⟨u, rest'⟩, hrest, heq⟩ := Option.map_eq_some_iff.mp h
      cases heq
      obtain ⟨l, b, r, rfl, hb, rfl, rfl⟩ := ih hrest
      exact ⟨a :: l, b, r, rfl, hb, rfl, rfl⟩

theorem modifyAggregation_isSome (f : Aggregation → Aggregation) (h : id ∈ related.map (·.ownId)) :
    ∃ r, modifyAggregation id f related = some r := by
  induction related with
  | nil => cases h
  | cons a related ih =>
    unfold modifyAggregation
    by_cases ha : a.ownId = id
    · rw [if_pos ha]
      exact ⟨_, rfl⟩
    · rw [if_neg ha]
      rw [map_cons, mem_cons] at h
      obtain ⟨r, hr⟩ := ih (h.resolve_left fun heq => ha heq.symm)
      rw [hr]
      exact ⟨_, rfl⟩

theorem takeAggregation_eq_some {removed : Aggregation} {hidden : Bool}
    (h : takeAggregation related id = some (removed, hidden, rest)) :
    rest.map (·.ownId) = (related.map (·.ownId)).erase id := by
  unfold takeAggregation at h
  simp [Option.bind_eq_some_iff] at h
  obtain ⟨index, hindex, removed', hget, -, -, rfl⟩ := h
  obtain ⟨hlt, hat, hbefore⟩ := findIdx?_eq_some_iff_getElem.mp hindex
  have hid : related[index].ownId = id := by simpa using hat
  have hfirst : id ∉ (related.take index).map (·.ownId) := by
    intro hmem
    obtain ⟨a, ha, haid⟩ := mem_map.mp hmem
    obtain ⟨j, hj, rfl⟩ := mem_take_iff_getElem.mp ha
    have hne := hbefore j (by omega)
    simp [haid] at hne
  conv_rhs => rw [← take_append_drop index related, drop_eq_getElem_cons hlt]
  rw [eraseIdx_eq_take_drop_succ, map_append, map_append, map_cons, hid,
    erase_append_right _ hfirst, erase_cons_head]

theorem takeAggregation_isSome (h : id ∈ related.map (·.ownId)) :
    ∃ r, takeAggregation related id = some r := by
  obtain ⟨a, ha, haid⟩ := mem_map.mp h
  have hsome : (related.findIdx? (·.ownId == id)).isSome := by
    rw [findIdx?_isSome, any_eq_true]
    exact ⟨a, ha, by simp [haid]⟩
  obtain ⟨index, hindex⟩ := Option.isSome_iff_exists.mp hsome
  obtain ⟨hlt, -, -⟩ := findIdx?_eq_some_iff_getElem.mp hindex
  unfold takeAggregation
  rw [hindex, Option.bind_eq_bind, Option.bind_some, getElem?_eq_getElem hlt,
    Option.bind_eq_bind, Option.bind_some]
  exact ⟨_, rfl⟩

end Lists

variable {items : List TimelineItem}

section Operations

variable {related : List Aggregation}

/-- The invariant behind `Inverse`: it also finds every aggregation that is stored. -/
def Filed (s : Aggregations) : Prop :=
  Indexed (fun id => s.invertedMap.lookup id) (ownIds s)

theorem Filed.inverse (h : Filed s) : Inverse s := fun id target => h.iff_count id target

theorem filed_empty : Filed Aggregations.empty :=
  ⟨fun _ _ => by simp [Aggregations.empty, ownIds], fun _ => by simp [Aggregations.empty, ownIds]⟩

/-- Nothing is added after a redaction. -/
def Blocked (s : Aggregations) (relatedTo : TimelineEventItemId) (aggregation : Aggregation) :
    Prop :=
  aggregation.kind.isRedaction = false ∧
    ((s.relatedEvents.lookup relatedTo).getD []).any (·.kind.isRedaction)

theorem add_eq_some (h : ¬Blocked s target aggregation) :
    (s.add target aggregation).invertedMap.lookup aggregation.ownId = some target := by
  unfold Aggregations.add
  cases hkind : aggregation.kind.isRedaction with
  | true => simp
  | false =>
    have hnone : ((s.relatedEvents.lookup target).getD []).any (·.kind.isRedaction) = false :=
      eq_false_iff.mpr fun hany => h ⟨hkind, hany⟩
    simp [hnone]

variable {other : TimelineEventItemId}

theorem add_ownIds_ne (hne : other ≠ target) :
    ownIds (s.add target aggregation) other = ownIds s other := by
  unfold Aggregations.add
  cases hkind : aggregation.kind.isRedaction with
  | true => simp [ownIds, lookup_insert_ne hne, lookup_erase_ne hne]
  | false =>
    simp only [false_eq_true, if_false]
    split
    · rfl
    · simp [ownIds, lookup_insert_ne hne]

section

variable (h : Filed s)
include h

/-- A redaction first takes the other aggregations away. -/
theorem Filed.erase (target : TimelineEventItemId) :
    Filed { s with
      relatedEvents := s.relatedEvents.erase target
      invertedMap := ((s.relatedEvents.lookup target).getD []).foldl
        (fun map agg => map.erase agg.ownId) s.invertedMap } := by
  refine h.clear ?_ (fun id => lookup_foldl_erase _) ?_
  · intro other hne
    simp [ownIds, lookup_erase_ne hne]
  · simp [ownIds]

theorem Filed.push
    (hfree : ∀ other, s.invertedMap.lookup aggregation.ownId = some other → other = target) :
    Filed { s with
      invertedMap := s.invertedMap.insert aggregation.ownId target
      relatedEvents := s.relatedEvents.insert target
        (((s.relatedEvents.lookup target).getD []).eraseP (·.ownId == aggregation.ownId) ++
          [aggregation]) } := by
  refine Indexed.push h ?_ hfree (fun id => ?_) ?_
  · intro other hne
    simp [ownIds, lookup_insert_ne hne]
  · by_cases hid : id = aggregation.ownId
    · rw [if_pos hid, hid, lookup_insert]
    · rw [if_neg hid, lookup_insert_ne hid]
  · simp [ownIds, map_eraseP_ownId]

theorem Filed.add (hadd : Addable s target aggregation) : Filed (s.add target aggregation) := by
  rcases hadd with hblocked | hfree
  · rw [show s.add target aggregation = s by simp [Aggregations.add, hblocked.1, hblocked.2]]
    exact h
  unfold Aggregations.add
  cases hkind : aggregation.kind.isRedaction with
  | true =>
    have hfree' : ∀ other, (((s.relatedEvents.lookup target).getD []).foldl
        (fun map agg => map.erase agg.ownId) s.invertedMap).lookup aggregation.ownId = some other →
        other = target := by
      intro other hother
      rw [lookup_foldl_erase] at hother
      split at hother
      · cases hother
      · exact hfree other hother
    have hpush := (h.erase target).push hfree'
    simpa using hpush
  | false =>
    simp only [false_eq_true, if_false]
    split
    · exact h
    · exact h.push hfree

theorem Filed.addable (hinverse : Inverse (s.add target aggregation)) :
    Addable s target aggregation := by
  by_cases hblocked : Blocked s target aggregation
  · exact .inl hblocked
  refine .inr fun other hother => ?_
  by_contra hne
  have hnone := ((hinverse _ _).mp (add_eq_some hblocked)).2 other hne
  rw [add_ownIds_ne hne] at hnone
  exact hnone ((h.mem_iff _ _).mp hother)

theorem Filed.markTargetAsSent (txnId eventId : String) :
    Filed (s.markTargetAsSent txnId eventId) := by
  unfold Aggregations.markTargetAsSent
  dsimp only
  split
  · exact h
  · next related hrelated =>
    have hids : ownIds s (.transactionId txnId) = related.map (·.ownId) := by
      simp [ownIds, hrelated]
    have hknown : ∀ a ∈ related, (s.invertedMap.lookup a.ownId).isSome := by
      intro a ha
      have hmem : a.ownId ∈ ownIds s (.transactionId txnId) := by
        rw [hids]
        exact mem_map_of_mem ha
      rw [(h.mem_iff _ _).mpr hmem]
      rfl
    have hne : TimelineEventItemId.transactionId txnId ≠ .eventId eventId := by simp
    refine h.merge hne (fun id => ?_) ?_ ?_ ?_
    · rw [hids]
      exact lookup_foldl_insert s.invertedMap hknown
    · simp [ownIds, lookup_insert_ne hne]
    · simp [ownIds, lookup_erase_ne hne.symm, hrelated]
    · intro other hsource htarget
      simp [ownIds, lookup_insert_ne htarget, lookup_erase_ne hsource]

/-- Only what an aggregation carries changes, not its identifier. -/
theorem Filed.setRelated (hids : related.map (·.ownId) = ownIds s target) :
    Filed { s with relatedEvents := s.relatedEvents.insert target related } := by
  refine h.congr (fun _ => rfl) fun other => ?_
  by_cases hother : other = target
  · subst hother
    rw [← hids]
    simp [ownIds]
  · simp [ownIds, lookup_insert_ne hother]

end

theorem map_ownId_modify {id : TimelineEventItemId}
    (h : modifyAggregation id f ((s.relatedEvents.lookup target).getD []) =
      some (updated, related)) (hf : ∀ a, (f a).ownId = a.ownId) :
    related.map (·.ownId) = ownIds s target := by
  obtain ⟨l, a, r, hrelated, -, -, rfl⟩ := modifyAggregation_eq_some h
  simp [ownIds, hrelated, hf]

theorem Filed.replaceLocalEdit (h : Filed s) (txnId : String) (newContent : MessageContent)
    (items : List TimelineItem) : Filed (s.replaceLocalEdit rules txnId newContent items).2.1 := by
  unfold Aggregations.replaceLocalEdit
  dsimp only
  split
  · exact h
  · split
    · split
      · exact h
      · next hmodify => exact h.setRelated (map_ownId_modify hmodify fun _ => rfl)
    · exact h

section SendStates

variable {txnId eventId : String} {items : List TimelineItem} {echo : TimelineEventItemId}
  {remoteEcho : TimelineEventItemId} {state : EventSendState}

theorem Filed.forgetLocalEcho (h : Filed s) (hecho : s.invertedMap.lookup echo = some target) :
    Filed (s.forgetLocalEcho rules echo remoteEcho target
      ((s.relatedEvents.lookup target).getD []) items).1 := by
  have hmem : echo ∈ ownIds s target := (h.mem_iff _ _).mp hecho
  have hstate : (s.forgetLocalEcho rules echo remoteEcho target
      ((s.relatedEvents.lookup target).getD []) items).1 =
      { s with
        relatedEvents := s.relatedEvents.insert target
          (((s.relatedEvents.lookup target).getD []).filter (·.ownId != echo))
        invertedMap := s.invertedMap.erase echo } := by
    unfold Aggregations.forgetLocalEcho
    dsimp only
    split
    · rfl
    · rfl
  rw [hstate]
  refine h.remove ?_ hmem (fun id => ?_) ?_
  · intro other hne
    simp [ownIds, lookup_insert_ne hne]
  · by_cases hid : id = echo
    · rw [if_pos hid, hid, lookup_erase]
    · rw [if_neg hid, lookup_erase_ne hid]
  · simp [ownIds, lookup_insert, map_filter_ownId]

theorem Filed.renameEcho (h : Filed s) (hnone : s.invertedMap.lookup remoteEcho = none)
    (hne : remoteEcho ≠ echo) (hf : ∀ a, (f a).ownId = remoteEcho)
    (hmodify : modifyAggregation echo f ((s.relatedEvents.lookup target).getD []) =
      some (updated, related)) :
    Filed { s with
      relatedEvents := s.relatedEvents.insert target related
      invertedMap := (s.invertedMap.erase echo).insert remoteEcho target } := by
  obtain ⟨l, a, r, hrelated, ha, -, rfl⟩ := modifyAggregation_eq_some hmodify
  have hkeys : ownIds s target = l.map (·.ownId) ++ echo :: r.map (·.ownId) := by
    simp [ownIds, hrelated, ha]
  refine h.rename ?_ hnone hne (fun id => ?_) hkeys ?_
  · intro other hother
    simp [ownIds, lookup_insert_ne hother]
  · by_cases hid : id = remoteEcho
    · rw [if_pos hid, hid, lookup_insert]
    · rw [if_neg hid, lookup_insert_ne hid]
      by_cases hid' : id = echo
      · rw [if_pos hid', hid', lookup_erase]
      · rw [if_neg hid', lookup_erase_ne hid']
  · simp [ownIds, hf]

theorem Filed.updateSendState (h : Filed s)
    (hkeeps : Keeps s (.updateSendState txnId state items)) :
    Filed (s.updateSendState rules txnId state items).2.1 := by
  unfold Aggregations.updateSendState
  dsimp only
  split
  · exact h
  · next target htarget =>
    split
    · exact h.forgetLocalEcho htarget
    · next hremote =>
      split
      · exact h
      · next updated related hmodify =>
        have hstate : Filed { s with
            relatedEvents := s.relatedEvents.insert target related
            invertedMap := Aggregations.renameEcho s.invertedMap (.transactionId txnId) target
              (sentIdentifier state) } := by
          cases state with
          -- a local echo keeps its identifier until it is sent
          | notSentYet | sendingFailed => exact h.setRelated (map_ownId_modify hmodify fun _ => rfl)
          | sent eventId =>
            refine h.renameEcho ?_ (by simp) (fun _ => rfl) hmodify
            rw [Option.eq_none_iff_forall_ne_some]
            intro other hother
            obtain rfl := hkeeps target other htarget hother
            obtain ⟨a, ha, haid⟩ := mem_map.mp ((h.mem_iff _ _).mp hother)
            exact hremote (any_eq_true.mpr ⟨a, ha, by simp [haid]⟩)
        split
        · exact hstate
        · split
          · exact hstate
          · split
            · exact hstate
            · exact hstate

theorem Filed.not_inverse_updateSendState (h : Filed s)
    (hecho : s.invertedMap.lookup (.transactionId txnId) = some target)
    (hremote : s.invertedMap.lookup (.eventId eventId) = some other) (hne : other ≠ target) :
    ¬Inverse (s.updateSendState rules txnId (.sent eventId) items).2.1 := by
  have hmem : TimelineEventItemId.eventId eventId ∈ ownIds s other := (h.mem_iff _ _).mp hremote
  have hunknown : ((s.relatedEvents.lookup target).getD []).any (·.ownId == .eventId eventId) =
      false := by
    rw [any_eq_false]
    intro a ha haid
    have hown : TimelineEventItemId.eventId eventId ∈ ownIds s target :=
      mem_map.mpr ⟨a, ha, by simpa using haid⟩
    exact hne (h.eq_of_mem hown hmem)
  obtain ⟨⟨updated, related⟩, hmodify⟩ := modifyAggregation_isSome
    (fun found => { found with
      sendState := some (.sent eventId)
      ownId := (Aggregations.sentIdentifier (.sent eventId)).getD found.ownId })
    ((h.mem_iff _ _).mp hecho)
  have hstate : (s.updateSendState rules txnId (.sent eventId) items).2.1 =
      { s with
        relatedEvents := s.relatedEvents.insert target related
        invertedMap := Aggregations.renameEcho s.invertedMap (.transactionId txnId) target
          (Aggregations.sentIdentifier (.sent eventId)) } := by
    unfold Aggregations.updateSendState
    simp only [hecho, hmodify]
    rw [if_neg (by simp [Aggregations.sentIdentifier, hunknown])]
    split
    · rfl
    · split
      · rfl
      · split
        · rfl
        · rfl
  rw [hstate]
  intro hinverse
  refine ((hinverse (.eventId eventId) target).mp ?_).2 other hne ?_
  · simp [Aggregations.renameEcho, Aggregations.sentIdentifier]
  · simpa [ownIds, lookup_insert_ne hne] using hmem

end SendStates

section Promotions

variable {itemId : TimelineEventItemId} {sender : String} {event : EventTimelineItem}

theorem applyAll_snd :
    (s.applyAll rules itemId sender event).2 = s.promoteFor itemId sender event := by
  unfold applyAll
  dsimp only
  split
  · rfl
  · split
    · rfl
    · rfl

theorem promoteFor_some {stop : Aggregation} (h : promotedStop s itemId sender event = some stop) :
    s.promoteFor itemId sender event =
      Aggregations.add { s with pendingBeaconStops := s.pendingBeaconStops.erase sender } itemId
        stop := by
  unfold promotedStop at h
  split at h
  · next eventId state content ownId sendState hlive hpending =>
    split at h
    · next hmatches =>
      cases h
      rw [and_eq_true] at hmatches
      simp only [promoteFor, hlive, promotePendingBeaconStop, hmatches.1,
        hmatches.2, hpending, if_true]
    · cases h
  · cases h

theorem promoteFor_none (h : promotedStop s itemId sender event = none) :
    (s.promoteFor itemId sender event).relatedEvents = s.relatedEvents ∧
      (s.promoteFor itemId sender event).invertedMap = s.invertedMap := by
  unfold promoteFor
  split
  · next eventId state hlive =>
    unfold promotePendingBeaconStop
    split
    · next hstart =>
      split
      · exact ⟨rfl, rfl⟩
      · next stop hpending =>
        split
        · next content hkind =>
          split
          · next hmatches =>
            -- this stop would have been promoted
            obtain ⟨kind, ownId, sendState⟩ := stop
            obtain rfl : kind = .beaconStop content := hkind
            simp [promotedStop, hlive, hpending, hstart, hmatches] at h
          · exact ⟨rfl, rfl⟩
        · exact ⟨rfl, rfl⟩
    · exact ⟨rfl, rfl⟩
  · exact ⟨rfl, rfl⟩

theorem Filed.applyAll (h : Filed s) (hkeeps : Keeps s (.applyAll itemId sender event)) :
    Filed (s.applyAll rules itemId sender event).2 := by
  rw [applyAll_snd]
  cases hstop : promotedStop s itemId sender event with
  | none =>
    obtain ⟨hrelated, hinverted⟩ := promoteFor_none hstop
    exact h.congr (fun _ => by rw [hinverted]) fun _ => by simp [ownIds, hrelated]
  | some stop =>
    rw [promoteFor_some hstop]
    exact Filed.add h (hkeeps stop hstop)

end Promotions

/-- Removing a known aggregation leaves it in the index. -/
theorem Filed.not_inverse_tryRemove (h : Filed s) {id : TimelineEventItemId}
    (hknown : s.invertedMap.lookup id = some target) :
    ¬Inverse (s.tryRemoveAggregation rules id items).2.1 := by
  have hmem : id ∈ ownIds s target := (h.mem_iff _ _).mp hknown
  have hnodup := h.nodup target
  unfold ownIds at hmem hnodup
  cases hrelated : s.relatedEvents.lookup target with
  | none => simp [hrelated] at hmem
  | some related =>
    rw [hrelated, Option.getD_some] at hmem hnodup
    obtain ⟨⟨removed, hidden, rest⟩, htake⟩ := takeAggregation_isSome hmem
    have hrest : id ∉ rest.map (·.ownId) := by
      rw [takeAggregation_eq_some htake]
      exact hnodup.not_mem_erase
    have hstate : (s.tryRemoveAggregation rules id items).2.1 =
        { s with relatedEvents := if rest.isEmpty then s.relatedEvents.erase target
          else s.relatedEvents.insert target rest } := by
      unfold tryRemoveAggregation
      simp only [hknown, hrelated, htake, Option.bind_some]
      split
      · rfl
      · split
        · rfl
        · split
          · rfl
          · rfl
    rw [hstate]
    intro hinverse
    have hcount := ((hinverse id target).mp hknown).1
    have hmem' := count_pos_iff.mp (show 0 < _ by rw [hcount]; decide)
    unfold ownIds at hmem'
    split at hmem'
    · simp at hmem'
    · rw [lookup_insert, Option.getD_some] at hmem'
      exact hrest hmem'

end Operations

section Runs

variable {op : Op}

theorem Filed.step (h : Filed s) (hkeeps : Keeps s op) : Filed (step rules s op) := by
  cases op with
  | add relatedTo aggregation => exact h.add hkeeps
  | tryRemoveAggregation id items =>
    have hunknown : s.invertedMap.lookup id = none := hkeeps
    simpa [step, tryRemoveAggregation, hunknown] using h
  | markTargetAsSent txnId eventId => exact h.markTargetAsSent txnId eventId
  | updateSendState txnId sendState items => exact h.updateSendState hkeeps
  | replaceLocalEdit txnId newContent items => exact h.replaceLocalEdit txnId newContent items
  | addPendingBeaconStop sender aggregation => exact h
  | applyAll itemId sender event => exact h.applyAll hkeeps
  | clear => exact filed_empty

theorem Filed.keeps (h : Filed s) (hinverse : Inverse (AggregationIndexes.step rules s op)) :
    Keeps s op := by
  cases op with
  | add relatedTo aggregation => exact h.addable hinverse
  | tryRemoveAggregation id items =>
    rw [Keeps, Option.eq_none_iff_forall_ne_some]
    intro target hknown
    exact h.not_inverse_tryRemove hknown hinverse
  | updateSendState txnId sendState items =>
    cases sendState with
    | notSentYet => trivial
    | sendingFailed => trivial
    | sent eventId =>
      intro target other hecho hremote
      by_contra hne
      exact h.not_inverse_updateSendState hecho hremote hne hinverse
  | applyAll itemId sender event =>
    intro stop hstop
    replace hinverse : Inverse (s.applyAll rules itemId sender event).2 := hinverse
    rw [applyAll_snd, promoteFor_some hstop] at hinverse
    have hfiled : Filed { s with pendingBeaconStops := s.pendingBeaconStops.erase sender } := h
    exact hfiled.addable hinverse
  | markTargetAsSent => trivial
  | replaceLocalEdit => trivial
  | addPendingBeaconStop => trivial
  | clear => trivial

/-- One operation that keeps the two maps together. -/
def KeepingStep (rules : RoomVersionRules) (s : Aggregations) (op : Op) (s' : Aggregations) :
    Prop :=
  Keeps s op ∧ s' = step rules s op

/-- In every run of such operations the two maps agree, and an aggregation that is known is
stored. The next operation keeps them together exactly when it is one of these too. -/
theorem inverted_map_is_the_inverse {ops : List Op}
    (hrun : Trace (KeepingStep rules) Aggregations.empty ops s) :
    Inverse s ∧ (∀ id target, s.isAggregationOf id = some target → id ∈ ownIds s target) ∧
      ∀ op, Inverse (step rules s op) ↔ Keeps s op := by
  have hfiled : Filed s := by
    refine hrun.preserves ?_ filed_empty
    intro s op s' h hstep
    obtain ⟨hkeeps, rfl⟩ := hstep
    exact h.step hkeeps
  refine ⟨hfiled.inverse, fun id target => (hfiled.mem_iff id target).mp, fun op => ?_⟩
  exact ⟨hfiled.keeps, fun hkeeps => (hfiled.step hkeeps).inverse⟩

end Runs

/-- A reaction of ours is added, sent, and shown on a message that was being sent too. -/
theorem inverted_map_is_the_inverse_of_an_echo :
    ∃ s : Aggregations,
      Trace (KeepingStep ⟨id, id⟩) Aggregations.empty
        [.add (.transactionId "m1") (.newLocal (.transactionId "r1") (.reaction "+1" "@me" 3)),
          .markTargetAsSent "m1" "$message", .updateSendState "r1" (.sent "$reaction") []] s ∧
      Inverse s ∧ (∀ id target, s.isAggregationOf id = some target → id ∈ ownIds s target) ∧
      ∀ op, Inverse (step ⟨id, id⟩ s op) ↔ Keeps s op := by
  refine ⟨_, and_of_imp (.cons ⟨.inr fun other hother => ?_, rfl⟩ (.cons ⟨trivial, rfl⟩
    (.single ⟨fun target other _ hother => ?_, rfl⟩))) inverted_map_is_the_inverse⟩
  · cases hother
  · cases hother.symm.trans (by decide : _ = (none : Option _))

/-- A reaction is removed, and is still known to be one of the message. -/
theorem removed_aggregation_is_still_known :
    let s := [Op.add (.eventId "$message") (.new (.eventId "$reaction") (.reaction "+1" "@me" 3)),
      Op.tryRemoveAggregation (.eventId "$reaction") []].foldl (step ⟨id, id⟩) Aggregations.empty
    s.isAggregationOf (.eventId "$reaction") = some (.eventId "$message") ∧
      ownIds s (.eventId "$message") = [] ∧ ¬Inverse s := by
  intro s
  have hknown : s.isAggregationOf (.eventId "$reaction") = some (.eventId "$message") := by
    decide +revert
  have hnone : ownIds s (.eventId "$message") = [] := by decide +revert
  refine ⟨hknown, hnone, fun hinverse => ?_⟩
  have hcount := ((hinverse _ _).mp hknown).1
  cases hcount

section Redactions

def addAll (s : Aggregations) (added : List (TimelineEventItemId × Aggregation)) : Aggregations :=
  added.foldl (fun s a => s.add a.1 a.2) s

theorem isAggregationOf_of_add {id : TimelineEventItemId} (hne : id ≠ aggregation.ownId)
    (h : (s.add other aggregation).isAggregationOf id = some target) :
    s.isAggregationOf id = some target := by
  unfold isAggregationOf at *
  unfold add at h
  dsimp only at h
  split_ifs at h
  · rw [lookup_foldl_erase] at h
    split_ifs at h
    exact h
  · rw [lookup_insert_ne hne, lookup_foldl_erase] at h
    split_ifs at h
    exact h
  · exact h
  · rwa [lookup_insert_ne hne] at h

theorem isAggregationOf_of_addAll {id : TimelineEventItemId}
    {added : List (TimelineEventItemId × Aggregation)} (hne : ∀ a ∈ added, a.2.ownId ≠ id)
    (h : (addAll s added).isAggregationOf id = some target) :
    s.isAggregationOf id = some target := by
  induction added generalizing s with
  | nil => exact h
  | cons a added ih =>
    exact isAggregationOf_of_add (hne a (by simp)).symm (ih (fun b hb => hne b (by simp [hb])) h)

theorem isAggregationOf_tryRemove {id : TimelineEventItemId} :
    (s.tryRemoveAggregation rules id items).2.1.isAggregationOf id = s.isAggregationOf id := by
  unfold tryRemoveAggregation
  split
  · rfl
  split
  · rfl
  dsimp only
  split
  · rfl
  split
  · rfl
  split <;> rfl

end Redactions

def hello : EventTimelineItem :=
  .new "@alice" 1 (.msgLike ⟨.message ⟨"hello", none, false⟩, none, none, none⟩)
    (.remote ⟨"$message", none, none, none, none⟩)

def withdrawal : Aggregation := .newLocal (.transactionId "1") (.redaction none)

end MatrixSdk.AggregationIndexes

import Mathlib.Data.List.MinMax
import MatrixSdk.Additions

/-!
The edit that an item shows. Edits change other parts of an item than additions do, so an item
is always what the additions made of it, with at most one edit over it.
-/
namespace MatrixSdk.WornEdits

open EventItems TimelineAggregations Additions List Option TimelineItemContent WornEdits

variable {rules : RoomVersionRules} {a : Aggregation} {item event event' : EventTimelineItem}
  {edit edit' : PendingEdit} {l : List Aggregation}

section Wearing

/-- Whether the content can be replaced by the edit. -/
def fits (rules : RoomVersionRules) (edit : PendingEdit) : TimelineItemContent → Bool
  | .msgLike content => (editContent rules edit.kind content).isSome
  | _ => false

def wearMessage (rules : RoomVersionRules) (edit : PendingEdit) (message : Message) : Message :=
  match edit.kind with
  | .roomMessage newContent => message.applyEdit rules newContent
  | .poll _ => message

def wearPoll (edit : PendingEdit) (state : PollState) : PollState :=
  match edit.kind with
  | .roomMessage _ => state
  | .poll newContent => { state with
      pollStart := newContent.pollStart
      fallbackText := newContent.text
      hasBeenEdited := true }

def wearKind (rules : RoomVersionRules) (edit : PendingEdit) : MsgLikeKind → MsgLikeKind
  | .message message => .message (wearMessage rules edit message)
  | .poll state => .poll (wearPoll edit state)
  | kind => kind

def wearContent (rules : RoomVersionRules) (edit : PendingEdit) :
    TimelineItemContent → TimelineItemContent
  | .msgLike content => .msgLike { content with kind := wearKind rules edit content.kind }
  | content => content

/-- The item with an edit over it. -/
def wear (rules : RoomVersionRules) (edit : PendingEdit) (item : EventTimelineItem) :
    EventTimelineItem :=
  { item with
    content := wearContent rules edit item.content
    uneditedKind := none
    editSendState := none
    kind :=
      match item.kind with
      | .localEcho echo => .localEcho echo
      | .remote remote => .remote { remote with
          latestEditJson := edit.editJson
          encryptionInfo := edit.encryptionInfo.or remote.encryptionInfo } }

def dress (rules : RoomVersionRules) : Option PendingEdit → EventTimelineItem → EventTimelineItem
  | none, item => item
  | some edit, item => wear rules edit item

@[simp]
theorem dress_none : dress rules none item = item := rfl

@[simp]
theorem dress_some : dress rules (some edit) item = wear rules edit item := rfl

@[simp]
theorem wear_reactions : (wear rules edit item).reactions = item.reactions := rfl

@[simp]
theorem wear_content : (wear rules edit item).content = wearContent rules edit item.content := rfl

/-- The item of an event of the server. -/
def IsRemote (item : EventTimelineItem) : Prop := ∃ remote, item.kind = .remote remote

theorem IsRemote.wear (h : IsRemote item) (rules : RoomVersionRules) (edit : PendingEdit) :
    IsRemote (wear rules edit item) := by
  obtain ⟨remote, hkind⟩ := h
  unfold WornEdits.wear
  rw [hkind]
  exact ⟨_, rfl⟩

theorem encryptionInfo_wear (h : IsRemote item) :
    (wear rules edit item).encryptionInfo = edit.encryptionInfo.or item.encryptionInfo := by
  obtain ⟨remote, hkind⟩ := h
  unfold wear EventTimelineItem.encryptionInfo
  rw [hkind]

theorem originalJson_wear : (wear rules edit item).originalJson = item.originalJson := by
  unfold wear EventTimelineItem.originalJson
  cases item.kind with
  | localEcho echo => rfl
  | remote remote => rfl

variable (state : PollState)

theorem wearPoll_end : (wearPoll edit state).endEventTimestamp = state.endEventTimestamp := by
  unfold wearPoll
  cases edit.kind with
  | roomMessage newContent => rfl
  | poll newContent => rfl

theorem wearPoll_finish (timestamp : ℕ) :
    (wearPoll edit state).finish timestamp = (state.finish timestamp).map (wearPoll edit) := by
  unfold PollState.finish
  rw [wearPoll_end]
  split
  · unfold wearPoll
    cases edit.kind with
    | roomMessage newContent => rfl
    | poll newContent => rfl
  · rfl

/-- What stands on an item that takes an addition the same way with and without the edit. -/
def Commutes (rules : RoomVersionRules) (edit : PendingEdit) (a : Aggregation)
    (item : EventTimelineItem) : Prop :=
  a.apply rules (wear rules edit item) =
    ((a.apply rules item).1, wear rules edit (a.apply rules item).2)

variable {sender : String} {timestamp : ℕ}

theorem commutes_pollResponse {answers : List String}
    (h : a.kind = .pollResponse sender timestamp answers) : Commutes rules edit a item := by
  unfold Commutes Aggregation.apply pollStateFromItem
  rw [h]
  cases hcontent : item.content with
  | msgLike content =>
    obtain ⟨kind, inReplyTo, threadRoot, threadSummary⟩ := content
    cases kind with
    | poll state =>
      cases hkind : edit.kind <;>
        simp [wear, wearContent, wearKind, hcontent, wearPoll, hkind, PollState.addResponse]
    | _ => simp [wear, wearContent, wearKind, hcontent, debugString]
  | _ => simp [wear, wearContent, hcontent, debugString]

theorem commutes_pollEnd {endDate : ℕ} (h : a.kind = .pollEnd endDate) :
    Commutes rules edit a item := by
  unfold Commutes Aggregation.apply pollStateFromItem
  rw [h]
  cases hcontent : item.content with
  | msgLike content =>
    obtain ⟨kind, inReplyTo, threadRoot, threadSummary⟩ := content
    cases kind with
    | poll state =>
      cases hfinish : state.finish endDate with
      | none | some => simp [wear, wearContent, wearKind, hcontent, wearPoll_finish, hfinish]
    | _ => simp [wear, wearContent, wearKind, hcontent, debugString]
  | _ => simp [wear, wearContent, hcontent, debugString]

theorem commutes_beaconUpdate {location : BeaconInfo} (h : a.kind = .beaconUpdate location) :
    Commutes rules edit a item := by
  unfold Commutes Aggregation.apply liveLocationStateFromItem
  rw [h]
  cases hcontent : item.content with
  | msgLike content =>
    obtain ⟨kind, inReplyTo, threadRoot, threadSummary⟩ := content
    cases kind with
    | _ => simp [wear, wearContent, wearKind, hcontent, debugString]
  | _ => simp [wear, wearContent, hcontent, debugString]

theorem commutes_callDeclined (h : a.kind = .callDeclined sender) : Commutes rules edit a item := by
  unfold Commutes Aggregation.apply rtcNotificationDeclinationsFromItem
  rw [h]
  cases hcontent : item.content with
  | msgLike content =>
    obtain ⟨kind, inReplyTo, threadRoot, threadSummary⟩ := content
    cases kind with
    | _ => simp [wear, wearContent, wearKind, hcontent, debugString]
  | rtcNotification callIntent declinedBy activeCallInfo =>
    by_cases hin : sender ∈ declinedBy
    · simp [wear, wearContent, hcontent, hin]
    · simp [wear, wearContent, hcontent, hin]
  | _ => simp [wear, wearContent, hcontent, debugString]

/-- An addition does the same to an item with an edit over it. -/
theorem commutes (h : IsAddition a) : Commutes rules edit a item := by
  cases hkind : a.kind with
  | pollResponse sender timestamp answers => exact commutes_pollResponse hkind
  | pollEnd endDate => exact commutes_pollEnd hkind
  | reaction key sender timestamp =>
    unfold Commutes Aggregation.apply
    rw [hkind]
    dsimp only [wear_reactions]
    split
    · rfl
    · rfl
  | redaction reason =>
    have hnot := h.notRedaction
    rw [hkind] at hnot
    cases hnot
  | edit edit' =>
    unfold Commutes Aggregation.apply
    rw [hkind]
  | beaconUpdate location => exact commutes_beaconUpdate hkind
  | beaconStop content => exact absurd hkind (h.notStop content)
  | callDeclined sender => exact commutes_callDeclined hkind

end Wearing

section Fitting

@[simp]
theorem fits_wearContent (content : TimelineItemContent) :
    fits rules edit (wearContent rules edit' content) = fits rules edit content := by
  cases content with
  | msgLike content =>
    obtain ⟨kind, inReplyTo, threadRoot, threadSummary⟩ := content
    cases kind with
    | message message =>
      cases hkind : edit.kind with
      | _ => simp [fits, wearContent, wearKind, editContent, hkind]
    | poll state =>
      cases hkind : edit.kind with
      | roomMessage newContent => simp [fits, wearContent, wearKind, editContent, hkind]
      | poll newContent =>
        simp only [fits, wearContent, wearKind, editContent, hkind, PollState.edit, wearPoll_end]
        split
        · rfl
        · rfl
    | _ => rfl
  | _ => rfl

variable {content : TimelineItemContent}

theorem Grows.fits {content' : TimelineItemContent} (h : Grows content content')
    (hfits : fits rules edit content' = true) : fits rules edit content = true := by
  cases h with
  | response sender timestamp answers =>
    cases hkind : edit.kind with
    | roomMessage newContent => simp [fits, editContent, hkind] at hfits
    | poll newContent =>
      simp only [fits, editContent, hkind, PollState.edit,
        PollState.addResponse] at hfits ⊢
      split at hfits
      · next hend => simp [hend]
      · simp at hfits
  | finish timestamp hend =>
    cases hkind : edit.kind with
    | roomMessage newContent => simp [fits, editContent, hkind] at hfits
    | poll newContent => simp [fits, editContent, hkind, PollState.edit] at hfits
  | location location => simp [fits, editContent] at hfits
  | decline sender => simp [fits] at hfits

theorem Applied.fits {r : ApplyAggregationResult × EventTimelineItem} (h : Applied a item r)
    (hfits : fits rules edit r.2.content = true) : fits rules edit item.content = true := by
  cases h with
  | content hedit hreaction hgrows => exact Grows.fits hgrows hfits
  | _ => exact hfits

/-- What fits an item once there are more additions fits it before. -/
theorem fits_of_settle (hadd : ∀ a ∈ l, IsAddition a)
    (h : fits rules edit (settle rules item l).content = true) :
    fits rules edit item.content = true := by
  revert h
  apply settle_induction (P := fun e => fits rules edit e.content = true →
    fits rules edit item.content = true)
  · intro a ha e he hfits
    exact he (Applied.fits ((hadd a ha).applied rules e) hfits)
  · exact id

theorem wearContent_wearContent (h : fits rules edit content = true) :
    wearContent rules edit (wearContent rules edit' content) = wearContent rules edit content := by
  cases content with
  | msgLike content =>
    obtain ⟨kind, inReplyTo, threadRoot, threadSummary⟩ := content
    cases kind with
    | message message =>
      cases hkind : edit.kind with
      | roomMessage newContent =>
        simp [wearContent, wearKind, wearMessage, hkind, Message.applyEdit]
      | poll newContent => simp [fits, editContent, hkind] at h
    | poll state =>
      cases hkind : edit.kind with
      | roomMessage newContent => simp [fits, editContent, hkind] at h
      | poll newContent =>
        cases hkind' : edit'.kind with
        | _ => simp [wearContent, wearKind, wearPoll, hkind, hkind']
    | _ => rfl
  | _ => rfl

/-- The last edit is the one that shows. -/
theorem wear_wear (h : fits rules edit item.content = true)
    (hencrypted : edit.encryptionInfo = none → edit'.encryptionInfo = none) :
    wear rules edit (wear rules edit' item) = wear rules edit item := by
  unfold wear
  rw [wearContent_wearContent h]
  cases hkind : item.kind with
  | localEcho echo => rfl
  | remote remote =>
    cases henc : edit.encryptionInfo with
    | none => simp [hencrypted henc]
    | some info => simp

end Fitting

section Selection

/-- The edit of an aggregation with its key, if it can replace the event. -/
def candidate (event : EventTimelineItem) (a : Aggregation) : Option (PendingEdit × EditKey) :=
  match a.kind, a.ownId with
  | .edit edit, .eventId eventId => (validEditKey event edit eventId).map fun key => (edit, key)
  | _, _ => none

/-- An edit of ours that the server has not echoed yet. -/
def ownEdit (a : Aggregation) : Option PendingEdit :=
  match a.kind, a.sendState, a.ownId with
  | .edit _, none, .eventId _ => none
  | .edit edit, _, _ => some edit
  | _, _, _ => none

/-- The candidate with the greatest key. -/
def latestEdit (event : EventTimelineItem) (l : List Aggregation) : Option PendingEdit :=
  ((l.filterMap (candidate event)).argmax (·.2)).map (·.1)

theorem candidate_of_not_isEdit (h : a.kind.isEdit = false) : candidate event a = none := by
  unfold candidate
  split
  · next hkind _ =>
    rw [hkind] at h
    cases h
  · rfl

variable {best : Option (PendingEdit × EditKey)} {originalJson replacementJson : RawEvent}
  {encryptionInfo replacementInfo : Option String} {c : PendingEdit × EditKey}

theorem selectEdit_cons : selectEdit event best (a :: l) =
    match ownEdit a with
    | some edit => some (edit, true)
    | none => selectEdit event
        ((candidate event a).elim best fun c => List.argAux (fun b c => c.2 < b.2) best c) l := by
  rw [selectEdit]
  unfold candidate ownEdit
  obtain ⟨kind, ownId, sendState⟩ := a
  cases kind with
  | edit edit =>
    cases sendState with
    | some state => rfl
    | none =>
      cases ownId with
      | transactionId id => rfl
      | eventId eventId =>
        cases hkey : validEditKey event edit eventId with
        | none => simp [hkey]
        | some key => cases best <;> simp [hkey, List.argAux, apply_ite (selectEdit event · l)]
  | _ => rfl

variable (event l) in
/-- The first edit of ours is selected, or else the one with the greatest key. -/
theorem selectEdit_eq_or : selectEdit event none l =
    ((l.filterMap ownEdit).head?.map (·, true)).or ((latestEdit event l).map (·, false)) := by
  have hfold : ∀ best, selectEdit event best l =
      ((l.filterMap ownEdit).head?.map (·, true)).or
        (((l.filterMap (candidate event)).foldl
          (List.argAux fun b c => c.2 < b.2) best).map fun c => (c.1, false)) := by
    induction l with
    | nil =>
      intro best
      rfl
    | cons a l ih =>
      intro best
      rw [selectEdit_cons]
      cases hown : ownEdit a with
      | some edit => simp [filterMap_cons_some hown]
      | none =>
        cases hcandidate : candidate event a with
        | none => rw [filterMap_cons_none hown, filterMap_cons_none hcandidate, ← ih]
                  rfl
        | some c => rw [filterMap_cons_none hown, filterMap_cons_some hcandidate, foldl_cons, ← ih]
                    rfl
  rw [hfold none]
  unfold latestEdit List.argmax
  rw [Option.map_map]
  rfl

section

variable (h : checkValidityOfReplacementEvents originalJson encryptionInfo replacementJson
  replacementInfo = .ok ())
include h

end

theorem exists_checkValidity {eventId : String} {key : EditKey}
    (h : validEditKey event edit eventId = some key) :
    ∃ originalJson editJson, event.originalJson = some originalJson ∧
      edit.editJson = some editJson ∧ key = editKey editJson eventId ∧
      checkValidityOfReplacementEvents originalJson event.encryptionInfo editJson
        edit.encryptionInfo = .ok () := by
  unfold validEditKey at h
  split at h
  · next originalJson editJson horiginal hedit =>
    split at h
    · next hvalid =>
      cases h
      exact ⟨originalJson, editJson, horiginal, hedit, rfl, hvalid⟩
    · cases h
  · cases h

section

variable (h : candidate event a = some c)
include h

theorem candidate_eq_some :
    ∃ eventId, a.kind = .edit c.1 ∧ a.ownId = .eventId eventId ∧
      validEditKey event c.1 eventId = some c.2 := by
  unfold candidate at h
  split at h
  · next edit eventId hkind hid =>
    obtain ⟨key, hkey, rfl⟩ := map_eq_some_iff.mp h
    exact ⟨eventId, hkind, hid, hkey⟩
  · cases h

theorem candidate_of_encryption (hjson : event'.originalJson = event.originalJson)
    (henc : c.1.encryptionInfo ≠ none ∨ event'.encryptionInfo = none) :
    candidate event' a = some c := by
  obtain ⟨eventId, hkind, hid, hkey⟩ := candidate_eq_some h
  obtain ⟨originalJson, editJson, horiginal, hedit, hc, hvalid⟩ := exists_checkValidity hkey
  -- how the event is encrypted matters only for a replacement that is not
  have hvalid' : checkValidityOfReplacementEvents originalJson event'.encryptionInfo editJson
      c.1.encryptionInfo = .ok () := by
    unfold checkValidityOfReplacementEvents at hvalid ⊢
    split at hvalid
    · split_ifs at hvalid with h₁ h₂ h₃ h₄ h₅ h₆ h₇
      rw [if_neg h₁, if_neg h₂, if_neg h₃, if_neg h₄, if_neg h₅, if_neg h₆, if_neg]
      rintro ⟨hsome, hnone⟩
      rcases henc with henc | henc
      · exact henc (isNone_iff_eq_none.mp hnone)
      · simp [henc] at hsome
    · cases hvalid
  unfold candidate validEditKey
  rw [hkind, hid, hjson, horiginal]
  simp only [hedit, hvalid', map_some]
  rw [← hc]

theorem candidate_encrypted : c.1.encryptionInfo ≠ none ∨ event.encryptionInfo = none := by
  obtain ⟨eventId, -, -, hkey⟩ := candidate_eq_some h
  obtain ⟨originalJson, editJson, -, -, -, hvalid⟩ := exists_checkValidity hkey
  unfold checkValidityOfReplacementEvents at hvalid
  split at hvalid
  · split_ifs at hvalid with h₁ h₂ h₃ h₄ h₅ h₆ h₇
    by_contra hnot
    push Not at hnot
    exact h₇ ⟨isSome_iff_ne_none.mpr hnot.2, by simp [hnot.1]⟩
  · cases hvalid

end

section

variable (hids : (l.map (·.ownId)).Nodup)
include hids

/-- Two edits with the same key are the same one. -/
theorem candidate_unique {c' : PendingEdit × EditKey} (hc : c ∈ l.filterMap (candidate event))
    (hc' : c' ∈ l.filterMap (candidate event)) (hkey : c.2 = c'.2) : c = c' := by
  obtain ⟨a, ha, hcandidate⟩ := mem_filterMap.mp hc
  obtain ⟨a', ha', hcandidate'⟩ := mem_filterMap.mp hc'
  have hown : ∀ {a : Aggregation} {c : PendingEdit × EditKey}, candidate event a = some c →
      a.ownId = .eventId (ofLex c.2).2 := by
    intro a c h
    obtain ⟨eventId, -, hid, hkeyc⟩ := candidate_eq_some h
    obtain ⟨originalJson, editJson, -, -, hc, -⟩ := exists_checkValidity hkeyc
    rw [hid, hc]
    rfl
  have haa' : a = a' := by
    apply inj_on_of_nodup_map hids ha ha'
    rw [hown hcandidate, hown hcandidate', hkey]
  subst haa'
  rw [hcandidate] at hcandidate'
  exact Option.some.inj hcandidate'

theorem latestEdit_eq_some_iff :
    latestEdit event l = some edit ↔ ∃ key, (edit, key) ∈ l.filterMap (candidate event) ∧
      ∀ c ∈ l.filterMap (candidate event), c.2 ≤ key := by
  unfold latestEdit
  rw [map_eq_some_iff]
  constructor
  · rintro ⟨⟨edit', key⟩, hmax, rfl⟩
    exact ⟨key, argmax_mem hmax, fun c hc => le_of_mem_argmax hc hmax⟩
  · rintro ⟨key, hmem, hle⟩
    refine ⟨(edit, key), argmax_eq_some_iff.mpr ⟨hmem, hle, ?_⟩, rfl⟩
    intro c hc hge
    rw [candidate_unique hids hc hmem (le_antisymm (hle c hc) hge)]

/-- An encrypted edit that is the latest one stays so when the event counts as encrypted. -/
theorem latestEdit_of_encryption (h : latestEdit event l = some edit)
    (hjson : event'.originalJson = event.originalJson)
    (hevent : event'.encryptionInfo = none → event.encryptionInfo = none)
    (henc : edit.encryptionInfo ≠ none ∨ event'.encryptionInfo = none) :
    latestEdit event' l = some edit := by
  rw [latestEdit_eq_some_iff hids] at h ⊢
  obtain ⟨key, hmem, hle⟩ := h
  refine ⟨key, ?_, ?_⟩
  · obtain ⟨a, ha, hcandidate⟩ := mem_filterMap.mp hmem
    exact mem_filterMap.mpr ⟨a, ha, candidate_of_encryption hcandidate hjson henc⟩
  · intro c hc
    obtain ⟨a, ha, hcandidate⟩ := mem_filterMap.mp hc
    apply hle c
    refine mem_filterMap.mpr ⟨a, ha, candidate_of_encryption hcandidate hjson.symm ?_⟩
    exact (candidate_encrypted hcandidate).imp_right hevent

end

theorem latestEdit_congr (hjson : event'.originalJson = event.originalJson)
    (henc : event'.encryptionInfo = event.encryptionInfo) :
    latestEdit event' l = latestEdit event l := by
  have hcandidate : candidate event' = candidate event := by
    funext a
    unfold candidate validEditKey
    rw [hjson, henc]
  unfold latestEdit
  rw [hcandidate]

section

variable (h : latestEdit event l = some edit)
include h

theorem mem_of_latestEdit : ∃ a ∈ l, ∃ key, candidate event a = some (edit, key) := by
  obtain ⟨⟨edit', key⟩, hmax, rfl⟩ := map_eq_some_iff.mp h
  obtain ⟨a, ha, hcandidate⟩ := mem_filterMap.mp (argmax_mem hmax)
  exact ⟨a, ha, key, hcandidate⟩

theorem isValidEdit_of_latestEdit : isValidEdit event edit = true := by
  obtain ⟨a, -, key, hcandidate⟩ := mem_of_latestEdit h
  obtain ⟨eventId, -, -, hkey⟩ := candidate_eq_some hcandidate
  obtain ⟨originalJson, editJson, horiginal, hedit, -, hvalid⟩ := exists_checkValidity hkey
  unfold isValidEdit
  rw [horiginal, hedit]
  simp [hvalid, Except.isOk, Except.toBool]

theorem editJson_of_latestEdit : edit.editJson ≠ none := by
  obtain ⟨a, -, key, hcandidate⟩ := mem_of_latestEdit h
  obtain ⟨eventId, -, -, hkey⟩ := candidate_eq_some hcandidate
  obtain ⟨originalJson, editJson, -, hedit, -⟩ := exists_checkValidity hkey
  exact ne_of_eq_of_ne hedit (by simp)

end

theorem editSendState_eq_none (hadd : ∀ a ∈ l, IsAddition a) : editSendState l = none := by
  have hnone : (l.filter (·.kind.isEdit)).filterMap (·.sendState) = [] := by
    rw [filterMap_eq_nil_iff]
    intro a ha
    exact (hadd a (mem_of_mem_filter ha)).sent
  unfold editSendState
  rw [hnone]
  rfl

theorem editContent_eq (content : MsgLikeContent) :
    editContent rules edit.kind content = if fits rules edit (.msgLike content) then
      some (wearKind rules edit content.kind) else none := by
  obtain ⟨kind, inReplyTo, threadRoot, threadSummary⟩ := content
  cases hedit : edit.kind with
  | roomMessage newContent =>
    cases kind with
    | message message => simp [fits, editContent, wearKind, wearMessage, hedit]
    | _ => simp [fits, editContent, hedit]
  | poll newContent =>
    cases kind with
    | poll state =>
      by_cases hend : state.endEventTimestamp = none
      · simp [fits, editContent, PollState.edit, hend, wearKind, wearPoll, hedit]
      · simp [fits, editContent, PollState.edit, hend, hedit]
    | _ => simp [fits, editContent, hedit]

theorem editItem_eq (hvalid : isValidEdit event edit = true) :
    editItem rules event edit false = if fits rules edit event.content then
      some { wear rules edit event with
        uneditedKind := event.uneditedKind
        editSendState := event.editSendState } else none := by
  unfold editItem
  cases hcontent : event.content with
  | msgLike content =>
    simp only [hvalid, editContent_eq]
    by_cases hfits : fits rules edit (.msgLike content) = true
    · cases hkind : event.kind with
      | localEcho | remote =>
        cases henc : edit.encryptionInfo with
        | none | some => simp [hfits, wear, wearContent, EventTimelineItem.withContentAndLatestEdit,
            EventTimelineItem.withEncryptionInfo, hkind, henc, hcontent]
    · simp [hfits]
  | _ => simp [hvalid, fits]

/-- Resolving the edits of the server puts the latest one over the item, where it fits. -/
theorem resolveEdits_eq (hadd : ∀ a ∈ l, IsAddition a) :
    resolveEdits rules l event =
      ((latestEdit event l).filter fun edit => fits rules edit event.content).map
        fun edit => wear rules edit event := by
  unfold resolveEdits
  have hown : l.filterMap ownEdit = [] := by
    rw [filterMap_eq_nil_iff]
    intro a ha
    obtain ⟨eventId, hid⟩ := (hadd a ha).remote
    unfold ownEdit
    simp only [(hadd a ha).sent, hid]
    split <;> rfl
  have hselect : selectEdit event none l = (latestEdit event l).map fun edit => (edit, false) := by
    rw [selectEdit_eq_or, hown]
    rfl
  rw [hselect, editSendState_eq_none hadd]
  cases hlatest : latestEdit event l with
  | none => rfl
  | some edit =>
    simp only [map_some, bind_eq_bind, bind_some, editItem_eq (isValidEdit_of_latestEdit hlatest)]
    by_cases hfits : fits rules edit event.content = true
    · simp [hfits, wear]
    · simp [hfits]

end Selection

section Choice

/-- The edit to display: our last one, or else the one with the greatest key. -/
def displayedEdit (event : EventTimelineItem) (l : List Aggregation) :
    Option (PendingEdit × Bool) :=
  ((l.filterMap ownEdit).getLast?.map (·, true)).or ((latestEdit event l).map (·, false))

/-- The aggregations that are edits of ours, or valid ones. -/
def eligible (event : EventTimelineItem) (l : List Aggregation) : List Aggregation :=
  l.filter fun a => (ownEdit a).isSome || (candidate event a).isSome

/-- Only edits of ours have a send state. -/
theorem editSendState_eq : editSendState l =
    maxByRank none (l.filterMap fun a => (ownEdit a).bind fun _ => a.sendState) := by
  unfold editSendState
  rw [filterMap_filter]
  congr 2
  funext a
  obtain ⟨kind, ownId, sendState⟩ := a
  cases kind <;> cases sendState <;> cases ownId <;> rfl

theorem filterMap_eligible {β : Type} {f : Aggregation → Option β}
    (hf : ∀ a, ownEdit a = none → candidate event a = none → f a = none) :
    (eligible event l).filterMap f = l.filterMap f := by
  unfold eligible
  rw [filterMap_filter]
  congr 1
  funext a
  split_ifs with hany
  · rfl
  · simp only [Bool.or_eq_true, not_or, Bool.not_eq_true, isSome_eq_false_iff, isNone_iff_eq_none]
      at hany
    exact (hf a hany.1 hany.2).symm

/-- What is not eligible changes nothing. -/
theorem resolveEdits_eligible :
    resolveEdits rules (eligible event l) event = resolveEdits rules l event := by
  have hown : (eligible event l).filterMap ownEdit = l.filterMap ownEdit :=
    filterMap_eligible fun a h _ => h
  have hlatest : latestEdit event (eligible event l) = latestEdit event l := by
    unfold latestEdit
    rw [filterMap_eligible fun a _ h => h]
  unfold resolveEdits
  rw [selectEdit_eq_or, selectEdit_eq_or, hown, hlatest, editSendState_eq, editSendState_eq,
    filterMap_eligible fun a h _ => by simp [h]]

/-- With one edit of ours at most, what is selected is the edit to display. -/
theorem selectEdit_cases : selectEdit event none l = displayedEdit event l ∨
    1 < (l.filterMap ownEdit).length ∧
      ∃ own ∈ l.filterMap ownEdit, selectEdit event none l = some (own, true) := by
  rw [selectEdit_eq_or, displayedEdit]
  rcases l.filterMap ownEdit with _ | ⟨first, _ | ⟨second, rest⟩⟩
  · exact .inl rfl
  · exact .inl rfl
  · exact .inr ⟨by simp, first, by simp, rfl⟩

/-- The order of what is not an edit of ours changes nothing. -/
theorem resolveEdits_perm {l' : List Aggregation} (hids : (l.map (·.ownId)).Nodup)
    (hperm : l'.Perm l)
    (hours : l'.filter (ownEdit · |>.isSome) = l.filter (ownEdit · |>.isSome)) :
    resolveEdits rules l' event = resolveEdits rules l event := by
  have hfilter {β : Type} (f : Aggregation → Option β) (hf : ∀ a, ownEdit a = none → f a = none) :
      l'.filterMap f = l.filterMap f := by
    have hsome : ∀ l : List Aggregation,
        (l.filter (ownEdit · |>.isSome)).filterMap f = l.filterMap f := by
      intro l
      rw [filterMap_filter]
      congr 1
      funext a
      cases hown : ownEdit a with
      | none => simp [hf a hown]
      | some edit => rfl
    rw [← hsome, hours, hsome]
  have hlatest : latestEdit event l' = latestEdit event l := by
    ext edit
    rw [latestEdit_eq_some_iff hids, latestEdit_eq_some_iff ((hperm.map _).nodup_iff.mpr hids)]
    simp only [(hperm.filterMap (candidate event)).mem_iff]
  unfold resolveEdits
  rw [selectEdit_eq_or, selectEdit_eq_or, hfilter ownEdit fun _ h => h, hlatest, editSendState_eq,
    editSendState_eq, hfilter _ fun a h => by simp [h]]

end Choice

end MatrixSdk.WornEdits

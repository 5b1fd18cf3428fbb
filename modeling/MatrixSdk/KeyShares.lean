import MatrixSdk.GroupSessionManagers
import MatrixSdk.RecipientLists

/-!
Whom the key of a session has been shared with, and when the check for new recipients notices
that this is too much: a session that need not be rotated is shared with recipients only.
-/
namespace MatrixSdk.KeyShares

open KeyedMaps DeviceTrust OutboundSessions ShareStrategies RecipientLists GroupSessionManagers
open KeyedMap List Collected

variable {checks : SignatureChecks} {outbound : Option OutboundGroupSession}
variable {store : IdentityStore} {strategy : CollectStrategy} {state : Collected}
variable {session : OutboundGroupSession} {users : List String} {key : String × String}

theorem mem_iterShares {info : ShareInfo} :
    (key, info) ∈ session.iterShares ↔ session.sharedWithSet.lookup key = some info ∨
      ∃ requestId request infos,
        session.toShareWithSet.lookup requestId = some (request, infos) ∧
          infos.lookup key = some info := by
  have hentries : ∀ infos : ShareInfoSet,
      (key, info) ∈ infos.entries.map (fun entry => (entry.1, entry.2)) ↔
        infos.lookup key = some info := by
    intro infos
    simp only [mem_map, Prod.mk.injEq]
    constructor
    · rintro ⟨⟨k, i⟩, hmem, rfl, rfl⟩
      exact AList.mem_lookup_iff.mpr hmem
    · intro hlookup
      exact ⟨⟨key, info⟩, AList.mem_lookup_iff.mp hlookup, rfl, rfl⟩
  unfold OutboundGroupSession.iterShares
  rw [mem_append, hentries, mem_flatMap]
  apply or_congr_right
  constructor
  · rintro ⟨⟨request, infos⟩, hpending, hinfo⟩
    obtain ⟨requestId, hlookup⟩ := (mem_values _ _).mp hpending
    exact ⟨requestId, request, infos, hlookup, (hentries infos).mp hinfo⟩
  · rintro ⟨requestId, request, infos, hlookup, hinfo⟩
    exact ⟨(request, infos), (mem_values _ _).mpr ⟨requestId, hlookup⟩, (hentries infos).mpr hinfo⟩

/-- The session has been shared with these users and devices at most. -/
def SharesWithin (session : OutboundGroupSession) (allowed : String × String → Prop) : Prop :=
  ∀ key info, (key, .shared info) ∈ session.iterShares → allowed key

/-- This is the user and the device of a recipient. -/
def IsRecipient (result : CollectRecipientsResult) (key : String × String) : Prop :=
  ∃ device ∈ recipients result, (device.userId, device.deviceId) = key

theorem shouldRotate_considerUser {user : String} (h : state.result.shouldRotate = true) :
    (considerUser checks outbound store strategy state user).result.shouldRotate = true := by
  unfold considerUser
  cases strategy <;> simp only
  · simp [addRecipients, updateRecipientsForUser, h]
  · split
    · exact h
    · split
      · exact h
      · simp [addRecipients, updateRecipientsForUser, h]
  · split
    · exact h
    · simp [addRecipients, updateRecipientsForUser, h]
  · simp [addRecipients, updateRecipientsForUser, h]

theorem shouldRotate_foldl (h : state.result.shouldRotate = true) :
    (users.foldl (considerUser checks outbound store strategy) state).result.shouldRotate =
      true := by
  induction users generalizing state with
  | nil => exact h
  | cons user users ih => exact ih (shouldRotate_considerUser h)

/-- A session that is not noticed to be overshared went to recipients of each user only. -/
theorem recipient_of_not_shouldRotate {result : CollectRecipientsResult} {info : SharedWith}
    (hown : strategy = .identityBasedStrategy → ownIdentityError store.ownIdentity = none)
    (hcollects : Collects checks store strategy users result)
    (hclean : Clean (users.foldl (considerUser checks (some session) store strategy) state))
    (hrotate : (users.foldl (considerUser checks (some session) store strategy)
      state).result.shouldRotate = false)
    (hmem : key.1 ∈ users) (hshare : (key, .shared info) ∈ session.iterShares) :
    IsRecipient result key := by
  -- the turn for the user of the share, which comes somewhere in the loop
  have hturn : ∀ state, Clean (considerUser checks (some session) store strategy state key.1) →
      (considerUser checks (some session) store strategy state key.1).result.shouldRotate =
        false → IsRecipient result key := by
    intro state hclean hrotate
    rcases considerUser_cases hown with ⟨devices, heq, hsplit, -⟩ | heq | ⟨devices, heq⟩
    · rw [heq] at hrotate
      simp [addRecipients, updateRecipientsForUser] at hrotate
      have hdevice : key.2 ∈ devices.allowedDevices.map DeviceData.deviceId := by
        have hnone := any_eq_false.mp hrotate.2 _ hshare
        simpa [ShareInfo.isShared] using hnone
      obtain ⟨device, hallowed, hid⟩ := mem_map.mp hdevice
      obtain ⟨hknown, hdecision⟩ := (hsplit.mem_allowed device).mp hallowed
      refine ⟨device, (hcollects.mem_recipients device).mpr ⟨key.1, hmem, hknown, hdecision⟩, ?_⟩
      exact Prod.ext (IdentityStore.userId_of_mem_filtered hknown) hid
    · rw [heq] at hclean
      simp [Clean] at hclean
    · rw [heq] at hclean
      simp [Clean] at hclean
  obtain ⟨before, after, rfl⟩ := append_of_mem hmem
  rw [foldl_append, foldl_cons] at hclean hrotate
  refine hturn _ (clean_of_clean_foldl hclean) ?_
  by_contra hnot
  rw [shouldRotate_foldl (by simpa using hnot)] at hrotate
  cases hrotate

variable {settings : EncryptionSettings} {keys : EncryptedKeys} {txnId : ℕ}

theorem sharesWithin_of_not_shouldRotate {result : CollectRecipientsResult}
    (h : collectSessionRecipients checks store users settings session = .ok result)
    (hrotate : result.shouldRotate = false) : SharesWithin session (IsRecipient result) := by
  unfold collectSessionRecipients at h
  cases hcollect : collectRecipientsForShareStrategy checks (some session) store users
      settings.sharingStrategy with
  | error error =>
    rw [hcollect] at h
    cases h
  | ok collected =>
    rw [hcollect] at h
    cases h
    simp at hrotate
    have hcollects := collects_of_ok hcollect
    obtain ⟨hown, hclean, rfl⟩ := collect_eq_ok_iff.mp hcollect
    intro key info hshare
    have hstays : key.1 ∈ userSet users := by
      by_contra hleft
      have hstart : (startState (some session) users).result.shouldRotate = true := by
        apply any_eq_true.mpr
        refine ⟨key.1, ?_, by simpa using hleft⟩
        exact mem_map.mpr ⟨(key, .shared info), mem_filter.mpr ⟨hshare, rfl⟩, rfl⟩
      have hfinal : (finalState checks (some session) store settings.sharingStrategy
          users).result.shouldRotate = true := shouldRotate_foldl hstart
      rw [hfinal] at hrotate
      cases hrotate.1.1
    have hrecipient :=
      recipient_of_not_shouldRotate hown hcollects hclean hrotate.1.1 hstays hshare
    exact hrecipient

/-- Two states of the loop that differ in the flag for the rotation at most. -/
structure SameRecipients (state other : Collected) : Prop where
  devices : state.result.devices = other.result.devices
  withheld : state.result.withheldDevices = other.result.withheldDevices
  changed : state.verifiedUsersWithNewIdentities = other.verifiedUsersWithNewIdentities
  unsigned : state.unsignedDevicesOfVerifiedUsers = other.unsignedDevicesOfVerifiedUsers

variable {other : Collected} {olm : DeviceData → RoomKeyEncryption} {α : Type}

theorem SameRecipients.considerUser (h : SameRecipients state other) (user : String) :
    SameRecipients (considerUser checks outbound store strategy state user)
      (considerUser checks none store strategy other user) := by
  have hadd : ∀ devices, SameRecipients (state.addRecipients outbound user devices)
      (other.addRecipients none user devices) := fun devices =>
    ⟨congrArg (extendEntry user devices.allowedDevices) h.devices,
      congrArg (· ++ devices.deniedDevicesWithCode) h.withheld, h.changed, h.unsigned⟩
  have hchanged : SameRecipients
      { state with verifiedUsersWithNewIdentities :=
          state.verifiedUsersWithNewIdentities ++ [user] }
      { other with verifiedUsersWithNewIdentities :=
          other.verifiedUsersWithNewIdentities ++ [user] } :=
    ⟨h.devices, h.withheld, congrArg (· ++ [user]) h.changed, h.unsigned⟩
  unfold ShareStrategies.considerUser
  cases strategy <;> simp only
  · exact hadd _
  · split
    · exact hchanged
    · split
      · next devices _ =>
        exact ⟨h.devices, h.withheld, h.changed, congrArg (· ++ [(user, devices)]) h.unsigned⟩
      · exact hadd _
  · split
    · exact hchanged
    · exact hadd _
  · exact hadd _

theorem SameRecipients.foldl (h : SameRecipients state other) :
    SameRecipients (users.foldl (ShareStrategies.considerUser checks outbound store strategy) state)
      (users.foldl (ShareStrategies.considerUser checks none store strategy) other) := by
  induction users generalizing state other with
  | nil => exact h
  | cons user users ih => exact ih (h.considerUser user)

theorem sameRecipients_finalState :
    SameRecipients (finalState checks (some session) store strategy users)
      (finalState checks none store strategy users) :=
  SameRecipients.foldl ⟨rfl, rfl, rfl, rfl⟩

theorem clean_finalState_iff : Clean (finalState checks (some session) store strategy users) ↔
    Clean (finalState checks none store strategy users) := by
  have hsame : SameRecipients (finalState checks (some session) store strategy users)
    (finalState checks none store strategy users) := sameRecipients_finalState
  unfold Clean
  rw [hsame.changed, hsame.unsigned]

/-- The recipients do not depend on the session that is to be shared. -/
theorem recipients_of_collectSessionRecipients {result : CollectRecipientsResult}
    (h : collectSessionRecipients checks store users settings session = .ok result) :
    ∃ collected, collectRecipientsForShareStrategy checks none store users
        settings.sharingStrategy = .ok collected ∧
      ∀ key, IsRecipient result key → IsRecipient collected key := by
  unfold collectSessionRecipients at h
  cases hcollect : collectRecipientsForShareStrategy checks (some session) store users
      settings.sharingStrategy with
  | error error =>
    rw [hcollect] at h
    cases h
  | ok collected =>
    rw [hcollect] at h
    cases h
    obtain ⟨hown, hclean, rfl⟩ := collect_eq_ok_iff.mp hcollect
    have hsame : SameRecipients
        (finalState checks (some session) store settings.sharingStrategy users)
        (finalState checks none store settings.sharingStrategy users) := sameRecipients_finalState
    refine ⟨_, collect_eq_ok_iff.mpr ⟨hown, clean_finalState_iff.mp hclean, rfl⟩,
      fun key hkey => ?_⟩
    unfold IsRecipient recipients at hkey ⊢
    rw [← hsame.devices]
    exact hkey

/-- Nor does it depend on the session whether the recipients can be collected. -/
theorem collectSessionRecipients_of_collect {collected : CollectRecipientsResult}
    (h : collectRecipientsForShareStrategy checks none store users settings.sharingStrategy =
      .ok collected) :
    ∃ result, collectSessionRecipients checks store users settings session = .ok result ∧
      recipients result = recipients collected := by
  obtain ⟨hown, hclean, rfl⟩ := collect_eq_ok_iff.mp h
  have hcollect : collectRecipientsForShareStrategy checks (some session) store users
      settings.sharingStrategy =
        .ok (finalState checks (some session) store settings.sharingStrategy users).result :=
    collect_eq_ok_iff.mpr ⟨hown, clean_finalState_iff.mpr hclean, rfl⟩
  unfold collectSessionRecipients
  rw [hcollect]
  refine ⟨_, rfl, ?_⟩
  exact congrArg (List.flatMap Prod.snd) sameRecipients_finalState.devices

/-- The keys that a request brings are those of one session, and the infos record them. -/
def Carries (sessionId : ℕ) (request : ToDeviceRequest) (infos : ShareInfoSet) : Prop :=
  ∀ key id index, request.messages.lookup key = some (.roomKey id index) →
    id = sessionId ∧ ∃ info, infos.lookup key = some (.shared info)

/-- The messages and infos made for some devices. -/
structure KeysFor (session : OutboundGroupSession) (devices : List DeviceData)
    (keys : EncryptedKeys) : Prop where
  recorded : ∀ key content, keys.messages.lookup key = some content →
    content = .roomKey session.sessionId session.messageIndex ∧
      ∃ info, keys.shareInfos.lookup key = some (.shared info)
  addressed : ∀ key info, keys.shareInfos.lookup key = some (.shared info) →
    ∃ device ∈ devices, (device.userId, device.deviceId) = key

theorem KeysFor.encryptRoomKey {devices : List DeviceData} {keys' : EncryptedKeys}
    {device : DeviceData} (h : KeysFor session devices keys) (hdevice : device ∈ devices)
    (hencrypt : encryptRoomKey session olm keys device = some keys') :
    KeysFor session devices keys' := by
  unfold GroupSessionManagers.encryptRoomKey at hencrypt
  cases holm : olm device with
  | failed => simp [holm] at hencrypt
  | missingSession =>
    simp [holm] at hencrypt
    subst hencrypt
    exact ⟨h.recorded, h.addressed⟩
  | encrypted senderKey =>
    simp [holm] at hencrypt
    subst hencrypt
    refine ⟨fun key content hlookup => ?_, fun key info hlookup => ?_⟩
    · rcases lookup_insert_cases hlookup with ⟨rfl, rfl⟩ | ⟨hkey, hlookup⟩
      · exact ⟨rfl, _, AList.lookup_insert _⟩
      · obtain ⟨hcontent, info, hinfo⟩ := h.recorded key content hlookup
        exact ⟨hcontent, info, by rw [AList.lookup_insert_ne hkey]; exact hinfo⟩
    · rcases lookup_insert_cases hlookup with ⟨rfl, -⟩ | ⟨-, hlookup⟩
      · exact ⟨device, hdevice, rfl⟩
      · exact h.addressed key info hlookup

theorem keysFor_encryptSessionFor {devices : List DeviceData}
    (h : encryptSessionFor session olm devices = some keys) : KeysFor session devices keys := by
  have hfold : ∀ (rest : List DeviceData) start, (∀ device ∈ rest, device ∈ devices) →
      KeysFor session devices start →
      rest.foldlM (GroupSessionManagers.encryptRoomKey session olm) start = some keys →
      KeysFor session devices keys := by
    intro rest
    induction rest with
    | nil =>
      intro start _ hstart hrest
      simp at hrest
      rw [← hrest]
      exact hstart
    | cons device rest ih =>
      intro start hsub hstart hrest
      rw [foldlM_cons] at hrest
      obtain ⟨next, hnext, hrest⟩ := Option.bind_eq_some_iff.mp hrest
      exact ih next (fun d hd => hsub d (by simp [hd]))
        (hstart.encryptRoomKey (hsub device (by simp)) hnext) hrest
  refine hfold devices .empty (fun _ hd => hd) ⟨?_, ?_⟩ h
  · intro key content hlookup
    simp [EncryptedKeys.empty] at hlookup
  · intro key info hlookup
    simp [EncryptedKeys.empty] at hlookup

theorem KeysFor.carries {devices : List DeviceData} (h : KeysFor session devices keys) :
    Carries session.sessionId ⟨.roomEncrypted, txnId, keys.messages⟩ keys.shareInfos := by
  intro key id index hlookup
  obtain ⟨hcontent, info, hinfo⟩ := h.recorded key _ hlookup
  cases hcontent
  exact ⟨rfl, info, hinfo⟩

/-- Every value of a map that is filled from a list was there or comes from the list. -/
theorem exists_of_lookup_foldl {β : Type} {name : α → String × String} {value : α → β}
    {entries : List α} {map : KeyedMap (String × String) β} {result : β}
    (h : (entries.foldl (fun map entry => map.insert (name entry) (value entry)) map).lookup key =
      some result) : map.lookup key = some result ∨ ∃ entry, result = value entry := by
  induction entries generalizing map with
  | nil => exact .inl h
  | cons entry entries ih =>
    rcases ih h with hmap | hentry
    · rcases lookup_insert_cases hmap with ⟨-, hvalue⟩ | ⟨-, hmap⟩
      · exact .inr ⟨entry, hvalue.symm⟩
      · exact .inl hmap
    · exact .inr hentry

theorem mem_of_mem_chunks {size : ℕ} {list piece : List α} {x : α}
    (hpiece : piece ∈ chunks size list) (hx : x ∈ piece) : x ∈ list := by
  have hgo : ∀ fuel list, piece ∈ chunks.go size fuel list → x ∈ list := by
    intro fuel
    induction fuel with
    | zero =>
      intro list h
      simp [chunks.go] at h
    | succ fuel ih =>
      intro list h
      cases list with
      | nil => simp [chunks.go] at h
      | cons y ys =>
        rcases mem_cons.mp h with rfl | h
        · exact mem_of_mem_take hx
        · exact mem_of_mem_drop (ih _ h)
  exact hgo _ _ hpiece

end MatrixSdk.KeyShares

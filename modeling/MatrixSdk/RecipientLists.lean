import MatrixSdk.ShareStrategies

/-!
The recipients that a strategy collects for a list of users, compared with its decision on a
single device. The collection is the decision taken for every device of every user, except
for our own device.
-/
namespace MatrixSdk.RecipientLists

open DeviceTrust OutboundSessions ShareStrategies List IdentityStore

variable {checks : SignatureChecks} {outbound : Option OutboundGroupSession}
variable {store : IdentityStore} {strategy : CollectStrategy} {state : Collected}
variable {user : String} {users : List String} {device : DeviceData}

def recipients (result : CollectRecipientsResult) : List DeviceData :=
  result.devices.flatMap Prod.snd

/-- The decision on a single device of the store. -/
def decision (checks : SignatureChecks) (store : IdentityStore) (strategy : CollectStrategy)
    (user : String) (device : DeviceData) :
    Except SessionRecipientCollectionError (Option WithheldCode) :=
  withheldCodeForDeviceForShareStrategy checks store.ownIdentity (store.getUserIdentity user)
    device strategy

/-- The devices of a user are split as the decision on each of them says. -/
structure Split (decide : DeviceData → Except SessionRecipientCollectionError (Option WithheldCode))
    (devices : List DeviceData) (split : RecipientDevicesForUser) : Prop where
  mem_allowed : ∀ device,
    device ∈ split.allowedDevices ↔ device ∈ devices ∧ decide device = .ok none
  mem_denied : ∀ device code, (device, code) ∈ split.deniedDevicesWithCode ↔
    device ∈ devices ∧ decide device = .ok (some code)
  total : ∀ device ∈ devices, ∃ code, decide device = .ok code

theorem split_partitionDevices
    {decide : DeviceData → Except SessionRecipientCollectionError (Option WithheldCode)}
    {withheldCode : DeviceData → Option WithheldCode}
    (h : ∀ device, decide device = .ok (withheldCode device)) (devices : List DeviceData) :
    Split decide devices (partitionDevices withheldCode devices) where
  mem_allowed device := by simp [partitionDevices, h]
  mem_denied device code := by
    simp only [partitionDevices, mem_filterMap, Option.map_eq_some_iff, Prod.mk.injEq, h,
      Except.ok.injEq]
    constructor
    · rintro ⟨d, hd, c, hc, rfl, rfl⟩
      exact ⟨hd, hc⟩
    · rintro ⟨hd, hc⟩
      exact ⟨device, hd, code, hc, rfl, rfl⟩
  total device _ := ⟨_, h device⟩

section

variable (hviolation : hasIdentityVerificationViolation checks store.ownIdentity
  (store.getUserIdentity user) = false)
include hviolation

theorem split_identityBased (hown : ownIdentityError store.ownIdentity = none) :
    Split (decision checks store .identityBasedStrategy user)
      (store.getDeviceDataForUserFiltered user)
      (splitDevicesForUserForIdentityBasedStrategy checks (store.getUserIdentity user)
        (store.getDeviceDataForUserFiltered user)) := by
  have hdecision : ∀ device, decision checks store .identityBasedStrategy user device =
      (store.getUserIdentity user).elim (.ok (some .unverified)) fun owner =>
        .ok (withheldCodeForDeviceWithOwnerForIdentityBasedStrategy checks device owner) := by
    intro device
    unfold decision withheldCodeForDeviceForShareStrategy
    cases howner : store.getUserIdentity user with
    | some | none =>
      rw [howner] at hviolation
      simp [hown, hviolation]
  unfold splitDevicesForUserForIdentityBasedStrategy
  cases howner : store.getUserIdentity user with
  | some owner =>
    apply split_partitionDevices
    intro device
    rw [hdecision, howner]
    rfl
  | none =>
    simp [howner] at hdecision
    refine ⟨fun device => ?_, fun device code => ?_, fun device _ => ⟨_, hdecision device⟩⟩
    · simp [hdecision]
    · simp only [hdecision, mem_map, Prod.mk.injEq, Except.ok.injEq, Option.some.injEq]
      constructor
      · rintro ⟨d, hd, rfl, hcode⟩
        exact ⟨hd, hcode⟩
      · rintro ⟨hd, hcode⟩
        exact ⟨device, hd, rfl, hcode⟩

theorem split_errorOnVerifiedUserProblem {devices : RecipientDevicesForUser}
    (hsplit : splitDevicesForUserForErrorOnVerifiedUserProblemStrategy checks store.ownIdentity
      (store.getUserIdentity user) (store.getDeviceDataForUserFiltered user) = .ok devices) :
    Split (decision checks store .errorOnVerifiedUserProblem user)
      (store.getDeviceDataForUserFiltered user) devices := by
  unfold splitDevicesForUserForErrorOnVerifiedUserProblemStrategy at hsplit
  simp only at hsplit
  split_ifs at hsplit with hunsigned
  cases hsplit
  unfold decision withheldCodeForDeviceForShareStrategy
  simp only [hviolation, Bool.false_eq_true, if_false]
  generalize handleDeviceForUserForErrorOnVerifiedUserProblemStrategy checks store.ownIdentity
    (store.getUserIdentity user) = handle at hunsigned ⊢
  have hsigned : ∀ device ∈ store.getDeviceDataForUserFiltered user,
      handle device ≠ .unsignedOfVerified := by
    simpa [filter_eq_nil_iff] using isEmpty_iff.mp hunsigned
  refine ⟨fun device => ?_, fun device code => ?_, fun device hdevice => ?_⟩
  · simp only [mem_filter, decide_eq_true_eq]
    apply and_congr_right
    intro hdevice
    cases hdecision : handle device <;> simp
  · simp only [mem_filterMap]
    constructor
    · rintro ⟨d, hd, hcode⟩
      cases hdecision : handle d with
      | ok => simp [hdecision] at hcode
      | unsignedOfVerified => exact absurd hdecision (hsigned d hd)
      | withhold code' =>
        simp [hdecision] at hcode
        obtain ⟨rfl, rfl⟩ := hcode
        exact ⟨hd, by simp [hdecision]⟩
    · rintro ⟨hd, hcode⟩
      refine ⟨device, hd, ?_⟩
      cases hdecision : handle device with
      | ok => simp [hdecision] at hcode
      | unsignedOfVerified => exact absurd hdecision (hsigned device hd)
      | withhold code' => simpa [hdecision] using hcode
  · cases hdecision : handle device with
    | ok => exact ⟨none, rfl⟩
    | unsignedOfVerified => exact absurd hdecision (hsigned device hdevice)
    | withhold code => exact ⟨some code, rfl⟩

end

/-- A user whose identity has changed since it was verified stops the strategies that look
for it. -/
def Unviolated (checks : SignatureChecks) (store : IdentityStore) (strategy : CollectStrategy)
    (user : String) : Prop :=
  strategy = .errorOnVerifiedUserProblem ∨ strategy = .identityBasedStrategy →
    hasIdentityVerificationViolation checks store.ownIdentity (store.getUserIdentity user) = false

theorem mem_extendEntry {devices : List DeviceData} {entries : List (String × List DeviceData)} :
    device ∈ (extendEntry user devices entries).flatMap Prod.snd ↔
      device ∈ entries.flatMap Prod.snd ∨ device ∈ devices := by
  induction entries with
  | nil => simp [extendEntry]
  | cons entry entries ih =>
    obtain ⟨key, present⟩ := entry
    unfold extendEntry
    split
    · simp only [flatMap_cons, mem_append]
      tauto
    · simp only [flatMap_cons, mem_append, ih]
      tauto

/-- No problem has been recorded. -/
def Clean (state : Collected) : Prop :=
  state.verifiedUsersWithNewIdentities = [] ∧ state.unsignedDevicesOfVerifiedUsers = []

/-- What has been collected when the users of the list have been considered. -/
structure Collects (checks : SignatureChecks) (store : IdentityStore)
    (strategy : CollectStrategy) (users : List String) (result : CollectRecipientsResult) :
    Prop where
  mem_recipients : ∀ device, device ∈ recipients result ↔ ∃ user ∈ users,
    device ∈ store.getDeviceDataForUserFiltered user ∧
      decision checks store strategy user device = .ok none
  mem_withheld : ∀ device code, (device, code) ∈ result.withheldDevices ↔ ∃ user ∈ users,
    device ∈ store.getDeviceDataForUserFiltered user ∧
      decision checks store strategy user device = .ok (some code)
  total : ∀ user ∈ users, ∀ device ∈ store.getDeviceDataForUserFiltered user,
    ∃ code, decision checks store strategy user device = .ok code
  unviolated : ∀ user ∈ users, Unviolated checks store strategy user

theorem Collects.addRecipients {devices : RecipientDevicesForUser}
    (h : Collects checks store strategy users state.result)
    (hsplit : Split (decision checks store strategy user)
      (store.getDeviceDataForUserFiltered user) devices)
    (hviolation : Unviolated checks store strategy user) :
    Collects checks store strategy (users ++ [user])
      (state.addRecipients outbound user devices).result where
  mem_recipients device := by
    have hextend : device ∈ recipients (state.addRecipients outbound user devices).result ↔
        device ∈ recipients state.result ∨ device ∈ devices.allowedDevices := mem_extendEntry
    rw [hextend, h.mem_recipients, hsplit.mem_allowed]
    simp only [mem_append, mem_singleton, or_and_right, exists_or, exists_eq_left]
  mem_withheld device code := by
    have hextend : (device, code) ∈
          (state.addRecipients outbound user devices).result.withheldDevices ↔
        (device, code) ∈ state.result.withheldDevices ∨
          (device, code) ∈ devices.deniedDevicesWithCode := mem_append
    rw [hextend, h.mem_withheld, hsplit.mem_denied]
    simp only [mem_append, mem_singleton, or_and_right, exists_or, exists_eq_left]
  total := forall_mem_append.mpr ⟨h.total, forall_mem_singleton.mpr hsplit.total⟩
  unviolated := forall_mem_append.mpr ⟨h.unviolated, forall_mem_singleton.mpr hviolation⟩

/-- A problem that has been recorded stays recorded. -/
theorem clean_of_clean_considerUser
    (h : Clean (considerUser checks outbound store strategy state user)) : Clean state := by
  unfold considerUser at h
  cases strategy <;> simp only at h
  · exact h
  · split at h
    · simp [Clean] at h
    · split at h
      · simp [Clean] at h
      · exact h
  · split at h
    · simp [Clean] at h
    · exact h
  · exact h

theorem clean_of_clean_foldl
    (h : Clean (users.foldl (considerUser checks outbound store strategy) state)) :
    Clean state := by
  induction users generalizing state with
  | nil => exact h
  | cons user users ih => exact clean_of_clean_considerUser (ih h)

section

variable (hown : strategy = .identityBasedStrategy → ownIdentityError store.ownIdentity = none)
include hown

/-- A turn of the loop either adds the split of the user's devices or records a problem. -/
theorem considerUser_cases :
    (∃ devices, considerUser checks outbound store strategy state user =
        state.addRecipients outbound user devices ∧
      Split (decision checks store strategy user) (store.getDeviceDataForUserFiltered user)
        devices ∧ Unviolated checks store strategy user) ∨
    (considerUser checks outbound store strategy state user =
      { state with verifiedUsersWithNewIdentities :=
          state.verifiedUsersWithNewIdentities ++ [user] }) ∨
    ∃ devices, considerUser checks outbound store strategy state user =
      { state with unsignedDevicesOfVerifiedUsers :=
          state.unsignedDevicesOfVerifiedUsers ++ [(user, devices)] } := by
  cases strategy with
  | allDevices => exact .inl ⟨_, rfl, split_partitionDevices (fun _ => rfl) _, by simp [Unviolated]⟩
  | onlyTrustedDevices =>
    exact .inl ⟨_, rfl, split_partitionDevices (fun _ => rfl) _, by simp [Unviolated]⟩
  | identityBasedStrategy =>
    cases hviolation : hasIdentityVerificationViolation checks store.ownIdentity
        (store.getUserIdentity user) with
    | true => exact .inr (.inl (by simp [considerUser, hviolation]))
    | false =>
      refine .inl ⟨_, ?_, split_identityBased hviolation (hown rfl), fun _ => hviolation⟩
      simp [considerUser, hviolation]
  | errorOnVerifiedUserProblem =>
    cases hviolation : hasIdentityVerificationViolation checks store.ownIdentity
        (store.getUserIdentity user) with
    | true => exact .inr (.inl (by simp [considerUser, hviolation]))
    | false =>
      cases hsplit : splitDevicesForUserForErrorOnVerifiedUserProblemStrategy checks
          store.ownIdentity (store.getUserIdentity user)
          (store.getDeviceDataForUserFiltered user) with
      | error devices => exact .inr (.inr ⟨devices, by simp [considerUser, hviolation, hsplit]⟩)
      | ok devices =>
        refine .inl ⟨devices, ?_, split_errorOnVerifiedUserProblem hviolation hsplit,
          fun _ => hviolation⟩
        simp [considerUser, hviolation, hsplit]

theorem collects_foldl {seen : List String}
    (hseen : Collects checks store strategy seen state.result)
    (h : Clean (users.foldl (considerUser checks outbound store strategy) state)) :
    Collects checks store strategy (seen ++ users)
      (users.foldl (considerUser checks outbound store strategy) state).result := by
  induction users generalizing state seen with
  | nil => simpa using hseen
  | cons user users ih =>
    have hclean : Clean (considerUser checks outbound store strategy state user) :=
      clean_of_clean_foldl h
    have hturn : Collects checks store strategy (seen ++ [user])
        (considerUser checks outbound store strategy state user).result := by
      rcases considerUser_cases hown with ⟨devices, heq, hsplit, hviolation⟩ | heq | ⟨devices, heq⟩
      · rw [heq]
        exact hseen.addRecipients hsplit hviolation
      · rw [heq] at hclean
        simp [Clean] at hclean
      · rw [heq] at hclean
        simp [Clean] at hclean
    simpa using ih hturn h

end

theorem mem_userSet : user ∈ userSet users ↔ user ∈ users := by
  simp [userSet]

/-- The state before the first user is considered. -/
def startState (outbound : Option OutboundGroupSession) (users : List String) : Collected where
  result := {
    shouldRotate := outbound.any fun session => someUserLeft session (userSet users)
    devices := []
    withheldDevices := [] }
  verifiedUsersWithNewIdentities := []
  unsignedDevicesOfVerifiedUsers := []

/-- The state when all users have been considered. -/
def finalState (checks : SignatureChecks) (outbound : Option OutboundGroupSession)
    (store : IdentityStore) (strategy : CollectStrategy) (users : List String) : Collected :=
  (userSet users).foldl (considerUser checks outbound store strategy) (startState outbound users)

variable {result : CollectRecipientsResult}

/-- The collection succeeds when no problem was found, neither with us nor with a user. -/
theorem collect_eq_ok_iff :
    collectRecipientsForShareStrategy checks outbound store users strategy = .ok result ↔
      (strategy = .identityBasedStrategy → ownIdentityError store.ownIdentity = none) ∧
      Clean (finalState checks outbound store strategy users) ∧
      (finalState checks outbound store strategy users).result = result := by
  have hcollect : collectRecipientsForShareStrategy checks outbound store users strategy =
      (if strategy = .identityBasedStrategy then ownIdentityError store.ownIdentity
        else none).elim
        (if ¬(finalState checks outbound store strategy
            users).unsignedDevicesOfVerifiedUsers.isEmpty
        then .error (.verifiedUserHasUnsignedDevice
          (finalState checks outbound store strategy users).unsignedDevicesOfVerifiedUsers)
        else if ¬(finalState checks outbound store strategy
            users).verifiedUsersWithNewIdentities.isEmpty
        then .error (.verifiedUserChangedIdentity
          (finalState checks outbound store strategy users).verifiedUsersWithNewIdentities)
        else .ok (finalState checks outbound store strategy users).result) .error := by
    unfold collectRecipientsForShareStrategy
    dsimp only
    generalize (if strategy = .identityBasedStrategy then ownIdentityError store.ownIdentity
      else none) = ownError
    cases ownError <;> rfl
  rw [hcollect]
  generalize finalState checks outbound store strategy users = state
  by_cases hunsigned : state.unsignedDevicesOfVerifiedUsers = [] <;>
    by_cases hchanged : state.verifiedUsersWithNewIdentities = [] <;>
    by_cases hstrategy : strategy = .identityBasedStrategy <;>
    cases hown : ownIdentityError store.ownIdentity <;>
    simp [Clean, hstrategy, hunsigned, hchanged]

theorem collects_of_ok
    (h : collectRecipientsForShareStrategy checks outbound store users strategy = .ok result) :
    Collects checks store strategy (userSet users) result := by
  obtain ⟨hown, hclean, rfl⟩ := collect_eq_ok_iff.mp h
  have hstart : Collects checks store strategy [] (startState outbound users).result :=
    ⟨by simp [recipients, startState], by simp [startState], by simp, by simp⟩
  exact collects_foldl hown hstart hclean

theorem not_blacklisted_of_decision (hstrategy : strategy ≠ .identityBasedStrategy)
    (h : decision checks store strategy user device = .ok none) :
    device.isBlacklisted = false := by
  cases hblack : device.isBlacklisted with
  | false => rfl
  | true =>
    have htrust : device.localTrustState = .blackListed := by
      simpa [DeviceData.isBlacklisted] using hblack
    unfold decision withheldCodeForDeviceForShareStrategy at h
    cases strategy with
    | allDevices => simp [withheldCodeForDeviceForAllDevicesStrategy, hblack] at h
    | errorOnVerifiedUserProblem =>
      simp only [handleDeviceForUserForErrorOnVerifiedUserProblemStrategy, hblack, if_true] at h
      split at h <;> simp at h
    | identityBasedStrategy => exact absurd rfl hstrategy
    | onlyTrustedDevices =>
      simp [withheldCodeForDeviceForOnlyTrustedDevicesStrategy, htrust] at h

theorem signed_of_decision
    (h : decision checks store .identityBasedStrategy user device = .ok none) :
    ∃ owner, store.getUserIdentity user = some owner ∧
      device.isCrossSignedByOwner checks owner = true := by
  unfold decision withheldCodeForDeviceForShareStrategy at h
  simp only at h
  split at h
  · cases h
  · split at h
    · cases h
    · cases howner : store.getUserIdentity user with
      | none => simp [howner] at h
      | some owner =>
        refine ⟨owner, rfl, ?_⟩
        simpa [howner, withheldCodeForDeviceWithOwnerForIdentityBasedStrategy] using h

theorem trusted_of_decision (h : decision checks store .onlyTrustedDevices user device = .ok none) :
    device.localTrustState = .verified ∨ device.localTrustState = .ignored ∨
      device.isCrossSigningTrusted checks store.ownIdentity (store.getUserIdentity user) =
        true := by
  unfold decision withheldCodeForDeviceForShareStrategy
    withheldCodeForDeviceForOnlyTrustedDevicesStrategy at h
  cases htrust : device.localTrustState with
  | verified => exact .inl rfl
  | ignored => exact .inr (.inl rfl)
  | blackListed => simp [htrust] at h
  | unset =>
    refine .inr (.inr ?_)
    cases hsigned : device.isCrossSigningTrusted checks store.ownIdentity
        (store.getUserIdentity user) with
    | true => rfl
    | false => simp [htrust, hsigned] at h

/-- The recipients are devices of the listed users that the strategy allows. Every other
known device than our own is a recipient or is withheld the key, as the decision on it says. -/
theorem collected_recipients_are_allowed (checks : SignatureChecks)
    (outbound : Option OutboundGroupSession) (store : IdentityStore) (users : List String)
    (strategy : CollectStrategy) (result : CollectRecipientsResult)
    (h : collectRecipientsForShareStrategy checks outbound store users strategy = .ok result) :
    (∀ device ∈ recipients result,
      device.userId ∈ users ∧
      (strategy ≠ .identityBasedStrategy → device.isBlacklisted = false) ∧
      (strategy = .identityBasedStrategy → ∃ owner,
        store.getUserIdentity device.userId = some owner ∧
          device.isCrossSignedByOwner checks owner = true) ∧
      (strategy = .onlyTrustedDevices →
        device.localTrustState = .verified ∨ device.localTrustState = .ignored ∨
          device.isCrossSigningTrusted checks store.ownIdentity
            (store.getUserIdentity device.userId) = true)) ∧
    (strategy = .identityBasedStrategy → ∀ user ∈ users,
      hasIdentityVerificationViolation checks store.ownIdentity (store.getUserIdentity user) =
        false) ∧
    ∀ user ∈ users, ∀ device ∈ store.getUserDevices user, ¬store.IsOwnDevice device →
      (device ∈ recipients result ∧ (∀ code, (device, code) ∉ result.withheldDevices) ∧
        withheldCodeForDeviceForShareStrategy checks store.ownIdentity
          (store.getUserIdentity user) device strategy = .ok none) ∨
      ∃ code, (device, code) ∈ result.withheldDevices ∧ device ∉ recipients result ∧
        withheldCodeForDeviceForShareStrategy checks store.ownIdentity
          (store.getUserIdentity user) device strategy = .ok (some code) := by
  have hcollects := collects_of_ok h
  refine ⟨fun device hdevice => ?_, fun hstrategy user huser => ?_,
    fun user huser device hdevice hnot => ?_⟩
  · obtain ⟨user, huser, hmem, hdecision⟩ := (hcollects.mem_recipients device).mp hdevice
    have huserId : device.userId = user := userId_of_mem_filtered hmem
    subst huserId
    refine ⟨mem_userSet.mp huser, fun hstrategy => not_blacklisted_of_decision hstrategy hdecision,
      fun hstrategy => ?_, fun hstrategy => ?_⟩
    · subst hstrategy
      exact signed_of_decision hdecision
    · subst hstrategy
      exact trusted_of_decision hdecision
  · exact hcollects.unviolated user (mem_userSet.mpr huser) (.inr hstrategy)
  · have hmem : device ∈ store.getDeviceDataForUserFiltered user :=
      mem_getDeviceDataForUserFiltered.mpr ⟨hdevice, hnot⟩
    have hset : user ∈ userSet users := mem_userSet.mpr huser
    -- a device belongs to one user only, so the two lists hold the decision for this user
    have howner : ∀ other, device ∈ store.getDeviceDataForUserFiltered other → other = user :=
      fun other hother => (userId_of_mem_filtered hother).symm.trans
        (userId_of_mem_filtered hmem)
    obtain ⟨code, hdecision⟩ := hcollects.total user hset device hmem
    cases code with
    | none =>
      refine .inl ⟨(hcollects.mem_recipients device).mpr ⟨user, hset, hmem, hdecision⟩,
        fun code hcode => ?_, hdecision⟩
      obtain ⟨other, -, hother, hcode⟩ := (hcollects.mem_withheld device code).mp hcode
      rw [howner other hother, hdecision] at hcode
      cases hcode
    | some code =>
      refine .inr ⟨code, (hcollects.mem_withheld device code).mpr ⟨user, hset, hmem, hdecision⟩,
        fun hrecipient => ?_, hdecision⟩
      obtain ⟨other, -, hother, hnone⟩ := (hcollects.mem_recipients device).mp hrecipient
      rw [howner other hother, hdecision] at hnone
      cases hnone

/-- A signature is good when the device lists the key it was made with. -/
def listedSignatures : SignatureChecks where
  verifyDevice key device := device.signatures.contains key
  verifyMasterKey _ _ := false
  x509Verifier := none

def deviceOf (user device : String) (trustState : LocalTrust) : DeviceData where
  userId := user
  deviceId := device
  curve25519Key := some device
  signatures := [user]
  dehydrated := false
  trustState := trustState
  withheldCodeSent := false
  olmWedgingIndex := ⟨0⟩

/-- We are verified, and have one device; so has the other user, and it is blacklisted. -/
def blacklistingStore : IdentityStore where
  userId := "@me"
  deviceId := "LAPTOP"
  devices user :=
    if user = "@me" then [deviceOf "@me" "LAPTOP" .unset]
    else if user = "@other" then [deviceOf "@other" "PHONE" .blackListed] else []
  identities user :=
    if user = "@me" then some (.own ⟨"@me", "me", "@me", "me", .verified⟩)
    else if user = "@other" then some (.other ⟨"@other", "other", "@other", false⟩) else none
  userId_of_mem user device h := by
    split_ifs at h with hme hother
    · rw [mem_singleton.mp h, hme]
      rfl
    · rw [mem_singleton.mp h, hother]
      rfl
    · exact absurd h not_mem_nil
  nodup_deviceIds user := by
    split_ifs <;> simp

theorem blacklisted_device_is_withheld :
    ∃ result, collectRecipientsForShareStrategy listedSignatures none blacklistingStore
        ["@me", "@other"] .allDevices = .ok result ∧
      ∃ code, (deviceOf "@other" "PHONE" .blackListed, code) ∈ result.withheldDevices := by
  have hcollect : collectRecipientsForShareStrategy listedSignatures none blacklistingStore
      ["@me", "@other"] .allDevices = .ok {
        shouldRotate := false
        devices := [("@me", []), ("@other", [])]
        withheldDevices := [(deviceOf "@other" "PHONE" .blackListed, .blacklisted)] } := by
    rfl
  have hdecided := (collected_recipients_are_allowed listedSignatures none blacklistingStore
    ["@me", "@other"] .allDevices _ hcollect).2.2 "@other" (by simp)
    (deviceOf "@other" "PHONE" .blackListed) (by decide)
    (by simp [IsOwnDevice, blacklistingStore, deviceOf])
  rcases hdecided with ⟨hrecipient, -⟩ | ⟨code, hcode, -⟩
  · simp [recipients] at hrecipient
  · exact ⟨_, hcollect, code, hcode⟩

/-- Our own device is in neither list, and a blacklisted device of a user who has signed it
gets the key from the identity-based strategy. -/
theorem identity_based_recipients_of_blacklisting_store :
    ∃ result, collectRecipientsForShareStrategy listedSignatures none blacklistingStore
        ["@me", "@other"] .identityBasedStrategy = .ok result ∧
      (deviceOf "@me" "LAPTOP" .unset ∈ blacklistingStore.getUserDevices "@me" ∧
        deviceOf "@me" "LAPTOP" .unset ∉ recipients result ∧
        ∀ code, (deviceOf "@me" "LAPTOP" .unset, code) ∉ result.withheldDevices) ∧
      ∃ device ∈ recipients result, device.isBlacklisted = true := by
  refine ⟨{
    shouldRotate := false
    devices := [("@me", []), ("@other", [deviceOf "@other" "PHONE" .blackListed])]
    withheldDevices := [] }, ?_, ⟨?_, ?_, ?_⟩, deviceOf "@other" "PHONE" .blackListed, ?_, ?_⟩
  · rfl
  · decide
  · decide
  · simp
  · decide
  · decide

end MatrixSdk.RecipientLists

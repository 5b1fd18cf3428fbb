import MatrixSdk.OutboundSessions
import Mathlib.Data.List.Sort
import Mathlib.Data.List.Dedup
import Mathlib.Data.String.Basic

/-!
The strategies that decide which devices receive a room key. A strategy is applied to all
devices of a list of users, or to one device. A device that does not receive the key is
withheld it with a code; some strategies fail instead.
-/
namespace MatrixSdk.ShareStrategies

open DeviceTrust OutboundSessions

inductive SessionRecipientCollectionError where
  | verifiedUserHasUnsignedDevice (devices : List (String × List String))
  | verifiedUserChangedIdentity (users : List String)
  | crossSigningNotSetup
  | sendingFromUnverifiedDevice
deriving DecidableEq

structure CollectRecipientsResult where
  shouldRotate : Bool
  devices : List (String × List DeviceData)
  withheldDevices : List (DeviceData × WithheldCode)
deriving DecidableEq

structure RecipientDevicesForUser where
  allowedDevices : List DeviceData
  deniedDevicesWithCode : List (DeviceData × WithheldCode)
deriving DecidableEq

variable (checks : SignatureChecks) (ownIdentity : Option OwnUserIdentityData)
  (deviceOwnerIdentity : Option UserIdentityData)

def isUserVerified : UserIdentityData → Bool
  | .own identity => identity.isVerified
  | .other identity => identity.isVerified checks ownIdentity

def hasIdentityVerificationViolation : Bool :=
  deviceOwnerIdentity.any fun owner =>
    owner.wasPreviouslyVerified && !isUserVerified checks ownIdentity owner

variable (device : DeviceData)

def isUnsignedDeviceOfVerifiedUser : Bool :=
  deviceOwnerIdentity.any fun owner =>
    isUserVerified checks ownIdentity owner && !device.isCrossSignedByOwner checks owner

def shouldWithholdToDehydratedDevice : Bool :=
  deviceOwnerIdentity.all fun owner =>
    !device.isCrossSignedByOwner checks owner ||
      (owner.wasPreviouslyVerified && !isUserVerified checks ownIdentity owner)

def withheldCodeForDeviceForAllDevicesStrategy : Option WithheldCode :=
  if device.isBlacklisted then some .blacklisted
  else if device.isDehydrated &&
      shouldWithholdToDehydratedDevice checks ownIdentity deviceOwnerIdentity device then
    some .unverified
  else none

inductive ErrorOnVerifiedUserProblemDeviceDecision where
  | ok
  | withhold (code : WithheldCode)
  | unsignedOfVerified
deriving DecidableEq

def handleDeviceForUserForErrorOnVerifiedUserProblemStrategy :
    ErrorOnVerifiedUserProblemDeviceDecision :=
  if device.isBlacklisted then .withhold .blacklisted
  else if device.localTrustState = .ignored then .ok
  else if isUnsignedDeviceOfVerifiedUser checks ownIdentity deviceOwnerIdentity device then
    .unsignedOfVerified
  else if device.isDehydrated &&
      deviceOwnerIdentity.all fun owner => !device.isCrossSignedByOwner checks owner then
    .withhold .unverified
  else .ok

def withheldCodeForDeviceWithOwnerForIdentityBasedStrategy (owner : UserIdentityData) :
    Option WithheldCode :=
  if device.isCrossSignedByOwner checks owner then none else some .unverified

def withheldCodeForDeviceForOnlyTrustedDevicesStrategy : Option WithheldCode :=
  match device.localTrustState,
      device.isCrossSigningTrusted checks ownIdentity deviceOwnerIdentity with
  | .blackListed, _ => some .blacklisted
  | .ignored, _ | .verified, _ => none
  | .unset, false => some .unverified
  | .unset, true => none

/-- The devices without a code, and the others with their codes. -/
def partitionDevices (withheldCode : DeviceData → Option WithheldCode)
    (devices : List DeviceData) : RecipientDevicesForUser where
  allowedDevices := devices.filter fun device => (withheldCode device).isNone
  deniedDevicesWithCode := devices.filterMap fun device =>
    (withheldCode device).map fun code => (device, code)

variable (userDevices : List DeviceData)

def splitDevicesForUserForAllDevicesStrategy : RecipientDevicesForUser :=
  partitionDevices (withheldCodeForDeviceForAllDevicesStrategy checks ownIdentity
    deviceOwnerIdentity) userDevices

/-- The unsigned devices of a verified user, when there are any, instead of the split. -/
def splitDevicesForUserForErrorOnVerifiedUserProblemStrategy :
    Except (List String) RecipientDevicesForUser :=
  let decision := handleDeviceForUserForErrorOnVerifiedUserProblemStrategy checks ownIdentity
    deviceOwnerIdentity
  let unsigned := userDevices.filter fun device => decision device = .unsignedOfVerified
  if unsigned.isEmpty then
    .ok {
      allowedDevices := userDevices.filter fun device => decision device = .ok
      deniedDevicesWithCode := userDevices.filterMap fun device =>
        match decision device with
        | .withhold code => some (device, code)
        | .ok | .unsignedOfVerified => none }
  else .error (unsigned.map DeviceData.deviceId)

def splitDevicesForUserForIdentityBasedStrategy : RecipientDevicesForUser :=
  match deviceOwnerIdentity with
  | none => { allowedDevices := [], deniedDevicesWithCode := userDevices.map (·, .unverified) }
  | some owner =>
    partitionDevices (withheldCodeForDeviceWithOwnerForIdentityBasedStrategy checks · owner)
      userDevices

def splitDevicesForUserForOnlyTrustedDevices : RecipientDevicesForUser :=
  partitionDevices (withheldCodeForDeviceForOnlyTrustedDevicesStrategy checks ownIdentity
    deviceOwnerIdentity) userDevices

/-- The identity-based strategy needs a verified identity of our own. -/
def ownIdentityError : Option SessionRecipientCollectionError :=
  match ownIdentity with
  | none => some .crossSigningNotSetup
  | some identity => if identity.isVerified then none else some .sendingFromUnverifiedDevice

def withheldCodeForDeviceForShareStrategy (strategy : CollectStrategy) :
    Except SessionRecipientCollectionError (Option WithheldCode) :=
  match strategy with
  | .allDevices =>
    .ok (withheldCodeForDeviceForAllDevicesStrategy checks ownIdentity deviceOwnerIdentity device)
  | .errorOnVerifiedUserProblem =>
    if hasIdentityVerificationViolation checks ownIdentity deviceOwnerIdentity then
      .error (.verifiedUserChangedIdentity [device.userId])
    else
      match handleDeviceForUserForErrorOnVerifiedUserProblemStrategy checks ownIdentity
          deviceOwnerIdentity device with
      | .ok => .ok none
      | .withhold code => .ok (some code)
      | .unsignedOfVerified =>
        .error (.verifiedUserHasUnsignedDevice [(device.userId, [device.deviceId])])
  | .identityBasedStrategy =>
    match ownIdentityError ownIdentity with
    | some error => .error error
    | none =>
      if hasIdentityVerificationViolation checks ownIdentity deviceOwnerIdentity then
        .error (.verifiedUserChangedIdentity [device.userId])
      else
        match deviceOwnerIdentity with
        | some owner =>
          .ok (withheldCodeForDeviceWithOwnerForIdentityBasedStrategy checks device owner)
        | none => .ok (some .unverified)
  | .onlyTrustedDevices =>
    .ok (withheldCodeForDeviceForOnlyTrustedDevicesStrategy checks ownIdentity
      deviceOwnerIdentity device)

variable (outbound : Option OutboundGroupSession)

/-- The session has gone to a device of this user that should not have it. -/
def isSessionOversharedForUser (session : OutboundGroupSession) (user : String)
    (recipientDevices : List DeviceData) : Bool :=
  session.iterShares.any fun share =>
    share.1.1 = user && share.2.isShared &&
      !(recipientDevices.map DeviceData.deviceId).contains share.1.2

/-- Add devices to the entry of a user. -/
def extendEntry (user : String) (devices : List DeviceData) :
    List (String × List DeviceData) → List (String × List DeviceData)
  | [] => [(user, devices)]
  | (key, present) :: rest =>
    if key = user then (key, present ++ devices) :: rest
    else (key, present) :: extendEntry user devices rest

def updateRecipientsForUser (recipients : CollectRecipientsResult) (user : String)
    (recipientDevices : RecipientDevicesForUser) : CollectRecipientsResult where
  shouldRotate := recipients.shouldRotate || outbound.any fun session =>
    isSessionOversharedForUser session user recipientDevices.allowedDevices
  devices := extendEntry user recipientDevices.allowedDevices recipients.devices
  withheldDevices := recipients.withheldDevices ++ recipientDevices.deniedDevicesWithCode

/-- The state of the loop over the users. -/
structure Collected where
  result : CollectRecipientsResult
  verifiedUsersWithNewIdentities : List String
  unsignedDevicesOfVerifiedUsers : List (String × List String)

def Collected.addRecipients (state : Collected) (user : String)
    (recipientDevices : RecipientDevicesForUser) : Collected :=
  { state with result := updateRecipientsForUser outbound state.result user recipientDevices }

variable (store : IdentityStore)

/-- One turn of the loop over the users. -/
def considerUser (strategy : CollectStrategy) (state : Collected) (user : String) : Collected :=
  let userDevices := store.getDeviceDataForUserFiltered user
  let owner := store.getUserIdentity user
  let own := store.ownIdentity
  match strategy with
  | .allDevices =>
    state.addRecipients outbound user
      (splitDevicesForUserForAllDevicesStrategy checks own owner userDevices)
  | .errorOnVerifiedUserProblem =>
    if hasIdentityVerificationViolation checks own owner then
      { state with verifiedUsersWithNewIdentities :=
          state.verifiedUsersWithNewIdentities ++ [user] }
    else
      match splitDevicesForUserForErrorOnVerifiedUserProblemStrategy checks own owner
          userDevices with
      | .error devices =>
        { state with unsignedDevicesOfVerifiedUsers :=
            state.unsignedDevicesOfVerifiedUsers ++ [(user, devices)] }
      | .ok devices => state.addRecipients outbound user devices
  | .identityBasedStrategy =>
    if hasIdentityVerificationViolation checks own owner then
      { state with verifiedUsersWithNewIdentities :=
          state.verifiedUsersWithNewIdentities ++ [user] }
    else
      state.addRecipients outbound user
        (splitDevicesForUserForIdentityBasedStrategy checks owner userDevices)
  | .onlyTrustedDevices =>
    state.addRecipients outbound user
      (splitDevicesForUserForOnlyTrustedDevices checks own owner userDevices)

variable (users : List String)

/-- The users in ascending order, each once. -/
def userSet : List String := users.dedup.insertionSort (· ≤ ·)

/-- Some user has the session but is not in the list any more. -/
def someUserLeft (session : OutboundGroupSession) (users : List String) : Bool :=
  session.sharedWithUsers.any fun user => !users.contains user

def collectRecipientsForShareStrategy (strategy : CollectStrategy) :
    Except SessionRecipientCollectionError CollectRecipientsResult :=
  let users := userSet users
  let start : Collected := {
    result := {
      shouldRotate := outbound.any fun session => someUserLeft session users
      devices := []
      withheldDevices := [] }
    verifiedUsersWithNewIdentities := []
    unsignedDevicesOfVerifiedUsers := [] }
  let ownError := if strategy = .identityBasedStrategy then ownIdentityError store.ownIdentity
    else none
  match ownError with
  | some error => .error error
  | none =>
    let state := users.foldl (considerUser checks outbound store strategy) start
    if ¬state.unsignedDevicesOfVerifiedUsers.isEmpty then
      .error (.verifiedUserHasUnsignedDevice state.unsignedDevicesOfVerifiedUsers)
    else if ¬state.verifiedUsersWithNewIdentities.isEmpty then
      .error (.verifiedUserChangedIdentity state.verifiedUsersWithNewIdentities)
    else .ok state.result

/-- The history of a room is protected by a new session when a user or a device has gone,
and when the visibility of the history or the algorithm has changed. -/
def collectSessionRecipients (settings : EncryptionSettings) (session : OutboundGroupSession) :
    Except SessionRecipientCollectionError CollectRecipientsResult :=
  (collectRecipientsForShareStrategy checks (some session) store users
    settings.sharingStrategy).map fun result =>
      { result with shouldRotate := result.shouldRotate ||
          session.settings.historyVisibility ≠ settings.historyVisibility ||
          session.settings.algorithm ≠ settings.algorithm }

end MatrixSdk.ShareStrategies

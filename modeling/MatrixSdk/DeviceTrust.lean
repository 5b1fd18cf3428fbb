import Mathlib.Data.List.Nodup
import Mathlib.Data.Nat.Basic

/-!
Devices, the cross-signing identities of their owners, and the trust in them: the local
trust state of a device, whether its owner has signed it, and whether we have verified its
owner. The checks of a signature are parameters.
-/
namespace MatrixSdk.DeviceTrust

inductive LocalTrust where
  | verified
  | blackListed
  | ignored
  | unset
deriving DecidableEq

/-- Counts up with wrapping arithmetic; two numbers are compared by their difference. -/
structure SequenceNumber where
  value : BitVec 64
deriving DecidableEq

namespace SequenceNumber

def lt (number other : SequenceNumber) : Bool := (number.value - other.value).slt 0

def gt (number other : SequenceNumber) : Bool := (0 : BitVec 64).slt (number.value - other.value)

def increment (number : SequenceNumber) : SequenceNumber := ⟨number.value + 1⟩

def previous (number : SequenceNumber) : SequenceNumber := ⟨number.value - 1⟩

end SequenceNumber

structure DeviceData where
  userId : String
  deviceId : String
  curve25519Key : Option String
  signatures : List String
  dehydrated : Bool
  trustState : LocalTrust
  withheldCodeSent : Bool
  olmWedgingIndex : SequenceNumber
deriving DecidableEq

namespace DeviceData

variable (device : DeviceData)

def localTrustState : LocalTrust := device.trustState

def isBlacklisted : Bool := device.localTrustState = .blackListed

def isDehydrated : Bool := device.dehydrated

end DeviceData

inductive OwnUserIdentityVerifiedState where
  | neverVerified
  | verificationViolation
  | verified
deriving DecidableEq

structure OwnUserIdentityData where
  userId : String
  masterKey : String
  selfSigningKey : String
  userSigningKey : String
  verified : OwnUserIdentityVerifiedState
deriving DecidableEq

structure OtherUserIdentityData where
  userId : String
  masterKey : String
  selfSigningKey : String
  previouslyVerified : Bool
deriving DecidableEq

inductive UserIdentityData where
  | own (identity : OwnUserIdentityData)
  | other (identity : OtherUserIdentityData)
deriving DecidableEq

def UserIdentityData.intoOwn : UserIdentityData → Option OwnUserIdentityData
  | own identity => some identity
  | other _ => none

/-- The checks of signatures: of a device by a self-signing key, of a master key by a
user-signing key, and of a user's master key by the X.509 verifier, if there is one. -/
structure SignatureChecks where
  verifyDevice : String → DeviceData → Bool
  verifyMasterKey : String → String → Bool
  x509Verifier : Option (String → String → Bool)

variable (checks : SignatureChecks)

namespace OwnUserIdentityData

variable (identity : OwnUserIdentityData)

def isVerified : Bool := identity.verified = .verified

def wasPreviouslyVerified : Bool :=
  identity.verified = .verified || identity.verified = .verificationViolation

def isDeviceSigned (device : DeviceData) : Bool :=
  identity.userId = device.userId && checks.verifyDevice identity.selfSigningKey device

def isIdentitySigned (other : OtherUserIdentityData) : Bool :=
  checks.verifyMasterKey identity.userSigningKey other.masterKey

end OwnUserIdentityData

namespace OtherUserIdentityData

variable (identity : OtherUserIdentityData)

def wasPreviouslyVerified : Bool := identity.previouslyVerified

def isDeviceSigned (device : DeviceData) : Bool :=
  identity.userId = device.userId && checks.verifyDevice identity.selfSigningKey device

def isVerified (ownIdentity : Option OwnUserIdentityData) : Bool :=
  (ownIdentity.any fun own => own.isVerified && own.isIdentitySigned checks identity) ||
    checks.x509Verifier.any fun verify => verify identity.userId identity.masterKey

end OtherUserIdentityData

def UserIdentityData.wasPreviouslyVerified : UserIdentityData → Bool
  | own identity => identity.wasPreviouslyVerified
  | other identity => identity.wasPreviouslyVerified

namespace DeviceData

def isCrossSignedByOwner (device : DeviceData) : UserIdentityData → Bool
  | .own identity => identity.isDeviceSigned checks device
  | .other identity => identity.isDeviceSigned checks device

def isCrossSigningTrusted (device : DeviceData) (ownIdentity : Option OwnUserIdentityData)
    (deviceOwner : Option UserIdentityData) : Bool :=
  deviceOwner.any fun
    | .own _ => ownIdentity.any fun own => own.isVerified && own.isDeviceSigned checks device
    | .other identity =>
      identity.isVerified checks ownIdentity && identity.isDeviceSigned checks device

end DeviceData

/-- What the store knows of users and their devices. The devices of a user are kept by their
ids, in no particular order. -/
structure IdentityStore where
  userId : String
  deviceId : String
  devices : String → List DeviceData
  identities : String → Option UserIdentityData
  userId_of_mem : ∀ user, ∀ device ∈ devices user, device.userId = user
  nodup_deviceIds : ∀ user, ((devices user).map DeviceData.deviceId).Nodup

namespace IdentityStore

variable (store : IdentityStore)

def getUserDevices (user : String) : List DeviceData := store.devices user

def getUserIdentity (user : String) : Option UserIdentityData :=
  store.identities user

/-- The devices that may receive a key: all but our own device. -/
def getDeviceDataForUserFiltered (user : String) : List DeviceData :=
  if user = store.userId then
    (store.getUserDevices user).filter fun device => device.deviceId ≠ store.deviceId
  else store.getUserDevices user

def ownIdentity : Option OwnUserIdentityData :=
  (store.getUserIdentity store.userId).bind UserIdentityData.intoOwn

/-- This is the device that the store belongs to. -/
def IsOwnDevice (device : DeviceData) : Prop :=
  device.userId = store.userId ∧ device.deviceId = store.deviceId

variable {store : IdentityStore} {user : String} {device : DeviceData}

theorem mem_getDeviceDataForUserFiltered :
    device ∈ store.getDeviceDataForUserFiltered user ↔
      device ∈ store.getUserDevices user ∧ ¬store.IsOwnDevice device := by
  unfold getDeviceDataForUserFiltered IsOwnDevice
  by_cases hown : user = store.userId
  · rw [if_pos hown, List.mem_filter]
    constructor
    · rintro ⟨hmem, hne⟩
      exact ⟨hmem, fun h => by simp [h.2] at hne⟩
    · rintro ⟨hmem, hnot⟩
      have huser : device.userId = store.userId := (store.userId_of_mem user device hmem).trans hown
      exact ⟨hmem, by simpa using fun h => hnot ⟨huser, h⟩⟩
  · rw [if_neg hown]
    constructor
    · intro hmem
      refine ⟨hmem, fun h => hown ?_⟩
      rw [← h.1]
      exact (store.userId_of_mem user device hmem).symm
    · exact And.left

theorem userId_of_mem_filtered (h : device ∈ store.getDeviceDataForUserFiltered user) :
    device.userId = user :=
  store.userId_of_mem user device (mem_getDeviceDataForUserFiltered.mp h).1

end IdentityStore

end MatrixSdk.DeviceTrust

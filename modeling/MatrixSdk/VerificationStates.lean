import Mathlib.Data.Nat.Basic

/-!
The states of an interactive verification: of the request that opens it, and of the SAS and
QR code verifications that it turns into.
-/
namespace MatrixSdk.VerificationStates

inductive CancelCode where
  | user
  | timeout
  | unknownTransaction
  | unknownMethod
  | unexpectedMessage
  | keyMismatch
  | userMismatch
  | invalidMessage
  | accepted
  | other (code : String)
deriving DecidableEq

structure Cancelled where
  cancelledByUs : Bool
  code : CancelCode
deriving DecidableEq

inductive FlowId where
  | toDevice (transactionId : String)
  | inRoom (roomId eventId : String)
deriving DecidableEq

def FlowId.asStr : FlowId → String
  | toDevice transactionId => transactionId
  | inRoom _ eventId => eventId

/-- The messages of a flow, by their kind. -/
inductive Content where
  | ready
  | start
  | accept
  | key
  | mac
  | done
  | cancel (cancelled : Cancelled)
deriving DecidableEq

inductive VerificationMethod where
  | sasV1
  | qrCodeScanV1
  | qrCodeShowV1
  | reciprocateV1
  | other (method : String)
deriving DecidableEq

/-- The verification object that a request has turned into. -/
inductive Verification where
  | sas (object : ℕ)
  | qr (object : ℕ)
deriving DecidableEq

inductive SasStartOrigin where
  | local
  | remote
deriving DecidableEq

structure Ready where
  theirMethods : List VerificationMethod
  ourMethods : List VerificationMethod
  otherDevice : String
deriving DecidableEq

inductive InnerRequest where
  | created (ourMethods : List VerificationMethod)
  | requested (theirMethods : List VerificationMethod) (otherDevice : String)
  | ready (ready : Ready)
  | transitioned (ready : Ready) (verification : Verification)
      (sasStartOrigin : Option SasStartOrigin)
  | passive (otherDevice : String)
  | done
  | cancelled (cancelled : Cancelled)
deriving DecidableEq

namespace InnerRequest

def isDone : InnerRequest → Bool
  | done => true
  | _ => false

def isCancelled : InnerRequest → Bool
  | cancelled _ => true
  | _ => false

/-- The request is over. -/
def isTerminal (request : InnerRequest) : Bool := request.isDone || request.isCancelled

def cancel (cancelledByUs : Bool) (code : CancelCode) : InnerRequest → Option InnerRequest
  | created _ | requested .. | ready _ | transitioned .. => some (cancelled ⟨cancelledByUs, code⟩)
  | passive _ | done | cancelled _ => none

/-- The state after a cancellation, and the notice about it that goes out. One is made for a
request that was cancelled before, too. -/
def cancelWithCode (code : CancelCode) (request : InnerRequest) : InnerRequest × Option Content :=
  let updated := (request.cancel true code).getD request
  (updated, match updated with
    | cancelled info => some (.cancel info)
    | _ => none)

end InnerRequest

/-- A state keeps the id of the request that brings our key, where it waits for it to be
sent. -/
inductive SasState where
  | created
  | started
  | accepted (requestId : ℕ)
  | weAccepted
  | keyReceived (requestId : ℕ)
  | keySent
  | keysExchanged
  | confirmed
  | macReceived
  | waitingForDone
  | done
  | cancelled (cancelled : Cancelled)
deriving DecidableEq

structure InnerSas where
  state : SasState
  startedFromRequest : Bool
deriving DecidableEq

namespace InnerSas

variable (sas : InnerSas)

def isDone : Bool :=
  match sas.state with
  | .done => true
  | _ => false

def isCancelled : Bool :=
  match sas.state with
  | .cancelled _ => true
  | _ => false

def goTo (state : SasState) : InnerSas := { sas with state := state }

def cancel (cancelledByUs : Bool) (code : CancelCode) (sas : InnerSas) :
    InnerSas × Option Content :=
  match sas.state with
  | .done | .cancelled _ => (sas, none)
  | _ => (sas.goTo (.cancelled ⟨cancelledByUs, code⟩), some (.cancel ⟨cancelledByUs, code⟩))

end InnerSas

inductive QrState where
  | created
  | scanned
  | confirmed
  | reciprocated
  | done
  | cancelled (cancelled : Cancelled)
deriving DecidableEq

namespace QrState

def isDone : QrState → Bool
  | done => true
  | _ => false

def isCancelled : QrState → Bool
  | cancelled _ => true
  | _ => false

def cancelWithCode (code : CancelCode) : QrState → QrState × Option Content
  | cancelled info => (cancelled info, none)
  | created | scanned | confirmed | reciprocated | done =>
    (cancelled ⟨true, code⟩, some (.cancel ⟨true, code⟩))

end QrState

end MatrixSdk.VerificationStates

import MatrixSdk.VerificationStates
import MatrixSdk.KeyedMaps

/-!
The verifications with a user. The machine keeps the requests and the SAS and QR code
verifications of each user by the text of their flow id. Putting in a new one cancels it and
the ones before it, unless they were cancelled already: one that is done is taken for one
that is going on.
-/
namespace MatrixSdk.VerificationCaches

open VerificationStates KeyedMaps Function KeyedMap List

structure VerificationRequest where
  otherUser : String
  flowId : FlowId
  inner : InnerRequest

/-- A verification refers to the request it comes from, if there is one. -/
structure Sas where
  otherUser : String
  flowId : FlowId
  inner : InnerSas
  request : Option ℕ

structure QrVerification where
  otherUser : String
  flowId : FlowId
  state : QrState
  request : Option ℕ

/-- The objects, the maps of the requests and of the verifications of a user, and the messages
that wait to be sent. A request is kept with the flag that it came in as a to-device event. -/
structure VerificationMachine where
  requestObjects : ℕ → VerificationRequest
  sasObjects : ℕ → Sas
  qrObjects : ℕ → QrVerification
  requests : String → KeyedMap String (ℕ × Bool)
  verifications : String → KeyedMap String Verification
  outgoing : List (FlowId × Content)

inductive VerificationRequestInsertion where
  | inserted (request : ℕ) (incomingToDevice : Bool)
  | existing (request : ℕ) (incomingToDevice : Bool)
deriving DecidableEq

namespace VerificationMachine

variable (machine : VerificationMachine)

def otherUser : Verification → String
  | .sas object => (machine.sasObjects object).otherUser
  | .qr object => (machine.qrObjects object).otherUser

def flowId : Verification → FlowId
  | .sas object => (machine.sasObjects object).flowId
  | .qr object => (machine.qrObjects object).flowId

def isDone : Verification → Bool
  | .sas object => (machine.sasObjects object).inner.isDone
  | .qr object => (machine.qrObjects object).state.isDone

def isCancelled : Verification → Bool
  | .sas object => (machine.sasObjects object).inner.isCancelled
  | .qr object => (machine.qrObjects object).state.isCancelled

variable (object : ℕ)

def setRequest (inner : InnerRequest) : VerificationMachine :=
  { machine with
    requestObjects := Function.update machine.requestObjects object
      { machine.requestObjects object with inner := inner } }

def setSas (inner : InnerSas) : VerificationMachine :=
  { machine with
    sasObjects := Function.update machine.sasObjects object
      { machine.sasObjects object with inner := inner } }

def setQr (state : QrState) : VerificationMachine :=
  { machine with
    qrObjects := Function.update machine.qrObjects object
      { machine.qrObjects object with state := state } }

def addRequest (flowId : FlowId) (content : Option Content) : VerificationMachine :=
  { machine with outgoing := machine.outgoing ++ (content.map (flowId, ·)).toList }

/-- A verification cancels the request it comes from. -/
def cancelHandle (request : Option ℕ) (code : CancelCode) : VerificationMachine :=
  match request with
  | none => machine
  | some object =>
    let inner := (machine.requestObjects object).inner
    machine.setRequest object ((inner.cancel true code).getD inner)

def cancelVerification (verification : Verification) (code : CancelCode) :
    Option Content × VerificationMachine :=
  match verification with
  | .sas object =>
    let sas := machine.sasObjects object
    let (inner, content) := sas.inner.cancel true code
    (content, (machine.cancelHandle sas.request code).setSas object inner)
  | .qr object =>
    let qr := machine.qrObjects object
    let (state, content) := qr.state.cancelWithCode code
    (content, (machine.cancelHandle qr.request code).setQr object state)

/-- Cancel a request, and the verification with its flow id without a message of its own. -/
def cancelRequest (code : CancelCode) : Option Content × VerificationMachine :=
  let request := machine.requestObjects object
  let (inner, content) := request.inner.cancelWithCode code
  let machine := machine.setRequest object inner
  match (machine.verifications request.otherUser).lookup request.flowId.asStr with
  | none => (content, machine)
  | some verification => (content, (machine.cancelVerification verification code).2)

/-- Cancel an earlier verification and the new one, unless the earlier one is cancelled. -/
def cancelBoth (new old : Verification) : VerificationMachine :=
  if machine.isCancelled old then machine
  else
    let (content, machine) := machine.cancelVerification old .user
    let machine := machine.addRequest (machine.flowId old) content
    let (content, machine) := machine.cancelVerification new .user
    machine.addRequest (machine.flowId new) content

def insertVerification (new : Verification) : VerificationMachine :=
  let user := machine.otherUser new
  let flow := (machine.flowId new).asStr
  let machine :=
    (values (machine.verifications user)).foldl (cancelBoth · new) machine
  { machine with
    verifications := Function.update machine.verifications user
      ((machine.verifications user).insert flow new) }

def cancelBothRequests (new old : ℕ) : VerificationMachine :=
  if (machine.requestObjects old).inner.isCancelled then machine
  else
    let (content, machine) := machine.cancelRequest old .user
    let machine := machine.addRequest (machine.requestObjects old).flowId content
    let (content, machine) := machine.cancelRequest new .user
    machine.addRequest (machine.requestObjects new).flowId content

/-- A request whose flow id is known is not put in; it is cancelled if the text of the id is
that of another flow. -/
def insertRequestWithDelivery (new : ℕ) (incomingToDevice : Bool) :
    VerificationRequestInsertion × VerificationMachine :=
  let request := machine.requestObjects new
  match (machine.requests request.otherUser).lookup request.flowId.asStr with
  | some (existing, existingToDevice) =>
    if (machine.requestObjects existing).flowId ≠ request.flowId then
      let (content, machine) := machine.cancelRequest new .unexpectedMessage
      (.existing new false, machine.addRequest request.flowId content)
    else (.existing existing existingToDevice, machine)
  | none =>
    let machine := ((values (machine.requests request.otherUser)).map Prod.fst).foldl
      (cancelBothRequests · new) machine
    (.inserted new incomingToDevice, { machine with
      requests := Function.update machine.requests request.otherUser
        ((machine.requests request.otherUser).insert request.flowId.asStr
          (new, incomingToDevice)) })

end VerificationMachine

open VerificationMachine

/-- Every object is as it was, or it is cancelled now. -/
structure Cancels (machine machine' : VerificationMachine) : Prop where
  request : ∀ object, (machine'.requestObjects object).inner =
    (machine.requestObjects object).inner ∨
      (machine'.requestObjects object).inner.isCancelled = true
  verification : ∀ verification, (machine'.isDone verification = machine.isDone verification ∧
    machine'.isCancelled verification = machine.isCancelled verification) ∨
      machine'.isCancelled verification = true

variable {object : ℕ} {verification : Verification}

theorem states_congr {machine machine' : VerificationMachine}
    (hsas : machine'.sasObjects = machine.sasObjects)
    (hqr : machine'.qrObjects = machine.qrObjects) (verification : Verification) :
    machine'.isDone verification = machine.isDone verification ∧
      machine'.isCancelled verification = machine.isCancelled verification := by
  cases verification <;> simp [isDone, isCancelled, hsas, hqr]

namespace Cancels

variable {machine machine' machine'' : VerificationMachine}

theorem refl (machine : VerificationMachine) : Cancels machine machine :=
  ⟨fun _ => .inl rfl, fun _ => .inl ⟨rfl, rfl⟩⟩

section

variable (h : Cancels machine machine')
include h

theorem trans (h' : Cancels machine' machine'') : Cancels machine machine'' where
  request object := by
    rcases h'.request object with hsame | hcancelled
    · rw [hsame]
      exact h.request object
    · exact .inr hcancelled
  verification verification := by
    rcases h'.verification verification with ⟨hdone, hsame⟩ | hcancelled
    · rw [hdone, hsame]
      exact h.verification verification
    · exact .inr hcancelled

theorem isCancelled_request
    (hcancelled : (machine.requestObjects object).inner.isCancelled = true) :
    (machine'.requestObjects object).inner.isCancelled = true := by
  rcases h.request object with hsame | hnow
  · rw [hsame]
    exact hcancelled
  · exact hnow

theorem isCancelled_verification (hcancelled : machine.isCancelled verification = true) :
    machine'.isCancelled verification = true := by
  rcases h.verification verification with ⟨-, hsame⟩ | hnow
  · rw [hsame]
    exact hcancelled
  · exact hnow

end

theorem addRequest (flowId : FlowId) (content : Option Content) (machine : VerificationMachine) :
    Cancels machine (machine.addRequest flowId content) :=
  ⟨fun _ => .inl rfl, fun verification => .inl (states_congr rfl rfl verification)⟩

theorem setRequest {inner : InnerRequest}
    (h : inner = (machine.requestObjects object).inner ∨ inner.isCancelled = true) :
    Cancels machine (machine.setRequest object inner) := by
  refine ⟨fun other => ?_, fun verification => .inl (states_congr rfl rfl verification)⟩
  by_cases hother : other = object
  · subst hother
    simp only [VerificationMachine.setRequest, update_self]
    exact h
  · left
    simp [VerificationMachine.setRequest, update_of_ne hother]

theorem setSas {inner : InnerSas}
    (h : inner = (machine.sasObjects object).inner ∨ inner.isCancelled = true) :
    Cancels machine (machine.setSas object inner) := by
  refine ⟨fun _ => .inl rfl, fun verification => ?_⟩
  cases verification with
  | sas other =>
    by_cases hother : other = object
    · subst hother
      simp only [VerificationMachine.setSas, VerificationMachine.isDone,
        VerificationMachine.isCancelled, update_self]
      rcases h with rfl | hcancelled
      · exact .inl ⟨rfl, rfl⟩
      · exact .inr hcancelled
    · left
      simp [VerificationMachine.setSas, VerificationMachine.isDone,
        VerificationMachine.isCancelled, update_of_ne hother]
  | qr other => exact .inl ⟨rfl, rfl⟩

theorem setQr {state : QrState} (h : state.isCancelled = true) :
    Cancels machine (machine.setQr object state) := by
  refine ⟨fun _ => .inl rfl, fun verification => ?_⟩
  cases verification with
  | qr other =>
    by_cases hother : other = object
    · subst hother
      simp only [VerificationMachine.setQr, VerificationMachine.isCancelled, update_self]
      exact .inr h
    · left
      simp [VerificationMachine.setQr, VerificationMachine.isDone,
        VerificationMachine.isCancelled, update_of_ne hother]
  | sas other => exact .inl ⟨rfl, rfl⟩

theorem cancelHandle (request : Option ℕ) (code : CancelCode) :
    Cancels machine (machine.cancelHandle request code) := by
  cases request with
  | none => exact .refl machine
  | some object =>
    refine .setRequest ?_
    cases (machine.requestObjects object).inner with
    | created | requested | ready | transitioned => exact .inr rfl
    | passive | done | cancelled => exact .inl rfl

theorem cancelVerification (code : CancelCode) :
    Cancels machine (machine.cancelVerification verification code).2 := by
  cases verification with
  | sas object =>
    refine (Cancels.cancelHandle _ code).trans (.setSas ?_)
    have hsame : (machine.cancelHandle (machine.sasObjects object).request code).sasObjects =
        machine.sasObjects := by
      cases (machine.sasObjects object).request with
      | none => rfl
      | some request => rfl
    rw [hsame]
    obtain ⟨state, startedFromRequest⟩ := (machine.sasObjects object).inner
    cases state with
    | done | cancelled => exact .inl rfl
    | _ => exact .inr rfl
  | qr object =>
    refine (Cancels.cancelHandle _ code).trans (.setQr ?_)
    cases (machine.qrObjects object).state with
    | created | scanned | confirmed | reciprocated | done | cancelled => rfl

theorem cancelRequest (code : CancelCode) :
    Cancels machine (machine.cancelRequest object code).2 := by
  have hrequest : Cancels machine (machine.setRequest object
      ((machine.requestObjects object).inner.cancelWithCode code).1) := by
    refine .setRequest ?_
    cases (machine.requestObjects object).inner with
    | created | requested | ready | transitioned => exact .inr rfl
    | passive | done | cancelled => exact .inl rfl
  unfold VerificationMachine.cancelRequest
  simp only
  split
  · exact hrequest
  · exact hrequest.trans (.cancelVerification code)

end Cancels

variable {machine : VerificationMachine} {code : CancelCode}

/-- Cancelling a verification that is not done leaves it cancelled. -/
theorem isCancelled_cancelVerification (h : machine.isDone verification = false) :
    (machine.cancelVerification verification code).2.isCancelled verification = true := by
  cases verification with
  | sas object =>
    simp only [cancelVerification, isCancelled, setSas, update_self]
    simp [isDone] at h
    generalize (machine.sasObjects object).inner = sas at h ⊢
    obtain ⟨state, startedFromRequest⟩ := sas
    cases state with
    | done => cases h
    | _ => rfl
  | qr object =>
    simp only [cancelVerification, isCancelled, setQr, update_self]
    cases (machine.qrObjects object).state with
    | created | scanned | confirmed | reciprocated | done | cancelled => rfl

/-- The request is going on, and not on another device of ours. -/
def InProgress : InnerRequest → Prop
  | .created _ | .requested .. | .ready _ | .transitioned .. => True
  | .passive _ | .done | .cancelled _ => False

theorem isCancelled_cancelRequest (h : InProgress (machine.requestObjects object).inner ∨
      (machine.requestObjects object).inner.isCancelled = true) :
    ((machine.cancelRequest object code).2.requestObjects object).inner.isCancelled = true := by
  have hset : ((machine.setRequest object
      ((machine.requestObjects object).inner.cancelWithCode code).1).requestObjects
        object).inner.isCancelled = true := by
    simp only [setRequest, update_self]
    cases hinner : (machine.requestObjects object).inner with
    | created | requested | cancelled => rfl
    | ready | transitioned => rfl
    | passive | done =>
      rw [hinner] at h
      rcases h with h | h
      · exact h.elim
      · cases h
  unfold cancelRequest
  simp only
  split
  · exact hset
  · exact (Cancels.cancelVerification code).isCancelled_request hset

section Loops

variable {machine : VerificationMachine}

theorem Cancels.cancelBoth (new old : Verification) :
    Cancels machine (machine.cancelBoth new old) := by
  unfold VerificationMachine.cancelBoth
  split
  · exact .refl machine
  · exact (((Cancels.cancelVerification .user).trans (.addRequest _ _ _)).trans
      (.cancelVerification .user)).trans (.addRequest _ _ _)

theorem Cancels.cancelBothRequests (new old : ℕ) (machine : VerificationMachine) :
    Cancels machine (machine.cancelBothRequests new old) := by
  unfold VerificationMachine.cancelBothRequests
  split
  · exact .refl machine
  · exact (((Cancels.cancelRequest .user).trans (.addRequest _ _ _)).trans
      (.cancelRequest .user)).trans (.addRequest _ _ _)

theorem isDone_of_isCancelled (h : machine.isCancelled verification = true) :
    machine.isDone verification = false := by
  cases verification with
  | sas object =>
    simp [isCancelled, isDone] at h ⊢
    generalize (machine.sasObjects object).inner = sas at h ⊢
    obtain ⟨state, startedFromRequest⟩ := sas
    cases state with
    | done => cases h
    | _ => rfl
  | qr object =>
    simp [isCancelled, isDone] at h ⊢
    generalize (machine.qrObjects object).state = state at h ⊢
    cases state with
    | done => cases h
    | _ => rfl

variable {machine' : VerificationMachine} {σ α : Type} {f : σ → α → σ} {s : σ} {xs : List α}

theorem Cancels.isDone (h : Cancels machine machine')
    (hdone : machine.isDone verification = false) : machine'.isDone verification = false := by
  rcases h.verification verification with ⟨hsame, -⟩ | hcancelled
  · rw [hsame]
    exact hdone
  · exact isDone_of_isCancelled hcancelled

theorem Cancels.inProgress (h : Cancels machine machine')
    (hnew : InProgress (machine.requestObjects object).inner) :
    InProgress (machine'.requestObjects object).inner ∨
      (machine'.requestObjects object).inner.isCancelled = true := by
  rcases h.request object with hsame | hcancelled
  · left
    rw [hsame]
    exact hnew
  · exact .inr hcancelled

/-- A loop that hits at an element, and keeps what was hit so. -/
theorem hit_foldl_of_mem (inv hit : σ → Prop) (hinv : ∀ s x, inv s → inv (f s x)) {x : α}
    (hhit : ∀ s, inv s → hit (f s x)) (hkeep : ∀ s x, hit s → hit (f s x)) (hs : inv s)
    (hx : x ∈ xs) : hit (xs.foldl f s) := by
  obtain ⟨before, after, rfl⟩ := append_of_mem hx
  rw [foldl_append, foldl_cons]
  have hbefore : inv (before.foldl f s) := foldlRecOn before f hs fun s hs x _ => hinv s x hs
  exact foldlRecOn after f (hhit _ hbefore) fun s hs x _ => hkeep s x hs

/-- The same, if the loop passes over the elements where it does not hit. -/
theorem hit_foldl (hit : σ → Prop) (hstep : ∀ x, f s x = s ∨ hit (f s x))
    (hkeep : ∀ s x, hit s → hit (f s x)) {x : α} (hhit : hit (f s x)) (hx : x ∈ xs) :
    hit (xs.foldl f s) := by
  refine hit_foldl_of_mem (fun t => t = s ∨ hit t) hit ?_ ?_ hkeep (.inl rfl) hx
  · rintro t y (rfl | ht)
    · exact hstep y
    · exact .inr (hkeep t y ht)
  · rintro t (rfl | ht)
    · exact hhit
    · exact hkeep t x ht

theorem foldl_of_skips (hskip : ∀ x ∈ xs, f s x = s) : xs.foldl f s = s := by
  induction xs with
  | nil => rfl
  | cons x xs ih =>
    rw [foldl_cons, hskip x (by simp)]
    exact ih fun y hy => hskip y (by simp [hy])

theorem cancelBoth_of_isCancelled {new old : Verification}
    (h : machine.isCancelled old = true) : machine.cancelBoth new old = machine := by
  unfold cancelBoth
  rw [if_pos h]

theorem cancelBothRequests_of_isCancelled {new old : ℕ}
    (h : (machine.requestObjects old).inner.isCancelled = true) :
    machine.cancelBothRequests new old = machine := by
  unfold cancelBothRequests
  rw [if_pos h]

/-- The new request is cancelled unless the earlier one is passed over. -/
theorem new_isCancelled_cancelBothRequests {new old : ℕ}
    (hnew : InProgress (machine.requestObjects new).inner)
    (h : (machine.requestObjects old).inner.isCancelled = false) :
    ((machine.cancelBothRequests new old).requestObjects new).inner.isCancelled = true := by
  unfold cancelBothRequests
  rw [if_neg (by simp [h])]
  refine (Cancels.addRequest _ _ _).isCancelled_request (isCancelled_cancelRequest ?_)
  exact ((Cancels.cancelRequest .user).trans (.addRequest _ _ _)).inProgress hnew

theorem new_isCancelled_cancelBoth {new old : Verification} (hnew : machine.isDone new = false)
    (h : machine.isCancelled old = false) :
    (machine.cancelBoth new old).isCancelled new = true := by
  unfold cancelBoth
  rw [if_neg (by simp [h])]
  refine (Cancels.addRequest _ _ _).isCancelled_verification (isCancelled_cancelVerification ?_)
  exact ((Cancels.cancelVerification .user).trans (.addRequest _ _ _)).isDone hnew

theorem isCancelled_cancelBothRequests {new old : ℕ}
    (h : InProgress (machine.requestObjects old).inner ∨
      (machine.requestObjects old).inner.isCancelled = true) :
    ((machine.cancelBothRequests new old).requestObjects old).inner.isCancelled = true := by
  unfold cancelBothRequests
  split
  · next hcancelled => exact hcancelled
  · exact (((Cancels.addRequest _ _ _).trans (.cancelRequest .user)).trans
      (.addRequest _ _ _)).isCancelled_request (isCancelled_cancelRequest h)

theorem isCancelled_cancelBoth {new old : Verification} (h : machine.isDone old = false) :
    (machine.cancelBoth new old).isCancelled old = true := by
  unfold cancelBoth
  split
  · next hcancelled => exact hcancelled
  · exact (((Cancels.addRequest _ _ _).trans (.cancelVerification .user)).trans
      (.addRequest _ _ _)).isCancelled_verification (isCancelled_cancelVerification h)

end Loops

/-- Every earlier request and verification with the user is done or cancelled. -/
def Finished (machine : VerificationMachine) (user : String) : Prop :=
  (∀ entry ∈ values (machine.requests user),
    (machine.requestObjects entry.1).inner.isTerminal = true) ∧
  ∀ verification ∈ values (machine.verifications user),
    machine.isDone verification = true ∨ machine.isCancelled verification = true

instance (machine : VerificationMachine) (user : String) : Decidable (Finished machine user) :=
  inferInstanceAs (Decidable (_ ∧ _))

/-- No message was made, and what was done with the user is still done. -/
def Undisturbed (machine : VerificationMachine) (user : String)
    (machine' : VerificationMachine) : Prop :=
  machine'.outgoing = machine.outgoing ∧
  (∀ entry ∈ values (machine.requests user),
    (machine.requestObjects entry.1).inner.isDone = true →
      (machine'.requestObjects entry.1).inner.isDone = true) ∧
  ∀ verification ∈ values (machine.verifications user),
    machine.isDone verification = true → machine'.isDone verification = true

section Insertions

variable {machine : VerificationMachine} (incomingToDevice : Bool)

theorem isCancelled_of_isTerminal {inner : InnerRequest} (h : inner.isTerminal = true)
    (hdone : inner.isDone = false) : inner.isCancelled = true := by
  cases inner with
  | done => cases hdone
  | cancelled => rfl
  | _ => cases h

/-- A new request is cancelled when an earlier one is not. -/
theorem isCancelled_insertRequestWithDelivery {new : ℕ}
    (hnew : InProgress (machine.requestObjects new).inner)
    (hlookup : (machine.requests (machine.requestObjects new).otherUser).lookup
      (machine.requestObjects new).flowId.asStr = none)
    (hold : ∃ entry ∈ values (machine.requests (machine.requestObjects new).otherUser),
      (machine.requestObjects entry.1).inner.isCancelled = false) :
    ((machine.insertRequestWithDelivery new incomingToDevice).2.requestObjects
      new).inner.isCancelled = true := by
  unfold insertRequestWithDelivery
  simp only [hlookup]
  obtain ⟨entry, hmem, hentry⟩ := hold
  refine hit_foldl (fun machine => (machine.requestObjects new).inner.isCancelled = true)
    (fun old => ?_)
    (fun machine old h => (Cancels.cancelBothRequests new old machine).isCancelled_request h)
    (new_isCancelled_cancelBothRequests hnew hentry) (mem_map_of_mem hmem)
  cases h : (machine.requestObjects old).inner.isCancelled with
  | true => exact .inl (cancelBothRequests_of_isCancelled h)
  | false => exact .inr (new_isCancelled_cancelBothRequests hnew h)

theorem old_isCancelled_insertRequestWithDelivery {new : ℕ} {entry : ℕ × Bool}
    (hlookup : (machine.requests (machine.requestObjects new).otherUser).lookup
      (machine.requestObjects new).flowId.asStr = none)
    (hmem : entry ∈ values (machine.requests (machine.requestObjects new).otherUser))
    (hentry : InProgress (machine.requestObjects entry.1).inner) :
    ((machine.insertRequestWithDelivery new incomingToDevice).2.requestObjects
      entry.1).inner.isCancelled = true := by
  unfold insertRequestWithDelivery
  simp only [hlookup]
  exact hit_foldl_of_mem (Cancels machine)
    (fun machine => (machine.requestObjects entry.1).inner.isCancelled = true)
    (fun machine' old h => h.trans (.cancelBothRequests new old machine'))
    (fun _ h => isCancelled_cancelBothRequests (h.inProgress hentry))
    (fun machine' old h => (Cancels.cancelBothRequests new old machine').isCancelled_request h)
    (.refl machine) (mem_map_of_mem hmem)

theorem old_isCancelled_insertVerification {new old : Verification}
    (hmem : old ∈ values (machine.verifications (machine.otherUser new)))
    (hold : machine.isDone old = false) :
    (machine.insertVerification new).isCancelled old = true := by
  have hloop : ((values (machine.verifications (machine.otherUser new))).foldl
      (cancelBoth · new) machine).isCancelled old = true :=
    hit_foldl_of_mem (Cancels machine) (fun machine => machine.isCancelled old = true)
      (fun _ other h => h.trans (.cancelBoth new other))
      (fun _ h => isCancelled_cancelBoth (h.isDone hold))
      (fun _ other h => (Cancels.cancelBoth new other).isCancelled_verification h)
      (.refl machine) hmem
  exact (states_congr rfl rfl old).2.trans hloop

/-- A new verification is cancelled when an earlier one is not. -/
theorem isCancelled_insertVerification {new : Verification} (hnew : machine.isDone new = false)
    (hold : ∃ old ∈ values (machine.verifications (machine.otherUser new)),
      machine.isCancelled old = false) :
    (machine.insertVerification new).isCancelled new = true := by
  obtain ⟨old, hmem, hold⟩ := hold
  refine (states_congr rfl rfl new).2.trans (hit_foldl (isCancelled · new = true)
    (fun other => ?_) (fun _ other h => (Cancels.cancelBoth new other).isCancelled_verification h)
    (new_isCancelled_cancelBoth hnew hold) hmem)
  cases h : machine.isCancelled other with
  | true => exact .inl (cancelBoth_of_isCancelled h)
  | false => exact .inr (new_isCancelled_cancelBoth hnew h)

end Insertions

/-- A new request, or a new verification, that is put in when all earlier ones with the user are
over is left alone, and so are these, just when none of the earlier requests, or
verifications, is done. It is cancelled together with an earlier one that is going on. -/
theorem insertion_undisturbed_iff (machine : VerificationMachine) :
    (∀ new incomingToDevice, InProgress (machine.requestObjects new).inner →
      (machine.requests (machine.requestObjects new).otherUser).lookup
        (machine.requestObjects new).flowId.asStr = none →
      ((Finished machine (machine.requestObjects new).otherUser →
        ((machine.insertRequestWithDelivery new incomingToDevice).2.requestObjects
          new).inner.isCancelled = false ∧
        Undisturbed machine (machine.requestObjects new).otherUser
          (machine.insertRequestWithDelivery new incomingToDevice).2) ↔
      (Finished machine (machine.requestObjects new).otherUser →
        ∀ entry ∈ values (machine.requests (machine.requestObjects new).otherUser),
          (machine.requestObjects entry.1).inner.isDone = false)) ∧
      ∀ entry ∈ values (machine.requests (machine.requestObjects new).otherUser),
        InProgress (machine.requestObjects entry.1).inner → ∀ object ∈ [new, entry.1],
          ((machine.insertRequestWithDelivery new incomingToDevice).2.requestObjects
            object).inner.isCancelled = true) ∧
    (∀ new, machine.isDone new = false → machine.isCancelled new = false →
      ((Finished machine (machine.otherUser new) →
        (machine.insertVerification new).isCancelled new = false ∧
        Undisturbed machine (machine.otherUser new) (machine.insertVerification new)) ↔
      (Finished machine (machine.otherUser new) →
        ∀ verification ∈ values (machine.verifications (machine.otherUser new)),
          machine.isDone verification = false)) ∧
      ∀ old ∈ values (machine.verifications (machine.otherUser new)),
        machine.isDone old = false → machine.isCancelled old = false →
          ∀ verification ∈ [new, old],
            (machine.insertVerification new).isCancelled verification = true) := by
  constructor
  · intro new incomingToDevice hnew hlookup
    refine ⟨⟨?_, ?_⟩, fun entry hmem hentry => forall_mem_cons.mpr ⟨?_, forall_mem_singleton.mpr
      (old_isCancelled_insertRequestWithDelivery incomingToDevice hlookup hmem hentry)⟩⟩
    · -- an earlier request that is done counts as one that is going on
      intro h hfinished entry hmem
      obtain ⟨hkept, -⟩ := h hfinished
      by_contra hdone
      have hcancelled := isCancelled_insertRequestWithDelivery incomingToDevice hnew hlookup
        ⟨entry, hmem, by cases hinner : (machine.requestObjects entry.1).inner <;>
          simp_all [InnerRequest.isDone, InnerRequest.isCancelled]⟩
      rw [hkept] at hcancelled
      cases hcancelled
    · intro h hfinished
      -- the earlier requests are all cancelled, and the loop passes over them
      obtain ⟨requests, hinsert⟩ : ∃ requests,
          (machine.insertRequestWithDelivery new incomingToDevice).2 =
            { machine with requests := requests } := by
        unfold insertRequestWithDelivery
        simp only [hlookup]
        rw [foldl_of_skips]
        · exact ⟨_, rfl⟩
        · intro old hold
          obtain ⟨entry, hmem, rfl⟩ := mem_map.mp hold
          exact cancelBothRequests_of_isCancelled (isCancelled_of_isTerminal
            (hfinished.1 entry hmem) (h hfinished entry hmem))
      rw [hinsert]
      refine ⟨?_, rfl, fun _ _ hdone => hdone, ?_⟩
      · cases hinner : (machine.requestObjects new).inner <;>
          simp_all [InProgress, InnerRequest.isCancelled]
      exact fun verification _ hdone => (states_congr rfl rfl verification).1.trans hdone
    · refine isCancelled_insertRequestWithDelivery incomingToDevice hnew hlookup ⟨entry, hmem, ?_⟩
      cases hinner : (machine.requestObjects entry.1).inner <;>
        simp_all [InProgress, InnerRequest.isCancelled]
  · intro new hdone hcancelled
    refine ⟨⟨?_, ?_⟩, fun old hmem hold hgoing => forall_mem_cons.mpr
      ⟨isCancelled_insertVerification hdone ⟨old, hmem, hgoing⟩,
        forall_mem_singleton.mpr (old_isCancelled_insertVerification hmem hold)⟩⟩
    · intro h hfinished old hmem
      obtain ⟨hkept, -⟩ := h hfinished
      by_contra hold
      have hnow := isCancelled_insertVerification hdone ⟨old, hmem, by
        by_contra hcancelled
        exact hold (isDone_of_isCancelled (by simpa using hcancelled))⟩
      rw [hkept] at hnow
      cases hnow
    · intro h hfinished
      obtain ⟨verifications, hinsert⟩ : ∃ verifications, machine.insertVerification new =
          { machine with verifications := verifications } := by
        unfold insertVerification
        simp only
        rw [foldl_of_skips]
        · exact ⟨_, rfl⟩
        · intro old hmem
          rcases hfinished.2 old hmem with hold | hold
          · rw [h hfinished old hmem] at hold
            cases hold
          · exact cancelBoth_of_isCancelled hold
      rw [hinsert]
      exact ⟨(states_congr rfl rfl new).2.trans hcancelled, rfl, fun _ _ hdone => hdone,
        fun verification _ hdone => (states_congr rfl rfl verification).1.trans hdone⟩

/-- A user whose last verification ended with a request and a QR code verification in the given
states, and who is asked for a new one. -/
def secondTime (request : InnerRequest) (qr : QrState) : VerificationMachine where
  requestObjects object :=
    ⟨"@alice:example.org", .toDevice (if object = 0 then "first" else "second"),
      if object = 0 then request else .created [.sasV1]⟩
  sasObjects _ := ⟨"@alice:example.org", .toDevice "second", ⟨.created, false⟩, none⟩
  qrObjects _ := ⟨"@alice:example.org", .toDevice "first", qr, none⟩
  requests user := if user = "@alice:example.org" then AList.singleton "first" (0, true) else ∅
  verifications user :=
    if user = "@alice:example.org" then AList.singleton "first" (.qr 0) else ∅
  outgoing := []

theorem cancelled_verification_is_passed_over :
    (((secondTime (.cancelled ⟨true, .user⟩) .done).insertRequestWithDelivery 1
      false).2.requestObjects 1).inner.isCancelled = false ∧
    ((secondTime .done (.cancelled ⟨true, .user⟩)).insertVerification
      (.sas 0)).isCancelled (.sas 0) = false := by
  constructor
  · have hiff := (insertion_undisturbed_iff (secondTime (.cancelled ⟨true, .user⟩) .done)).1 1
      false (show True from trivial) (by decide)
    exact (hiff.1.mpr (fun _ => by decide) (by decide)).1
  · have hiff := (insertion_undisturbed_iff (secondTime .done (.cancelled ⟨true, .user⟩))).2
      (.sas 0) (by decide) (by decide)
    exact (hiff.1.mpr (fun _ => by decide) (by decide)).1

/-- A request that is done makes the new request cancelled, and a QR code verification that is
done is cancelled together with the new verification; both send notices. -/
theorem done_verification_cancels_new :
    Finished (secondTime .done .done) "@alice:example.org" ∧
    (((secondTime .done .done).insertRequestWithDelivery 1 false).2.requestObjects
      1).inner = .cancelled ⟨true, .user⟩ ∧
    ((secondTime .done .done).insertRequestWithDelivery 1 false).2.outgoing =
      [(.toDevice "second", .cancel ⟨true, .user⟩)] ∧
    ((secondTime .done .done).insertVerification (.sas 0)).isCancelled (.sas 0) = true ∧
    ((secondTime .done .done).insertVerification (.sas 0)).isDone (.qr 0) = false ∧
    ((secondTime .done .done).insertVerification (.sas 0)).outgoing =
      [(.toDevice "first", .cancel ⟨true, .user⟩),
        (.toDevice "second", .cancel ⟨true, .user⟩)] := by
  decide

end MatrixSdk.VerificationCaches

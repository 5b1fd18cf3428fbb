import Mathlib.Data.List.Nodup

/-!
The Olm sessions that are created from the response to a key claim, and the dummy messages for
the devices that were wedged. A dummy message is encrypted before the new session is stored, so
that it never takes it.
-/
namespace MatrixSdk.Unwedging

open List

structure Device where
  userId : String
  deviceId : String
deriving DecidableEq

structure Session where
  sessionId : String
  creationTime : ℕ
deriving DecidableEq

/-- The last session once they are sorted by their creation time. -/
def getMostRecentSession (sessions : List Session) : Option Session :=
  sessions.foldl (fun recent session =>
    if recent.all (·.creationTime ≤ session.creationTime) then some session else recent) none

/-- The store knows the keys of devices and the sessions of a key. A dummy message that waits to
be sent stands for the session that it is encrypted with. -/
structure SessionManager where
  senderKey : Device → Option String
  sessions : String → List Session
  wedgedDevices : List Device
  outgoing : List (Device × Session)

/-- The manager in the loop over the response, and the sessions that are to be saved. -/
abbrev State := SessionManager × List (String × Session)

namespace SessionManager

variable (manager : SessionManager)

/-- That there is no session to encrypt with is only logged. -/
def checkIfUnwedged (device : Device) : SessionManager :=
  if device ∈ manager.wedgedDevices then
    { manager with
      wedgedDevices := manager.wedgedDevices.filter (· ≠ device)
      outgoing := manager.outgoing ++ ((manager.senderKey device).bind fun key =>
        getMostRecentSession (manager.sessions key)).toList.map (device, ·) }
  else manager

/-- One device of the response, with a session if its one-time key is valid. -/
def createSession (state : State) (entry : Device × Option Session) : State :=
  match state.1.senderKey entry.1, entry.2 with
  | some key, some session => (state.1.checkIfUnwedged entry.1, state.2 ++ [(key, session)])
  | _, _ => state

def createSessions (response : List (Device × Option Session)) : SessionManager :=
  let state := response.foldl createSession (manager, [])
  { state.1 with sessions := fun key => state.1.sessions key ++
      (state.2.filter (·.1 = key)).map Prod.snd }

def dummies (device : Device) : List Session :=
  (manager.outgoing.filter (·.1 = device)).map Prod.snd

end SessionManager

open SessionManager

/-- The loop leaves the store alone. -/
structure Extends (state state' : State) : Prop where
  senderKey : state'.1.senderKey = state.1.senderKey
  sessions : state'.1.sessions = state.1.sessions
  changes : state.2 ⊆ state'.2

/-- Nothing happens to the device. -/
structure Passes (device : Device) (manager manager' : SessionManager) : Prop where
  wedged : device ∈ manager'.wedgedDevices ↔ device ∈ manager.wedgedDevices
  dummies : manager'.dummies device = manager.dummies device

variable {manager : SessionManager} {device : Device} {key : String}

theorem extends_foldl (response : List (Device × Option Session)) (state : State) :
    Extends state (response.foldl createSession state) := by
  induction response generalizing state with
  | nil => exact ⟨rfl, rfl, Subset.refl _⟩
  | cons entry response ih =>
    have hstep : Extends state (createSession state entry) := by
      unfold createSession checkIfUnwedged
      split
      · split <;> exact ⟨rfl, rfl, subset_append_left _ _⟩
      · exact ⟨rfl, rfl, Subset.refl _⟩
    obtain ⟨hkeys, hsessions, hchanges⟩ := ih (createSession state entry)
    exact ⟨hkeys.trans hstep.1, hsessions.trans hstep.2, List.Subset.trans hstep.3 hchanges⟩

theorem passes_foldl {response : List (Device × Option Session)}
    (h : device ∉ response.map Prod.fst) (state : State) :
    Passes device state.1 (response.foldl createSession state).1 := by
  induction response generalizing state with
  | nil => exact ⟨.rfl, rfl⟩
  | cons entry response ih =>
    rw [map_cons, mem_cons, not_or] at h
    have hstep : Passes device state.1 (createSession state entry).1 := by
      unfold createSession checkIfUnwedged
      split
      · split
        · constructor <;> simp [dummies, h.1, filter_map, Function.comp_def, Ne.symm h.1]
        · exact ⟨.rfl, rfl⟩
      · exact ⟨.rfl, rfl⟩
    obtain ⟨hwedged, hdummies⟩ := ih h.2 (createSession state entry)
    exact ⟨hwedged.trans hstep.1, hdummies.trans hstep.2⟩

theorem mem_of_getMostRecentSession {sessions : List Session} {session : Session}
    (h : getMostRecentSession sessions = some session) : session ∈ sessions := by
  revert session
  refine foldlRecOn
    (motive := fun recent => ∀ {session}, recent = some session → session ∈ sessions)
    sessions _ (by simp) fun recent hrecent next hnext found hfound => ?_
  split at hfound
  · exact Option.some.inj hfound ▸ hnext
  · exact hrecent hfound

theorem checkIfUnwedged_self (hkey : manager.senderKey device = some key) :
    device ∉ (manager.checkIfUnwedged device).wedgedDevices ∧
      (manager.checkIfUnwedged device).dummies device = manager.dummies device ++
        if device ∈ manager.wedgedDevices then
          (getMostRecentSession (manager.sessions key)).toList else [] := by
  unfold checkIfUnwedged
  split
  · simp [dummies, hkey, filter_map, Function.comp_def]
  · next hnot => simp [hnot]

/-- A device that gets a session is no longer wedged, and the session is stored. If it was
wedged, its dummy message takes the most recent of the sessions before, if there is one. -/
theorem dummy_takes_older_session {response : List (Device × Option Session)} {session : Session}
    (hdistinct : (response.map Prod.fst).Nodup) (hmem : (device, some session) ∈ response)
    (hkey : manager.senderKey device = some key) :
    device ∉ (manager.createSessions response).wedgedDevices ∧
      session ∈ (manager.createSessions response).sessions key ∧
      (manager.createSessions response).dummies device = manager.dummies device ++
        if device ∈ manager.wedgedDevices then
          (getMostRecentSession (manager.sessions key)).toList else [] := by
  obtain ⟨before, after, rfl⟩ := append_of_mem hmem
  rw [map_append, map_cons, nodup_middle, nodup_cons, mem_append, not_or] at hdistinct
  obtain ⟨⟨hbefore, hafter⟩, -⟩ := hdistinct
  obtain ⟨hkeys, hsessions, -⟩ := extends_foldl before (manager, [])
  obtain ⟨hwedged, hdummies⟩ := passes_foldl hbefore (manager, [])
  unfold createSessions
  rw [foldl_append, foldl_cons]
  generalize before.foldl createSession (manager, []) = state at *
  have hself := checkIfUnwedged_self ((congrFun hkeys device).trans hkey)
  have hstep : createSession state (device, some session) =
      (state.1.checkIfUnwedged device, state.2 ++ [(key, session)]) := by
    simp [createSession, hkeys, hkey]
  obtain ⟨-, -, hchanges⟩ := extends_foldl after (createSession state (device, some session))
  obtain ⟨hwedged', hdummies'⟩ := passes_foldl hafter (createSession state (device, some session))
  refine ⟨fun h => ?_, mem_append_right _ ?_, hdummies'.trans ?_⟩
  · rw [hstep] at hwedged' h
    exact hself.1 (hwedged'.mp h)
  · refine mem_map.mpr ⟨(key, session), mem_filter.mpr ⟨hchanges ?_, by simp⟩, rfl⟩
    simp [hstep]
  · rw [hstep, hself.2, hdummies, hsessions]
    simp [hwedged]

/-- A device that was wedged and gets a session: it is no longer wedged, the session is stored, and
the one dummy message takes it. -/
def Unwedges (manager : SessionManager) (response : List (Device × Option Session)) : Prop :=
  ∀ device session key, (device, some session) ∈ response → manager.senderKey device = some key →
    device ∈ manager.wedgedDevices →
      device ∉ (manager.createSessions response).wedgedDevices ∧
      session ∈ (manager.createSessions response).sessions key ∧
      (manager.createSessions response).dummies device = manager.dummies device ++ [session]

/-- No dummy message takes a new session. -/
theorem unwedges_iff {response : List (Device × Option Session)}
    (hdistinct : (response.map Prod.fst).Nodup)
    (hnew : ∀ device session key, (device, some session) ∈ response →
      manager.senderKey device = some key → session ∉ manager.sessions key) :
    Unwedges manager response ↔ ∀ device session key, (device, some session) ∈ response →
      manager.senderKey device = some key → device ∉ manager.wedgedDevices := by
  constructor
  · intro h device session key hmem hkey hwedged
    obtain ⟨-, -, hdummy⟩ := h device session key hmem hkey hwedged
    rw [(dummy_takes_older_session hdistinct hmem hkey).2.2, if_pos hwedged,
      append_cancel_left_eq] at hdummy
    cases hrecent : getMostRecentSession (manager.sessions key) with
    | none => simp [hrecent] at hdummy
    | some recent =>
      obtain rfl : recent = session := by simpa [hrecent] using hdummy
      exact hnew device recent key hmem hkey (mem_of_getMostRecentSession hrecent)
  · intro h device session key hmem hkey hwedged
    exact absurd hwedged (h device session key hmem hkey)

def phone : Device := ⟨"@a", "PHONE"⟩

def wedgedPhone (sessions : List Session) : SessionManager :=
  ⟨fun device => if device = phone then some "key" else none, fun _ => sessions, [phone], []⟩

theorem phone_misses_new_session :
    ¬Unwedges (wedgedPhone [⟨"old", 1⟩]) [(phone, some ⟨"new", 2⟩), (⟨"@a", "TABLET"⟩, none)] :=
  fun h => (unwedges_iff (by decide) (by simp +contextual [wedgedPhone])).mp h phone ⟨"new", 2⟩
    "key" mem_cons_self rfl mem_cons_self

/-- The dummy message is not encrypted with the new session, and without an older one there is
none. -/
theorem new_session_is_not_taken :
    ((wedgedPhone [⟨"old", 1⟩]).createSessions [(phone, some ⟨"new", 2⟩)]).dummies phone =
        [⟨"old", 1⟩] ∧
      ((wedgedPhone []).createSessions [(phone, some ⟨"new", 2⟩)]).dummies phone = [] := by
  decide

end MatrixSdk.Unwedging
